import Dockv6.Fs.Path
import Dockv6.Kernel.Proc

/-!
# Containers

`cm_create_and_enter`, `cm_maxproc` and `cm_setroot` of `proc.c`. `cm_create_and_enter` is cut where
other processes may run: it claims a container (`cmClaim`), makes it the caller's and sets its root
(`cmEnter`), moves the caller into it and sets the limit (`cmMove`), forks, and moves the caller out
(`cmLeave`).
-/

namespace Dockv6

open Kernel

/-- `namei` from a null inode: its count is the word at address `8`. -/
def nullNamei (s : Kernel) (d : Pgdir) (path : Bytes) : Res (Option Slot × Kernel) := do
  let mem ← uincWord d s.km.mem 8
  let w ← uword d mem 8
  let s := s.setMem mem
  if pathElems path.length path = [] ∨ w = 0 ∨ 2 ^ 31 ≤ w then return (none, s)
  else throw (.panic "ilock")

/-- The fields of the process that `namex` reads; a null `cwd` is dealt with in `nameiProc`. -/
def Kernel.pathCtx (s : Kernel) (p : PIdx) : PathCtx :=
  { container_id := (s.proc p).container_id
    root := (s.proc p).container.bind fun c => (s.containers c).root
    cwd := ((s.proc p).cwd).getD 0 }

/-- Is the inode at which the lookup of the process starts null? -/
def Kernel.startsNull (s : Kernel) (p : PIdx) (path : Bytes) : Bool :=
  if deref (containerPath (s.pathCtx p) path) = slash then
    decide (0 < (s.proc p).container_id) && (s.pathCtx p).root.isNone
  else (s.proc p).cwd.isNone

/-- `namei`, called by the process `p`. -/
def nameiProc (s : Kernel) (p : PIdx) (d : Pgdir) (path : Bytes) : Res (Option Slot × Kernel) :=
  if s.startsNull p path then nullNamei s d (containerPath (s.pathCtx p) path)
  else do
    let (r, fs) ← namex (s.pathCtx p) s.fs path false
    return (r.map Prod.fst, { s with fs := fs })

/-- Is this the path that `namex` overwrites with `.`? -/
def Kernel.rewrites (s : Kernel) (p : PIdx) (path : Bytes) : Prop :=
  0 < (s.proc p).container_id ∧ strncmp path [46, 46] 3 = 0

instance (s : Kernel) (p : PIdx) (path : Bytes) : Decidable (s.rewrites p path) :=
  inferInstanceAs (Decidable (_ ∧ _))

/-- The path at the user address `va` as `namex` goes on with it: in a container `..` is overwritten
with `.` where it lies. The calls that take a path by its value leave this write to the process. -/
def Kernel.fetchPath (s : Kernel) (p : PIdx) (d : Pgdir) (va : ℕ) : Res (Bytes × Kernel) := do
  let path ← ustring d s.km.mem KERNBASE va
  if s.rewrites p path then
    let mem ← ustore d s.km.mem va [46, 0]
    return (containerPath (s.pathCtx p) path, s.setMem mem)
  else return (path, s)

/-- The first container slot that was never claimed. -/
def Kernel.freeContainer (s : Kernel) : Option CIdx :=
  (List.finRange MAX_NUM_CONTAINERS).find? fun c => (s.containers c).container_id == UINT_MAX

/-- The first part of `cm_create_and_enter`: the caller takes the name `cm` over the first two bytes
of its own, and a container is claimed for it. -/
def cmClaim (s : Kernel) (p : PIdx) (d : Pgdir) (init : Bytes) : Res (Option CIdx × Kernel) :=
  let s := s.setProc p { s.proc p with name := strncpy (s.proc p).name [99, 109] 2 }
  match s.freeContainer with
  | none => .ok (none, s)
  | some c => do
    let s := { s.setContainer c { s.containers c with container_id := s.nextcid } with
      nextcid := s.nextcid + 1 }
    let mem ← ustore d s.km.mem 0 (strncpyBytes init (strlen init))
    return (some c, s.setMem mem)

/-- Set the root of the container to the inode of the path. -/
def cmSetroot (s : Kernel) (p : PIdx) (d : Pgdir) (path : Bytes) (len : Int)
    (c : CIdx) : Res Kernel :=
  if len ≤ 0 then .ok s
  else do
    let (root, s) ← nameiProc s p d path
    let s := s.setContainer c { s.containers c with root := root }
    let mem ← ustore d s.km.mem 0 (safestrcpyBytes path (strlen path))
    return s.setMem mem

/-- The container becomes the caller's, and its root the caller's working directory. -/
def cmEnter (s : Kernel) (p : PIdx) (d : Pgdir) (fs : Bytes) (c : CIdx) : Res Kernel := do
  let s := s.setProc p { s.proc p with container := some c }
  let s ← cmSetroot s p d fs (strlen fs) c
  let s ← idupPtr s d (s.containers c).root
  return s.setProc p { s.proc p with cwd := (s.containers c).root }

/-- Set the maximum number of processes that can be forked in the container, once. The limit of a
null container is read from the memory of the process, and does not matter. -/
def cmMaxproc (s : Kernel) (p : PIdx) (nproc : Int) : Int × Kernel :=
  if (NPROC : Int) ≤ nproc then (-1, s)
  else
    match (s.proc p).container with
    | none => (-1, s)
    | some c =>
      if (s.containers c).nproc ≠ UINT_MAX ∨ (s.proc p).container_id = 0 then (-1, s)
      else (1, s.setContainer c { s.containers c with nproc := touint nproc })

/-- The caller moves into the container, and the limit is set. -/
def cmMove (s : Kernel) (p : PIdx) (c : CIdx) (nproc : Int) : Kernel :=
  let s := s.setProc p { s.proc p with container_id := (s.containers c).container_id }
  (cmMaxproc s p nproc).2

/-- The caller moves out again. -/
def cmLeave (s : Kernel) (p : PIdx) : Kernel :=
  s.setProc p { s.proc p with container_id := 0 }

/-- Create a container with a first process in it. The child returns to user space from `fork`, so
that the caller is the parent here, whether or not the fork succeeded. `fs` is the path that
`cm_setroot` reads; see `cmCreateAt`. -/
def cmCreateAndEnter (s : Kernel) (p : PIdx) (init fs : Bytes) (nproc : Int) :
    Res (Int × Kernel) :=
  match (s.proc p).pgdir with
  | none => .error .undefined
  | some d => do
    let (c, s) ← cmClaim s p d init
    match c with
    | none => return (-1, s)
    | some c =>
      let s ← cmEnter s p d fs c
      let (_, s) ← fork (cmMove s p c nproc) p
      return (1, cmLeave s p)

/-- The same with the address of the path, which is read when `init` has been written to the address
`0`. -/
def cmCreateAt (s : Kernel) (p : PIdx) (init : Bytes) (fs : ℕ) (nproc : Int) : Res (Int × Kernel) :=
  match (s.proc p).pgdir with
  | none => .error .undefined
  | some d => do
    let (c, s) ← cmClaim s p d init
    match c with
    | none => return (-1, s)
    | some c =>
      let (path, s) ← s.fetchPath p d fs
      let s ← cmEnter s p d path c
      let (_, s) ← fork (cmMove s p c nproc) p
      return (1, cmLeave s p)

end Dockv6
