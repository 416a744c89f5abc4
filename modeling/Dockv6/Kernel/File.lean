import Dockv6.Kernel.Sys
import Dockv6.Kernel.Step

/-!
# Files

`file.c` and the part of `pipe.c` that opens and closes pipes, and `readi`, `writei` and `stati` of
`fs.c` on the contents of an inode. What a pipe or a device does with a request is given as a
`Transfer`. `fileclose` is written out again with the record of `Sys` (`fileclose_eq_ok`).
-/

namespace Dockv6

open Kernel

/-! ## Allocation -/

/-- Change an open file. -/
def Kernel.setFile (s : Kernel) (f : FIdx) (x : File) : Kernel :=
  { s with file := Function.update s.file f x }

/-- Allocate a file structure: the first one without references. -/
def filealloc (s : Kernel) : Option FIdx × Kernel :=
  match (List.finRange NFILE).find? (fun f => decide ((s.file f).ref = 0)) with
  | none => (none, s)
  | some f => (some f, s.setFile f { s.file f with ref := 1 })

/-- Allocate a file descriptor for the file: the first free one of the process. -/
def fdalloc (s : Kernel) (p : PIdx) (f : FIdx) : Option (Fin NOFILE) × Kernel :=
  match (List.finRange NOFILE).find? (fun fd => ((s.proc p).ofile fd).isNone) with
  | none => (none, s)
  | some fd =>
    let x := s.proc p
    (some fd, s.setProc p { x with ofile := Function.update x.ofile fd (some f) })

/-! ## Contents of an inode -/

/-- The entries that bytes stand for, at most `n` of them. -/
def decodeDirents : ℕ → Bytes → List Dirent
  | 0, _ => []
  | n + 1, bs =>
    if bs.length < 16 then []
    else ⟨(bs.getD 0 0).toNat + 256 * (bs.getD 1 0).toNat, (bs.drop 2).take DIRSIZ⟩ ::
      decodeDirents n (bs.drop 16)

/-- `ip->size` -/
def Node.size (n : Node) : ℕ := n.content.length

/-- The inode after its bytes have been written. The size of a directory is a multiple of that of an
entry. -/
def Node.setContent (data : Bytes) : Node → Node
  | .dir _ => .dir (decodeDirents data.length data)
  | .file _ => .file data
  | n => n

/-- Is it a device? -/
def Node.isDev : Node → Bool
  | .dev _ _ => true
  | _ => false

/-- `readi` of `n` bytes at `off`, for an inode that is not a device: the bytes, or nothing for
`-1`. -/
def readi (node : Node) (off n : ℕ) : Option Bytes :=
  if node.size < off ∨ 2 ^ 32 ≤ off + n then none else some ((node.content.drop off).take n)

/-- `writei` of the bytes at `off`, for an inode that is not a device. -/
def writei (node : Node) (off : ℕ) (bs : Bytes) : Option Node :=
  if node.size < off ∨ 2 ^ 32 ≤ off + bs.length ∨ MAXFILE * BSIZE < off + bs.length then none
  else some (node.setContent
    (node.content.take off ++ bs ++ node.content.drop (off + bs.length)))

/-- Writing frees no inode. -/
theorem writei_ne_free {node node' : Node} {off : ℕ} {bs : Bytes}
    (h : writei node off bs = some node') (hnode : node' = .free) : node = .free := by
  unfold writei at h
  split_ifs at h
  cases h
  cases node with
  | free => rfl
  | _ => cases hnode

/-- What a pipe or a device does with a request: it returns a number, having changed the contents of
memory and woken up processes. -/
structure Transfer where
  run : Kernel → Res (Int × Kernel)
  mem_only : ∀ s r s', run s = .ok (r, s') → ∃ mem l, s' = wakeups (s.setMem mem) l

/-- The bytes of the process from `va` on. -/
def uload (d : Pgdir) (mem : Mem) : ℕ → ℕ → Res Bytes
  | 0, _ => .ok []
  | n + 1, va =>
    match uread d mem va with
    | none => .error (.panic "trap")
    | some b => do
      let bs ← uload d mem n (va + 1)
      return b :: bs

/-- The bytes of the fields `type`, `dev`, `ino`, `nlink` and `size` of `struct stat`, with the
padding as it was: pairs of an offset and the bytes there. -/
def stati (fs : Fs) (ip : Slot) : List (ℕ × Bytes) :=
  let di := fs.dinode ip
  let type := match di.node with
    | .free => 0
    | .dir _ => 1
    | .file _ => 2
    | .dev _ _ => 3
  [(0, (wordBytes type).take 2), (4, wordBytes ROOTDEV), (8, wordBytes (fs.icache ip).inum),
    (12, (wordBytes (touint di.nlink)).take 2), (16, wordBytes di.node.size)]

/-- Write bytes to the process at offsets from `va`. -/
def ustoreFields (d : Pgdir) (va : ℕ) : List (ℕ × Bytes) → Mem → Res Mem
  | [], mem => .ok mem
  | (off, bs) :: l, mem => do
    let mem ← ustore d mem (va + off) bs
    ustoreFields d va l mem

/-! ## The functions of `file.c` and `pipe.c` -/

namespace Sys

/-- Close an end of a pipe; the page goes when both are closed, which is recorded. -/
def pipeclose (page : ℕ) (writable : Bool) : Sys Unit := do
  act fun s => Dockv6.pipeclose s page writable
  let pi ← look fun s => .ok (s.pipe page)
  if !pi.readopen && !pi.writeopen then fun c => .ok ((), { c with freed := page :: c.freed })
  else return ()

/-- Close a file: decrement its count, close it when it reaches `0`. -/
def fileclose (f : FIdx) : Sys Unit := do
  let x ← look fun s => .ok (s.file f)
  if x.ref < 1 then throw (.panic "fileclose")
  else if 1 < x.ref then change fun s => s.setFile f { x with ref := x.ref - 1 }
  else
    change fun s => s.setFile f { x with ref := 0, kind := .FD_NONE }
    match x.kind with
    | .FD_PIPE page => pipeclose page x.writable
    | .FD_INODE ip =>
      beginOp
      change fun s => { s with fs := iput s.fs ip }
      endOp
    | .FD_NONE => return ()

/-- The ends of the new pipe in `page`. -/
def setPipe (f0 f1 : FIdx) (page : ℕ) : Sys Unit := do
  change fun s =>
      { s with pipe := Function.update s.pipe page { readopen := true, writeopen := true } }
  change fun s => s.setFile f0
    { s.file f0 with kind := .FD_PIPE page, readable := true, writable := false }
  change fun s => s.setFile f1
    { s.file f1 with kind := .FD_PIPE page, readable := false, writable := true }
  fun c => .ok ((), { c with made := page :: c.made })

/-- A pipe and a file for each of its ends; nothing when there is no room. -/
def pipealloc : Sys (Option (FIdx × FIdx)) := do
  let f0 ← kernel fun s => .ok (filealloc s)
  match f0 with
  | none => return none
  | some f0 =>
    let f1 ← kernel fun s => .ok (filealloc s)
    match f1 with
    | none =>
      fileclose f0
      return none
    | some f1 =>
      let page ← kernel fun s =>
        match kalloc s.km with
        | none => .ok (none, s)
        | some (page, m) => .ok (some page, { s with km := m })
      match page with
      | none =>
        fileclose f0
        fileclose f1
        return none
      | some page =>
        setPipe f0 f1 page
        return some (f0, f1)

/-- Get metadata about the file. -/
def filestat (p : PIdx) (f : FIdx) (st : ℕ) : Sys Int := do
  let x ← look fun s => .ok (s.file f)
  match x.kind with
  | .FD_INODE ip =>
    actFs fun fs => ilock fs ip
    act fun s => do
      let d ← s.dir p
      let mem ← ustoreFields d st (stati s.fs ip) s.km.mem
      return s.setMem mem
    actFs fun fs => iunlock fs ip
    return 0
  | _ => return -1

/-- `if (r > 0) f->off += r`, where the offset was `off`. -/
def advance (f : FIdx) (off : ℕ) (r : Int) : Sys Unit :=
  if 0 < r then change fun s => s.setFile f { s.file f with off := off + r.toNat } else return ()

/-- `readi` for `fileread`: the device, or the bytes into the memory of the process. -/
def readInode (p : PIdx) (t : Transfer) (ip : Slot) (addr off n : ℕ) : Sys Int :=
  kernel fun s =>
    if (s.fs.node ip).isDev then t.run s
    else
      match readi (s.fs.node ip) off n with
      | none => .ok (-1, s)
      | some bs => do
        let d ← s.dir p
        let mem ← ustore d s.km.mem addr bs
        return (bs.length, s.setMem mem)

/-- Read from the file. -/
def fileread (p : PIdx) (t : Transfer) (f : FIdx) (addr n : ℕ) : Sys Int := do
  let x ← look fun s => .ok (s.file f)
  if !x.readable then return -1
  else
    match x.kind with
    | .FD_PIPE _ => kernel t.run
    | .FD_INODE ip =>
      actFs fun fs => ilock fs ip
      let r ← readInode p t ip addr x.off n
      advance f x.off r
      actFs fun fs => iunlock fs ip
      return r
    | .FD_NONE => throw (.panic "fileread")

/-- `writei` for `filewrite`: the device, or the bytes from the memory of the process. -/
def writeInode (p : PIdx) (t : Transfer) (ip : Slot) (addr off n : ℕ) : Sys Int :=
  kernel fun s =>
    if (s.fs.node ip).isDev then t.run s
    else do
      let d ← s.dir p
      let bs ← uload d s.km.mem n addr
      match writei (s.fs.node ip) off bs with
      | none => return (-1, s)
      | some node =>
        let fs := s.fs.setDinode (s.fs.icache ip).inum { s.fs.dinode ip with node := node }
        return (n, { s with fs := fs })

/-- A few blocks at a time, to avoid exceeding the maximum log transaction size. -/
abbrev MAXWRITE : ℕ := (LOGSIZE - 1 - 1 - 2) / 2 * 512

/-- The loop of `filewrite`, with `i` of `n` bytes written; each round that goes on has written
some, so `n` rounds are enough. -/
def writeRounds (p : PIdx) (t : Transfer) (f : FIdx) (ip : Slot) (addr n : ℕ) : ℕ → ℕ → Sys ℕ
  | 0, i => return i
  | fuel + 1, i =>
    if i < n then do
      let n1 := min (n - i) MAXWRITE
      beginOp
      actFs fun fs => ilock fs ip
      let off ← look fun s => .ok (s.file f).off
      let r ← writeInode p t ip (addr + i) off n1
      advance f off r
      actFs fun fs => iunlock fs ip
      endOp
      if r < 0 then return i
      else if r ≠ n1 then throw (.panic "short filewrite")
      else writeRounds p t f ip addr n fuel (i + r.toNat)
    else return i

/-- Write to the file. -/
def filewrite (p : PIdx) (t : Transfer) (f : FIdx) (addr n : ℕ) : Sys Int := do
  let x ← look fun s => .ok (s.file f)
  if !x.writable then return -1
  else
    match x.kind with
    | .FD_PIPE _ => kernel t.run
    | .FD_INODE ip =>
      let i ← writeRounds p t f ip addr n n 0
      return if i = n then (n : Int) else -1
    | .FD_NONE => throw (.panic "filewrite")

/-! ## Agreement with the functions without a record -/

section Agree

variable {c c' : Ledger} {u : Unit}

theorem pipeclose_eq_ok {page : ℕ} {writable : Bool} (h : pipeclose page writable c = .ok (u, c')) :
    Dockv6.pipeclose c.s page writable = .ok c'.s := by
  obtain ⟨_, c1, hclose, h⟩ := run_bind_eq_ok.mp h
  obtain ⟨s, hs, rfl⟩ := act_eq_ok.mp hclose
  obtain ⟨pi, c2, hlook, h⟩ := run_bind_eq_ok.mp h
  obtain ⟨-, rfl⟩ := look_eq_ok.mp hlook
  split_ifs at h
  · cases h
    exact hs
  · cases h
    exact hs

theorem fileclose_eq_ok {f : FIdx} (h : fileclose f c = .ok (u, c')) :
    Dockv6.fileclose c.s f = .ok c'.s := by
  obtain ⟨x, c1, hlook, h⟩ := run_bind_eq_ok.mp h
  obtain ⟨hx, rfl⟩ := look_eq_ok.mp hlook
  cases hx
  unfold Dockv6.fileclose
  dsimp only at h ⊢
  split_ifs at h ⊢
  · cases h
  · cases h
    rfl
  · obtain ⟨_, c2, hset, h⟩ := run_bind_eq_ok.mp h
    cases hset
    generalize (c1.s.file f).kind = k at h ⊢
    cases k with
    | FD_PIPE page => exact pipeclose_eq_ok h
    | FD_INODE ip =>
      cases h
      rfl
    | FD_NONE =>
      cases h
      rfl

end Agree

end Sys

end Dockv6
