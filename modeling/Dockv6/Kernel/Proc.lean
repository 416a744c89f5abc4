import Dockv6.Kernel.Mutex
import Dockv6.Kernel.Prio
import Dockv6.Kernel.Shm

/-!
# Processes

`allocproc`, `growproc`, `fork`, `exit`, `wait` and `kill` of `proc.c`, with `copyuvm` of `vm.c` and
the functions of `file.c` and `pipe.c` that `fork` and `exit` call. A call runs as a whole; a call
that sleeps ends with its process asleep and is made again when the process wakes up.
-/

namespace Dockv6

open Kernel Function

/-- Wake up all processes sleeping on `chan`. -/
def wakeup1 (s : Kernel) (chan : Option Chan) : Kernel :=
  { s with proc := fun p =>
      if (s.proc p).state = .SLEEPING ∧ (s.proc p).chan = chan then
        { s.proc p with state := .RUNNABLE }
      else s.proc p }

/-! ## Files -/

/-- Increment the reference count of `f`. -/
def filedup (s : Kernel) (f : FIdx) : Res Kernel :=
  if (s.file f).ref < 1 then .error (.panic "filedup")
  else .ok { s with file := update s.file f { s.file f with ref := (s.file f).ref + 1 } }

/-- Close an end of a pipe; the page goes when both are closed. -/
def pipeclose (s : Kernel) (page : ℕ) (writable : Bool) : Res Kernel := do
  let pi := s.pipe page
  let pi := if writable then { pi with writeopen := false } else { pi with readopen := false }
  let s := { s with pipe := update s.pipe page pi }
  let s := wakeup1 s (some (if writable then .nread page else .nwrite page))
  if !pi.readopen && !pi.writeopen then
    let m ← kfree s.km page
    return { s with km := m }
  else return s

/-- Close a file: decrement its count, close it when it reaches `0`. -/
def fileclose (s : Kernel) (f : FIdx) : Res Kernel :=
  let x := s.file f
  if x.ref < 1 then .error (.panic "fileclose")
  else if 1 < x.ref then
    .ok { s with file := update s.file f { x with ref := x.ref - 1 } }
  else
    let s := { s with file := update s.file f { x with ref := 0, kind := .FD_NONE } }
    match x.kind with
    | .FD_PIPE page => pipeclose s page x.writable
    | .FD_INODE ip => .ok { s with fs := iput s.fs ip }
    | .FD_NONE => .ok s

/-- The loop of `exit` over the descriptors. -/
def closeFiles (p : PIdx) : List (Fin NOFILE) → Kernel → Res Kernel
  | [], s => .ok s
  | fd :: fds, s =>
    match (s.proc p).ofile fd with
    | none => closeFiles p fds s
    | some f => do
      let s ← fileclose s f
      let x := s.proc p
      closeFiles p fds (s.setProc p { x with ofile := update x.ofile fd none })

/-- The loop of `fork` over the descriptors. -/
def dupFiles (p np : PIdx) : List (Fin NOFILE) → Kernel → Res Kernel
  | [], s => .ok s
  | fd :: fds, s =>
    match (s.proc p).ofile fd with
    | none => dupFiles p np fds s
    | some f => do
      let s ← filedup s f
      let x := s.proc np
      dupFiles p np fds (s.setProc np { x with ofile := update x.ofile fd (some f) })

/-! ## Creation -/

/-- The fields that `allocproc` sets while it holds `ptable.lock`. -/
def Proc.embryo (x : Proc) (pid : ℕ) : Proc :=
  { x with
    state := .EMBRYO
    pid := pid
    container_id := 0
    shared_mem := fun i => { x.shared_mem i with in_use := false }
    mutex := fun _ => none }

/-- Look in the process table for an `UNUSED` slot and make it an `EMBRYO` with a kernel stack. -/
def allocproc (s : Kernel) (d : Pgdir) (priority : ℕ) : Res (Option PIdx × Kernel) :=
  match (List.finRange NPROC).find? (fun p => decide ((s.proc p).state = .UNUSED)) with
  | none => .ok (none, s)
  | some np => do
    let s ← pqueueEnqueue s d (some np) priority
    let x := (s.proc np).embryo s.nextpid
    let s := { s.setProc np x with nextpid := s.nextpid + 1 }
    match kalloc s.km with
    | none => return (none, s.setProc np { x with kstack := none, state := .UNUSED })
    | some (page, m) =>
      return (some np, { s.setProc np { x with kstack := some page } with km := m })

/-- The test for the container manager: the comparison is over the length of the process's name. -/
def isCm (name : Bytes) : Bool := strncmp name [99, 109] (strlen name) == 0

/-- The loop of `copyuvm`: `n` pages to go from the page number `v`. `held` has the physical address
and the entry's `va` of each shared page in use. `skip` is `is_shmem`, which stays set in the
container manager. -/
def copyRounds (par : Pgdir) (held : List (ℕ × ℕ)) (cm : Bool) :
    ℕ → ℕ → Bool → Pgdir → Kmem → Res (Bool × Pgdir × Kmem)
  | 0, _, _, d, m => .ok (true, d, m)
  | n + 1, v, skip, d, m =>
    match par.tab (v / NPTENTRIES) with
    | none => .error (.panic "copyuvm: pte should exist")
    | some t =>
      match t.pte (v % NPTENTRIES) with
      | none => .error (.panic "copyuvm: page not present")
      | some e =>
        match held.find? (fun h => h.1 == e.ppn * PGSIZE) with
        | some h =>
          if cm then copyRounds par held cm n (v + 1) true d m
          else do
            -- Whether the page table could be allocated is not looked at.
            let (_, d, m) ← mappages d m h.2 PGSIZE (e.ppn * PGSIZE) e.flags
            copyRounds par held cm n (v + 1) false d m
        | none =>
          if skip then copyRounds par held cm n (v + 1) true d m
          else
            match kalloc m with
            | none => .ok (false, d, m)
            | some (page, m) => do
              let m := { m with mem := update m.mem page (m.mem e.ppn) }
              let (ok, d, m) ← mappages d m (v * PGSIZE) PGSIZE (page * PGSIZE) e.flags
              if ok then copyRounds par held cm n (v + 1) false d m else return (false, d, m)

/-- The shared pages in use by the process: physical address and `va`. -/
def Kernel.heldPages (s : Kernel) (p : PIdx) : List (ℕ × ℕ) :=
  (List.finRange SHM_MAXNUM).filterMap fun i =>
    let e := (s.proc p).shared_mem i
    if e.in_use then e.global_ptr.map (fun g => ((s.shm g).pa, e.va)) else none

/-- Given a parent process's page table, create a copy of it for a child. -/
def copyuvm (s : Kernel) (p : PIdx) (par : Pgdir) (sz : ℕ) : Res (Option Pgdir × Kmem) := do
  let (d, m) ← setupkvm (s.sharedPas p) s.km
  match d with
  | none => return (none, m)
  | some d =>
    let (ok, d, m) ← copyRounds par (s.heldPages p) (isCm (s.proc p).name) (pages sz) 0 false d m
    if ok then return (some d, m)
    else
      let m ← freevm (s.sharedPas p) d m
      return (none, m)

/-- The charge of `fork` to the container: nothing when the limit is reached. -/
def forkCharge (s : Kernel) (p : PIdx) : Res (Option Kernel) :=
  if (s.proc p).container_id = 0 then .ok (some s)
  else
    match (s.proc p).container with
    | none => .error .undefined
    | some c =>
      if (s.containers c).nproc = 0 then .ok none
      else .ok (some (s.setContainer c { s.containers c with
          nproc := udec (s.containers c).nproc }))

/-- One round of the loop of `fork` over the shared pages: the entry is copied and the count of the
slot it points to goes up, whether or not it is in use. A null `global_ptr` leads to the memory of
the process. -/
def forkShmem (p np : PIdx) (d : Pgdir) (s : Kernel) (i : ShmIdx) : Res Kernel :=
  let e := (s.proc p).shared_mem i
  let e' := (s.proc np).shared_mem i
  let s := s.setShmem np i { e with name := strncpy e'.name e.name (strlen e.name) }
  match e.global_ptr with
  | some g => .ok (s.setShm g { s.shm g with refcount := uinc (s.shm g).refcount })
  | none => do
    let mem ← uincWord d s.km.mem REFCOUNT_OFF
    return s.setMem mem

/-- The rounds of the loop of `fork` over the shared pages. -/
def forkShmRounds (p np : PIdx) (d : Pgdir) : List ShmIdx → Kernel → Res Kernel
  | [], s => .ok s
  | i :: is, s => do
    let s ← forkShmem p np d s i
    forkShmRounds p np d is s

/-- The loop of `fork` over the shared pages, which does nothing in the container manager. -/
def forkShm (s : Kernel) (p np : PIdx) (d : Pgdir) : Res Kernel :=
  if isCm (s.proc p).name then .ok s else forkShmRounds p np d (List.finRange SHM_MAXNUM) s

/-- `idup(ip)`; the count of a null inode lies at address `8` of the process. -/
def idupPtr (s : Kernel) (d : Pgdir) (ip : Option Slot) : Res Kernel :=
  match ip with
  | some i => .ok { s with fs := idup s.fs i }
  | none => do
    let mem ← uincWord d s.km.mem 8
    return s.setMem mem

/-- The string `np->container->init` of the container manager: `init` is null, and so is the whole
container outside of one. -/
def containerInit (s : Kernel) (np : PIdx) (d : Pgdir) : Res Bytes :=
  match (s.proc np).container with
  | some _ => ustring d s.km.mem KERNBASE 0
  | none => do
    let ptr ← uword d s.km.mem 8
    if KERNBASE ≤ ptr then throw .undefined else ustring d s.km.mem KERNBASE ptr

/-- The name of the child. -/
def forkName (s : Kernel) (p np : PIdx) (d : Pgdir) : Res Bytes :=
  if isCm (s.proc p).name then do
    let init ← containerInit s np d
    if 16 < strlen init then throw .undefined
    else return safestrcpy (s.proc np).name init (strlen init)
  else .ok (safestrcpy (s.proc np).name (s.proc p).name 16)

/-- Every process but the first gets a priority below the container manager's. -/
def forkPrioBelow (s : Kernel) (p np : PIdx) (d : Pgdir) : Res (Int × Kernel) :=
  if 1 < (s.proc p).pid ∧ isCm (s.proc np).name = false then prioSet s p d (s.proc np).pid 1
  else .ok (0, s)

/-- The priority of the child. -/
def forkPrio (s : Kernel) (p np : PIdx) (d : Pgdir) : Res Kernel := do
  let (_, s) ← forkPrioBelow s p np d
  let (_, s) ← prioSet s p d (s.proc np).pid (s.pq.priority p)
  return s

/-- `fork` from where the child has its page table. -/
def forkChild (s : Kernel) (p np : PIdx) (d : Pgdir) : Res Kernel := do
  let x := s.proc p
  let s := s.setProc np
    { s.proc np with sz := x.sz, parent := some p, tf := x.tf, container := x.container,
                     container_id := x.container_id }
  let s ← forkShm s p np d
  let s := s.setProc np { s.proc np with tf := { x.tf with eax := 0 } }
  let s ← dupFiles p np (List.finRange NOFILE) s
  let s ← idupPtr s d x.cwd
  let s := s.setProc np { s.proc np with cwd := x.cwd }
  let name ← forkName s p np d
  let s := s.setProc np { s.proc np with name := name }
  let s ← forkPrio s p np d
  return s.setProc np { s.proc np with state := .RUNNABLE }

/-- Create a new process copying `p` as the parent. -/
def fork (s : Kernel) (p : PIdx) : Res (Int × Kernel) :=
  match (s.proc p).pgdir with
  | none => .error .undefined
  | some d => do
    let charged ← forkCharge s p
    match charged with
    | none => return (-1, s)
    | some s =>
      let (np, s) ← allocproc s d (s.pq.priority p)
      match np with
      | none => return (-1, s)
      | some np =>
        let (d', m) ← copyuvm s p d (s.proc p).sz
        let s := { s.setProc np { s.proc np with pgdir := d' } with km := m }
        match d' with
        | none =>
          match (s.proc np).kstack with
          | none => throw (.panic "kfree")
          | some page =>
            let m ← kfree s.km page
            let x := s.proc np
            return (-1, { s.setProc np { x with kstack := none, state := .UNUSED } with km := m })
        | some _ =>
          let s ← forkChild s p np d
          return ((s.proc np).pid, s)

/-! ## Size -/

/-- The call of `growproc` on the page table. -/
def resize (d : Pgdir) (m : Kmem) (sz : ℕ) (n : Int) : Res (ℕ × Pgdir × Kmem) :=
  if 0 < n then allocuvm d m sz (touint (sz + n))
  else if n < 0 then deallocuvm d m sz (touint (sz + n))
  else .ok (sz, d, m)

/-- Grow or shrink the process's memory by `n` bytes. The page table is changed in place, also when
the call fails. -/
def growproc (s : Kernel) (p : PIdx) (n : Int) : Res (Int × Kernel) :=
  match (s.proc p).pgdir with
  | none => .error .undefined
  | some d => do
    let (sz, d, m) ← resize d s.km (s.proc p).sz n
    let s := s.setVm p d m
    if n ≠ 0 ∧ sz = 0 then return (-1, s)
    else return (0, s.setProc p { s.proc p with sz := sz })

/-! ## Exit, wait and kill -/

/-- The loop of `exit` over the shared pages. -/
def exitShm (p : PIdx) : List ShmIdx → Kernel → Res Kernel
  | [], s => .ok s
  | i :: is, s =>
    if ((s.proc p).shared_mem i).in_use then do
      let (_, s) ← shmRem s p ((s.proc p).shared_mem i).name
      exitShm p is s
    else exitShm p is s

/-- The loop of `exit` over the mutexes. -/
def exitMutexes (s : Kernel) (p : PIdx) : Kernel :=
  (List.finRange MUX_MAXNUM).foldl (fun s i => mutexDelete s p i) s

theorem exitMutexes_mutexOnly (s : Kernel) (p : PIdx) : MutexOnly p s (exitMutexes s p) := by
  unfold exitMutexes
  generalize List.finRange MUX_MAXNUM = is
  induction is generalizing s with
  | nil => exact .refl p s
  | cons i is ih => exact (mutexDelete_mutexOnly s p i).trans (ih _)

/-- Pass abandoned children to `init`. -/
def reparent (s : Kernel) (p : PIdx) : Kernel :=
  { s with proc := fun q =>
      if (s.proc q).parent = some p then { s.proc q with parent := s.initproc } else s.proc q }

/-- The end of `exit`: the parent is woken up, the children go to `init`, which is woken up when
there is a zombie among them, and the process is a zombie. -/
def exitEnd (s : Kernel) (p : PIdx) : Kernel :=
  let s := wakeup1 s ((s.proc p).parent.map .proc)
  let orphan := (List.finRange NPROC).any fun q =>
    decide ((s.proc q).parent = some p ∧ (s.proc q).state = .ZOMBIE)
  let s := reparent s p
  let s := if orphan then wakeup1 s (s.initproc.map .proc) else s
  s.setProc p { s.proc p with state := .ZOMBIE }

/-- Exit the current process: its files, shared pages and mutexes are given back. -/
def exit (s : Kernel) (p : PIdx) : Res Kernel :=
  if s.initproc = some p then .error (.panic "init exiting")
  else do
    let s ← closeFiles p (List.finRange NOFILE) s
    let s ← exitShm p (List.finRange SHM_MAXNUM) s
    let s := exitMutexes s p
    match (s.proc p).cwd with
    | none => throw .undefined
    | some cwd =>
      return exitEnd { s.setProc p { s.proc p with cwd := none } with fs := iput s.fs cwd } p

/-- The first zombie among the children of `p`. -/
def Kernel.zombieChild (s : Kernel) (p : PIdx) : Option PIdx :=
  (List.finRange NPROC).find?
    (fun q => decide ((s.proc q).parent = some p ∧ (s.proc q).state = .ZOMBIE))

/-- A slot after its process is gone. -/
def Proc.freed (x : Proc) : Proc :=
  { x with kstack := none, pid := 0, parent := none, name := 0 :: x.name.tail, killed := false,
           state := .UNUSED }

/-- Free the zombie `q` for its parent `p`. -/
def reap (s : Kernel) (p q : PIdx) : Res Kernel :=
  match (s.proc q).kstack, (s.proc q).pgdir with
  | none, _ => .error (.panic "kfree")
  | some _, none => .error (.panic "freevm: no pgdir")
  | some page, some d => do
    let m ← kfree s.km page
    let m ← freevm (s.sharedPas p) d m
    return { s.setProc q (s.proc q).freed with km := m }

/-- The credit of `wait` to the container of the caller. -/
def waitCredit (s : Kernel) (p : PIdx) : Res Kernel :=
  if (s.proc p).container_id = 0 then .ok s
  else
    match (s.proc p).container with
    | none => .error .undefined
    | some c =>
      .ok (s.setContainer c { s.containers c with nproc := uinc (s.containers c).nproc })

/-- Wait for a child process to exit and return its pid; nothing is returned yet when the caller
goes to sleep. -/
def wait (s : Kernel) (p : PIdx) : Res (Option Int × Kernel) :=
  match s.zombieChild p with
  | some q => do
    let pid := (s.proc q).pid
    let s ← reap s p q
    let s ← waitCredit s p
    return (some pid, s)
  | none =>
    if (∀ q, (s.proc q).parent ≠ some p) ∨ (s.proc p).killed then .ok (some (-1), s)
    else .ok (none, s.setProc p { s.proc p with state := .SLEEPING, chan := some (.proc p) })

/-- The first slot with the pid in the caller's container. -/
def Kernel.killTarget (s : Kernel) (cur : PIdx) (pid : Int) : Option PIdx :=
  (List.finRange NPROC).find? fun p => ((s.proc p).pid : Int) == pid &&
    (s.proc p).container_id == (s.proc cur).container_id

/-- Kill the process with the given pid in the caller's container. -/
def kill (s : Kernel) (cur : PIdx) (pid : Int) : Int × Kernel :=
  match s.killTarget cur pid with
  | none => (-1, s)
  | some p =>
    let s := s.setProc p { s.proc p with killed := true }
    let s := (List.finRange MUX_MAXNUM).foldl (fun s i => killMutexes s p i) s
    let x := s.proc p
    (0, s.setProc p { x with state := if x.state = .SLEEPING then .RUNNABLE else x.state })

theorem reap_eq_ok {s s' : Kernel} {p q : PIdx} (h : reap s p q = .ok s') :
    ∃ page d m m', (s.proc q).kstack = some page ∧ (s.proc q).pgdir = some d ∧
      kfree s.km page = .ok m ∧ freevm (s.sharedPas p) d m = .ok m' ∧
      s' = { s.setProc q (s.proc q).freed with km := m' } := by
  unfold reap at h
  split at h
  · cases h
  · cases h
  · rename_i page d hpage hd
    obtain ⟨m, hm, h⟩ := bind_eq_ok.mp h
    obtain ⟨m', hm', h⟩ := bind_eq_ok.mp h
    cases h
    exact ⟨page, d, m, m', hpage, hd, hm, hm', rfl⟩

theorem killMutexes_rounds (q : PIdx) (is : List MuxIdx) (s : Kernel) :
    ∃ mux, is.foldl (fun s i => killMutexes s q i) s = { s with mux := mux } := by
  induction is generalizing s with
  | nil => exact ⟨s.mux, rfl⟩
  | cons i is ih =>
    have hround : ∃ mux, killMutexes s q i = { s with mux := mux } := by
      unfold killMutexes
      split
      · exact ⟨s.mux, rfl⟩
      · exact ⟨_, rfl⟩
    obtain ⟨mux, hmux⟩ := hround
    obtain ⟨mux', hrest⟩ := ih (killMutexes s q i)
    refine ⟨mux', hrest.trans ?_⟩
    rw [hmux]

theorem kill_cases (s : Kernel) (cur : PIdx) (pid : Int) :
    (kill s cur pid).2 = s ∨ ∃ q mux, (kill s cur pid).2 =
      { s.setProc q
        { s.proc q with
          killed := true
          state := if (s.proc q).state = .SLEEPING then .RUNNABLE else (s.proc q).state } with
        mux := mux } := by
  unfold kill
  split
  · exact .inl rfl
  · rename_i q _
    obtain ⟨mux, hmux⟩ :=
      killMutexes_rounds q (List.finRange MUX_MAXNUM) (s.setProc q { s.proc q with killed := true })
    refine .inr ⟨q, mux, ?_⟩
    dsimp only
    rw [hmux]
    simp only [Kernel.setProc, update_self, update_idem]

theorem zombieChild_eq_some {s : Kernel} {p q : PIdx} (h : s.zombieChild p = some q) :
    (s.proc q).parent = some p ∧ (s.proc q).state = .ZOMBIE := by
  simpa using List.find?_some h

end Dockv6
