import Dockv6.Fs.Inode
import Dockv6.Mutex.Basic

/-!
# The kernel's data

The structures of `proc.h`, `cm.h`, `shmem.h` and `file.h` and the tables of the kernel, as one
record `Kernel`. A pointer into a table is an index, a null pointer is `none`; a page of physical
memory is its page number. A page directory is kept by value. `priority` and `next` of `struct proc`
are kept with the bins of `pqueue`.
-/

namespace Dockv6

open Function

/-- An index into `ptable.proc`, for a pointer to a `struct proc`. -/
abbrev PIdx := Fin NPROC

/-- An index into `shm_list.list`. -/
abbrev ShmIdx := Fin SHM_MAXNUM

/-- An index into `mtable.mux`. -/
abbrev MuxIdx := Fin MUX_MAXNUM

/-- An index into `containers.Arr`. -/
abbrev CIdx := Fin MAX_NUM_CONTAINERS

/-! ## 32-bit arithmetic -/

/-- `x + 1` of a `uint`. -/
def uinc (x : ℕ) : ℕ := (x + 1) % 2 ^ 32

/-- `x - 1` of a `uint`. -/
def udec (x : ℕ) : ℕ := (x + UINT_MAX) % 2 ^ 32

/-- The `uint` with the bits of an `int`. -/
def touint (n : Int) : ℕ := (n % 2 ^ 32).toNat

theorem udec_of_pos {x : ℕ} (h : 0 < x) (hx : x < 2 ^ 32) : udec x = x - 1 := by
  unfold udec
  simp only [UINT_MAX]
  omega

theorem uinc_of_lt {x : ℕ} (hx : x + 1 < 2 ^ 32) : uinc x = x + 1 := Nat.mod_eq_of_lt hx

/-! ## Memory -/

/-- A present entry of a page table: the page's number and the low bits. -/
structure Pte where
  ppn : ℕ
  flags : ℕ
  deriving DecidableEq

/-- A page table of the user half: the page it is kept in and its entries, `none` where the bit
`PTE_P` is clear. -/
structure PageTable where
  page : ℕ
  pte : ℕ → Option Pte

/-- A page directory: the page it is kept in, the page tables of the user half by directory index,
and the pages of the page tables of the kernel half. -/
structure Pgdir where
  page : ℕ
  tab : ℕ → Option PageTable
  kern : List ℕ

/-- The contents of physical memory, by page number and offset. -/
abbrev Mem := ℕ → ℕ → UInt8

/-- `kmem`: the free pages, the first one to be allocated next, and the memory. `first` is the first
page after the kernel. -/
structure Kmem where
  first : ℕ
  free : List ℕ
  mem : Mem

/-! ## Processes -/

/-- `struct shmem`: a shared page of a process. -/
structure Shmem where
  in_use : Bool
  name : Bytes
  va : ℕ
  global_ptr : Option ShmIdx
  deriving DecidableEq

/-- `struct shared_mem`: a slot of `shm_list`. -/
structure SharedMem where
  name : Bytes
  pa : ℕ
  refcount : ℕ
  in_use : Bool
  container_id : ℕ
  deriving DecidableEq

/-- `struct container`. The fields `init` and `fs` are pointers that no code ever sets; what is
copied to them goes to address `0` of the running process. -/
structure Container where
  container_id : ℕ
  nproc : ℕ
  root : Option Slot
  deriving DecidableEq

/-- `enum procstate`. -/
inductive ProcState
  | UNUSED
  | EMBRYO
  | SLEEPING
  | RUNNABLE
  | RUNNING
  | ZOMBIE
  deriving DecidableEq

/-- What a process may sleep on. -/
inductive Chan
  | proc (p : PIdx)
  | mux (m : MuxIdx)
  | nread (page : ℕ)
  | nwrite (page : ℕ)
  | other (addr : ℕ)
  deriving DecidableEq

/-- The registers of a trap frame that the kernel itself sets. -/
structure Trapframe where
  eax : ℕ
  eip : ℕ
  esp : ℕ
  deriving DecidableEq

/-- An index into `ftable.file`. -/
abbrev FIdx := Fin NFILE

/-- `struct proc`. -/
structure Proc where
  sz : ℕ
  pgdir : Option Pgdir
  kstack : Option ℕ
  state : ProcState
  pid : ℕ
  parent : Option PIdx
  tf : Trapframe
  chan : Option Chan
  killed : Bool
  ofile : Fin NOFILE → Option FIdx
  cwd : Option Slot
  name : Bytes
  shared_mem : ShmIdx → Shmem
  container : Option CIdx
  container_id : ℕ
  mutex : MuxIdx → Option MuxIdx

/-- `struct list`: a bin of `pqueue`. -/
structure Bin where
  head : Option PIdx
  tail : Option PIdx
  size : Int
  deriving DecidableEq

/-- The priority queue: the bins, and `priority` and `next` of the processes. -/
structure Pqueue where
  bin : ℕ → Bin
  priority : PIdx → ℕ
  next : PIdx → Option PIdx

/-! ## Files -/

/-- The type of a file and what it refers to. -/
inductive FileKind
  | FD_NONE
  | FD_PIPE (page : ℕ)
  | FD_INODE (ip : Slot)
  deriving DecidableEq

/-- `struct file`. -/
structure File where
  kind : FileKind
  ref : Int
  readable : Bool
  writable : Bool
  off : ℕ
  deriving DecidableEq

/-- The ends of a pipe that are open. -/
structure Pipe where
  readopen : Bool
  writeopen : Bool
  deriving DecidableEq

/-- The kernel. -/
structure Kernel where
  /-- The addresses of `ptable.proc` and of `shm_list.list`, for pointers to their elements that end
  up in user memory. -/
  ptableAddr : ℕ
  shmAddr : ℕ
  proc : PIdx → Proc
  initproc : Option PIdx
  nextpid : ℕ
  nextcid : ℕ
  containers : CIdx → Container
  mux : MuxIdx → Mutex
  shm : ShmIdx → SharedMem
  pq : Pqueue
  km : Kmem
  file : FIdx → File
  pipe : ℕ → Pipe
  fs : Fs

namespace Kernel

/-- Change the process `p`. -/
def setProc (s : Kernel) (p : PIdx) (x : Proc) : Kernel :=
  { s with proc := update s.proc p x }

/-- Change the mutex `m`. -/
def setMux (s : Kernel) (m : MuxIdx) (x : Mutex) : Kernel :=
  { s with mux := update s.mux m x }

/-- Change the slot `i` for a page. -/
def setShm (s : Kernel) (i : ShmIdx) (x : SharedMem) : Kernel :=
  { s with shm := update s.shm i x }

/-- Change the container `c`. -/
def setContainer (s : Kernel) (c : CIdx) (x : Container) : Kernel :=
  { s with containers := update s.containers c x }

/-- A process other than an unused slot. -/
def live (s : Kernel) (p : PIdx) : Prop := (s.proc p).state ≠ .UNUSED

instance (s : Kernel) (p : PIdx) : Decidable (s.live p) :=
  inferInstanceAs (Decidable ((s.proc p).state ≠ .UNUSED))

section Update

variable (s : Kernel) (p q : PIdx) (x : Proc)

theorem setProc_proc : (s.setProc p x).proc q = if q = p then x else s.proc q := by
  by_cases h : q = p
  · subst h
    simp [setProc]
  · simp [setProc, h]

@[simp] theorem setProc_self : (s.setProc p x).proc p = x := by simp [setProc_proc]

theorem setProc_of_ne {q : PIdx} (h : q ≠ p) : (s.setProc p x).proc q = s.proc q := by
  simp [setProc_proc, h]

/-- A field that the new value of the process has from the old one. -/
theorem setProc_field {s : Kernel} {p : PIdx} {x : Proc} {α : Type*} (f : Proc → α)
    (hx : f x = f (s.proc p)) (q : PIdx) : f ((s.setProc p x).proc q) = f (s.proc q) := by
  rw [setProc_proc]
  split_ifs with hq
  · rw [hx, hq]
  · rfl

theorem setMux_mux (m m' : MuxIdx) (y : Mutex) :
    (s.setMux m y).mux m' = if m' = m then y else s.mux m' := by
  by_cases h : m' = m
  · subst h
    simp [setMux]
  · simp [setMux, h]

theorem setShm_shm (g g' : ShmIdx) (y : SharedMem) :
    (s.setShm g y).shm g' = if g' = g then y else s.shm g' := by
  by_cases h : g' = g
  · subst h
    simp [setShm]
  · simp [setShm, h]

theorem setContainer_containers (c c' : CIdx) (y : Container) :
    (s.setContainer c y).containers c' = if c' = c then y else s.containers c' := by
  by_cases h : c' = c
  · subst h
    simp [setContainer]
  · simp [setContainer, h]

@[simp] theorem setProc_mux : (s.setProc p x).mux = s.mux := rfl

@[simp] theorem setProc_shm : (s.setProc p x).shm = s.shm := rfl

@[simp] theorem setProc_containers : (s.setProc p x).containers = s.containers := rfl

@[simp] theorem setProc_km : (s.setProc p x).km = s.km := rfl

end Update

end Kernel

end Dockv6
