import Dockv6.Foundations.Run
import Dockv6.Kernel.Exec

/-!
# Boot, system calls and runs

The state that `main` leaves (`Boot`), and the machine whose steps are a call by a process that can
run, from its entry to its return or until its process sleeps; one that panics, or has no meaning in
C, ends the run. The calls on files, mutexes and the like are one call `other`, which may do
anything to the parts of the kernel that they work on.
-/

namespace Dockv6

open Kernel

/-! ## Boot -/

/-- A slot of the process table before its first use. -/
def Proc.zero : Proc :=
  { sz := 0, pgdir := none, kstack := none, state := .UNUSED, pid := 0, parent := none,
    tf := { eax := 0, eip := 0, esp := 0 }, chan := none, killed := false, ofile := fun _ => none,
    cwd := none, name := List.replicate 16 0,
    shared_mem := fun _ =>
    { in_use := false, name := List.replicate 16 0, va := 0, global_ptr := none },
    container := none, container_id := 0, mutex := fun _ => none }

/-- What the boot loader and the machine determine: where the tables lie, the free pages and the
contents of memory, and the disk. -/
structure Machinery where
  ptableAddr : ℕ
  shmAddr : ℕ
  km : Kmem
  fs : Fs
  free_nodup : km.free.Nodup
  free_range : ∀ f ∈ km.free, km.first ≤ f ∧ f < PHYSTOP / PGSIZE
  first_pos : 0 < km.first
  icache : ∀ i, fs.icache i = { inum := 0, ref := 0, valid := false }

/-- The kernel after `pinit`, `cinit` and `queueinit`. -/
def Machinery.kernel (b : Machinery) : Kernel :=
  { ptableAddr := b.ptableAddr, shmAddr := b.shmAddr, proc := fun _ => .zero, initproc := none,
    nextpid := 1, nextcid := 1,
    containers := fun _ => { container_id := UINT_MAX, nproc := UINT_MAX, root := none },
    mux := fun _ => .zero,
    shm := fun _ => { name := List.replicate 16 0, pa := 0, refcount := 0, in_use := false,
                      container_id := 0 },
    pq := { bin := fun _ => { head := none, tail := none, size := 0 }, priority := fun _ => 0,
            next := fun _ => none },
    km := b.km,
    file := fun _ => { kind := .FD_NONE, ref := 0, readable := false, writable := false, off := 0 },
    pipe := fun _ => { readopen := false, writeopen := false }, fs := b.fs }

/-- Load the initcode into address `0`. -/
def inituvm (d : Pgdir) (m : Kmem) (code : Bytes) : Res (Pgdir × Kmem) :=
  if PGSIZE ≤ code.length then .error (.panic "inituvm: more than a page")
  else
    match kalloc m with
    | none => .error .undefined
    | some (page, m) => do
      let (_, d, m) ← mappages d (m.zero page) 0 PGSIZE (page * PGSIZE) (PTE_W ||| PTE_U)
      return (d, { m with mem := Function.update m.mem page fun k => code.getD k 0 })

/-- A page table without user pages. -/
def Pgdir.empty : Pgdir := { page := 0, tab := fun _ => none, kern := [] }

/-- Set up the first user process. -/
def userinit (s : Kernel) (code : Bytes) : Res Kernel := do
  let (p, s) ← allocproc s .empty 0
  match p with
  | none => throw .undefined
  | some p =>
    let (d, m) ← setupkvm [] s.km
    match d with
    | none => throw (.panic "userinit: out of memory?")
    | some d =>
      let (d, m) ← inituvm d m code
      let (cwd, fs) ← iget s.fs ROOTINO
      let x := s.proc p
      return { s.setProc p
        { x with
          pgdir := some d
          sz := PGSIZE
          tf := { eax := 0, eip := 0, esp := PGSIZE }
          name := safestrcpy x.name [105, 110, 105, 116, 99, 111, 100, 101] 16
          cwd := some cwd
          container_id := 0
          state := .RUNNABLE } with initproc := some p, km := m, fs := fs }

/-- The kernel when the first process is ready to run. -/
def Boot (s : Kernel) : Prop := ∃ (b : Machinery) (code : Bytes), userinit b.kernel code = .ok s

/-! ## System calls -/

/-- What a call on files, mutexes or the clock may change. -/
structure Other where
  mux : MuxIdx → Mutex
  km : Kmem
  file : FIdx → File
  pipe : ℕ → Pipe
  fs : Fs
  ofile : Fin NOFILE → Option FIdx
  cwd : Option Slot
  killed : Bool
  /-- What the caller sleeps on. -/
  sleep : Option Chan
  /-- What is woken up. -/
  wakeup : List Chan

/-- Wake up what sleeps on each of the channels. -/
def wakeups (s : Kernel) (l : List Chan) : Kernel := l.foldl (fun s c => wakeup1 s (some c)) s

/-- The state after such a call. -/
def Other.run (o : Other) (s : Kernel) (p : PIdx) : Kernel :=
  let s := wakeups { s with mux := o.mux, km := o.km, file := o.file, pipe := o.pipe, fs := o.fs }
    o.wakeup
  let x := { s.proc p with ofile := o.ofile, cwd := o.cwd, killed := o.killed }
  match o.sleep with
  | none => s.setProc p x
  | some c => s.setProc p { x with state := .SLEEPING, chan := some c }

/-- A system call with its arguments, or a store of the process to its own memory. -/
inductive Call
  | fork
  | exit
  | wait
  | kill (pid : Int)
  | exec (path : Bytes) (argv : List Bytes)
  | sbrk (n : Int)
  | mGet (name : Bytes)
  | mRem (name : Bytes)
  | cmCreateAndEnter (init fs : Bytes) (nproc : Int)
  | cmMaxproc (nproc : Int)
  | cmSetroot (path : Bytes) (len : Int)
  | mutexCreate (name : Bytes)
  | mutexDelete (muxid : Int)
  | prioSet (pid priority : Int)
  | store (va : ℕ) (bytes : Bytes)
  | other (o : Other)

/-- `sys_cm_setroot`; without a container the path is copied to wherever address `12` points. -/
def sysCmSetroot (s : Kernel) (p : PIdx) (d : Pgdir) (path : Bytes) (len : Int) : Res Kernel :=
  if len ≤ 0 then .ok s
  else
    match (s.proc p).container with
    | none => .error .undefined
    | some c => cmSetroot s p d path len c

theorem sysCmSetroot_cases {s s' : Kernel} {p : PIdx} {d : Pgdir} {path : Bytes} {len : Int}
    (h : sysCmSetroot s p d path len = .ok s') :
    s' = s ∨ ∃ c, 0 < len ∧ (s.proc p).container = some c ∧
    cmSetroot s p d path len c = .ok s' := by
  unfold sysCmSetroot at h
  split_ifs at h with hlen
  · cases h
    exact .inl rfl
  · split at h
    · cases h
    · rename_i c hc
      exact .inr ⟨c, not_le.mp hlen, hc, h⟩

/-- Run a call that needs the page table of the caller. -/
def withPgdir (s : Kernel) (p : PIdx) (f : Pgdir → Res Kernel) : Res Kernel :=
  match (s.proc p).pgdir with
  | none => .error .undefined
  | some d => f d

/-- The state after a call. -/
def Call.run (s : Kernel) (p : PIdx) : Call → Res Kernel
  | .fork => (Dockv6.fork s p).map Prod.snd
  | .exit => Dockv6.exit s p
  | .wait => (Dockv6.wait s p).map Prod.snd
  | .kill pid => .ok (Dockv6.kill s p pid).2
  | .exec path argv => (Dockv6.exec s p path argv).map Prod.snd
  | .sbrk n => (growproc s p n).map Prod.snd
  | .mGet name => (shmGet s p name).map Prod.snd
  | .mRem name => (shmRem s p name).map Prod.snd
  | .cmCreateAndEnter init fs nproc => (Dockv6.cmCreateAndEnter s p init fs nproc).map Prod.snd
  | .cmMaxproc nproc => .ok (Dockv6.cmMaxproc s p nproc).2
  | .cmSetroot path len => withPgdir s p fun d => sysCmSetroot s p d path len
  | .mutexCreate name => (Dockv6.mutexCreate s p name).map Prod.snd
  | .mutexDelete muxid => do
    let i ← muxIndex muxid
    return Dockv6.mutexDelete s p i
  | .prioSet pid priority => withPgdir s p fun d =>
    (Dockv6.prioSet s p d pid priority).map Prod.snd
  | .store va bytes => withPgdir s p fun d => (ustore d s.km.mem va bytes).map s.setMem
  | .other o => .ok (o.run s p)

/-- Is it the whole of `cm_create_and_enter`? -/
def Call.isCreate : Call → Bool
  | .cmCreateAndEnter .. => true
  | _ => false

/-- Can the process make a call? -/
def Kernel.canRun (s : Kernel) (p : PIdx) : Prop :=
  (s.proc p).state = .RUNNABLE ∨ (s.proc p).state = .RUNNING

instance (s : Kernel) (p : PIdx) : Decidable (s.canRun p) :=
  inferInstanceAs (Decidable (_ ∨ _))

theorem Kernel.canRun.live {s : Kernel} {p : PIdx} (h : s.canRun p) : s.live p := by
  rcases h with h | h <;> simp [Kernel.live, h]

theorem Kernel.canRun.ne_zombie {s : Kernel} {p : PIdx} (h : s.canRun p) :
    (s.proc p).state ≠ .ZOMBIE := by
  rcases h with h | h <;> simp [h]

/-- The runs of the kernel: calls by processes that can run. -/
def kernelMachine : Machine Kernel (PIdx × Call) where
  init := Boot
  step s a := if s.canRun a.1 then (a.2.run s a.1).toOption else none

theorem kernelMachine_step {s t : Kernel} {p : PIdx} {c : Call}
    (h : kernelMachine.step s (p, c) = some t) : s.canRun p ∧ c.run s p = .ok t := by
  have hstep : (if s.canRun p then (c.run s p).toOption else none) = some t := h
  split_ifs at hstep with hrun
  exact ⟨hrun, toOption_eq_some.mp hstep⟩

theorem withPgdir_eq_ok {s t : Kernel} {p : PIdx} {f : Pgdir → Res Kernel}
    (h : withPgdir s p f = .ok t) : ∃ d, (s.proc p).pgdir = some d ∧ f d = .ok t := by
  unfold withPgdir at h
  split at h
  · cases h
  · exact ⟨_, by assumption, h⟩

/-- **What a call does**: its function has returned, and left the state behind. -/
inductive Call.Ran (s : Kernel) (p : PIdx) : Call → Kernel → Prop
  | fork {r s'} (h : Dockv6.fork s p = .ok (r, s')) : Ran s p .fork s'
  | exit {s'} (h : Dockv6.exit s p = .ok s') : Ran s p .exit s'
  | wait {r s'} (h : Dockv6.wait s p = .ok (r, s')) : Ran s p .wait s'
  | kill (pid) : Ran s p (.kill pid) (Dockv6.kill s p pid).2
  | exec {path argv r s'} (h : Dockv6.exec s p path argv = .ok (r, s')) :
    Ran s p (.exec path argv) s'
  | sbrk {n r s'} (h : growproc s p n = .ok (r, s')) : Ran s p (.sbrk n) s'
  | mGet {name r s'} (h : shmGet s p name = .ok (r, s')) : Ran s p (.mGet name) s'
  | mRem {name r s'} (h : shmRem s p name = .ok (r, s')) : Ran s p (.mRem name) s'
  | cmCreateAndEnter {init fs n r s'} (h : Dockv6.cmCreateAndEnter s p init fs n = .ok (r, s')) :
    Ran s p (.cmCreateAndEnter init fs n) s'
  | cmMaxproc (n) : Ran s p (.cmMaxproc n) (Dockv6.cmMaxproc s p n).2
  | cmSetroot {path len d s'} (h : sysCmSetroot s p d path len = .ok s')
    (hd : (s.proc p).pgdir = some d) : Ran s p (.cmSetroot path len) s'
  | mutexCreate {name r s'} (h : Dockv6.mutexCreate s p name = .ok (r, s')) :
    Ran s p (.mutexCreate name) s'
  | mutexDelete (i) {muxid} (h : muxIndex muxid = .ok i) :
    Ran s p (.mutexDelete muxid) (Dockv6.mutexDelete s p i)
  | prioSet {pid priority d r s'} (h : Dockv6.prioSet s p d pid priority = .ok (r, s'))
    (hd : (s.proc p).pgdir = some d) : Ran s p (.prioSet pid priority) s'
  | store (mem) {va bytes d} (h : ustore d s.km.mem va bytes = .ok mem)
    (hd : (s.proc p).pgdir = some d) : Ran s p (.store va bytes) (s.setMem mem)
  | other (o) : Ran s p (.other o) (o.run s p)

theorem Call.ran {s s' : Kernel} {p : PIdx} {c : Call} (h : c.run s p = .ok s') : Ran s p c s' := by
  cases c with
  | fork | wait | exec | sbrk | mGet | mRem | cmCreateAndEnter | mutexCreate =>
    obtain ⟨⟨r, s1⟩, hrun, rfl⟩ := eq_ok_of_map h
    constructor
    exact hrun
  | exit => exact .exit h
  | cmSetroot =>
    obtain ⟨d, hd, h⟩ := withPgdir_eq_ok h
    exact .cmSetroot h hd
  | prioSet =>
    obtain ⟨d, hd, h⟩ := withPgdir_eq_ok h
    obtain ⟨⟨r, s1⟩, hrun, rfl⟩ := eq_ok_of_map h
    exact .prioSet hrun hd
  | store =>
    obtain ⟨d, hd, h⟩ := withPgdir_eq_ok h
    obtain ⟨mem, hmem, rfl⟩ := eq_ok_of_map h
    exact .store mem hmem hd
  | mutexDelete =>
    obtain ⟨i, hi, h⟩ := bind_eq_ok.mp h
    cases h
    exact .mutexDelete i hi
  | kill | cmMaxproc | other =>
    cases h
    constructor

end Dockv6
