import Dockv6.Kernel.Exit
import Dockv6.Kernel.Fork

/-!
# What the other calls leave of memory

The calls on mutexes, priorities and containers, `kill`, and the stores of a process to its memory
change neither an address space nor a shared page nor the list of free pages: `MemSame`.
-/

namespace Dockv6

open Kernel

/-- What concerns the memory of a process; its descriptors, as closing them may free a page, and its
container, which the names of shared pages belong to. -/
structure MemView where
  state : ProcState
  sz : ℕ
  pgdir : Option Pgdir
  kstack : Option ℕ
  shared_mem : ShmIdx → Shmem
  ofile : Fin NOFILE → Option FIdx
  container_id : ℕ

/-- What concerns the memory of `x`. -/
def Proc.view (x : Proc) : MemView :=
  { state := x.state.awake, sz := x.sz, pgdir := x.pgdir, kstack := x.kstack,
    shared_mem := x.shared_mem, ofile := x.ofile, container_id := x.container_id }

/-- Address spaces, shared pages and free pages are the same. -/
structure MemSame (s s' : Kernel) : Prop where
  view : ∀ q, (s'.proc q).view = (s.proc q).view
  shm : s'.shm = s.shm
  free : s'.km.free = s.km.free
  first : s'.km.first = s.km.first

variable {s s' : Kernel} {p : PIdx} {d : Pgdir}

namespace MemSame

theorem refl (s : Kernel) : MemSame s s := ⟨fun _ => rfl, rfl, rfl, rfl⟩

theorem trans {s1 s2 s3 : Kernel} (h : MemSame s1 s2) (h' : MemSame s2 s3) : MemSame s1 s3 where
  view q := (h'.view q).trans (h.view q)
  shm := h'.shm.trans h.shm
  free := h'.free.trans h.free
  first := h'.first.trans h.first

theorem of_eq (hp : s'.proc = s.proc) (hs : s'.shm = s.shm) (hf : s'.km.free = s.km.free)
    (hf' : s'.km.first = s.km.first) : MemSame s s' :=
  ⟨fun q => by rw [hp], hs, hf, hf'⟩

theorem setProc {x : Proc} (hx : x.view = (s.proc p).view) : MemSame s (s.setProc p x) :=
  { refl s with view := setProc_field Proc.view hx }

theorem of_queueOnly (h : QueueOnly s s') : MemSame s s' := by
  obtain ⟨q, mem, rfl⟩ := h
  exact .of_eq rfl rfl rfl rfl

theorem of_mutexOnly (h : MutexOnly p s s') : MemSame s s' := by
  obtain ⟨mux, f, rfl⟩ := h
  have hset : MemSame s (s.setProc p { s.proc p with mutex := f }) := .setProc rfl
  exact hset.trans (.of_eq rfl rfl rfl rfl)

end MemSame

theorem exitMutexes_memSame (s : Kernel) (p : PIdx) : MemSame s (exitMutexes s p) :=
  .of_mutexOnly (exitMutexes_mutexOnly s p)

theorem kill_memSame (s : Kernel) (cur : PIdx) (pid : Int) : MemSame s (kill s cur pid).2 := by
  obtain h | ⟨q, mux, h⟩ := kill_cases s cur pid
  · rw [h]
    exact .refl s
  · rw [h]
    refine MemSame.trans (.setProc ?_) (.of_eq rfl rfl rfl rfl)
    unfold Proc.view
    dsimp only
    split_ifs with hstate
    · rw [hstate]
      rfl
    · rfl

theorem nameiProc_memSame {path : Bytes} {r : Option Slot}
    (h : nameiProc s p d path = .ok (r, s')) : MemSame s s' := by
  unfold nameiProc at h
  split_ifs at h
  · obtain ⟨mem, -, h⟩ := bind_eq_ok.mp h
    obtain ⟨w, -, h⟩ := bind_eq_ok.mp h
    dsimp only at h
    split_ifs at h
    cases h
    exact .of_queueOnly (queueOnly_setMem s mem)
  · obtain ⟨⟨r, fs⟩, -, h⟩ := bind_eq_ok.mp h
    cases h
    exact .of_eq rfl rfl rfl rfl

theorem cmSetroot_memSame {path : Bytes} {len : Int} {c : CIdx}
    (h : cmSetroot s p d path len c = .ok s') : MemSame s s' := by
  unfold cmSetroot at h
  split_ifs at h
  · cases h
    exact .refl s
  · obtain ⟨⟨root, s1⟩, h1, h⟩ := bind_eq_ok.mp h
    obtain ⟨mem, -, h⟩ := bind_eq_ok.mp h
    cases h
    exact (nameiProc_memSame h1).trans (.of_eq rfl rfl rfl rfl)

theorem cmMaxproc_memSame (s : Kernel) (p : PIdx) (n : Int) : MemSame s (cmMaxproc s p n).2 := by
  unfold cmMaxproc
  split_ifs
  · exact .refl s
  split
  · exact .refl s
  · split_ifs
    · exact .refl s
    · exact .of_eq rfl rfl rfl rfl

/-- The calls that are not about memory. -/
def Call.sparesMemory : Call → Bool
  | .kill _ | .cmMaxproc _ | .cmSetroot .. | .mutexCreate _ | .mutexDelete _ | .prioSet ..
  | .store .. => true
  | _ => false

theorem Call.run_memSame {c : Call} (h : c.run s p = .ok s') (hc : c.sparesMemory = true) :
    MemSame s s' := by
  cases c.ran h with
  | fork | exit | wait | exec | sbrk | mGet | mRem | cmCreateAndEnter | other => cases hc
  | kill pid => exact kill_memSame s p pid
  | cmMaxproc n => exact cmMaxproc_memSame s p n
  | cmSetroot h =>
    obtain rfl | ⟨c, -, -, h⟩ := sysCmSetroot_cases h
    · exact .refl _
    · exact cmSetroot_memSame h
  | mutexCreate h => exact .of_mutexOnly (mutexCreate_mutexOnly h)
  | mutexDelete i => exact .of_mutexOnly (mutexDelete_mutexOnly s p i)
  | prioSet h => exact .of_queueOnly (prioSet_queueOnly h)
  | store mem => exact .of_queueOnly (queueOnly_setMem s mem)

end Dockv6
