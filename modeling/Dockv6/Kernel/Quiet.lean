import Dockv6.Kernel.Step

/-!
# What the calls on files and memory leave alone

A process is known to others by its state, pid, parent, container and mutexes (`Proc.ident`). The
calls on memory and files keep this, but that they may wake processes up, and the mutexes,
containers and priority queue: `Quiet`. The functions on memory alone change nothing but memory
(`MemOnly`).
-/

namespace Dockv6

open Kernel

/-- The state of a process, if it were not asleep. -/
def ProcState.awake : ProcState → ProcState
  | SLEEPING => RUNNABLE
  | RUNNING => RUNNABLE
  | st => st

theorem ProcState.unused_iff {a b : ProcState} (h : a.awake = b.awake) :
    a = UNUSED ↔ b = UNUSED := by
  cases a <;> cases b <;> simp [awake] at h ⊢

theorem ProcState.zombie_iff {a b : ProcState} (h : a.awake = b.awake) :
    a = ZOMBIE ↔ b = ZOMBIE := by
  cases a <;> cases b <;> simp [awake] at h ⊢

/-- What others know a process by. -/
structure Ident where
  state : ProcState
  pid : ℕ
  parent : Option PIdx
  container : Option CIdx
  container_id : ℕ
  mutex : MuxIdx → Option MuxIdx

/-- What others know `x` by. -/
def Proc.ident (x : Proc) : Ident :=
  { state := x.state.awake, pid := x.pid, parent := x.parent, container := x.container,
    container_id := x.container_id, mutex := x.mutex }

/-- The identities, the mutexes, the limits and the queue are the same. -/
structure Quiet (s s' : Kernel) : Prop where
  ident : ∀ q, (s'.proc q).ident = (s.proc q).ident
  mux : s'.mux = s.mux
  cid : ∀ c, (s'.containers c).container_id = (s.containers c).container_id
  nproc : ∀ c, (s'.containers c).nproc = (s.containers c).nproc
  initproc : s'.initproc = s.initproc
  nextpid : s'.nextpid = s.nextpid
  nextcid : s'.nextcid = s.nextcid
  pq : s'.pq = s.pq

variable {s s' : Kernel} {p : PIdx} {d : Pgdir}

namespace Quiet

theorem refl (s : Kernel) : Quiet s s :=
  ⟨fun _ => rfl, rfl, fun _ => rfl, fun _ => rfl, rfl, rfl, rfl, rfl⟩

theorem trans {s1 s2 s3 : Kernel} (h : Quiet s1 s2) (h' : Quiet s2 s3) : Quiet s1 s3 where
  ident q := (h'.ident q).trans (h.ident q)
  mux := h'.mux.trans h.mux
  cid c := (h'.cid c).trans (h.cid c)
  nproc c := (h'.nproc c).trans (h.nproc c)
  initproc := h'.initproc.trans h.initproc
  nextpid := h'.nextpid.trans h.nextpid
  nextcid := h'.nextcid.trans h.nextcid
  pq := h'.pq.trans h.pq

/-- Memory, files, shared pages and the disk do not matter. -/
theorem of_eq (hp : s'.proc = s.proc) (hm : s'.mux = s.mux) (hc : s'.containers = s.containers)
    (hi : s'.initproc = s.initproc) (hn : s'.nextpid = s.nextpid) (hn' : s'.nextcid = s.nextcid)
    (hq : s'.pq = s.pq) : Quiet s s' :=
  ⟨fun q => by rw [hp], hm, fun c => by rw [hc], fun c => by rw [hc], hi, hn, hn', hq⟩

theorem setProc {x : Proc} (hx : x.ident = (s.proc p).ident) : Quiet s (s.setProc p x) :=
  { refl s with ident := setProc_field Proc.ident hx }

theorem setMem (s : Kernel) (mem : Mem) : Quiet s (s.setMem mem) :=
  .of_eq rfl rfl rfl rfl rfl rfl rfl

theorem wakeup1 (s : Kernel) (chan : Option Chan) : Quiet s (wakeup1 s chan) := by
  refine { refl s with ident := fun q => ?_ }
  unfold Dockv6.wakeup1
  dsimp only
  split_ifs with hq
  · simp only [Proc.ident, hq.1, ProcState.awake]
  · rfl

-- A change before a quiet part, by what it changes.

theorem of_setProc {x : Proc} (h : Quiet (s.setProc p x) s') (hx : x.ident = (s.proc p).ident) :
    Quiet s s' :=
  (setProc hx).trans h

theorem awake_eq (h : Quiet s s') (q : PIdx) :
    (s'.proc q).state.awake = (s.proc q).state.awake :=
  congrArg Ident.state (h.ident q)

theorem container_id (h : Quiet s s') (q : PIdx) :
    (s'.proc q).container_id = (s.proc q).container_id :=
  congrArg Ident.container_id (h.ident q)

theorem live (h : Quiet s s') (q : PIdx) : s'.live q ↔ s.live q :=
  not_congr (ProcState.unused_iff (h.awake_eq q))

end Quiet

theorem wakeups_quiet (s : Kernel) (l : List Chan) : Quiet s (wakeups s l) := by
  unfold wakeups
  induction l generalizing s with
  | nil => exact .refl s
  | cons c l ih => exact (Quiet.wakeup1 s (some c)).trans (ih _)

/-! ## Files -/

theorem pipeclose_quiet {page : ℕ} {writable : Bool} (h : pipeclose s page writable = .ok s') :
    Quiet s s' := by
  unfold pipeclose at h
  dsimp only at h
  have hpipe : ∀ f, Quiet s { s with pipe := f } := fun f => .of_eq rfl rfl rfl rfl rfl rfl rfl
  split_ifs at h
  all_goals
    first
    | obtain ⟨m, -, h⟩ := bind_eq_ok.mp h
      cases h
      exact ((hpipe _).trans (.wakeup1 _ _)).trans (.of_eq rfl rfl rfl rfl rfl rfl rfl)
    | cases h
      exact (hpipe _).trans (.wakeup1 _ _)

theorem fileclose_quiet {f : FIdx} (h : fileclose s f = .ok s') : Quiet s s' := by
  unfold fileclose at h
  dsimp only at h
  have hfile : ∀ g, Quiet s { s with file := g } := fun g => .of_eq rfl rfl rfl rfl rfl rfl rfl
  split_ifs at h
  · cases h
    exact hfile _
  · split at h
    · exact (hfile _).trans (pipeclose_quiet h)
    · cases h
      exact .of_eq rfl rfl rfl rfl rfl rfl rfl
    · cases h
      exact hfile _

theorem closeFiles_quiet {fds : List (Fin NOFILE)} (h : closeFiles p fds s = .ok s') :
    Quiet s s' := by
  induction fds generalizing s with
  | nil =>
    cases h
    exact .refl _
  | cons fd fds ih =>
    rw [closeFiles] at h
    split at h
    · exact ih h
    · obtain ⟨s1, h1, h⟩ := bind_eq_ok.mp h
      exact (fileclose_quiet h1).trans ((ih h).of_setProc rfl)

theorem idupPtr_quiet {ip : Option Slot} (h : idupPtr s d ip = .ok s') : Quiet s s' := by
  unfold idupPtr at h
  split at h
  · cases h
    exact .of_eq rfl rfl rfl rfl rfl rfl rfl
  · obtain ⟨mem, -, h⟩ := bind_eq_ok.mp h
    cases h
    exact .setMem s mem

theorem nameiProc_quiet {path : Bytes} {r : Option Slot} (h : nameiProc s p d path = .ok (r, s')) :
    Quiet s s' := by
  unfold nameiProc at h
  split_ifs at h
  · obtain ⟨mem, -, h⟩ := bind_eq_ok.mp h
    obtain ⟨w, -, h⟩ := bind_eq_ok.mp h
    dsimp only at h
    split_ifs at h
    cases h
    exact .setMem s mem
  · obtain ⟨⟨r, fs⟩, -, h⟩ := bind_eq_ok.mp h
    cases h
    exact .of_eq rfl rfl rfl rfl rfl rfl rfl

theorem cmSetroot_quiet {path : Bytes} {len : Int} {c : CIdx}
    (h : cmSetroot s p d path len c = .ok s') : Quiet s s' := by
  unfold cmSetroot at h
  split_ifs at h
  · cases h
    exact .refl s
  · obtain ⟨⟨root, s1⟩, h1, h⟩ := bind_eq_ok.mp h
    obtain ⟨mem, -, h⟩ := bind_eq_ok.mp h
    cases h
    refine (nameiProc_quiet h1).trans ?_
    refine Quiet.trans ?_ (.setMem _ mem)
    refine { Quiet.refl s1 with cid := fun c' => ?_, nproc := fun c' => ?_ }
    all_goals
      rw [setContainer_containers]
      split_ifs with hc
      · rw [hc]
      · rfl

/-! ## Memory -/

/-- A process without its memory. -/
def Proc.husk (x : Proc) : Proc :=
  { x with sz := 0, pgdir := none, tf := { eax := 0, eip := 0, esp := 0 }, name := [],
           shared_mem := fun _ => { in_use := false, name := [], va := 0, global_ptr := none } }

/-- Only the memory of processes, the shared pages and the free pages change. -/
structure MemOnly (s s' : Kernel) : Prop where
  husk : ∀ q, (s'.proc q).husk = (s.proc q).husk
  rest : ∃ shm km, s' = { s with proc := s'.proc, shm := shm, km := km }

namespace MemOnly

theorem refl (s : Kernel) : MemOnly s s := ⟨fun _ => rfl, s.shm, s.km, rfl⟩

theorem trans {s1 s2 s3 : Kernel} (h : MemOnly s1 s2) (h' : MemOnly s2 s3) : MemOnly s1 s3 := by
  refine ⟨fun q => (h'.husk q).trans (h.husk q), ?_⟩
  obtain ⟨shm, km, hs2⟩ := h.rest
  obtain ⟨shm', km', hs3⟩ := h'.rest
  refine ⟨shm', km', ?_⟩
  rw [hs3, hs2]

theorem setProc {x : Proc} (hx : x.husk = (s.proc p).husk) : MemOnly s (s.setProc p x) :=
  ⟨setProc_field Proc.husk hx, s.shm, s.km, rfl⟩

theorem setMem (s : Kernel) (mem : Mem) : MemOnly s (s.setMem mem) := ⟨fun _ => rfl, s.shm, _, rfl⟩

-- A change before the rest, by what it changes.

theorem of_setProc {x : Proc} (h : MemOnly (s.setProc p x) s') (hx : x.husk = (s.proc p).husk) :
    MemOnly s s' :=
  (setProc hx).trans h

theorem of_setShm {g : ShmIdx} {x : SharedMem} (h : MemOnly (s.setShm g x) s') : MemOnly s s' :=
  (⟨fun _ => rfl, _, s.km, rfl⟩ : MemOnly s (s.setShm g x)).trans h

theorem of_km {m : Kmem} (h : MemOnly { s with km := m } s') : MemOnly s s' :=
  (⟨fun _ => rfl, s.shm, m, rfl⟩ : MemOnly s { s with km := m }).trans h

theorem of_setVm {m : Kmem} (h : MemOnly (s.setVm p d m) s') : MemOnly s s' :=
  (of_km h).of_setProc rfl

/-- A field that is not about memory is the same. -/
theorem field {α : Type*} (h : MemOnly s s') (f : Proc → α) (hf : ∀ x : Proc, f x.husk = f x)
    (q : PIdx) : f (s'.proc q) = f (s.proc q) :=
  (hf _).symm.trans ((congrArg f (h.husk q)).trans (hf _))

theorem quiet (h : MemOnly s s') : Quiet s s' := by
  have hident := h.field Proc.ident fun _ => rfl
  obtain ⟨shm, km, hs⟩ := h.rest
  rw [hs] at hident ⊢
  exact { Quiet.refl s with ident := hident }

end MemOnly

theorem growproc_memOnly {n r : Int} (h : growproc s p n = .ok (r, s')) : MemOnly s s' := by
  unfold growproc at h
  split at h
  · cases h
  · obtain ⟨⟨sz, d', m⟩, -, h⟩ := bind_eq_ok.mp h
    have hvm : MemOnly s (s.setVm p d' m) := .of_setVm (.refl _)
    dsimp only at h
    split_ifs at h
    · cases h
      exact hvm
    · cases h
      exact hvm.trans (.setProc rfl)

theorem growproc_quiet {n r : Int} (h : growproc s p n = .ok (r, s')) : Quiet s s' :=
  (growproc_memOnly h).quiet

theorem shmFill_memOnly {name : Bytes} {i : Option ShmIdx} {va : ℕ} {g : ShmIdx}
    (h : shmFill s p d name i va g = .ok s') : MemOnly s s' := by
  unfold shmFill at h
  split at h
  · split_ifs at h
    cases h
    exact .setProc rfl
  · obtain ⟨_, -, h⟩ := bind_eq_ok.mp h
    obtain ⟨_, -, h⟩ := bind_eq_ok.mp h
    obtain ⟨_, -, h⟩ := bind_eq_ok.mp h
    obtain ⟨_, -, h⟩ := bind_eq_ok.mp h
    cases h
    exact .setMem s _

theorem shmAttach_memOnly {name : Bytes} {i : Option ShmIdx} {g : ShmIdx} {r : Int}
    (h : shmAttach s p d name i g = .ok (r, s')) : MemOnly s s' := by
  obtain ⟨s1, h1, h⟩ := bind_eq_ok.mp h
  cases h
  have h2 := (shmFill_memOnly h1).of_setProc (by simp only [Proc.husk])
  exact h2.trans (.of_setShm (.refl _))

theorem shmNew_memOnly {name : Bytes} {i : Option ShmIdx} {g : ShmIdx} {r : Int}
    (h : shmNew s p d name i g = .ok (r, s')) : MemOnly s s' := by
  unfold shmNew at h
  dsimp only at h
  split at h
  · cases h
    exact .of_setShm (.refl _)
  · obtain ⟨⟨ok, d', m⟩, -, h⟩ := bind_eq_ok.mp h
    dsimp only at h
    split_ifs at h
    exact (shmAttach_memOnly h).of_setShm.of_setVm.of_setShm

theorem shmGet_memOnly {name : Bytes} {r : Int} (h : shmGet s p name = .ok (r, s')) :
    MemOnly s s' := by
  unfold shmGet at h
  split at h
  · cases h
  rename_i d _
  obtain ⟨cmp, -, h⟩ := bind_eq_ok.mp h
  split_ifs at h
  · cases h
    exact .refl s
  · cases h
    exact .refl s
  split at h
  · obtain ⟨⟨ok, d', m⟩, -, h⟩ := bind_eq_ok.mp h
    dsimp only at h
    split_ifs at h
    · exact (shmAttach_memOnly h).of_setVm
    · cases h
      exact .of_setVm (.refl _)
  split at h
  · cases h
    exact .refl s
  · exact shmNew_memOnly h

theorem shmGet_quiet {name : Bytes} {r : Int} (h : shmGet s p name = .ok (r, s')) : Quiet s s' :=
  (shmGet_memOnly h).quiet

theorem shmRem_memOnly {name : Bytes} {r : Int} (h : shmRem s p name = .ok (r, s')) :
    MemOnly s s' := by
  unfold shmRem at h
  split at h
  · cases h
    exact .refl s
  split at h
  · cases h
    exact .refl s
  split at h
  · cases h
  obtain ⟨s1, hrem, h⟩ := bind_eq_ok.mp h
  cases h
  have hdetach : ∀ s1 d i, MemOnly s1 (shmDetach s1 p d i) :=
    fun s1 d i => .setProc (by simp only [Proc.husk])
  unfold shmRemove at hrem
  dsimp only at hrem
  split_ifs at hrem
  · split at hrem
    · cases hrem
    · obtain ⟨m, -, hrem⟩ := bind_eq_ok.mp hrem
      cases hrem
      exact (hdetach _ _ _).of_setShm.of_km.of_setProc rfl
  · cases hrem
    exact (hdetach _ _ _).of_setShm.of_setProc rfl

theorem shmRem_quiet {name : Bytes} {r : Int} (h : shmRem s p name = .ok (r, s')) : Quiet s s' :=
  (shmRem_memOnly h).quiet

theorem exitShm_memOnly {is : List ShmIdx} (h : exitShm p is s = .ok s') : MemOnly s s' := by
  induction is generalizing s with
  | nil =>
    cases h
    exact .refl _
  | cons i is ih =>
    rw [exitShm] at h
    split_ifs at h
    · obtain ⟨⟨r, s1⟩, h1, h⟩ := bind_eq_ok.mp h
      exact (shmRem_memOnly h1).trans (ih h)
    · exact ih h

theorem exitShm_quiet {is : List ShmIdx} (h : exitShm p is s = .ok s') : Quiet s s' :=
  (exitShm_memOnly h).quiet

theorem execCommit_memOnly {path : Bytes} {entry : ℕ} {img : NewImage} {old : Pgdir}
    (h : execCommit s p path entry img old = .ok s') : MemOnly s s' := by
  obtain ⟨m, -, h⟩ := bind_eq_ok.mp h
  cases h
  refine MemOnly.trans (.setProc ?_) (.of_km (.refl _))
  rfl

theorem execElf_memOnly {old : Pgdir} {path data : Bytes} {elf : Elfhdr}
    {argv : List Bytes} {r : Int}
    (h : execElf s p old path data elf argv = .ok (r, s')) : MemOnly s s' := by
  obtain ⟨m, -, rfl⟩ | ⟨-, -, -, -, m', -, -, ⟨m'', -, -, rfl⟩ | ⟨img, -, hcommit⟩⟩ :=
    execElf_cases h
  · exact .of_km (.refl _)
  · exact .of_km (.refl _)
  · exact (execCommit_memOnly hcommit).of_km

theorem exec_quiet {path : Bytes} {argv : List Bytes} {r : Int}
    (h : exec s p path argv = .ok (r, s')) : Quiet s s' := by
  obtain ⟨old, ip, s1, -, hnamei, hrest⟩ := exec_cases h
  refine (nameiProc_quiet hnamei).trans ?_
  obtain ⟨-, rfl⟩ | ⟨i, fs, fs', -, -, -, hrest⟩ := hrest
  · exact .refl _
  have hfs : Quiet s1 { s1 with fs := fs' } := .of_eq rfl rfl rfl rfl rfl rfl rfl
  obtain rfl | ⟨data, elf, hexec⟩ := hrest
  · exact hfs
  · exact hfs.trans (execElf_memOnly hexec).quiet

/-! ## Calls -/

theorem sysCmSetroot_quiet {path : Bytes} {len : Int} (h : sysCmSetroot s p d path len = .ok s') :
    Quiet s s' := by
  obtain rfl | ⟨c, -, -, h⟩ := sysCmSetroot_cases h
  · exact .refl _
  · exact cmSetroot_quiet h

/-- The calls on memory and the root of a container. -/
def Call.isQuiet : Call → Bool
  | .exec .. | .sbrk _ | .mGet _ | .mRem _ | .cmSetroot .. | .store .. => true
  | _ => false

theorem Call.run_quiet {c : Call} (h : c.run s p = .ok s') (hc : c.isQuiet = true) :
    Quiet s s' := by
  cases c.ran h with
  | fork | exit | wait | kill | cmCreateAndEnter | cmMaxproc | mutexCreate | mutexDelete | prioSet
  | other => cases hc
  | exec h => exact exec_quiet h
  | sbrk h => exact growproc_quiet h
  | mGet h => exact shmGet_quiet h
  | mRem h => exact shmRem_quiet h
  | cmSetroot h => exact sysCmSetroot_quiet h
  | store mem => exact .setMem s mem

end Dockv6
