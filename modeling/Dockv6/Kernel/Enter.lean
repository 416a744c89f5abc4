import Dockv6.Kernel.Fork

/-!
# What the creation of a container does

`cmCreateAndEnter_cases`: without a free container the caller has a new name and nothing else
happens; otherwise there is a `fork` by the caller, in the new container, and the caller leaves it
again, whatever the `fork` did.
-/

namespace Dockv6

open Kernel Function

variable {s s' : Kernel} {p : PIdx} {d : Pgdir}

/-- Containers, the file system and memory contents have changed, and nothing else. -/
def RootOnly (s s' : Kernel) : Prop :=
  ∃ containers fs mem,
      s' = { s with containers := containers, fs := fs, km := { s.km with mem := mem } }

namespace RootOnly

theorem refl (s : Kernel) : RootOnly s s := ⟨s.containers, s.fs, s.km.mem, rfl⟩

theorem trans {s1 s2 s3 : Kernel} (h : RootOnly s1 s2) (h' : RootOnly s2 s3) : RootOnly s1 s3 := by
  obtain ⟨c, fs, mem, rfl⟩ := h
  obtain ⟨c', fs', mem', rfl⟩ := h'
  exact ⟨c', fs', mem', rfl⟩

end RootOnly

theorem nameiProc_rootOnly {path : Bytes} {r : Option Slot}
    (h : nameiProc s p d path = .ok (r, s')) : RootOnly s s' := by
  unfold nameiProc at h
  split_ifs at h
  · obtain ⟨mem, -, h⟩ := bind_eq_ok.mp h
    obtain ⟨w, -, h⟩ := bind_eq_ok.mp h
    dsimp only at h
    split_ifs at h
    cases h
    exact ⟨s.containers, s.fs, mem, rfl⟩
  · obtain ⟨⟨r, fs⟩, -, h⟩ := bind_eq_ok.mp h
    cases h
    exact ⟨s.containers, fs, s.km.mem, rfl⟩

theorem cmSetroot_rootOnly {path : Bytes} {len : Int} {c : CIdx}
    (h : cmSetroot s p d path len c = .ok s') : RootOnly s s' := by
  unfold cmSetroot at h
  split_ifs at h
  · cases h
    exact .refl s
  · obtain ⟨⟨root, s1⟩, hnamei, h⟩ := bind_eq_ok.mp h
    obtain ⟨mem, -, h⟩ := bind_eq_ok.mp h
    cases h
    exact (nameiProc_rootOnly hnamei).trans ⟨_, s1.fs, mem, rfl⟩

theorem idupPtr_rootOnly {ip : Option Slot} (h : idupPtr s d ip = .ok s') : RootOnly s s' := by
  unfold idupPtr at h
  split at h
  · cases h
    exact ⟨s.containers, _, s.km.mem, rfl⟩
  · obtain ⟨mem, -, h⟩ := bind_eq_ok.mp h
    cases h
    exact ⟨s.containers, s.fs, mem, rfl⟩

/-- The caller with the name of the container manager. -/
def Proc.renamed (x : Proc) : Proc := { x with name := strncpy x.name [99, 109] 2 }

/-- The caller when it is in the container `c` with the id `cid`. -/
def Proc.entered (x : Proc) (c : CIdx) (cwd : Option Slot) (cid : ℕ) : Proc :=
  { x.renamed with container := some c, cwd := cwd, container_id := cid }

/-- The state of `cm_create_and_enter` before its `fork`. -/
def Kernel.entered (s : Kernel) (p : PIdx) (c : CIdx) (cwd : Option Slot) (cid : ℕ)
    (containers : CIdx → Container) (fs : Fs) (mem : Mem) : Kernel :=
  { s.setProc p ((s.proc p).entered c cwd cid) with
    containers := containers, nextcid := s.nextcid + 1, fs := fs, km := { s.km with mem := mem } }

section Entered

variable {c : CIdx} {cwd : Option Slot} {cid : ℕ} {containers : CIdx → Container}
  {fs : Fs} {mem : Mem}

theorem entered_self :
    (s.entered p c cwd cid containers fs mem).proc p = (s.proc p).entered c cwd cid :=
  setProc_self s p _

theorem entered_of_ne {q : PIdx} (hq : q ≠ p) :
    (s.entered p c cwd cid containers fs mem).proc q = s.proc q :=
  setProc_of_ne s p _ hq

theorem entered_live (hp : s.live p) : (s.entered p c cwd cid containers fs mem).live p := by
  rw [Kernel.live, entered_self]
  exact hp

end Entered

theorem cmMaxproc_eq (s : Kernel) (p : PIdx) (n : Int) :
    ∃ c, (cmMaxproc s p n).2 = { s with containers := c } := by
  unfold cmMaxproc
  split_ifs
  · exact ⟨s.containers, rfl⟩
  split
  · exact ⟨s.containers, rfl⟩
  · split_ifs
    · exact ⟨s.containers, rfl⟩
    · exact ⟨_, rfl⟩

theorem cmClaim_cases {init : Bytes} {r : Option CIdx} (h : cmClaim s p d init = .ok (r, s')) :
    (r = none ∧ s' = s.setProc p (s.proc p).renamed) ∨
      ∃ c containers mem, r = some c ∧ s' = { s.setProc p (s.proc p).renamed with
        containers := containers, nextcid := s.nextcid + 1, km := { s.km with mem := mem } } := by
  unfold cmClaim at h
  dsimp only at h
  split at h
  · cases h
    exact .inl ⟨rfl, rfl⟩
  · rename_i c _
    obtain ⟨mem, -, h⟩ := bind_eq_ok.mp h
    cases h
    exact .inr ⟨c, _, mem, rfl, rfl⟩

theorem cmEnter_cases {fs : Bytes} {c : CIdx} (h : cmEnter s p d fs c = .ok s') :
    ∃ cwd containers fs mem,
    s' = { s.setProc p { s.proc p with container := some c, cwd := cwd } with
      containers := containers, fs := fs, km := { s.km with mem := mem } } := by
  obtain ⟨s1, hroot, h⟩ := bind_eq_ok.mp h
  obtain ⟨s2, hdup, h⟩ := bind_eq_ok.mp h
  cases h
  obtain ⟨containers, fs', mem, rfl⟩ := (cmSetroot_rootOnly hroot).trans (idupPtr_rootOnly hdup)
  refine ⟨(containers c).root, containers, fs', mem, ?_⟩
  simp only [Kernel.setProc, update_self, update_idem]

theorem cmMove_cases (s : Kernel) (p : PIdx) (c : CIdx) (n : Int) :
    ∃ cid containers, cmMove s p c n =
      { s.setProc p { s.proc p with container_id := cid } with containers := containers } := by
  unfold cmMove
  dsimp only
  obtain ⟨containers, h⟩ := cmMaxproc_eq
    (s.setProc p { s.proc p with container_id := (s.containers c).container_id }) p n
  exact ⟨_, containers, h⟩

/-- **The outcomes of `cm_create_and_enter`.** -/
theorem cmCreateAndEnter_cases {init fs : Bytes} {n r : Int}
    (h : cmCreateAndEnter s p init fs n = .ok (r, s')) :
    s' = s.setProc p (s.proc p).renamed ∨
      ∃ c cwd cid containers fs mem r' s1,
        fork (s.entered p c cwd cid containers fs mem) p = .ok (r', s1) ∧ s' = cmLeave s1 p := by
  unfold cmCreateAndEnter at h
  split at h
  · cases h
  obtain ⟨⟨c, s1⟩, hclaim, h⟩ := bind_eq_ok.mp h
  obtain ⟨rfl, rfl⟩ | ⟨c, containers1, mem1, rfl, rfl⟩ := cmClaim_cases hclaim
  · cases h
    exact .inl rfl
  obtain ⟨s2, henter, h⟩ := bind_eq_ok.mp h
  obtain ⟨⟨r', s3⟩, hfork, h⟩ := bind_eq_ok.mp h
  cases h
  obtain ⟨cwd, containers2, fs', mem, rfl⟩ := cmEnter_cases henter
  obtain ⟨cid, containers, hmove⟩ := cmMove_cases _ p c n
  refine .inr ⟨c, cwd, cid, containers, fs', mem, r', s3, ?_, rfl⟩
  rw [hmove] at hfork
  simp only [Kernel.setProc, update_self, update_idem] at hfork
  exact hfork

end Dockv6
