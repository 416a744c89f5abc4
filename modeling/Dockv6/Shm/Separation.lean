import Dockv6.Shm.Refcount

/-!
# Shared pages and containers

`cm_create_and_enter` is to keep the manager's pages from the first process of the container, but
decides who is the manager by a name that it has overwritten the first two bytes of
(`create_shares_pages`).
-/

namespace Dockv6

open Kernel Function

variable {s s' : Kernel} {p np : PIdx} {i g : ShmIdx} {d : Pgdir}

/-- Each slot belongs to the container of those who refer to it. -/
def Separate (s : Kernel) : Prop :=
  ∀ q i g, s.shmRef (q, i) = some g → (s.shm g).container_id = (s.proc q).container_id

/-! ## No new references -/

/-- There are no new references, and the containers of the slots and of who refers to them stay. -/
structure ShmSub (s s' : Kernel) : Prop where
  ref : ∀ {k g}, s'.shmRef k = some g → s.shmRef k = some g
  container_id : ∀ {q i g}, s'.shmRef (q, i) = some g →
    (s'.proc q).container_id = (s.proc q).container_id
  slot : ∀ g, (s'.shm g).container_id = (s.shm g).container_id

theorem Separate.of_sub (h : Separate s) (hs : ShmSub s s') : Separate s' := by
  intro q i g hk
  rw [hs.slot, hs.container_id hk]
  exact h q i g (hs.ref hk)

namespace ShmSub

theorem refl (s : Kernel) : ShmSub s s := ⟨id, fun _ => rfl, fun _ => rfl⟩

theorem trans {s1 s2 s3 : Kernel} (h : ShmSub s1 s2) (h' : ShmSub s2 s3) : ShmSub s1 s3 where
  ref hk := h.ref (h'.ref hk)
  container_id hk := (h'.container_id hk).trans (h.container_id (h'.ref hk))
  slot g := (h'.slot g).trans (h.slot g)

theorem of_same (h : ShmSame s s') (hid : ∀ q, (s'.proc q).container_id = (s.proc q).container_id) :
    ShmSub s s' where
  ref hk := h.ref ▸ hk
  container_id _ := hid _
  slot g := by rw [h.shm]

theorem of_memSame (h : MemSame s s') : ShmSub s s' :=
  of_same (.of_memSame h) fun q => congrArg MemView.container_id (h.view q)

/-- A slot that loses what it refers to. -/
theorem setProc_none {x : Proc} (hx : ∀ i, x.shmRef i = none) : ShmSub s (s.setProc p x) := by
  have hne : ∀ {q i g}, (s.setProc p x).shmRef (q, i) = some g → q ≠ p := by
    rintro q i g hk rfl
    rw [Kernel.shmRef, setProc_self, hx] at hk
    cases hk
  refine ⟨fun {k g} hk => ?_, fun hk => ?_, fun _ => rfl⟩
  · rwa [Kernel.shmRef, setProc_of_ne _ _ _ (hne hk)] at hk
  · rw [setProc_of_ne _ _ _ (hne hk)]

end ShmSub

theorem ShmRemoved.slot (h : ShmRemoved s p d g i s') (g' : ShmIdx) :
    (s'.shm g').container_id = (s.shm g').container_id := by
  have hset : ∀ x : SharedMem, x.container_id = (s.shm g).container_id →
      ((s.setShm g x).shm g').container_id = (s.shm g').container_id := by
    intro x hx
    rw [setShm_shm]
    split_ifs with hg
    · rw [hx, hg]
    · rfl
  cases h with
  | last => exact hset _ rfl
  | dropped => exact hset _ rfl

theorem shmRem_sub {name : Bytes} {r : Int} (h : shmRem s p name = .ok (r, s')) (hp : s.live p) :
    ShmSub s s' := by
  have hid := (shmRem_quiet h).container_id
  obtain ⟨rfl, -⟩ | ⟨g, i, d, -, -, -, -, hrem⟩ := shmRem_cases h
  · exact .refl _
  · refine ⟨fun {k g'} hk => ?_, fun _ => hid _, hrem.slot⟩
    rw [hrem.ref hp, update_apply] at hk
    split_ifs at hk
    exact hk

theorem exitShm_sub {is : List ShmIdx} (h : exitShm p is s = .ok s') (hp : s.live p) :
    ShmSub s s' := by
  induction is generalizing s with
  | nil =>
    cases h
    exact .refl _
  | cons i is ih =>
    rw [exitShm] at h
    split_ifs at h
    · obtain ⟨⟨r, s1⟩, hrem, hrest⟩ := bind_eq_ok.mp h
      exact (shmRem_sub hrem hp).trans (ih hrest (((shmRem_quiet hrem).live p).mpr hp))
    · exact ih h hp

theorem exit_sub (h : exit s p = .ok s') (hinv : ShmInv s) (hp : s.live p) : ShmSub s s' := by
  obtain ⟨-, s1, s2, hfiles, hshm, hpassed⟩ := exit_cases h
  rw [closeFiles_of_none (hinv.files p)] at hfiles
  cases hfiles
  have hp2 : s2.live p := ((exitShm_quiet hshm).live p).mpr hp
  have hmux := exitMutexes_memSame s2 p
  have hp3 : (exitMutexes s2 p).live p :=
    fun hu => hp2 ((ProcState.unused_iff (congrArg MemView.state (hmux.view p))).mp hu)
  have hlast : ShmSub (exitMutexes s2 p) s' :=
    ⟨fun hk => hpassed.ref hp3 ▸ hk, fun _ => hpassed.field Proc.container_id
      (fun _ _ _ _ => rfl) _, fun g => by rw [hpassed.shm]⟩
  exact (exitShm_sub hshm hp).trans ((ShmSub.of_memSame hmux).trans hlast)

theorem wait_sub {r : Option Int} (h : wait s p = .ok (r, s')) (hp : s.canRun p) : ShmSub s s' := by
  obtain ⟨q, page, d, m, m', c, -, -, -, -, -, -, rfl⟩ | rfl | rfl := wait_cases h
  · have hfreed : ShmSub s (s.setProc q (s.proc q).freed) := .setProc_none fun i =>
      if_pos (.inl rfl)
    exact hfreed.trans (.of_same (.of_proc rfl rfl) fun _ => rfl)
  · exact .refl _
  · refine .of_same (.setProc ?_ rfl rfl) (setProc_field Proc.container_id rfl)
    rcases hp with hp | hp <;> rw [hp] <;> rfl

/-! ## A new reference -/

theorem Separate.add (h : Separate s) (href : s'.shmRef = update s.shmRef (p, i) (some g))
    (hid : ∀ q, (s'.proc q).container_id = (s.proc q).container_id)
    (hslot : ∀ g', g' ≠ g → (s'.shm g').container_id = (s.shm g').container_id)
    (hnew : (s'.shm g).container_id = (s.proc p).container_id)
    (hold : ∀ {k}, s.shmRef k = some g → (s.shm g).container_id = (s.proc p).container_id) :
    Separate s' := by
  intro q j g' hk
  rw [href, update_apply] at hk
  rw [hid]
  split_ifs at hk with heq
  · cases heq
    cases hk
    exact hnew
  · by_cases hg : g' = g
    · subst hg
      rw [hnew, ← hold hk, h q j g' hk]
    · rw [hslot g' hg, h q j g' hk]

theorem shmGet_separate {name : Bytes} {r : Int} (h : shmGet s p name = .ok (r, s'))
    (hsep : Separate s) (hinv : ShmInv s) (hp : s.canRun p)
    (hi : ∃ i, ((s.proc p).shared_mem i).in_use = false) : Separate s' := by
  have hid := (shmGet_quiet h).container_id
  obtain ⟨i, hi⟩ := freeShmem_of_exists hi
  obtain ⟨d, -, hgot⟩ := shmGet_cases h hi
  have href : ∀ (d' : Pgdir) (g : ShmIdx), (s.setProc p ((s.proc p).attached d' name i g)).shmRef =
      update s.shmRef (p, i) (some g) := fun d' g =>
    shmRef_setProc hp.live (Proc.attached_state ..) (Proc.attached_shared_mem ..)
  cases hgot with
  | refused => exact hsep
  | noTable g d' m => exact hsep.of_sub (.of_same (.setVm s p d' m) hid)
  | noPage g hg hfree =>
    refine hsep.of_sub ⟨id, fun _ => rfl, fun g' => ?_⟩
    rw [setShm_shm]
    split_ifs with heq
    · rw [heq]
    · rfl
  | joined g d' m hg =>
    have hown : (s.shm g).container_id = (s.proc p).container_id := by
      have hnamed := shmNamed_of_findShm hg
      simp only [shmNamed, Bool.and_eq_true, beq_iff_eq] at hnamed
      exact hnamed.2
    refine hsep.add (href d' g) hid (fun g' hg' => ?_) ?_ fun _ => hown
    · exact congrArg SharedMem.container_id (update_of_ne hg' _ _)
    · simp [setShm, SharedMem.joined]
  | made g page free d' m hg hfree =>
    have hnew : ∀ {k}, s.shmRef k ≠ some g := fun {k} hk => by
      have hpos := (hinv.use g).mpr (card_refs_pos hk)
      rw [freeShm_eq_some hfree] at hpos
      cases hpos
    refine hsep.add (href d' g) hid (fun g' hg' => ?_) ?_ fun hk => absurd hk hnew
    · exact congrArg SharedMem.container_id (update_of_ne hg' _ _)
    · simp [setShm, SharedMem.joined]

/-! ## Fork -/

theorem ForkOk.slot {s1 : Kernel} (h : ForkOk s1 p np d s') (g : ShmIdx) :
    (s'.shm g).container_id = (s1.shm g).container_id := by
  obtain ⟨-, page, free, q, mem, d', m, -, -, -, hchild⟩ := h
  obtain ⟨s3, s4, hshm, htail, rfl⟩ := forkChild_cases hchild
  have hcore := ((forkShm_rest hshm).trans htail.toForkRest).shm g
  have hid := congrArg SharedMem.container_id hcore
  exact hid

/-- Who refers to a slot after a `fork`: who did before, or the child in its parent's place. -/
theorem fork_ref {r : Int} (h : fork s p = .ok (r, s')) (hinv : ShmInv s) (hp : s.live p)
    (hstale : s.noStale p (s.proc p).name) :
    (∀ g, (s'.shm g).container_id = (s.shm g).container_id) ∧
      ∀ {q i g}, s'.shmRef (q, i) = some g →
        (s.shmRef (q, i) = some g ∧ s'.proc q = s.proc q) ∨
          (isCm (s.proc p).name = false ∧ s.shmRef (p, i) = some g ∧
            (s'.proc q).container_id = (s.proc p).container_id) := by
  obtain ⟨d, -, ⟨-, rfl, -⟩ | ⟨s1, hs1, hrest⟩⟩ := fork_cases h
  · exact ⟨fun _ => rfl, fun hk => .inl ⟨hk, rfl⟩⟩
  have hshm : s1.shm = s.shm := by cases hs1 <;> rfl
  have hproc := hs1.proc
  have hother : ∀ {q i g}, s'.proc q = s1.proc q → s'.shmRef (q, i) = some g →
      s.shmRef (q, i) = some g ∧ s'.proc q = s.proc q := by
    intro q i g hq hk
    have hq' : s'.proc q = s.proc q := hq.trans (congrFun hs1.proc q)
    exact ⟨by rwa [Kernel.shmRef, hq'] at hk, hq'⟩
  obtain ⟨-, hfailed⟩ | ⟨np, -, hok⟩ := hrest
  · obtain rfl | ⟨np, x, q', m, hunused, hx, hofile, rfl⟩ := hfailed.unused
    · exact ⟨fun g => by rw [hshm], fun hk => .inl (hother rfl hk)⟩
    · refine ⟨fun g => by rw [← hshm], fun {q i g} hk => .inl (hother ?_ hk)⟩
      refine update_of_ne ?_ _ _
      rintro rfl
      have hnone : x.shmRef i = none := if_pos (.inl hx)
      simp [Kernel.shmRef, hnone] at hk
  · have hp1 : s1.live p := by rwa [Kernel.live, hs1.proc]
    have hstale1 : s1.noStale p (s1.proc p).name := by
      rw [hs1.proc]
      exact (noStale_congr (by rw [hs1.proc])).mpr hstale
    have hmade := hok.made hp1
    refine ⟨fun g => by rw [hok.slot, hshm], fun {q i g} hk => ?_⟩
    by_cases hq : q = np
    · subst hq
      have href := (hok.shmInv (hinv.of_proc hs1.proc hshm) hp1 hstale1).2 i
      rw [hk, hs1.proc] at href
      have hid : (s'.proc q).container_id = (s1.proc p).container_id :=
        congrArg Ident.container_id hmade.child
      split_ifs at href with hcm
      refine .inr ⟨by simpa using hcm, ?_, by rw [hid, hs1.proc]⟩
      rw [Kernel.shmRef, ← hs1.proc]
      exact href.symm
    · exact .inl (hother (hmade.others q hq) hk)

theorem fork_separate {r : Int} (h : fork s p = .ok (r, s')) (hsep : Separate s) (hinv : ShmInv s)
    (hp : s.live p) (hstale : s.noStale p (s.proc p).name) : Separate s' := by
  obtain ⟨hslot, href⟩ := fork_ref h hinv hp hstale
  intro q i g hk
  rw [hslot]
  obtain ⟨hold, hq⟩ | ⟨-, hparent, hq⟩ := href hk
  · rw [hq, hsep q i g hold]
  · rw [hq, hsep p i g hparent]

/-- The caller of `cm_create_and_enter` has no pages, or is outside of containers and does not pass
its pages on. -/
def Kernel.entersAlone (s : Kernel) (p : PIdx) : Prop :=
  (∀ i, ((s.proc p).shared_mem i).in_use = false) ∨
    ((s.proc p).container_id = 0 ∧ isCm (s.proc p).renamed.name = true)

instance (s : Kernel) (p : PIdx) : Decidable (s.entersAlone p) :=
  inferInstanceAs (Decidable (_ ∨ _))

theorem cmCreateAndEnter_sub {init fs : Bytes} {n r : Int}
    (h : cmCreateAndEnter s p init fs n = .ok (r, s')) (hinv : ShmInv s) (hp : s.live p)
    (hstale : s.noStale p (s.proc p).renamed.name) (halone : s.entersAlone p) : ShmSub s s' := by
  obtain rfl | ⟨c, cwd, cid, containers, fs, mem, r', s1, hfork, rfl⟩ := cmCreateAndEnter_cases h
  · exact .of_same (.setProc rfl rfl rfl) (setProc_field Proc.container_id rfl)
  have hentered : ShmSame s (s.entered p c cwd cid containers fs mem) := entered_shmSame
  have hleave : (cmLeave s1 p).shmRef = s1.shmRef := by
    have hsame : ShmSame s1 (cmLeave s1 p) := .setProc rfl rfl rfl
    exact hsame.ref
  obtain ⟨hslot, href⟩ := fork_ref hfork (hinv.of_same hentered) (entered_live hp)
    (by rw [entered_self]; exact (noStale_congr (hentered.shared_mem p)).mpr hstale)
  -- No reference is the child's: its parent has none, or passes none on.
  have hold : ∀ {q i g}, (cmLeave s1 p).shmRef (q, i) = some g →
      s.shmRef (q, i) = some g ∧ s1.proc q = (s.entered p c cwd cid containers fs mem).proc q := by
    intro q i g hk
    rw [hleave] at hk
    obtain ⟨hk, hq⟩ | ⟨hcm, hk, -⟩ := href hk
    · exact ⟨hentered.ref ▸ hk, hq⟩
    · rw [hentered.ref] at hk
      rw [entered_self] at hcm
      obtain hnone | ⟨-, hcm'⟩ := halone
      · rw [shmRef_of_free (hnone i)] at hk
        cases hk
      · exact nomatch hcm.symm.trans hcm'
  refine ⟨fun {k g} hk => (hold hk).1, fun {q i g} hk => ?_, hslot⟩
  obtain ⟨hkept, hq⟩ := hold hk
  by_cases hqp : q = p
  · subst hqp
    obtain hnone | ⟨hzero, -⟩ := halone
    · rw [shmRef_of_free (hnone i)] at hkept
      cases hkept
    · rw [hzero, cmLeave, setProc_self]
  · rw [cmLeave, setProc_of_ne _ _ _ hqp, hq, entered_of_ne hqp]

/-! ## Runs -/

/-- The calls that keep the counts right and the containers apart. -/
def Kernel.separateOk (s : Kernel) (a : PIdx × Call) : Prop :=
  s.shmOk a ∧ (a.2.isCreate = true → s.entersAlone a.1)

instance (s : Kernel) (a : PIdx × Call) : Decidable (s.separateOk a) :=
  inferInstanceAs (Decidable (_ ∧ (_ → _)))

theorem Call.run_separate {c : Call} (h : c.run s p = .ok s') (hp : s.canRun p)
    (hok : s.separateOk (p, c)) (hinv : ShmInv s) (hsep : Separate s) : Separate s' := by
  obtain ⟨hok, halone⟩ := hok
  by_cases hmem : c.sparesMemory = true
  · exact hsep.of_sub (.of_memSame (c.run_memSame h hmem))
  cases c.ran h with
  | kill | cmMaxproc | cmSetroot | mutexCreate | mutexDelete | prioSet | store =>
    exact absurd rfl hmem
  | fork h => exact fork_separate h hsep hinv hp.live hok
  | exit h => exact hsep.of_sub (exit_sub h hinv hp.live)
  | wait h => exact hsep.of_sub (wait_sub h hp)
  | exec h => exact hsep.of_sub (.of_same (exec_shmSame h) (exec_quiet h).container_id)
  | sbrk h => exact hsep.of_sub (.of_same (growproc_shmSame h) (growproc_quiet h).container_id)
  | mGet h =>
    obtain ⟨-, hi, -⟩ : s.canShare p _ := hok
    exact shmGet_separate h hsep hinv hp hi
  | mRem h => exact hsep.of_sub (shmRem_sub h hp.live)
  | cmCreateAndEnter h => exact hsep.of_sub (cmCreateAndEnter_sub h hinv hp.live hok (halone rfl))
  | other o => exact hok.elim

theorem boot_separate (h : Boot s) : Separate s := by
  intro q i g hk
  have hinv := boot_shmInv h
  have hpos := (hinv.use g).mpr (card_refs_pos hk)
  obtain ⟨b, code, p, page, free, mem, d0, d, m0, m, cwd, pq, fs, -, -, -, -, -, rfl⟩ :=
    boot_cases h
  cases hpos

theorem reach_separate (h : kernelMachine.Reach Kernel.separateOk s) : Separate s := by
  have hinv : ShmInv s ∧ Separate s := by
    refine h.invariant (I := fun s => ShmInv s ∧ Separate s)
      (fun s hs => ?_) fun s t a hs hok hstep => ?_
    · exact ⟨boot_shmInv hs, boot_separate hs⟩
    · obtain ⟨hp, hrun⟩ := kernelMachine_step hstep
      exact ⟨Call.run_shmInv hrun hp hok.1 hs.1, Call.run_separate hrun hp hok hs.1 hs.2⟩
  exact hinv.2

end Dockv6
