import Dockv6.Foundations.Forest
import Dockv6.Kernel.Queue

/-!
# The forest of processes

The processes are a family with the first one as its root, zombies as its dead members and pids as
ranks (`Kernel.Forest`). So the walk of `prio_set` to the ancestors ends and its answer is right
(`isAncestor_spec`).
-/

namespace Dockv6

open Kernel Function

variable {s s' : Kernel} {p q cur : PIdx} {n : ℕ}

/-- The tree of the processes. -/
def Kernel.family (s : Kernel) : Family PIdx where
  parent q := (s.proc q).parent
  mem := s.live
  dead q := (s.proc q).state = .ZOMBIE
  rank q := (s.proc q).pid

/-- The first process is the root of all. -/
def Kernel.Forest (s : Kernel) : Prop := ∃ i, s.initproc = some i ∧ s.family.Rooted i

/-- What the forest knows of a process. -/
def Proc.kin (x : Proc) : ProcState × ℕ × Option PIdx := (x.state.awake, x.pid, x.parent)

theorem agreeAt_of_kin (h : (s'.proc q).kin = (s.proc q).kin) : s.family.AgreeAt s'.family q := by
  simp only [Proc.kin, Prod.mk.injEq] at h
  obtain ⟨hstate, hpid, hparent⟩ := h
  exact ⟨hparent, not_congr (ProcState.unused_iff hstate), ProcState.zombie_iff hstate, hpid⟩

theorem Kernel.Forest.congr (h : s.Forest) (hinit : s'.initproc = s.initproc)
    (hkin : ∀ q, (s'.proc q).kin = (s.proc q).kin) : s'.Forest := by
  obtain ⟨i, hi, hrooted⟩ := h
  refine ⟨i, hinit.trans hi, hrooted.congr (fun q _ => agreeAt_of_kin (hkin q)) fun q hq => ?_⟩
  have hagree := agreeAt_of_kin (hkin q)
  exact ⟨mt hagree.mem.mp hq, hagree.parent.trans (hrooted.outside q hq)⟩

/-! ## Fork -/

theorem Charged.initproc {s1 : Kernel} (h : Charged s p s1) : s1.initproc = s.initproc := by
  cases h <;> rfl

theorem Kernel.Forest.charged {s1 : Kernel} (h : s.Forest) (hs : Charged s p s1) : s1.Forest :=
  h.congr hs.initproc fun q => by rw [hs.proc]

theorem ForkFailed.forest {d : Pgdir} (h : ForkFailed s p d s') (hforest : s.Forest) :
    s'.Forest := by
  cases h with
  | noSlot => exact hforest
  | noStack np q mem hnp | noCopy np page free q mem m m' hnp =>
    obtain ⟨i, hi, hrooted⟩ := hforest
    have hnp : ¬ s.live np := fun hlive => hlive hnp.unused
    refine ⟨i, hi, hrooted.congr (fun r hr => agreeAt_of_kin ?_) fun r hr => ?_⟩
    · have hne : r ≠ np := fun heq => hnp (heq ▸ hr)
      dsimp only
      rw [update_of_ne hne]
    · have hparent := hrooted.outside r hr
      simp only [family, live] at hr hparent ⊢
      by_cases hrn : r = np
      · subst hrn
        rw [update_self]
        exact ⟨fun hlive => hlive rfl, hparent⟩
      · rw [update_of_ne hrn]
        exact ⟨hr, hparent⟩

theorem ForkMade.forest {np : PIdx} (h : ForkMade s p np s') (hforest : s.Forest) (hinv : PidInv s)
    (hp : s.canRun p) : s'.Forest := by
  obtain ⟨i, hi, hrooted⟩ := hforest
  have hnp : ¬ s.live np := fun hlive => hlive h.unused
  have hpid : (s'.proc np).pid = s.nextpid := congrArg Ident.pid h.child
  have hstate : (s'.proc np).state.awake = .RUNNABLE := congrArg Ident.state h.child
  have hlive : s'.live np := fun hunused => by
    rw [hunused] at hstate
    cases hstate
  have hdead : (s.proc p).state ≠ .ZOMBIE := by
    intro hz
    rcases hp with hp | hp <;> cases hz.symm.trans hp
  have hrank : ∀ r, s.family.rank r < s'.family.rank np := fun r => (hinv.lt r).trans_eq hpid.symm
  exact ⟨i, h.initproc.trans hi, hrooted.join hnp hp.live hdead
    (fun r hr => agreeAt_of_kin (by rw [h.others r hr]))
      (congrArg Ident.parent h.child) hlive (hrank i)
    (hrank p)⟩

theorem fork_forest {r : Int} (h : fork s p = .ok (r, s')) (hforest : s.Forest) (hinv : PidInv s)
    (hp : s.canRun p) : s'.Forest := by
  obtain ⟨d, -, ⟨-, rfl, -, -⟩ | ⟨s1, hs1, ⟨-, hfailed⟩ | ⟨np, -, hok⟩⟩⟩ := fork_cases h
  · exact hforest
  · exact hfailed.forest (hforest.charged hs1)
  · have hp1 : s1.canRun p := by rwa [canRun, hs1.proc]
    have hinv1 : PidInv s1 := by
      cases hs1 <;> exact ⟨hinv.unique, hinv.lt, hinv.pos⟩
    exact (hok.made hp1.live).forest (hforest.charged hs1) hinv1 hp1

/-! ## Exit -/

theorem wakeup1_kin (s : Kernel) (chan : Option Chan) (q : PIdx) :
    ((wakeup1 s chan).proc q).kin = (s.proc q).kin := by
  unfold wakeup1
  dsimp only
  split_ifs with hq
  · simp only [Proc.kin, hq.1, ProcState.awake]
  · rfl

/-- What `exit` does to the forest. -/
theorem exit_kin (h : exit s p = .ok s') :
    s.initproc ≠ some p ∧ s'.initproc = s.initproc ∧ ∀ q, (s'.proc q).kin =
      (if q = p then .ZOMBIE else (s.proc q).state.awake, (s.proc q).pid,
        if (s.proc q).parent = some p then s.initproc else (s.proc q).parent) := by
  obtain ⟨hinit, s1, s2, s3, cwd, hfiles, hshm, hs3, -, rfl⟩ := exit_steps h
  have hquiet := (closeFiles_quiet hfiles).trans (exitShm_quiet hshm)
  have hmutexes := exitMutexes_mutexOnly s2 p
  rw [hs3] at hmutexes
  have hkin : ∀ q, (s3.proc q).kin = (s.proc q).kin := fun q =>
    (hmutexes.field Proc.kin (fun _ _ => rfl) q).trans
      (congrArg (fun x : Ident => (x.state, x.pid, x.parent)) (hquiet.ident q))
  have hroot : s3.initproc = s.initproc := by
    obtain ⟨mux, f, rfl⟩ := hmutexes
    exact hquiet.initproc
  let y : Proc := { s3.proc p with cwd := none }
  let s4 : Kernel := { s3.setProc p y with fs := iput s3.fs cwd }
  let s5 : Kernel := wakeup1 s4 ((s4.proc p).parent.map .proc)
  have h5 : ∀ q, (s5.proc q).kin = (s.proc q).kin := fun q =>
    (wakeup1_kin _ _ q).trans ((setProc_field (x := y) Proc.kin rfl q).trans (hkin q))
  have hpassed : ∀ q, ((reparent s5 p).proc q).kin = ((s.proc q).state.awake, (s.proc q).pid,
      if (s.proc q).parent = some p then s.initproc else (s.proc q).parent) := by
    intro q
    have hq := h5 q
    simp only [Proc.kin, Prod.mk.injEq] at hq
    obtain ⟨hstate, hpid, hparent⟩ := hq
    unfold reparent
    dsimp only
    rw [hparent]
    split_ifs
    · simp only [Proc.kin, hstate, hpid]
      exact congrArg _ (congrArg _ hroot)
    · simp only [Proc.kin, hstate, hpid, hparent]
  obtain ⟨s6, hend, hs6⟩ := exitEnd_eq s4 p
  have h6 : (∀ q, (s6.proc q).kin = ((reparent s5 p).proc q).kin) ∧ s6.initproc = s.initproc := by
    obtain rfl | ⟨chan, rfl⟩ := hs6
    · exact ⟨fun _ => rfl, hroot⟩
    · exact ⟨wakeup1_kin _ _, hroot⟩
  refine ⟨hinit, ?_⟩
  show (exitEnd s4 p).initproc = _ ∧ ∀ q, ((exitEnd s4 p).proc q).kin = _
  rw [hend]
  refine ⟨h6.2, fun q => ?_⟩
  have hq := (h6.1 q).trans (hpassed q)
  by_cases hqp : q = p
  · subst hqp
    rw [setProc_self, if_pos rfl]
    simp only [Proc.kin, Prod.mk.injEq] at hq ⊢
    exact ⟨rfl, hq.2⟩
  · rw [setProc_of_ne _ _ _ hqp, if_neg hqp]
    exact hq

theorem exit_forest (h : exit s p = .ok s') (hforest : s.Forest) (hp : s.live p) : s'.Forest := by
  obtain ⟨i, hi, hrooted⟩ := hforest
  obtain ⟨hne, hinit, hkin⟩ := exit_kin h
  have hip : p ≠ i := fun heq => hne (heq ▸ hi)
  have hstate : ∀ q, q ≠ p → (s'.proc q).state.awake = (s.proc q).state.awake := fun q hq =>
    (congrArg Prod.fst (hkin q)).trans (if_neg hq)
  have hself : (s'.proc p).state = .ZOMBIE := by
    have hawake : (s'.proc p).state.awake = ProcState.awake .ZOMBIE :=
      (congrArg Prod.fst (hkin p)).trans (if_pos rfl)
    exact (ProcState.zombie_iff hawake).mpr rfl
  refine ⟨i, hinit.trans hi, hrooted.pass hip (fun q => ?_) (fun q => ?_) (fun q => ?_) fun q => ?_⟩
  · by_cases hq : q = p
    · subst hq
      refine iff_of_true ?_ hp
      show (s'.proc q).state ≠ .UNUSED
      rw [hself]
      exact nofun
    · exact not_congr (ProcState.unused_iff (hstate q hq))
  · exact congrArg (·.2.1) (hkin q)
  · by_cases hq : q = p
    · exact iff_of_true (hq ▸ hself) (.inl hq)
    · have hiff := ProcState.zombie_iff (hstate q hq)
      exact hiff.trans (or_iff_right hq).symm
  · refine (congrArg (·.2.2) (hkin q)).trans ?_
    rw [hi]
    rfl

/-! ## Wait -/

theorem wait_forest {r : Option Int} (h : wait s p = .ok (r, s')) (hforest : s.Forest)
    (hp : s.canRun p) : s'.Forest := by
  obtain ⟨q, page, d, m, m', c, hq, -, -, -, -, -, rfl⟩ | rfl | rfl := wait_cases h
  · obtain ⟨i, hi, hrooted⟩ := hforest
    obtain ⟨-, hzombie⟩ := zombieChild_eq_some hq
    refine ⟨i, hi, hrooted.remove hzombie (fun t ht => agreeAt_of_kin ?_) ?_ ?_⟩
    · show ((s.setProc q _).proc t).kin = _
      rw [setProc_of_ne _ _ _ ht]
    · show ¬ ((s.setProc q _).proc q).state ≠ .UNUSED
      rw [setProc_self]
      exact fun hne => hne rfl
    · show ((s.setProc q _).proc q).parent = none
      rw [setProc_self]
      rfl
  · exact hforest
  · refine hforest.congr rfl (setProc_field Proc.kin ?_)
    rcases hp with hp | hp <;> simp only [Proc.kin, hp] <;> rfl

/-! ## Runs -/

/-- The calls that make and free processes. -/
def Call.makesProcs : Call → Bool
  | .fork | .exit | .wait => true
  | _ => false

theorem Call.run_forest {c : Call} (h : c.run s p = .ok s') (hp : s.canRun p)
    (hc : c.makesProcs = true) (hinv : PidInv s) (hforest : s.Forest) : s'.Forest := by
  cases c.ran h with
  | fork h => exact fork_forest h hforest hinv hp
  | exit h => exact exit_forest h hforest hp.live
  | wait h => exact wait_forest h hforest hp
  | _ => cases hc

theorem boot_forest (h : Boot s) : s.Forest := by
  obtain ⟨b, code, p, page, free, mem, d0, d, m0, m, cwd, q, fs, -, -, -, -, -, rfl⟩ := boot_cases h
  refine ⟨p, rfl, ?_⟩
  have hself : (update (fun _ => Proc.zero) p (Proc.first page d cwd) : PIdx → Proc) p =
      Proc.first page d cwd := update_self _ _ _
  have hother : ∀ r, r ≠ p →
      (update (fun _ => Proc.zero) p (Proc.first page d cwd) : PIdx → Proc) r = Proc.zero :=
    fun r hr => update_of_ne hr _ _
  refine ⟨?_, ?_, ?_, fun r hr hne => ?_, fun r hr hne => ?_, fun r hr => ?_⟩ <;>
    simp only [family, live] at *
  · rw [hself]
    simp [Proc.first]
  · rw [hself]
    simp [Proc.first]
  · rw [hself]
    rfl
  · rw [hother r hne] at hr
    exact absurd rfl hr
  · rw [hother r hne] at hr
    exact absurd rfl hr
  · by_cases hrp : r = p
    · rw [hrp, hself] at hr
      exact absurd (by simp [Proc.first]) hr
    · rw [hother r hrp]
      rfl

/-- **The forest.** In every state reached by `fork`, `exit` and `wait` the first process is alive
and has no parent, and every other process has a parent that is alive and has a smaller pid. -/
theorem reach_forest (h : kernelMachine.Reach (fun _ a => a.2.makesProcs = true) s) :
    PidInv s ∧ s.Forest := by
  refine h.invariant (I := fun s => PidInv s ∧ s.Forest)
    (fun s hs => ⟨boot_pidInv hs, boot_forest hs⟩) fun s t a ⟨hinv, hforest⟩ hok hst => ?_
  obtain ⟨hp, hrun⟩ := kernelMachine_step hst
  exact ⟨Call.run_pidInv hrun hp hinv, Call.run_forest hrun hp hok hinv hforest⟩

/-! ## The walk -/

theorem isAncestor_of_parent_none {i : PIdx} (hi : s.initproc = some i)
    (hp : (s.proc p).parent = none) : isAncestor s cur (n + 1) p = .error .undefined := by
  rw [isAncestor, hp, hi, if_neg nofun, if_neg nofun]

/-- **The walk of `prio_set` answers.** From a process other than the root it ends, and it says
whether the caller is an ancestor. -/
theorem isAncestor_spec {i : PIdx} (hi : s.initproc = some i) (hrooted : s.family.Rooted i)
    (hp : s.live p) (hpi : p ≠ i) (hn : (s.family.below p).card < n) :
    ∃ b, isAncestor s cur n p = .ok b ∧ (b = true ↔ s.family.Ancestor cur p) := by
  -- The induction is on the steps left; each step goes to a smaller pid.
  induction n generalizing p with
  | zero => exact absurd hn (Nat.not_lt_zero _)
  | succ n ih =>
    obtain ⟨r, hparent, hr, -, hlt⟩ := hrooted.parent p hp hpi
    have hpar : (s.proc p).parent = some r := hparent
    rw [isAncestor, hpar, hi, Family.ancestor_iff hparent]
    by_cases hrc : r = cur
    · exact ⟨true, if_pos (congrArg some hrc), iff_of_true rfl (.inl hrc.symm)⟩
    rw [if_neg fun heq => hrc (Option.some.inj heq), or_iff_right (Ne.symm hrc)]
    by_cases hri : r = i
    · refine ⟨false, if_pos (congrArg some hri), iff_of_false nofun ?_⟩
      rw [hri]
      exact Family.not_ancestor hrooted.top
    · rw [if_neg fun heq => hri (Option.some.inj heq)]
      have hless := Family.card_below_lt hlt
      exact ih hr hri (by omega)

theorem card_below_le (f : Family PIdx) (p : PIdx) : (f.below p).card < NPROC + 1 :=
  Nat.lt_succ_of_le ((Finset.card_le_univ _).trans (Fintype.card_fin NPROC).le)

end Dockv6
