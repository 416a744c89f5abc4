import Dockv6.Kernel.Lock

/-!
# What `kill` does to mutexes that others hold

`kill` drops the references of its target, and releases each of the mutexes without a look at who
holds it (`kill_releases_holder`). `kill_frame_iff` says when no process loses a mutex that it
holds.
-/

namespace Dockv6

open Kernel

variable {s : Kernel} {p q cur : PIdx} {m : MuxIdx} {pid : Int}

namespace Kernel

/-- The process holds the mutex. -/
def Holds (s : Kernel) (q : PIdx) (m : MuxIdx) : Prop :=
  (s.mux m).locked = 1 ∧ (s.mux m).pid = (s.proc q).pid

instance : Decidable (s.Holds q m) := inferInstanceAs (Decidable (_ ∧ _))

/-- `kill(pid)` leaves the mutexes that processes other than the target hold as they are, and clears
`locked` of those that the target holds only. -/
structure KillFrame (s : Kernel) (cur : PIdx) (pid : Int) : Prop where
  kept : ∀ q m, s.live q → ((s.proc q).pid : Int) ≠ pid → s.Holds q m →
    ((kill s cur pid).2.mux m).locked = 1 ∧ ((kill s cur pid).2.mux m).pid = (s.mux m).pid ∧
      ((kill s cur pid).2.mux m).isAlloc = 1
  cleared : ∀ m, (s.mux m).locked ≠ 0 → ((kill s cur pid).2.mux m).locked = 0 → (s.mux m).pid = pid

end Kernel

theorem Mutex.killed_locked (m : Mutex) (waiting : Bool) : (m.killed waiting).locked = 0 := by
  unfold Mutex.killed
  dsimp only
  split_ifs <;> rfl

theorem killMutexes_mux (s : Kernel) (p : PIdx) (i m : MuxIdx) :
    ((s.proc p).mutex i = some m ∧ ((killMutexes s p i).mux m).locked = 0) ∨
      ((s.proc p).mutex i ≠ some m ∧ (killMutexes s p i).mux m = s.mux m) := by
  unfold killMutexes
  split
  · rename_i hnone
    exact .inr ⟨by simp [hnone], rfl⟩
  · rename_i m' hm'
    by_cases h : m = m'
    · subst h
      refine .inl ⟨hm', ?_⟩
      simp only [Kernel.setMux, Function.update_self]
      exact Mutex.killed_locked _ _
    · refine .inr ⟨fun h' => h (Option.some.inj (h'.symm.trans hm')), ?_⟩
      simp only [Kernel.setMux]
      exact Function.update_of_ne h _ _

theorem killMutexes_proc (s : Kernel) (p : PIdx) (i : MuxIdx) :
    (killMutexes s p i).proc = s.proc := by
  unfold killMutexes
  split <;> rfl

/-- The loop of `kill` over the indices of the target: a mutex that one of them refers to is
released, and all the others stay. -/
theorem killMutexes_foldl (is : List MuxIdx) (s : Kernel) (p : PIdx) (m : MuxIdx) :
    ((∃ i ∈ is, (s.proc p).mutex i = some m) →
      ((is.foldl (fun s i => killMutexes s p i) s).mux m).locked = 0) ∧
    ((∀ i ∈ is, (s.proc p).mutex i ≠ some m) →
      (is.foldl (fun s i => killMutexes s p i) s).mux m = s.mux m) := by
  -- A mutex that a round has released stays released, whether a later round meets it again or not.
  induction is generalizing s with
  | nil => simp
  | cons i is ih =>
    obtain ⟨hreleased, hkept⟩ := ih (killMutexes s p i)
    rw [killMutexes_proc] at hreleased hkept
    rw [List.foldl_cons]
    by_cases hlater : ∃ j ∈ is, (s.proc p).mutex j = some m
    · refine ⟨fun _ => hreleased hlater, fun hnone => ?_⟩
      obtain ⟨j, hj, hjm⟩ := hlater
      exact absurd hjm (hnone j (List.mem_cons_of_mem _ hj))
    · have hrest := hkept fun j hj hjm => hlater ⟨j, hj, hjm⟩
      rw [hrest]
      obtain ⟨hi, hlocked⟩ | ⟨hi, hsame⟩ := killMutexes_mux s p i m
      · exact ⟨fun _ => hlocked, fun hnone => absurd hi (hnone i List.mem_cons_self)⟩
      · refine ⟨fun hsome => ?_, fun _ => hsame⟩
        obtain ⟨j, hj, hjm⟩ := hsome
        rcases List.mem_cons.mp hj with rfl | hj
        · exact absurd hjm hi
        · exact absurd ⟨j, hj, hjm⟩ hlater

theorem kill_mux (s : Kernel) (cur : PIdx) (pid : Int) (m : MuxIdx) :
    (∃ t i, s.killTarget cur pid = some t ∧ (s.proc t).mutex i = some m ∧
      ((kill s cur pid).2.mux m).locked = 0) ∨
    ((∀ t i, s.killTarget cur pid = some t → (s.proc t).mutex i ≠ some m) ∧
      (kill s cur pid).2.mux m = s.mux m) := by
  unfold kill
  cases ht : s.killTarget cur pid with
  | none => exact .inr ⟨by simp, rfl⟩
  | some t =>
    have hfold := killMutexes_foldl (List.finRange MUX_MAXNUM)
      (s.setProc t { s.proc t with killed := true }) t m
    simp only [Kernel.setProc, Function.update_self, List.mem_finRange, true_and,
      forall_const] at hfold
    by_cases hm : ∃ i, (s.proc t).mutex i = some m
    · obtain ⟨i, hi⟩ := hm
      exact .inl ⟨t, i, rfl, hi, hfold.1 ⟨i, hi⟩⟩
    · have hm' : ∀ i, (s.proc t).mutex i ≠ some m := not_exists.mp hm
      refine .inr ⟨fun t' i ht' => ?_, hfold.2 hm'⟩
      obtain rfl := Option.some.inj ht'
      exact hm' i

theorem killTarget_pid {t : PIdx} (h : s.killTarget cur pid = some t) :
    ((s.proc t).pid : Int) = pid := by
  have := List.find?_some h
  simp only [Bool.and_eq_true, beq_iff_eq] at this
  exact this.1

/-- `kill` spares the mutexes that others hold exactly when its target holds those of its mutexes
that are locked, and what the others hold is allocated. -/
theorem kill_frame_iff (s : Kernel) (cur : PIdx) (pid : Int) :
    s.KillFrame cur pid ↔
      (∀ t i m, s.killTarget cur pid = some t → (s.proc t).mutex i = some m → (s.mux m).locked ≠ 0 →
        (s.mux m).pid = (s.proc t).pid) ∧
      ∀ q m, s.live q → ((s.proc q).pid : Int) ≠ pid → s.Holds q m → (s.mux m).isAlloc = 1 := by
  constructor
  · intro h
    refine ⟨fun t i m ht hi hlocked => ?_, fun q m hq hpid hholds => ?_⟩
    · obtain ⟨-, -, -, -, hfree⟩ | ⟨hnone, -⟩ := kill_mux s cur pid m
      · exact (h.cleared m hlocked hfree).trans (killTarget_pid ht).symm
      · exact absurd hi (hnone t i ht)
    · obtain ⟨hlocked, -, halloc⟩ := h.kept q m hq hpid hholds
      obtain ⟨-, -, -, -, hfree⟩ | ⟨-, hsame⟩ := kill_mux s cur pid m
      · omega
      · rwa [hsame] at halloc
  · rintro ⟨htarget, halloc⟩
    refine ⟨fun q m hq hpid hholds => ?_, fun m hlocked hfree => ?_⟩
    · obtain ⟨t, i, ht, hi, -⟩ | ⟨-, hsame⟩ := kill_mux s cur pid m
      · have hheld := htarget t i m ht hi (by rw [hholds.1]; decide)
        rw [hholds.2, killTarget_pid ht] at hheld
        exact absurd hheld hpid
      · rw [hsame]
        exact ⟨hholds.1, rfl, halloc q m hq hpid hholds⟩
    · obtain ⟨t, i, ht, hi, -⟩ | ⟨-, hsame⟩ := kill_mux s cur pid m
      · exact (htarget t i m ht hi hlocked).trans (killTarget_pid ht)
      · rw [hsame] at hfree
        exact absurd hfree hlocked

/-- `init` takes a mutex that it shares with its child and kills the child: the mutex is free. -/
theorem kill_releases_holder : ∃ s cur pid, lockMachine.Reachable s ∧ s.canRun cur ∧
    ¬ s.KillFrame cur pid := by
  set_option maxRecDepth 100000 in
  have hrun : (bootRun lockMachine
      [(0, .call (.mutexCreate [97])), (0, .call .fork), (1, .call (.mutexCreate [97])),
        (0, .mutexLock 0)]).any
      (fun s => (.ok (kill s 0 2) : Res (Int × Kernel)).toOption.any fun k =>
        decide (s.canRun 0 ∧ s.live 0 ∧
        ((s.proc 0).pid : Int) ≠ 2 ∧ s.Holds 0 0 ∧ (k.2.mux 0).locked = 0)) = true := by
    decide +kernel
  obtain ⟨s, k, hreach, hk, hP⟩ := exists_of_bootRun (fun _ => id) hrun
  obtain ⟨hcan, hlive, hpid, hholds, hfree⟩ := of_decide_eq_true hP
  refine ⟨s, 0, 2, hreach, hcan, fun h => ?_⟩
  have hkept := (h.kept 0 0 hlive hpid hholds).1
  rw [Except.ok.inj hk] at hkept
  omega

end Dockv6
