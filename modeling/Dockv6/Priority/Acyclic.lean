import Dockv6.Foundations.Linked
import Dockv6.Kernel.Queue

/-!
# The search through the bins ends

The bins need not be lists: a process may be linked from two bins, and a tail may be in no list. But
`pqueue_enqueue` links to a process without a successor, and `prio_set` takes a process out by a
link that was a path before. So no process leads back to itself.
-/

namespace Dockv6

open Kernel Function

variable {s s' : Kernel} {d : Pgdir} {p : PIdx} {n : ℕ} {pid : Int} {r found : Option PIdx}

/-! ## Steps -/

theorem Pqueue.enqueue_acyclic {q : Pqueue} (h : Acyclic q.next) (p : PIdx) (n : ℕ) :
    Acyclic (q.enqueue p n).next := by
  refine h.of_sink (update_self ..) fun a c hac => ?_
  have hne : a ≠ p := by
    rintro rfl
    simp [Pqueue.enqueue] at hac
  simp only [Pqueue.enqueue, update_of_ne hne] at hac
  cases hhead : (q.bin n).head with
  | none => exact .inl (by simpa [hhead] using hac)
  | some h =>
    cases htail : (q.bin n).tail with
    | none => exact .inl (by simpa [hhead, htail] using hac)
    | some t =>
      simp only [hhead, htail] at hac
      by_cases ht : a = t
      · subst ht
        rw [update_self] at hac
        exact .inr (Option.some.inj hac).symm
      · rw [update_of_ne ht] at hac
        exact .inl hac

theorem setNext_none_next {o : Option PIdx} (h : s.setNext d o none = .ok s') {a b : PIdx}
    (hab : s'.pq.next a = some b) : s.pq.next a = some b := by
  unfold setNext at h
  split at h
  · rename_i p
    cases h
    by_cases hp : a = p
    · subst hp
      simp [setPq] at hab
    · simpa [setPq, hp] using hab
  · obtain ⟨mem, -, h⟩ := bind_eq_ok.mp h
    cases h
    exact hab

/-- The null process makes no link. -/
theorem pqueueEnqueue_none_next (h : pqueueEnqueue s d none n = .ok s') {a b : PIdx}
    (hab : s'.pq.next a = some b) : s.pq.next a = some b := by
  obtain ⟨s1, h1, h⟩ := bind_eq_ok.mp h
  obtain ⟨mem, -, h1⟩ := bind_eq_ok.mp h1
  cases h1
  split_ifs at h
  dsimp only at h
  split at h
  · exact setNext_none_next h hab
  · obtain ⟨s2, h2, h⟩ := bind_eq_ok.mp h
    exact setNext_none_next h2 (setNext_none_next h hab)

theorem pqueueEnqueue_acyclic (h : pqueueEnqueue s d found n = .ok s') (hs : Acyclic s.pq.next) :
    Acyclic s'.pq.next := by
  cases found with
  | none => exact hs.of_paths fun a b hab => .single (pqueueEnqueue_none_next h hab)
  | some p =>
    rw [(pqueueEnqueue_some h).2]
    exact Pqueue.enqueue_acyclic hs p n

theorem unlinks_acyclic (h : Unlinks s s') (hs : Acyclic s.pq.next) : Acyclic s'.pq.next := by
  obtain ⟨x, q, hxq, rfl⟩ := h
  refine hs.of_paths fun a b hab => ?_
  by_cases ha : a = x
  · subst ha
    have hqb : s.pq.next q = some b := by simpa [setPq] using hab
    exact .tail (.single hxq) hqb
  · exact .single (by simpa [setPq, ha] using hab)

theorem unlinked_acyclic (h : Relation.ReflTransGen Unlinks s s') (hs : Acyclic s.pq.next) :
    Acyclic s'.pq.next := by
  induction h with
  | refl => exact hs
  | tail _ hstep ih => exact unlinks_acyclic hstep ih

theorem prioSet_acyclic {cur : PIdx} {priority ret : Int}
    (h : prioSet s cur d pid priority = .ok (ret, s'))
    (hs : Acyclic s.pq.next) : Acyclic s'.pq.next := by
  obtain rfl | ⟨p, found, s1, -, -, -, hfound, henq⟩ := prioSet_cases h
  · exact hs
  · exact pqueueEnqueue_acyclic henq (unlinked_acyclic (unlinkBins_unlinks hfound) hs)

/-! ## The search -/

/-- The fuel suffices when there are fewer nodes ahead. -/
theorem unlinkAfter_returns (pid : Int) (hs : Acyclic s.pq.next)
    (hn : {c | Relation.TransGen (fun a b => s.pq.next a = some b) p c}.ncard < n) :
    ∃ x, unlinkAfter s pid n p = .ok x := by
  induction n generalizing p with
  | zero => omega
  | succ n ih =>
    rw [unlinkAfter]
    split
    · exact ⟨_, rfl⟩
    · rename_i q hq
      split_ifs
      · exact ⟨_, rfl⟩
      · have hlt := hs.ncard_lt hq
        exact ih (by omega)

theorem unlinkAfter_ends (pid : Int) (p : PIdx) (hs : Acyclic s.pq.next) :
    ∃ x, unlinkAfter s pid (NPROC + 1) p = .ok x := by
  refine unlinkAfter_returns pid hs (Nat.lt_succ_of_le ?_)
  refine (Set.ncard_le_ncard (Set.subset_univ _)).trans ?_
  rw [Set.ncard_univ, Nat.card_fin]

theorem unlinkBins_ends (pid : Int) (is : List ℕ) (found : Option PIdx) (hs : Acyclic s.pq.next) :
    ∃ x, unlinkBins pid is s found = .ok x := by
  induction is generalizing s found with
  | nil => exact ⟨_, rfl⟩
  | cons i is ih =>
    rw [unlinkBins]
    split
    · exact ih found hs
    · rename_i p _
      split_ifs
      · exact ⟨_, rfl⟩
      · obtain ⟨⟨r, s1⟩, hafter⟩ := unlinkAfter_ends pid p hs
        obtain ⟨x, hx⟩ := ih (s := s1) (r <|> found)
          (unlinked_acyclic (unlinkAfter_unlinks hafter).to_reflTransGen hs)
        exact ⟨x, bind_eq_ok.mpr ⟨_, hafter, hx⟩⟩

/-! ## What the search finds -/

/-- The bin has a head and no tail: what is appended to it is linked through a null pointer. -/
def Pqueue.noTail (q : Pqueue) (n : ℕ) : Bool := (q.bin n).head.isSome && (q.bin n).tail.isNone

/-- The process is in the list of some bin. -/
def Pqueue.Reaches (q : Pqueue) (x : PIdx) : Prop :=
  ∃ i < NBIN, ∃ h, (q.bin i).head = some h ∧ Relation.ReflTransGen
    (fun a b => q.next a = some b) h x

theorem transGen_next {q : Pqueue} {x y : PIdx} (h : q.next x = some y) (z : PIdx) :
    Relation.TransGen (fun a b => q.next a = some b) x z ↔
      Relation.ReflTransGen (fun a b => q.next a = some b) y z := by
  rw [Relation.TransGen.head'_iff]
  refine ⟨?_, fun hz => ⟨y, h, hz⟩⟩
  rintro ⟨y', hy', hz⟩
  rwa [Option.some.inj (h.symm.trans hy')]

theorem unlinkAfter_found {x : PIdx} (h : unlinkAfter s pid n x = .ok (r, s')) :
    (r ≠ none ↔ ∃ z, Relation.TransGen (fun a b => s.pq.next a = some b) x z ∧
      ((s.proc z).pid : Int) = pid) ∧ (r = none → s' = s) := by
  induction n generalizing x with
  | zero => cases h
  | succ n ih =>
    rw [unlinkAfter] at h
    split at h
    · rename_i hnext
      cases h
      refine ⟨iff_of_false (absurd rfl) ?_, fun _ => rfl⟩
      rintro ⟨z, hz, -⟩
      obtain ⟨y, hy, -⟩ := Relation.TransGen.head'_iff.mp hz
      cases hnext.symm.trans hy
    · rename_i y hnext
      simp only [transGen_next hnext]
      split_ifs at h with hpid
      · cases h
        exact ⟨iff_of_true (by simp) ⟨y, .refl, hpid⟩, by simp⟩
      · obtain ⟨hfound, hsame⟩ := ih h
        refine ⟨hfound.trans (exists_congr fun z => ?_), hsame⟩
        rw [Relation.reflTransGen_iff_eq_or_transGen]
        refine ⟨fun hz => ⟨.inr hz.1, hz.2⟩, ?_⟩
        rintro ⟨rfl | hz, hzpid⟩
        · exact absurd hzpid hpid
        · exact ⟨hz, hzpid⟩

theorem unlinkBins_found {is : List ℕ} (h : unlinkBins pid is s found = .ok (r, s')) :
    r ≠ none ↔ found ≠ none ∨ ∃ i ∈ is, ∃ y, (s.pq.bin i).head = some y ∧
      ∃ z, Relation.ReflTransGen (fun a b => s.pq.next a = some b) y z ∧
      ((s.proc z).pid : Int) = pid := by
  induction is generalizing s found with
  | nil =>
    cases h
    simp
  | cons i is ih =>
    rw [unlinkBins] at h
    split at h
    · rename_i hhead
      rw [ih h]
      simp [hhead]
    · rename_i y hhead
      simp only [List.mem_cons, exists_eq_or_imp]
      split_ifs at h with hpid
      · cases h
        exact iff_of_true (by simp) (.inr (.inl ⟨y, hhead, y, .refl, hpid⟩))
      · obtain ⟨⟨r1, s1⟩, hafter, hrest⟩ := bind_eq_ok.mp h
        obtain ⟨hfound, hsame⟩ := unlinkAfter_found hafter
        rw [ih hrest]
        cases r1 with
        | some z =>
          obtain ⟨z, hz, hzpid⟩ := hfound.mp (by simp)
          exact iff_of_true (.inl (by simp)) (.inr (.inl ⟨y, hhead, z, hz.to_reflTransGen, hzpid⟩))
        | none =>
          obtain rfl := hsame rfl
          have hnot : ¬ ∃ y', (s1.pq.bin i).head = some y' ∧
              ∃ z, Relation.ReflTransGen (fun a b => s1.pq.next a = some b) y' z ∧
              ((s1.proc z).pid : Int) = pid := by
            rintro ⟨y', hy', z, hz, hzpid⟩
            obtain rfl : y = y' := Option.some.inj (hhead.symm.trans hy')
            obtain rfl | hz := Relation.reflTransGen_iff_eq_or_transGen.mp hz
            · exact hpid hzpid
            · exact hfound.mpr ⟨z, hz, hzpid⟩ rfl
          rw [or_iff_right hnot]
          rfl

/-- The search finds the only process with its pid, if it is in a list. -/
theorem unlinkBins_target {np : PIdx} (hpid : ∀ q, (s.proc q).pid = (s.proc np).pid → q = np)
    (h : unlinkBins (s.proc np).pid (List.range NBIN) s none = .ok (r, s')) :
    (r = some np ∧ s.pq.Reaches np) ∨ (r = none ∧ ¬ s.pq.Reaches np) := by
  have hiff : r ≠ none ↔ s.pq.Reaches np := by
    rw [unlinkBins_found h, or_iff_right (absurd rfl)]
    simp only [List.mem_range]
    constructor
    · rintro ⟨i, hi, y, hy, z, hz, hzpid⟩
      obtain rfl := hpid z (by exact_mod_cast hzpid)
      exact ⟨i, hi, y, hy, hz⟩
    · rintro ⟨i, hi, y, hy, hz⟩
      exact ⟨i, hi, y, hy, np, hz, rfl⟩
  cases r with
  | none => exact .inr ⟨rfl, fun hr => hiff.mpr hr rfl⟩
  | some z =>
    have hz := unlinkBins_pid h (by simp) z rfl
    rw [hpid z (by exact_mod_cast hz)]
    exact .inl ⟨rfl, hiff.mp nofun⟩

/-! ## Runs -/

theorem forkPrio_acyclic {np : PIdx} (h : forkPrio s p np d = .ok s') (hs : Acyclic s.pq.next) :
    Acyclic s'.pq.next := by
  obtain ⟨⟨r1, s1⟩, h1, hrest⟩ := bind_eq_ok.mp h
  obtain ⟨⟨r2, s2⟩, h2, hlast⟩ := bind_eq_ok.mp hrest
  cases hlast
  refine prioSet_acyclic h2 ?_
  unfold forkPrioBelow at h1
  split_ifs at h1
  · exact prioSet_acyclic h1 hs
  · cases h1
    exact hs

theorem Spawn.acyclic {np : PIdx} (h : Spawn s p np s') (hs : Acyclic s.pq.next) :
    Acyclic s'.pq.next := by
  have henq := Pqueue.enqueue_acyclic hs np (s.pq.priority p)
  by_cases hlive : s'.live np
  · obtain ⟨s1, s2, d, hpq, -, -, hprio, hpq'⟩ := h.made hlive
    rw [hpq']
    rw [← hpq] at henq
    exact forkPrio_acyclic hprio henq
  · rwa [h.failed hlive]

theorem Call.run_acyclic {c : Call} (h : c.run s p = .ok s') (hp : s.canRun p)
    (hs : Acyclic s.pq.next) : Acyclic s'.pq.next := by
  have hsettled : ∀ {t t' : Kernel}, Settled t t' → Acyclic t.pq.next → Acyclic t'.pq.next :=
      fun hst ht => by
    rwa [hst.pq]
  by_cases hmoves : c.movesQueue = false
  · exact hsettled (c.run_settled h hp hmoves) hs
  cases c.ran h with
  | fork h =>
    obtain hst | ⟨np, hspawn⟩ := fork_spawn h hp.live
    · exact hsettled hst hs
    · exact hspawn.acyclic hs
  | prioSet h => exact prioSet_acyclic h hs
  | cmCreateAndEnter h =>
    obtain hst | ⟨s1, s2, np, hst, -, -, hspawn, rfl⟩ := cmCreateAndEnter_spawn h hp.live
    · exact hsettled hst hs
    · exact hsettled (cmLeave_settled s2 p) (hspawn.acyclic (hsettled hst hs))
  | exit | wait | kill | exec | sbrk | mGet | mRem | cmMaxproc | cmSetroot | mutexCreate
  | mutexDelete | store | other => exact absurd rfl hmoves

theorem acyclic_of_next_none {next : PIdx → Option PIdx} (h : ∀ p, next p = none) : Acyclic next :=
  fun a ha => by
  obtain ⟨c, hc, -⟩ := Relation.TransGen.head'_iff.mp ha
  simp [h a] at hc

theorem boot_acyclic (h : Boot s) : Acyclic s.pq.next := by
  obtain ⟨b, code, p, page, free, mem, d0, d, m0, m, cwd, q, fs, htaken, -, -, -, -, rfl⟩ :=
    boot_cases h
  have hq : q = b.kernel.pq.enqueue p 0 := (pqueueEnqueue_some htaken.enqueued).2
  dsimp only
  rw [hq]
  exact Pqueue.enqueue_acyclic (acyclic_of_next_none fun _ => rfl) p _

theorem reachable_acyclic (h : kernelMachine.Reachable s) : Acyclic s.pq.next := by
  refine h.invariant (I := fun s => Acyclic s.pq.next)
    (fun s hs => boot_acyclic hs) fun s t a hs _ hst => ?_
  obtain ⟨hp, hrun⟩ := kernelMachine_step hst
  exact Call.run_acyclic hrun hp hs

/-- Enqueue a process, whether or not it is linked already; search the bins and unlink what is
found; call `prio_set`, which does both, but lets go of the lock between them; or change anything
but the queue. -/
inductive QueueAct
  | enqueue (d : Pgdir) (p : Option PIdx) (priority : ℕ)
  | unlink (pid : Int)
  | prioSet (cur : PIdx) (d : Pgdir) (pid priority : Int)
  | other (s : Kernel)

/-- The queue, from `queueinit` on. -/
def queueMachine : Machine Kernel QueueAct where
  init s := (∀ i, s.pq.bin i = { head := none, tail := none, size := 0 }) ∧ ∀ p, s.pq.next p = none
  step s
    | .enqueue d p priority => (pqueueEnqueue s d p priority).toOption
    | .unlink pid => (unlinkBins pid (List.range NBIN) s none).toOption.map Prod.snd
    | .prioSet cur d pid priority => (Dockv6.prioSet s cur d pid priority).toOption.map Prod.snd
    | .other s' => some (s'.setPq s.pq)

end Dockv6
