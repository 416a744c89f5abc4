import Dockv6.Foundations.Run

/-!
# Sleep locks

`sleeplock.c` with any number of processes. A section under `lk->lk` is one step: `acquiresleep` up
to where it takes the lock or sleeps, and again after each wake-up; and `releasesleep`. `brelse` and
`iunlock` test `holdingsleep` before, which does not say who holds the lock, so that the caller has
to be the holder (`byHolder`). A holder may call `acquiresleep` again: it sleeps, and the lock is
never released (`Held.stuck`).
-/

namespace Dockv6.Sleep

open Function

/-- `struct sleeplock` -/
structure Sleeplock where
  locked : Bool
  pid : ℕ

/-- Where a process is: not in `acquiresleep`, asleep in it, or woken up. -/
inductive Pc
  | outside
  | asleep
  | woken
  deriving DecidableEq

/-- The lock; where each process is; and which of them are past `acquiresleep` and have not called
`releasesleep` since. -/
structure State (P : Type) where
  lk : Sleeplock
  pc : P → Pc
  inside : P → Bool

variable {P : Type} [DecidableEq P] (pid : P → ℕ) {s t : State P} {p q : P}

/-- The loop of `acquiresleep` and what follows it. -/
def acquiresleep (s : State P) (p : P) : State P :=
  if s.lk.locked then { s with pc := update s.pc p .asleep }
  else { lk := { locked := true, pid := pid p }, pc := update s.pc p .outside,
         inside := update s.inside p true }

/-- `releasesleep`, with its `wakeup`. -/
def releasesleep (s : State P) (p : P) : State P :=
  { lk := { locked := false, pid := 0 }
    pc := fun q => if s.pc q = .asleep then .woken else s.pc q
    inside := update s.inside p false }

/-- The test does not ask who holds the lock. -/
def holdingsleep (s : State P) : Bool := s.lk.locked

/-- A process calls `acquiresleep` or goes on in it, calls `releasesleep`, or is killed. -/
inductive Act (P : Type)
  | acquire (p : P)
  | release (p : P)
  | kill (p : P)

/-- A process that is not asleep takes the lock, one outside of `acquiresleep` releases it, and
`kill` wakes up a process that is asleep. -/
def machine : Machine (State P) (Act P) where
  init s := s = { lk := { locked := false, pid := 0 }, pc := fun _ => .outside,
                  inside := fun _ => false }
  step s
    | .acquire p => if s.pc p ≠ .asleep then some (acquiresleep pid s p) else none
    | .release p => if s.pc p = .outside then some (releasesleep s p) else none
    | .kill p => if s.pc p = .asleep then some { s with pc := update s.pc p .woken } else none

/-- The lock is released by who has it. -/
def byHolder (s : State P) : Act P → Prop
  | .acquire _ => True
  | .release p => s.inside p = true
  | .kill _ => True

/-- The process `h` has the lock, if any, and no other; the lock says so; and processes sleep only
while there is one, whose `releasesleep` wakes them up. -/
structure Held (s : State P) (h : Option P) : Prop where
  inside : ∀ p, s.inside p = true ↔ h = some p
  lk : s.lk = h.elim { locked := false, pid := 0 } fun p => { locked := true, pid := pid p }
  asleep : ∀ p, s.pc p = .asleep → h ≠ none

variable {pid} {h : Option P}

omit [DecidableEq P] in
theorem Held.locked (hs : Held pid s h) : s.lk.locked = h.isSome := by
  rw [hs.lk]
  cases h <;> rfl

theorem Held.acquire (hs : Held pid s h) (p : P) :
    Held pid (acquiresleep pid s p) (some (h.getD p)) := by
  have hlocked := hs.locked
  unfold acquiresleep
  cases h with
  | none =>
    rw [if_neg (by simp [hlocked])]
    refine ⟨fun q => ?_, rfl, fun _ _ => Option.some_ne_none p⟩
    have hq : s.inside q ≠ true := fun hq => Option.some_ne_none q ((hs.inside q).mp hq).symm
    show update s.inside p true q = true ↔ some p = some q
    rw [update_apply, Option.some.injEq]
    split_ifs with hqp
    · simp [hqp]
    · simp [hq, Ne.symm hqp]
  | some r =>
    rw [if_pos (show s.lk.locked = true from hlocked)]
    exact ⟨hs.inside, hs.lk, fun _ _ => Option.some_ne_none r⟩

theorem Held.release (hs : Held pid s h) (hp : s.inside p = true) :
    Held pid (releasesleep s p) none := by
  obtain rfl := (hs.inside p).mp hp
  refine ⟨fun q => iff_of_false (fun hq => ?_) (Option.some_ne_none q).symm, rfl, fun q hq => ?_⟩
  · simp only [releasesleep, update_apply] at hq
    split_ifs at hq with hqp
    exact hqp (Option.some.inj ((hs.inside q).mp hq)).symm
  · simp only [releasesleep] at hq
    split_ifs at hq with hsleep
    exact absurd hq hsleep

theorem Held.kill (hs : Held pid s h) (hp : s.pc p = .asleep) :
    Held pid { s with pc := update s.pc p .woken } h :=
  ⟨hs.inside, hs.lk, fun _ _ => hs.asleep p hp⟩

theorem Held.step {a : Act P} (hs : Held pid s h) (hok : byHolder s a)
    (ht : (machine pid).step s a = some t) : ∃ h, Held pid t h := by
  cases a with
  | acquire p =>
    obtain ⟨-, ht⟩ := Option.ite_none_right_eq_some.mp ht
    cases ht
    exact ⟨_, hs.acquire p⟩
  | release p =>
    obtain ⟨-, ht⟩ := Option.ite_none_right_eq_some.mp ht
    cases ht
    exact ⟨none, hs.release hok⟩
  | kill p =>
    obtain ⟨hp, ht⟩ := Option.ite_none_right_eq_some.mp ht
    cases ht
    exact ⟨h, hs.kill hp⟩

/-- **At most one process has a sleep lock, and no wake-up is lost**, as long as it is released by
who has it. -/
theorem sleeplock_held (hs : (machine pid).Reach byHolder s) : ∃ h, Held pid s h ∧
    holdingsleep s = h.isSome := by
  have hheld : ∃ h, Held pid s h := by
    refine hs.invariant (I := fun s => ∃ h, Held pid s h)
      (fun s hs => ⟨none, ?_⟩) fun s t a hinv hok hstep => ?_
    · rw [hs]
      exact ⟨fun p => by simp, rfl, by simp⟩
    · obtain ⟨h, hs⟩ := hinv
      exact hs.step hok hstep
  obtain ⟨h, hs⟩ := hheld
  exact ⟨h, hs, hs.locked⟩

/-- **A holder that calls `acquiresleep` again stays in it**, and nobody else ever gets the lock. -/
theorem Held.stuck {a : Act P} (hs : Held pid s (some p)) (hp : s.pc p ≠ .outside)
    (hok : byHolder s a)
    (ht : (machine pid).step s a = some t) : Held pid t (some p) ∧ t.pc p ≠ .outside := by
  cases a with
  | acquire q =>
    obtain ⟨-, ht⟩ := Option.ite_none_right_eq_some.mp ht
    cases ht
    refine ⟨hs.acquire q, ?_⟩
    rw [acquiresleep, if_pos (show s.lk.locked = true from hs.locked)]
    by_cases hq : p = q <;> simp [hq, hp]
  | release q =>
    obtain ⟨hq, -⟩ := Option.ite_none_right_eq_some.mp ht
    obtain rfl := Option.some.inj ((hs.inside q).mp hok)
    exact absurd hq hp
  | kill q =>
    obtain ⟨hq, ht⟩ := Option.ite_none_right_eq_some.mp ht
    cases ht
    refine ⟨hs.kill hq, ?_⟩
    by_cases hqp : p = q <;> simp [hqp, hp]

instance (s : State P) : (a : Act P) → Decidable (byHolder s a)
  | .acquire _ => .isTrue trivial
  | .release p => inferInstanceAs (Decidable (s.inside p = true))
  | .kill _ => .isTrue trivial

/-- The second process waits while the first one has the lock. -/
theorem sleeplock_held_two : ∃ s : State Bool, (machine Bool.toNat).Reach byHolder s ∧
    s.pc true = .asleep ∧ ∃ h, Held Bool.toNat s h ∧ holdingsleep s = h.isSome := by
  have hreach := fun s => (machine Bool.toNat).reach_of_exec_decide byHolder (t := s) rfl
    [.acquire false, .acquire true]
  exact ⟨_, hreach _ rfl, rfl, sleeplock_held (hreach _ rfl)⟩

/-- The test `holdingsleep` of the second process is true, and it releases the lock of the first
one: both have it. -/
theorem release_by_other : ∃ s, (machine Bool.toNat).Reachable s ∧ s.inside false = true ∧
    s.inside true = true :=
  ⟨_, Machine.reachable_of_exec rfl [.acquire false, .release true, .acquire true] rfl, rfl, rfl⟩

end Dockv6.Sleep
