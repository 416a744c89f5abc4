import Dockv6.Mutex.Interleaving

/-!
# Mutual exclusion of user mutexes

The process inside the critical section is exactly the one with `locked = 1` and its pid in the
mutex. The invariant (`Inv`) is that statement with `locked` a bit, and that a `cv_wait` past its
holder test belongs to the process inside.
-/

namespace Dockv6.Mutex

open Function

variable {P : Type*}

/-! ## The effect of the state updates -/

namespace State

@[simp] theorem wakeup_mux (s : State P) : s.wakeup.mux = s.mux := rfl

@[simp] theorem wakeup_inside (s : State P) : s.wakeup.inside = s.inside := rfl

@[simp] theorem wakeup_pc (s : State P) (q : P) : s.wakeup.pc q = (s.pc q).wakeup := rfl

variable [DecidableEq P]

@[simp] theorem goto_mux (s : State P) (p : P) (pc : Pc) : (s.goto p pc).mux = s.mux := rfl

@[simp] theorem goto_inside (s : State P) (p : P) (pc : Pc) :
    (s.goto p pc).inside = s.inside := rfl

theorem goto_pc (s : State P) (p q : P) (pc : Pc) :
    (s.goto p pc).pc q = if q = p then pc else s.pc q := by
  simp [goto, update_apply]

@[simp] theorem goto_self (s : State P) (p : P) (pc : Pc) : (s.goto p pc).pc p = pc := by
  simp [goto_pc]

@[simp] theorem enter_mux (s : State P) (p : P) : (s.enter p).mux = s.mux := rfl

theorem enter_pc (s : State P) (p q : P) :
    (s.enter p).pc q = if q = p then .user else s.pc q := goto_pc s p q .user

theorem enter_inside (s : State P) (p q : P) :
    (s.enter p).inside q = if q = p then true else s.inside q := by
  simp [enter, update_apply]

@[simp] theorem leave_mux (s : State P) (p : P) (pc : Pc) : (s.leave p pc).mux = s.mux := rfl

theorem leave_pc (s : State P) (p q : P) (pc : Pc) :
    (s.leave p pc).pc q = if q = p then pc else s.pc q := goto_pc s p q pc

theorem leave_inside (s : State P) (p q : P) (pc : Pc) :
    (s.leave p pc).inside q = if q = p then false else s.inside q := by
  simp [leave, update_apply]

end State

theorem Pc.wakeup_eq_unlock {pc : Pc} {b : Bool} (h : pc.wakeup = .unlock b) : pc = .unlock b := by
  cases pc <;> simp_all [Pc.wakeup]

theorem Pc.afterUnlock_ne_unlock (b b' : Bool) : Pc.afterUnlock b ≠ .unlock b' := by
  cases b <;> simp [Pc.afterUnlock]

theorem Call.entry_ne_unlock_wait (c : Call) : c.entry ≠ .unlock true := by
  cases c <;> simp [Call.entry]

/-! ## The invariant -/

/-- Who is inside is what the mutex says. -/
structure Inv (pid : P → Int) (s : State P) : Prop where
  bit : s.mux.locked = 0 ∨ s.mux.locked = 1
  inside_iff : ∀ p, s.inside p = true ↔ s.mux.locked = 1 ∧ s.mux.pid = pid p
  unlock_wait : ∀ p, s.pc p = .unlock true → s.inside p = true

variable {pid : P → Int} {s t : State P}

theorem Inv.holding_iff (h : Inv pid s) (p : P) :
    s.mux.holding (pid p) = true ↔ s.inside p = true := by
  rw [Mutex.holding_iff, h.inside_iff]
  rcases h.bit with h0 | h1
  · simp [h0]
  · simp [h1]

/-- A step that leaves the lock and who is inside alone keeps the invariant, if it moves nobody
to the release inside `cv_wait` but the process inside. -/
theorem Inv.of_eq (h : Inv pid s) (hl : t.mux.locked = s.mux.locked) (hp : t.mux.pid = s.mux.pid)
    (hi : t.inside = s.inside)
    (hpc : ∀ q, t.pc q = .unlock true → s.pc q = .unlock true ∨ s.inside q = true) :
    Inv pid t where
  bit := by rw [hl]; exact h.bit
  inside_iff p := by rw [hi, hl, hp]; exact h.inside_iff p
  unlock_wait q hq := by
    rw [hi]
    exact (hpc q hq).elim (h.unlock_wait q) id

theorem Inv.wakeup (h : Inv pid s) : Inv pid s.wakeup :=
  h.of_eq rfl rfl rfl fun _ hq => .inl (Pc.wakeup_eq_unlock hq)

/-- The condition variable is not part of the invariant. -/
theorem Inv.setCv (h : Inv pid s) (cv : Int) : Inv pid { s with mux := { s.mux with cv := cv } } :=
  h.of_eq rfl rfl rfl fun _ hq => .inl hq

variable [DecidableEq P]

theorem Inv.goto (h : Inv pid s) (p : P) {pc : Pc} (hpc : pc = .unlock true → s.inside p = true) :
    Inv pid (s.goto p pc) := by
  refine h.of_eq rfl rfl rfl fun q hq => ?_
  rw [State.goto_pc] at hq
  split at hq
  · rename_i e
    exact .inr (e ▸ hpc hq)
  · exact .inl hq

/-- A `mutex_lock` by the process inside returns at its test. -/
theorem Inv.enter_self (h : Inv pid s) {p : P} (hp : s.inside p = true) : Inv pid (s.enter p) := by
  refine h.of_eq rfl rfl ?_ fun q hq => ?_
  · funext q
    rw [State.enter_inside]
    split
    · rename_i e
      rw [e, hp]
    · rfl
  · rw [State.enter_pc] at hq
    split at hq
    · cases hq
    · exact .inl hq

/-- Taking the free lock. -/
theorem Inv.take (h : Inv pid s) (hinj : Injective pid) (p : P) (hl : s.mux.locked ≠ 1) :
    Inv pid ({ s with mux := s.mux.take (pid p) }.enter p) where
  bit := .inr rfl
  inside_iff q := by
    have hout : s.inside q = false := by
      have := h.inside_iff q
      simpa [hl] using this
    rw [State.enter_inside]
    by_cases hqp : q = p
    · simp [hqp]
    · have hne : pid p ≠ pid q := fun e => hqp (hinj e).symm
      simp [hqp, hout, hne]
  unlock_wait q hq := by
    rw [State.enter_pc] at hq
    split at hq
    · cases hq
    · rw [State.enter_inside, h.unlock_wait q hq]
      simp

/-- Releasing the held lock: nobody is inside any more. -/
theorem Inv.release (h : Inv pid s) {p : P} (hp : s.inside p = true)
    (hinj : Injective pid) {pc : Pc} (hpc : pc ≠ .unlock true) :
    Inv pid ({ s with mux := s.mux.release }.leave p pc) := by
  have honly : ∀ q, s.inside q = true → q = p := fun q hq =>
    hinj (((h.inside_iff q).1 hq).2.symm.trans ((h.inside_iff p).1 hp).2)
  refine ⟨.inl rfl, fun q => ?_, fun q hq => ?_⟩
  · rw [State.leave_inside]
    by_cases hqp : q = p
    · simp [hqp]
    · have : s.inside q ≠ true := fun hq => hqp (honly q hq)
      simp [hqp, this]
  · rw [State.leave_pc] at hq
    split at hq
    · exact absurd hq hpc
    · rename_i hqp
      exact absurd (honly q (h.unlock_wait q hq)) hqp

/-- A release by a process that is not inside finds the holder test false. -/
theorem Inv.leave_outside (h : Inv pid s) {p : P} (hp : s.inside p = false) {pc : Pc}
    (hpc : pc ≠ .unlock true) : Inv pid (s.leave p pc) := by
  refine h.of_eq rfl rfl ?_ fun q hq => ?_
  · funext q
    rw [State.leave_inside]
    split
    · rename_i e
      rw [e, hp]
    · rfl
  · rw [State.leave_pc] at hq
    split at hq
    · exact absurd hq hpc
    · exact .inl hq

/-! ## Steps and runs -/

theorem Inv.step (h : Inv pid s) (hinj : Injective pid) {p : P}
    (hst : Mutex.step pid s p = some t) : Inv pid t := by
  cases stepped hst with
  | held _ hh => exact h.enter_self ((h.holding_iff p).1 hh)
  | taken _ hl => exact h.take hinj p hl
  | released _ _ hh => exact h.release ((h.holding_iff p).1 hh) hinj (by simp)
  | notHeld _ _ hh =>
    refine h.leave_outside ?_ (Pc.afterUnlock_ne_unlock _ _)
    rw [← Bool.not_eq_true, ← h.holding_iff, hh]
    exact Bool.false_ne_true
  | unlockWoke => exact h.wakeup.goto p fun e => absurd e (Pc.afterUnlock_ne_unlock _ _)
  | waits _ hh => exact h.goto p fun _ => (h.holding_iff p).1 hh
  | passed | signalled => exact (h.setCv _).goto p (by simp)
  | signalWoke done =>
    refine h.wakeup.goto p fun e => ?_
    split at e <;> cases e
  | tested | blocked | refused | failed | parked | spun => exact h.goto p (by simp)

theorem inv_of_reachable (hinj : Injective pid) (h : (machine pid).Reachable s) :
    Inv pid s := by
  refine Machine.Reach.invariant h ?_ ?_
  · rintro s ⟨hl, hpc, hin⟩
    exact ⟨.inl hl, fun p => by simp [hin, hl], fun p hp => by simp [hpc] at hp⟩
  · rintro s t (⟨p, c⟩ | p) hs - hst
    · simp only [machine] at hst
      split at hst
      · obtain rfl := Option.some.inj hst
        exact hs.goto p fun e => absurd e c.entry_ne_unlock_wait
      · cases hst
    · exact hs.step hinj hst

/-- A `mutex_unlock` or `cv_wait` of a process that is not inside leaves the lock alone, and the
`cv_wait` returns at its test. -/
theorem Inv.outside_step (h : Inv pid s) {p : P} (hp : s.inside p = false)
    (hpc : s.pc p = .unlock false ∨ s.pc p = .waitTest) (hst : Mutex.step pid s p = some t) :
    t.mux.locked = s.mux.locked ∧ t.mux.pid = s.mux.pid ∧ t.pc p = .user := by
  have hn : s.mux.holding (pid p) = false := by
    rw [← Bool.not_eq_true, h.holding_iff]
    simp [hp]
  rcases hpc with hpc | hpc <;> simp only [Mutex.step, hpc, hn, Bool.false_eq_true, if_false] at hst
  · obtain rfl := Option.some.inj hst
    exact ⟨rfl, rfl, by simp [State.leave_pc, Pc.afterUnlock]⟩
  · obtain rfl := Option.some.inj hst
    exact ⟨rfl, rfl, by simp⟩

/-- **Mutual exclusion.** At most one process is inside the critical section; it is the one with
`locked = 1` and its pid in the mutex; only it is at the release inside `cv_wait`; and a
`mutex_unlock` or a `cv_wait` of any other process leaves `locked` and `pid` as they are and
returns. -/
theorem mutual_exclusion (pid : P ↪ Int) {s : State P} (h : (machine pid).Reachable s) :
    (∀ p q, s.inside p = true → s.inside q = true → p = q) ∧
    (∀ p, s.inside p = true ↔ s.mux.locked = 1 ∧ s.mux.pid = pid p) ∧
    (∀ p, s.pc p = .unlock true → s.inside p = true) ∧
    ∀ p t, s.inside p = false → s.pc p = .unlock false ∨ s.pc p = .waitTest →
      Mutex.step pid s p = some t →
      t.mux.locked = s.mux.locked ∧ t.mux.pid = s.mux.pid ∧ t.pc p = .user := by
  have hinv := inv_of_reachable pid.injective h
  refine ⟨fun p q hp hq => ?_, hinv.inside_iff, hinv.unlock_wait,
    fun p t hp hpc hst => hinv.outside_step hp hpc hst⟩
  apply pid.injective
  rw [← ((hinv.inside_iff p).1 hp).2, ← ((hinv.inside_iff q).1 hq).2]

/-- The pids `3` and `4`. -/
def twoPids : Fin 2 ↪ Int where
  toFun p := (p.val : Int) + 3
  inj' p q h := by
    have : (p.val : Int) + 3 = q.val + 3 := h
    omega

/-- The second process falls asleep in `mutex_lock` behind the first. -/
def twoLocks : List (Act (Fin 2)) :=
  [.call 0 .lock, .call 1 .lock, .step 1, .step 0, .step 0, .step 1]

/-- The first process has the mutex. -/
theorem mutual_exclusion_twoLocks :
    ∃ s, (machine twoPids).exec ⟨Mutex.zero, fun _ => .user, fun _ => false⟩ twoLocks = some s ∧
      s.pc 1 = .lockSleep ∧ s.inside 0 = true ∧ s.mux.locked = 1 ∧ s.mux.pid = 3 := by
  refine ⟨_, rfl, by decide, by decide, ?_⟩
  have h := mutual_exclusion twoPids (Machine.reachable_of_exec (M := machine twoPids)
    (s := ⟨Mutex.zero, fun _ => .user, fun _ => false⟩) ⟨rfl, fun _ => rfl, fun _ => rfl⟩
    twoLocks rfl)
  exact (h.2.1 0).1 (by decide)

end Dockv6.Mutex
