import Dockv6.Mutex.Exclusion

/-!
# Signals

`cv_signal` sets `mux->cv` from `0` to `1` under `mtable.lock`, and `cv_wait` takes it back with a
compare-and-swap. A waiter whose swap has failed goes to sleep in a step of its own, so that a whole
`cv_signal` fits in between (`signal_missed`).
-/

namespace Dockv6.Mutex

variable {P : Type*} [DecidableEq P] {pid : P → Int} {s t : State P} {p : P}

/-! ## Counting signals -/

/-- A state with the number of calls of `cv_signal` that have set `cv`, and of calls of `cv_wait`
that have passed their compare-and-swap. -/
structure Counted (P : Type*) where
  state : State P
  sets : ℕ
  passes : ℕ

/-- From `s` to `t`, a `cv_signal` of `p` has set `cv`. -/
def State.sets (s t : State P) (p : P) : ℕ :=
  if s.pc p = .signal ∧ t.pc p = .signalWake true then 1 else 0

/-- From `s` to `t`, a `cv_wait` of `p` has passed its compare-and-swap. -/
def State.passes (s t : State P) (p : P) : ℕ :=
  if s.pc p = .waitCas ∧ t.pc p = .lockTest then 1 else 0

/-- The machine of all interleavings, from `cv = 0`, with the counts. -/
def countedMachine (pid : P → Int) : Machine (Counted P) (Act P) where
  init c := (machine pid).init c.state ∧ c.state.mux.cv = 0 ∧ c.sets = 0 ∧ c.passes = 0
  step c a := ((machine pid).step c.state a).map fun t =>
    match a with
    | .call _ _ => { c with state := t }
    | .step p =>
      { state := t, sets := c.sets + c.state.sets t p, passes := c.passes + c.state.passes t p }

/-- A step sets `cv`, takes it back, or leaves it alone, and the counts say which. -/
theorem step_cv (h : step pid s p = some t) :
    (s.mux.cv = 0 ∧ t.mux.cv = 1 ∧ s.sets t p = 1 ∧ s.passes t p = 0) ∨
      (s.mux.cv = 1 ∧ t.mux.cv = 0 ∧ s.sets t p = 0 ∧ s.passes t p = 1) ∨
      (t.mux.cv = s.mux.cv ∧ s.sets t p = 0 ∧ s.passes t p = 0) := by
  cases stepped h with
  | signalled hpc hcv =>
    exact .inl ⟨hcv, rfl, by simp [State.sets, hpc], by simp [State.passes, hpc]⟩
  | passed hpc hcv =>
    exact .inr (.inl ⟨hcv, rfl, by simp [State.sets, hpc], by simp [State.passes, hpc]⟩)
  | spun hpc => exact .inr (.inr ⟨rfl, by simp [State.sets], by simp [State.passes, hpc]⟩)
  | failed hpc => exact .inr (.inr ⟨rfl, by simp [State.sets, hpc], by simp [State.passes]⟩)
  | held hpc | tested hpc | blocked hpc | taken hpc | released _ hpc | notHeld _ hpc
  | unlockWoke _ hpc | waits hpc | refused hpc | parked hpc | signalWoke _ hpc =>
    exact .inr (.inr ⟨rfl, by simp [State.sets, hpc], by simp [State.passes, hpc]⟩)

/-- **No signal is lost or taken twice**: `cv` is `0` or `1`, and the calls of `cv_signal` that have
set it are as many as the calls of `cv_wait` that have passed their swap, and one more if `cv` is
`1`. -/
theorem signals_conserved {c : Counted P} (h : (countedMachine pid).Reachable c) :
    (c.state.mux.cv = 0 ∨ c.state.mux.cv = 1) ∧ (c.sets : Int) = c.passes + c.state.mux.cv := by
  refine Machine.Reach.invariant h (I := fun c => (c.state.mux.cv = 0 ∨ c.state.mux.cv = 1) ∧
    (c.sets : Int) = c.passes + c.state.mux.cv) ?_ ?_
  · rintro c ⟨-, hcv, hsets, hpasses⟩
    simp [hcv, hsets, hpasses]
  · rintro c c' a ⟨hbit, hsum⟩ - hstep
    obtain ⟨t, ht, rfl⟩ := Option.map_eq_some_iff.mp hstep
    cases a with
    | call p call =>
      simp only [machine] at ht
      split_ifs at ht
      cases ht
      exact ⟨hbit, hsum⟩
    | step p =>
      show (t.mux.cv = 0 ∨ t.mux.cv = 1) ∧
        ((c.sets + c.state.sets t p : ℕ) : Int) = (c.passes + c.state.passes t p : ℕ) + t.mux.cv
      obtain ⟨hs, ht, hset, hpass⟩ | ⟨hs, ht, hset, hpass⟩ | ⟨ht, hset, hpass⟩ := step_cv ht <;>
        rw [ht, hset, hpass] <;> omega

/-- The first process falls asleep in `cv_wait`; the second signals it. -/
def waitThenSignal : List (Act (Fin 2)) :=
  [.call 0 .lock, .step 0, .step 0, .call 0 .wait, .step 0, .step 0, .step 0, .step 0, .step 0,
    .call 1 .signal, .step 1]

/-- A mutex nobody uses. -/
def idle : State (Fin 2) := ⟨Mutex.zero, fun _ => .user, fun _ => false⟩

/-- The signal has not been taken yet. -/
theorem signals_conserved_waitThenSignal :
    ∃ c, (countedMachine twoPids).exec ⟨idle, 0, 0⟩ waitThenSignal = some c ∧
      c.sets = 1 ∧ c.passes = 0 ∧ c.state.mux.cv = 1 := by
  refine ⟨_, rfl, by decide, by decide, ?_⟩
  have h := signals_conserved (Machine.reachable_of_exec (M := countedMachine twoPids)
    (s := ⟨idle, 0, 0⟩) ⟨⟨rfl, fun _ => rfl, fun _ => rfl⟩, rfl, rfl, rfl⟩ waitThenSignal rfl)
  exact h.1.resolve_left (by decide)

/-! ## Waiting for a wake-up -/

omit [DecidableEq P] in
/-- For whoever is at a point of `A`, the mutex is as `C` says or somebody is at a point of `B`. -/
def Covered (A B : Pc → Prop) (C : Mutex → Prop) (s : State P) : Prop :=
  ∀ q, A (s.pc q) → C s.mux ∨ ∃ r, B (s.pc r)

namespace Covered

variable {A B : Pc → Prop} {C : Mutex → Prop}

omit [DecidableEq P] in
theorem mono (h : Covered A B C s) (hA : ∀ q, A (t.pc q) → A (s.pc q))
    (hB : ∀ r, B (s.pc r) → B (t.pc r)) (hC : C s.mux → C t.mux) : Covered A B C t := fun q hq =>
  (h q (hA q hq)).imp hC fun ⟨r, hr⟩ => ⟨r, hB r hr⟩

/-- `p` goes on, to a point of `A` only from one and from a point of `B` only to one. -/
theorem goto {pc : Pc} {m : Mutex} (h : Covered A B C s) (hA : A pc → A (s.pc p))
    (hB : B (s.pc p) → B pc) (hC : C s.mux → C m) :
    Covered A B C ({ s with mux := m }.goto p pc) := by
  refine h.mono (fun q hq => ?_) (fun r hr => ?_) hC
  · rw [State.goto_pc] at hq
    split_ifs at hq with heq
    · rw [heq]
      exact hA hq
    · exact hq
  · rw [State.goto_pc]
    split_ifs with heq
    · exact hB (heq ▸ hr)
    · exact hr

omit [DecidableEq P] in
theorem wakeup (h : Covered A B C s) (hA : ∀ pc, A pc.wakeup → A pc)
    (hB : ∀ pc, B pc → B pc.wakeup) : Covered A B C s.wakeup :=
  h.mono (fun _ => hA _) (fun _ => hB _) id

end Covered

/-- In `cv_wait`, after a swap that has failed. -/
def Pc.missing (pc : Pc) : Prop := pc = .waitPark ∨ pc = .waitSleep

/-- With the `wakeup` of a `cv_signal` to come. -/
def Pc.signalling (pc : Pc) : Prop := ∃ done, pc = .signalWake done

/-- No `wakeup` of a `cv_signal` with `cv = 1` while a waiter is about to sleep. -/
def State.wakesAll (s : State P) : Act P → Prop
  | .call _ _ => True
  | .step p => (s.pc p).signalling → s.mux.cv = 1 → ∀ q, s.pc q ≠ .waitPark

theorem Pc.missing_of_wakeup {pc : Pc} (h : pc.wakeup.missing) : pc = .waitPark := by
  cases pc <;> simp_all [Pc.missing, Pc.wakeup]

theorem Pc.signalling_wakeup {pc : Pc} (h : pc.signalling) : pc.wakeup.signalling := by
  obtain ⟨done, rfl⟩ := h
  exact ⟨done, rfl⟩

theorem covered_step (h : Covered Pc.missing Pc.signalling (·.cv ≠ 1) s)
    (hok : s.wakesAll (.step p)) (hst : step pid s p = some t) :
    Covered Pc.missing Pc.signalling (·.cv ≠ 1) t := by
  have hwake : Covered Pc.missing Pc.signalling (·.cv ≠ 1) s.wakeup :=
    h.wakeup (fun _ hpc => .inl (Pc.missing_of_wakeup hpc)) fun _ => Pc.signalling_wakeup
  cases stepped hst with
  | passed => exact fun _ _ => .inl (by simp)
  | failed _ hcv => exact fun _ _ => .inl hcv
  | parked hpc =>
    exact h.goto (fun _ => .inl hpc) (fun hB => absurd hB (by simp [Pc.signalling, hpc])) id
  | signalled => exact fun _ _ => .inr ⟨p, true, State.goto_self ..⟩
  | spun => exact fun _ _ => .inr ⟨p, false, State.goto_self ..⟩
  | signalWoke done hpc =>
    by_cases hcv : s.mux.cv = 1
    · -- Nobody is about to sleep, and who sleeps is woken up.
      intro q hq
      rw [State.goto_pc] at hq
      split_ifs at hq
      · simp [Pc.missing] at hq
      · simp [Pc.missing] at hq
      · exact absurd (Pc.missing_of_wakeup hq) (hok ⟨done, hpc⟩ hcv q)
    · exact fun _ _ => .inl hcv
  | unlockWoke wait hpc =>
    refine hwake.goto (fun hA => ?_) (by simp [Pc.signalling, hpc, Pc.wakeup]) id
    cases wait <;> simp [Pc.missing, Pc.afterUnlock] at hA
  | notHeld wait hpc =>
    refine h.goto (fun hA => ?_) (by simp [Pc.signalling, hpc]) id
    cases wait <;> simp [Pc.missing, Pc.afterUnlock] at hA
  | held hpc | tested hpc | blocked hpc | taken hpc | released _ hpc | waits hpc | refused hpc =>
    exact h.goto (by simp [Pc.missing]) (by simp [Pc.signalling, hpc]) id

/-- **No missed signal, if no wake-up comes while a waiter is about to sleep**: a `wakeup` of a
`cv_signal` is still to come whenever `cv` is `1` and a process is asleep in `cv_wait`. -/
theorem no_missed_signal (h : (machine pid).Reach State.wakesAll s) (hcv : s.mux.cv = 1)
    (hsleep : ∃ q, s.pc q = .waitSleep) : ∃ r done, s.pc r = .signalWake done := by
  have hcovered : Covered Pc.missing Pc.signalling (·.cv ≠ 1) s := by
    refine h.invariant (fun s hs q hq => ?_) fun s t a hs hok hst => ?_
    · obtain ⟨-, hpc, -⟩ := hs
      simp [Pc.missing, hpc] at hq
    · cases a with
      | call p c =>
        simp only [machine] at hst
        split_ifs at hst with huser
        cases hst
        refine hs.goto (fun hA => ?_) (by simp [Pc.signalling, huser]) id
        cases c <;> simp [Pc.missing, Call.entry] at hA
      | step p => exact covered_step hs hok hst
  obtain ⟨q, hq⟩ := hsleep
  exact (hcovered q (.inr hq)).resolve_left (not_not.mpr hcv)

/-- The whole `cv_signal` of the second process comes between the failed swap and the sleep of the
first. -/
def signalBetween : List (Act (Fin 2)) :=
  [.call 0 .lock, .step 0, .step 0, .call 0 .wait, .step 0, .step 0, .step 0, .step 0,
    .call 1 .signal, .step 1, .step 1, .step 0]

/-- The first process sleeps in `cv_wait` with `cv = 1`, and no `wakeup` is to come. -/
theorem signal_missed : ∃ s, (machine twoPids).Reachable s ∧ s.mux.cv = 1 ∧ s.pc 0 = .waitSleep ∧
    ∀ q, s.pc q ≠ .signalWake true ∧ s.pc q ≠ .signalWake false := by
  refine ⟨_, Machine.reachable_of_exec (s := idle)
    ⟨rfl, fun _ => rfl, fun _ => rfl⟩ signalBetween rfl, ?_⟩
  decide

instance (s : State (Fin 2)) : (a : Act (Fin 2)) → Decidable (s.wakesAll a)
  | .call _ _ => .isTrue trivial
  | .step p => inferInstanceAs (Decidable ((∃ done, s.pc p = .signalWake done) → _ → ∀ _, _))

/-- The second process has yet to wake up the first. -/
theorem no_missed_signal_waitThenSignal : ∃ s : State (Fin 2),
    (machine twoPids).Reach State.wakesAll s ∧ s.mux.cv = 1 ∧ s.pc 0 = .waitSleep ∧
    ∃ r done, s.pc r = .signalWake done := by
  have hreach := fun s => Machine.reach_of_exec_decide (machine twoPids) State.wakesAll (t := s)
    (s := idle) ⟨rfl, fun _ => rfl, fun _ => rfl⟩ waitThenSignal
  refine ⟨_, hreach _ rfl, ?_, ?_, no_missed_signal (hreach _ rfl) ?_ ?_⟩
  · decide
  · decide
  · decide
  · exact ⟨0, by decide⟩

end Dockv6.Mutex
