import Dockv6.Kernel.Mutex
import Dockv6.Mutex.Signal

/-!
# A mutex and its users

The calls of `Mutex/Interleaving.lean` with `mutex_create`, `mutex_delete`, `exit` and `kill`. A
killed process finishes its call and exits; `kill` leaves its indices, so `exit` drops the same
references again. `mutex_delete`, `exit` and `kill` may release the lock without a `wakeup`
(`delete_strands_waiter`).
-/

namespace Dockv6.Mutex

open Function

/-! ## The machine -/

/-- The mutex and the processes: how many indices of each refer to the mutex, and who has been
killed and who has exited. -/
structure Life (P : Type*) extends State P where
  ref : P → ℕ
  killed : P → Bool
  dead : P → Bool

/-- A process starts a call or takes its next step, finds the mutex by its name in `mutex_create` or
sets it up (`found` if it has a free index for it), deletes it, exits, or kills the process `q`. -/
inductive LifeAct (P : Type*)
  | call (p : P) (c : Call)
  | step (p : P)
  | join (p : P)
  | setup (p : P) (name : Bytes) (cid : ℕ) (found : Bool)
  | delete (p : P)
  | exit (p : P)
  | kill (p q : P)

namespace Life

variable {P : Type*} [DecidableEq P]

omit [DecidableEq P] in
/-- Can the process make a call? -/
def canCall (s : Life P) (p : P) : Prop := s.pc p = .user ∧ s.killed p = false ∧ s.dead p = false

instance (s : Life P) (p : P) : Decidable (s.canCall p) := inferInstanceAs (Decidable (_ ∧ _))

omit [DecidableEq P] in
/-- Is the process asleep on the mutex? -/
def asleep (s : Life P) (p : P) : Bool := s.pc p = .lockSleep ∨ s.pc p = .waitSleep

/-- The process has `n` references. -/
def setRef (s : Life P) (p : P) (n : ℕ) : Life P := { s with ref := update s.ref p n }

omit [DecidableEq P] in
/-- Change the mutex. -/
def setMux (s : Life P) (m : Mutex) : Life P := { s with mux := m }

/-- `kill` of the process `q`. -/
def kill (s : Life P) (q : P) : Life P :=
  { s.setMux ((Mutex.killed · (s.asleep q))^[s.ref q] s.mux) with
    pc := update s.pc q (s.pc q).wakeup
    killed := update s.killed q true }

theorem kill_pc (s : Life P) (q r : P) :
    (s.kill q).pc r = if r = q then (s.pc r).wakeup else s.pc r := by
  simp only [kill, update_apply]
  split_ifs with hr
  · rw [hr]
  · rfl

/-- `exit` of the process `p`. -/
def exit (s : Life P) (pid : P → Int) (p : P) : Life P :=
  { (s.setMux ((Mutex.dropRef · (pid p))^[s.ref p] s.mux)).setRef p 0 with
    dead := update s.dead p true }

/-- The machine of all interleavings, from a free mutex with the right count. -/
def machine [Fintype P] (pid : P → Int) : Machine (Life P) (LifeAct P) where
  init s := s.mux.locked = 0 ∧ s.mux.cv = 0 ∧ s.mux.refcount = ∑ p, (s.ref p : Int) ∧
    (∀ p, s.pc p = .user) ∧ (∀ p, s.killed p = false) ∧ ∀ p, s.dead p = false
  step s
    | .call p c =>
      if s.canCall p ∧ 0 < s.ref p then some { s with toState := s.goto p c.entry } else none
    | .step p => (Mutex.step pid s.toState p).map fun t => { s with toState := t }
    | .join p =>
      if s.canCall p ∧ s.ref p = 0 then some ((s.setMux s.mux.addRef).setRef p 1) else none
    | .setup p name cid found =>
      if s.canCall p ∧ s.mux.isAlloc = 0 then
        some ((s.setMux (s.mux.setup name cid)).setRef p (s.ref p + found.toNat))
      else none
    | .delete p =>
      if s.canCall p ∧ 0 < s.ref p then
        some ((s.setMux (s.mux.dropRef (pid p))).setRef p (s.ref p - 1))
      else none
    | .exit p => if s.pc p = .user ∧ s.dead p = false then some (s.exit pid p) else none
    | .kill p q => if s.canCall p then some (s.kill q) else none

end Life

/-! ## Releasing the lock -/

/-- Dropping references leaves the lock alone if the caller does not hold it and others refer to
it. -/
theorem dropRef_iterate {m : Mutex} {me : Int} {n : ℕ} (hh : m.holding me = false)
    (hn : (n : Int) < m.refcount) : ((dropRef · me)^[n] m).locked = m.locked := by
  induction n generalizing m with
  | zero => rfl
  | succ n ih =>
    have hdrop : m.dropRef me = { m with refcount := m.refcount - 1 } := by
      unfold dropRef
      rw [if_neg (by omega), hh]
      rfl
    have hkept : (m.dropRef me).holding me = false := by
      rw [hdrop]
      exact hh
    rw [iterate_succ_apply, ih hkept (by rw [hdrop]; push_cast at hn ⊢; omega), hdrop]

variable {P : Type*} [DecidableEq P]

/-- Asleep in `mutex_lock`. -/
def Pc.waiting (pc : Pc) : Prop := pc = .lockSleep

/-- With a `wakeup` to come. -/
def Pc.waking (pc : Pc) : Prop := (∃ wait, pc = .unlockWake wait) ∨ pc.signalling

omit [DecidableEq P] in
/-- The process can give up its references: the lock is free, or it is held by another process and
there are other references, or nobody waits for it. -/
def Life.canDrop (s : Life P) (pid : P → Int) (p : P) : Prop :=
  s.mux.locked = 0 ∨ (s.mux.holding (pid p) = false ∧ (s.ref p : Int) < s.mux.refcount) ∨
    ∀ q, s.pc q ≠ .lockSleep

/-- The references of a process are dropped when this does not release the lock, or nobody (but the
process killed) waits for it. -/
def Life.strandsNobody (pid : P → Int) (s : Life P) : LifeAct P → Prop
  | .delete p | .exit p => s.canDrop pid p
  | .kill _ q => s.ref q = 0 ∨ s.mux.locked = 0 ∨ ∀ r, r ≠ q → s.pc r ≠ .lockSleep
  | _ => True

theorem Pc.not_waiting_wakeup (pc : Pc) : ¬ pc.wakeup.waiting := by
  cases pc <;> simp [Pc.waiting, Pc.wakeup]

theorem Pc.waking_wakeup {pc : Pc} (h : pc.waking) : pc.wakeup.waking := by
  obtain ⟨wait, rfl⟩ | h := h
  · exact .inl ⟨wait, rfl⟩
  · exact .inr (Pc.signalling_wakeup h)

variable {pid : P → Int} {p : P}

/-- A sleeping process in `mutex_lock` has a locked mutex or a `wakeup` to come. -/
abbrev Waited (s : State P) : Prop := Covered Pc.waiting Pc.waking (·.locked ≠ 0) s

theorem waited_step {s t : State P} (h : Waited s) (hst : step pid s p = some t) : Waited t := by
  have hnobody : ∀ pc, ¬ pc.waiting → Waited (s.wakeup.goto p pc) := by
    intro pc hpc q hq
    rw [State.goto_pc] at hq
    split_ifs at hq
    · exact absurd hq hpc
    · exact absurd hq (Pc.not_waiting_wakeup _)
  cases stepped hst with
  | blocked hpc hl => exact fun _ _ => .inl (by simp [hl])
  | taken => exact fun _ _ => .inl (by simp)
  | released wait => exact fun _ _ => .inr ⟨p, .inl ⟨wait, by simp [State.leave_pc]⟩⟩
  | unlockWoke wait => exact hnobody _ (by cases wait <;> simp [Pc.waiting, Pc.afterUnlock])
  | signalWoke done => exact hnobody _ (by cases done <;> simp [Pc.waiting])
  | notHeld wait hpc =>
    refine h.goto (fun hA => ?_) (by simp [Pc.waking, Pc.signalling, hpc]) id
    cases wait <;> simp [Pc.waiting, Pc.afterUnlock] at hA
  | held hpc | tested hpc | waits hpc | refused hpc | passed hpc | failed hpc | parked hpc
  | signalled hpc | spun hpc =>
    exact h.goto (by simp [Pc.waiting]) (by simp [Pc.waking, Pc.signalling, hpc]) id

omit [DecidableEq P] in
theorem Covered.setMux {A B : Pc → Prop} {C : Mutex → Prop} {s : State P} {m : Mutex}
    (h : Covered A B C s) (hC : C s.mux → C m) : Covered A B C { s with mux := m } :=
  h.mono (fun _ => id) (fun _ => id) hC

omit [DecidableEq P] in
/-- `n` references of `p` are dropped, at most those it has. -/
theorem waited_drop {s : Life P} {n : ℕ} (h : Waited s.toState) (hdrop : s.canDrop pid p)
    (hn : n ≤ s.ref p) : Waited { s.toState with mux := (dropRef · (pid p))^[n] s.mux } := by
  obtain hfree | ⟨hh, hlt⟩ | hnobody := hdrop
  · exact h.setMux fun hl => absurd hfree hl
  · refine h.setMux fun hl => ?_
    rwa [dropRef_iterate hh (by omega)]
  · exact fun q hq => absurd hq (hnobody q)

theorem waited_kill {s : Life P} {q : P} (h : Waited s.toState)
    (hok : s.ref q = 0 ∨ s.mux.locked = 0 ∨ ∀ r, r ≠ q → s.pc r ≠ .lockSleep) :
    Waited (s.kill q).toState := by
  have hwait : ∀ r, ((s.kill q).pc r).waiting → r ≠ q ∧ (s.pc r).waiting := by
    intro r hr
    rw [Life.kill_pc] at hr
    split_ifs at hr with heq
    · exact absurd hr (Pc.not_waiting_wakeup _)
    · exact ⟨heq, hr⟩
  have hmono : (s.mux.locked ≠ 0 → (s.kill q).mux.locked ≠ 0) → Waited (s.kill q).toState := by
    refine fun hC => h.mono (fun r hr => (hwait r hr).2) (fun r hr => ?_) hC
    rw [Life.kill_pc]
    split_ifs
    · exact Pc.waking_wakeup hr
    · exact hr
  obtain hzero | hfree | hnobody := hok
  · refine hmono fun hl => ?_
    simpa [Life.kill, Life.setMux, hzero] using hl
  · exact hmono fun hl => absurd hfree hl
  · exact fun r hr => absurd (hwait r hr).2 (hnobody r (hwait r hr).1)

theorem Life.waited [Fintype P] {s : Life P} (h : (Life.machine pid).Reach (strandsNobody pid) s) :
    Waited s.toState := by
  refine h.invariant (I := fun s => Waited s.toState) (fun s hs q hq => ?_) fun s t a hs hok hst =>
    ?_
  · obtain ⟨-, -, -, hpc, -⟩ := hs
    simp [Pc.waiting, hpc] at hq
  · cases a with
    | call p c =>
      obtain ⟨⟨⟨huser, -⟩, -⟩, ht⟩ := Option.ite_none_right_eq_some.mp hst
      cases ht
      refine hs.goto (fun hA => ?_) (by simp [Pc.waking, Pc.signalling, huser]) id
      cases c <;> simp [Pc.waiting, Call.entry] at hA
    | step p =>
      obtain ⟨t, ht, rfl⟩ := Option.map_eq_some_iff.mp hst
      exact waited_step hs ht
    | join p =>
      obtain ⟨-, ht⟩ := Option.ite_none_right_eq_some.mp hst
      cases ht
      exact hs.setMux id
    | setup p name cid found =>
      obtain ⟨-, ht⟩ := Option.ite_none_right_eq_some.mp hst
      cases ht
      exact hs.setMux id
    | delete p =>
      obtain ⟨⟨-, href⟩, ht⟩ := Option.ite_none_right_eq_some.mp hst
      cases ht
      exact waited_drop (n := 1) hs hok href
    | exit p =>
      obtain ⟨-, ht⟩ := Option.ite_none_right_eq_some.mp hst
      cases ht
      exact waited_drop hs hok le_rfl
    | kill p q =>
      obtain ⟨-, ht⟩ := Option.ite_none_right_eq_some.mp hst
      cases ht
      exact waited_kill hs hok

/-- **No waiter is stranded, if nobody waits when a holder goes**: a `wakeup` is still to come
whenever the lock is free and a process is asleep in `mutex_lock`. -/
theorem no_stranded_waiter [Fintype P] {s : Life P}
    (h : (Life.machine pid).Reach (Life.strandsNobody pid) s) (hfree : s.mux.locked = 0)
    (hsleep : ∃ q, s.pc q = .lockSleep) :
    ∃ r, (∃ wait, s.pc r = .unlockWake wait) ∨ ∃ done, s.pc r = .signalWake done := by
  obtain ⟨q, hq⟩ := hsleep
  exact (Life.waited h q hq).resolve_left (not_not.mpr hfree)

/-- Two processes with an index each for a mutex nobody uses. -/
def twoUsers : Life (Fin 2) :=
  { mux := { Mutex.zero with isAlloc := 1, refcount := 2 }, pc := fun _ => .user,
    inside := fun _ => false, ref := fun _ => 1, killed := fun _ => false, dead := fun _ => false }

theorem twoUsers_init : (Life.machine twoPids).init twoUsers :=
  ⟨rfl, rfl, by decide, fun _ => rfl, fun _ => rfl, fun _ => rfl⟩

/-- The second process waits for the lock of the first. -/
def lockBoth : List (LifeAct (Fin 2)) :=
  [.call 0 .lock, .step 0, .step 0, .call 1 .lock, .step 1, .step 1]

/-- The first process deletes the mutex: the lock is free, the second process sleeps, and nobody
will wake it up. -/
theorem delete_strands_waiter : ∃ s, (Life.machine twoPids).Reachable s ∧ s.mux.locked = 0 ∧
    s.pc 1 = .lockSleep ∧
    ∀ r, ¬ ((∃ wait, s.pc r = .unlockWake wait) ∨ ∃ done, s.pc r = .signalWake done) := by
  refine ⟨_, Machine.reachable_of_exec twoUsers_init (lockBoth ++ [.delete 0]) rfl, ?_⟩
  decide

instance (s : Life (Fin 2)) : (a : LifeAct (Fin 2)) → Decidable (s.strandsNobody twoPids a)
  | .delete _ | .exit _ => inferInstanceAs (Decidable (_ ∨ _ ∨ ∀ _, _))
  | .kill _ _ => inferInstanceAs (Decidable (_ ∨ _ ∨ ∀ _, _))
  | .call _ _ | .step _ | .join _ | .setup .. => .isTrue trivial

/-- The first process has released the lock and is about to wake the second up. -/
theorem no_stranded_waiter_lockBoth : ∃ s : Life (Fin 2),
    (Life.machine twoPids).Reach (Life.strandsNobody twoPids) s ∧ s.mux.locked = 0 ∧
    s.pc 1 = .lockSleep ∧
    ∃ r, (∃ wait, s.pc r = .unlockWake wait) ∨ ∃ done, s.pc r = .signalWake done := by
  have hreach := fun s => Machine.reach_of_exec_decide (Life.machine twoPids)
    (Life.strandsNobody twoPids) (t := s) twoUsers_init (lockBoth ++ [.call 0 .unlock, .step 0])
  refine ⟨_, hreach _ rfl, ?_, ?_, no_stranded_waiter (hreach _ rfl) ?_ ?_⟩
  · decide
  · decide
  · decide
  · exact ⟨1, by decide⟩

end Dockv6.Mutex
