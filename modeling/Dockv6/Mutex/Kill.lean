import Dockv6.Mutex.Lifecycle

/-!
# Killing a process that waits for a signal

`kill` of a process that sleeps in `cv_wait` sets `cv` from `0` to `1`, for the process to take.
With the last reference gone, `kill` sets `cv` back to `0`; and another waiter may take the `1`
first.

`escaping` are the processes that were killed in their sleep, `token` is the one that the present
`1` was set for, and `crossed` counts the swaps that took what was set for another.
-/

namespace Dockv6.Mutex

open Function

/-- A state with who was killed asleep in `cv_wait`, whom the present `1` of `cv` was set for by
`kill`, and how often it went to another. -/
structure Escape (P : Type*) extends Life P where
  escaping : P → Bool
  token : Option P
  crossed : ℕ

variable {P : Type*} [DecidableEq P]

namespace Escape

/-- Whose `1` a swap of `p` is to take. -/
def due (e : Escape P) (p : P) : Option P := if e.escaping p then some p else none

/-- A step of the processes to `t`, with the record of it. -/
def next (e : Escape P) (t : Life P) : LifeAct P → Escape P
  | .kill _ q =>
    { toLife := t
      escaping := update e.escaping q (e.escaping q || e.pc q = .waitSleep)
      token := if t.mux.cv ≠ 1 then none
        else if e.pc q = .waitSleep ∧ e.mux.cv = 0 then some q else e.token
      crossed := e.crossed }
  | .step p =>
    { toLife := t
      escaping := e.escaping
      token := if t.mux.cv ≠ 1 then none else e.token
      crossed := e.crossed + if e.toState.passes t.toState p = 1 ∧ e.token ≠ e.due p then 1 else 0 }
  | _ => { e with toLife := t, token := if t.mux.cv ≠ 1 then none else e.token }

/-- The machine of all interleavings, with the record. -/
def machine [Fintype P] (pid : P → Int) : Machine (Escape P) (LifeAct P) where
  init e := (Life.machine pid).init e.toLife ∧ (∀ p, e.escaping p = false) ∧ e.token = none ∧
    e.crossed = 0
  step e a := ((Life.machine pid).step e.toLife a).map fun t => e.next t a

end Escape

/-- A killed process is before its swap in `cv_wait`. -/
def Life.passing (s : Life P) (q : P) : Prop := s.killed q = true ∧ s.pc q = .waitCas

/-- `kill` hits a waiter when `cv` is `0` and there are other references; and as long as a killed
process is before its swap, nobody else tries the swap, and the mutex is not set up or killed
away. -/
def Life.letsPass (s : Life P) : LifeAct P → Prop
  | .kill _ q => (s.pc q = .waitSleep → s.mux.cv = 0) ∧
      (s.pc q = .waitSleep ∨ (∃ r, s.passing r) → (s.ref q : Int) < s.mux.refcount)
  | .step p => s.pc p = .waitCas → ∀ r, r ≠ p → ¬ s.passing r
  | .setup .. => ∀ r, ¬ s.passing r
  | _ => True

/-! ## The invariant -/

/-- Where a process that has been killed in its sleep can be: before the swap, or past it. -/
def Pc.past : Pc → Bool
  | .waitCas | .lockTest | .lockTry | .lockSleep | .user => true
  | _ => false

theorem Pc.past_wakeup {pc : Pc} (h : pc.past = true) :
    pc.wakeup.past = true ∧ (pc.wakeup = .waitCas ↔ pc = .waitCas) := by
  cases pc <;> simp_all [Pc.past, Pc.wakeup]

/-- A killed process before its swap has its `1`, and that is the only one set for anybody. -/
structure EscapeInv (e : Escape P) : Prop where
  calls : ∀ q, e.pc q ≠ .user → 0 < e.ref q
  killed : ∀ q, e.escaping q = true → e.killed q = true
  past : ∀ q, e.escaping q = true → (e.pc q).past = true
  owed : ∀ q, e.escaping q = true → e.pc q = .waitCas → e.mux.cv = 1 ∧ e.token = some q
  own : ∀ q, e.token = some q → e.escaping q = true ∧ e.pc q = .waitCas
  crossed : e.crossed = 0

variable {pid : P → Int} {e : Escape P} {p q : P}

namespace EscapeInv

omit [DecidableEq P] in
theorem cv_of_token (h : EscapeInv e) (hq : e.token = some q) : e.mux.cv = 1 :=
  have ⟨hesc, hpc⟩ := h.own q hq
  (h.owed q hesc hpc).1

omit [DecidableEq P] in
theorem token_eq (h : EscapeInv e) : (if e.mux.cv ≠ 1 then none else e.token) = e.token := by
  cases htoken : e.token with
  | none => exact ite_self none
  | some q => exact if_neg (not_not.mpr (h.cv_of_token htoken))

omit [DecidableEq P] in
/-- Nobody is owed a `1` when nobody is about to pass. -/
theorem token_eq_none (h : EscapeInv e) (hnobody : ∀ q, e.escaping q = true → e.pc q ≠ .waitCas) :
    e.token = none := by
  refine Option.eq_none_iff_forall_ne_some.mpr fun q hq => ?_
  obtain ⟨hesc, hpc⟩ := h.own q hq
  exact hnobody q hesc hpc

omit [DecidableEq P] in
theorem passing (h : EscapeInv e) (hesc : e.escaping q = true) (hpc : e.pc q = .waitCas) :
    e.toLife.passing q :=
  ⟨h.killed q hesc, hpc⟩

/-- A step of `p` in the calls, to `t`: the others stay where they are or are woken up. -/
structure Moves (e : Escape P) (p : P) (t : State P) : Prop where
  others : ∀ q, q ≠ p → t.pc q = e.pc q ∨ t.pc q = (e.pc q).wakeup
  calls : e.pc p ≠ .user
  past : e.escaping p = true → (t.pc p).past = true ∧ t.pc p ≠ .waitCas

theorem Moves.goto {t : State P} {pc : Pc} (hpc : ∀ q, t.pc q = if q = p then pc else e.pc q)
    (hcalls : e.pc p ≠ .user) (hpast : e.escaping p = true → pc.past = true ∧ pc ≠ .waitCas) :
    Moves e p t :=
  ⟨fun q hq => .inl (by rw [hpc, if_neg hq]), hcalls, by rwa [hpc, if_pos rfl]⟩

theorem Moves.wake {pc : Pc} (hcalls : e.pc p ≠ .user)
    (hpast : e.escaping p = true → pc.past = true ∧ pc ≠ .waitCas) :
    Moves e p (e.toState.wakeup.goto p pc) :=
  ⟨fun q hq => .inr (by rw [State.goto_pc, if_neg hq]; rfl), hcalls, by rwa [State.goto_self]⟩

theorem place {t : State P} (h : EscapeInv e) (hm : Moves e p t) (hesc : e.escaping q = true) :
    (t.pc q).past = true ∧ (t.pc q = .waitCas → q ≠ p ∧ e.pc q = .waitCas) := by
  by_cases hq : q = p
  · subst hq
    obtain ⟨hpast, hne⟩ := hm.past hesc
    exact ⟨hpast, fun heq => absurd heq hne⟩
  · obtain hpc | hpc := hm.others q hq
    · rw [hpc]
      exact ⟨h.past q hesc, fun heq => ⟨hq, heq⟩⟩
    · obtain ⟨hpast, hiff⟩ := Pc.past_wakeup (h.past q hesc)
      rw [hpc]
      exact ⟨hpast, fun heq => ⟨hq, hiff.mp heq⟩⟩

theorem in_call {t : State P} (h : EscapeInv e) (hm : Moves e p t) (hq : t.pc q ≠ .user) :
    0 < e.ref q := by
  by_cases hqp : q = p
  · rw [hqp]
    exact h.calls p hm.calls
  · refine h.calls q fun huser => hq ?_
    obtain hpc | hpc := hm.others q hqp <;> rw [hpc, huser]
    rfl

/-- A step that neither sets nor takes the `1`. -/
theorem keep {t : State P} (h : EscapeInv e) (hm : Moves e p t) (hcv : t.mux.cv = e.mux.cv)
    (hpass : e.toState.passes t p = 0) (hself : e.escaping p = true → e.pc p ≠ .waitCas) :
    EscapeInv (e.next { e.toLife with toState := t } (.step p)) where
  calls q hq := h.in_call hm hq
  killed := h.killed
  past q hesc := (h.place hm hesc).1
  owed q hesc hpc := by
    obtain ⟨-, hwas⟩ := (h.place hm hesc).2 hpc
    obtain ⟨hone, htoken⟩ := h.owed q hesc hwas
    refine ⟨hcv.trans hone, ?_⟩
    show (if t.mux.cv ≠ 1 then none else e.token) = some q
    rw [hcv, h.token_eq, htoken]
  own q hq := by
    have htoken : e.token = some q := by
      rw [← h.token_eq, ← hcv]
      exact hq
    obtain ⟨hesc, hpc⟩ := h.own q htoken
    have hq : q ≠ p := by
      rintro rfl
      exact hself hesc hpc
    refine ⟨hesc, ?_⟩
    obtain hstay | hwoken := hm.others q hq
    · exact hstay.trans hpc
    · exact hwoken.trans (congrArg Pc.wakeup hpc)
  crossed := by
    show e.crossed + _ = 0
    rw [h.crossed, hpass]
    rfl

/-- A step after which nobody is about to pass, and that takes nothing of another's. -/
theorem settle {t : State P} (h : EscapeInv e) (hm : Moves e p t)
    (hnobody : ∀ q, q ≠ p → e.escaping q = true → e.pc q ≠ .waitCas)
    (htoken : t.mux.cv = 1 → e.token = none)
    (hcross : e.toState.passes t p = 1 → e.token = e.due p) :
    EscapeInv (e.next { e.toLife with toState := t } (.step p)) where
  calls q hq := h.in_call hm hq
  killed := h.killed
  past q hesc := (h.place hm hesc).1
  owed q hesc hpc := by
    obtain ⟨hne, hwas⟩ := (h.place hm hesc).2 hpc
    exact absurd hwas (hnobody q hne hesc)
  own q hq := by
    have hq' : (if t.mux.cv ≠ 1 then none else e.token) = some q := hq
    split_ifs at hq' with hone
    rw [htoken (not_not.mp hone)] at hq'
    cases hq'
  crossed := by
    show e.crossed + (if e.toState.passes t p = 1 ∧ e.token ≠ e.due p then 1 else 0) = 0
    rw [h.crossed, if_neg fun hne => hne.2 (hcross hne.1)]

theorem step {t : State P} (h : EscapeInv e) (hok : e.toLife.letsPass (.step p))
    (hst : Mutex.step pid e.toState p = some t) :
    EscapeInv (e.next { e.toLife with toState := t } (.step p)) := by
  -- An escaping process is before its swap or past it.
  have hpast : ∀ {pc}, e.pc p = pc → pc.past = false → e.escaping p ≠ true := by
    intro pc hpc hnot hesc
    have := h.past p hesc
    rw [hpc, hnot] at this
    cases this
  cases stepped hst with
  | held hpc =>
    exact h.keep (.goto (State.enter_pc _ p) (by simp [hpc]) fun _ => by simp [Pc.past]) rfl
      (by simp [State.passes, hpc]) fun _ => by simp [hpc]
  | taken hpc =>
    exact h.keep (.goto (State.enter_pc _ p) (by simp [hpc]) fun _ => by simp [Pc.past]) rfl
      (by simp [State.passes, hpc]) fun _ => by simp [hpc]
  | tested hpc | blocked hpc =>
    exact h.keep (.goto (State.goto_pc _ p · _) (by simp [hpc]) fun _ => by simp [Pc.past]) rfl
      (by simp [State.passes, hpc]) fun _ => by simp [hpc]
  | released _ hpc | notHeld _ hpc =>
    exact h.keep (.goto (State.leave_pc _ p · _)
      (by simp [hpc]) fun hesc => absurd hesc (hpast hpc rfl))
      rfl (by simp [State.passes, hpc]) fun _ => by simp [hpc]
  | unlockWoke _ hpc | signalWoke _ hpc =>
    exact h.keep (.wake (by simp [hpc]) fun hesc => absurd hesc (hpast hpc rfl)) rfl
      (by simp [State.passes, hpc]) fun _ => by simp [hpc]
  | waits hpc | refused hpc | parked hpc | spun hpc =>
    exact h.keep (.goto (State.goto_pc _ p · _)
      (by simp [hpc]) fun hesc => absurd hesc (hpast hpc rfl))
      rfl (by simp [State.passes, hpc]) fun _ => by simp [hpc]
  | failed hpc hcv =>
    have hesc : e.escaping p ≠ true := fun hesc => hcv (h.owed p hesc hpc).1
    exact h.keep (.goto (State.goto_pc _ p · _) (by simp [hpc]) fun hp => absurd hp hesc) rfl
      (by simp [State.passes]) fun hp => absurd hp hesc
  | signalled hpc hcv =>
    have hnobody : ∀ q, e.escaping q = true → e.pc q ≠ .waitCas := fun q hesc hq =>
      absurd (hcv.symm.trans (h.owed q hesc hq).1) (by decide)
    exact h.settle
      (.goto (State.goto_pc _ p · _) (by simp [hpc]) fun hp => absurd hp (hpast hpc rfl))
      (fun q _ => hnobody q) (fun _ => h.token_eq_none hnobody) (by simp [State.passes, hpc])
  | passed hpc hcv =>
    have hothers : ∀ q, q ≠ p → e.escaping q = true → e.pc q ≠ .waitCas := fun q hq hesc hqc =>
      hok hpc q hq (h.passing hesc hqc)
    refine h.settle
      (.goto (State.goto_pc _ p · _) (by simp [hpc]) fun _ => by simp [Pc.past]) hothers
      (by simp) fun _ => ?_
    unfold Escape.due
    split_ifs with hesc
    · exact (h.owed p hesc hpc).2
    · refine h.token_eq_none fun q hq => ?_
      by_cases hqp : q = p
      · exact absurd (hqp ▸ hq) hesc
      · exact hothers q hqp hq

omit [DecidableEq P] in
/-- A step that leaves the killed processes where they are: the `1` is as before, or nobody needs
it. -/
theorem other {t : Life P} (h : EscapeInv e) (hcalls : ∀ q, t.pc q ≠ .user → 0 < t.ref q)
    (hkilled : t.killed = e.killed) (hpc : ∀ q, e.escaping q = true → t.pc q = e.pc q)
    (hcv : t.mux.cv = e.mux.cv ∨ ∀ q, e.escaping q = true → e.pc q ≠ .waitCas) :
    EscapeInv { e with toLife := t, token := if t.mux.cv ≠ 1 then none else e.token } where
  calls := hcalls
  killed q hesc := (congrFun hkilled q).trans (h.killed q hesc)
  past q hesc := by
    show (t.pc q).past = true
    rw [hpc q hesc]
    exact h.past q hesc
  owed q hesc hq := by
    have hwas : e.pc q = .waitCas := (hpc q hesc).symm.trans hq
    obtain hcv | hnobody := hcv
    · obtain ⟨hone, htoken⟩ := h.owed q hesc hwas
      refine ⟨hcv.trans hone, ?_⟩
      show (if t.mux.cv ≠ 1 then none else e.token) = some q
      rw [hcv, h.token_eq, htoken]
    · exact absurd hwas (hnobody q hesc)
  own q hq := by
    have hq' : (if t.mux.cv ≠ 1 then none else e.token) = some q := hq
    split_ifs at hq'
    obtain ⟨hesc, hwas⟩ := h.own q hq'
    exact ⟨hesc, (hpc q hesc).trans hwas⟩
  crossed := h.crossed

end EscapeInv

/-! ## What happens to the condition variable -/

theorem dropRef_cv (m : Mutex) (me : Int) (n : ℕ) : ((dropRef · me)^[n] m).cv = m.cv := by
  induction n generalizing m with
  | zero => rfl
  | succ n ih =>
    rw [iterate_succ_apply, ih]
    unfold dropRef
    split_ifs <;> rfl

/-- `kill` with other references around. -/
theorem killed_of_ne {m : Mutex} (h : m.refcount ≠ 1) (waiting : Bool) :
    (m.killed waiting).refcount = m.refcount - 1 ∧
      (m.killed waiting).cv = if waiting = true ∧ m.cv = 0 then 1 else m.cv := by
  unfold killed cas
  by_cases hw : waiting = true
  · by_cases hcv : m.cv = 0 <;> simp [hw, hcv, h]
  · simp [hw, h]

theorem killed_iterate_cv {m : Mutex} {waiting : Bool} {n : ℕ} (hn : (n : Int) < m.refcount)
    (hcv : m.cv = 1 ∨ (waiting = true ∧ m.cv = 0 ∧ 0 < n)) :
    ((killed · waiting)^[n] m).cv = 1 := by
  induction n generalizing m with
  | zero => exact hcv.resolve_right (by simp)
  | succ n ih =>
    push_cast at hn
    obtain ⟨hcount, hnew⟩ := killed_of_ne (m := m) (by omega) waiting
    rw [iterate_succ_apply]
    refine ih (by rw [hcount]; omega) (.inl ?_)
    rw [hnew]
    obtain hone | ⟨hw, hzero, -⟩ := hcv
    · rw [if_neg (by simp [hone]), hone]
    · rw [if_pos ⟨hw, hzero⟩]

namespace EscapeInv

theorem kill_calls (h : EscapeInv e) {r : P} (hr : (e.toLife.kill q).pc r ≠ .user) :
    0 < e.ref r := by
  refine h.calls r fun huser => hr ?_
  rw [Life.kill_pc]
  split_ifs
  · rw [huser]
    rfl
  · exact huser

/-- The target sleeps in `cv_wait`: it gets a `1` of its own, as nobody else is about to pass. -/
theorem kill_sleeper (h : EscapeInv e) (hsleep : e.pc q = .waitSleep) (hcv : e.mux.cv = 0)
    (hlast : (e.ref q : Int) < e.mux.refcount) :
    EscapeInv (e.next (e.toLife.kill q) (.kill p q)) := by
  have hnobody : ∀ r, e.escaping r = true → e.pc r ≠ .waitCas := fun r hesc hr =>
    absurd (hcv.symm.trans (h.owed r hesc hr).1) (by decide)
  have hone : (e.toLife.kill q).mux.cv = 1 := by
    refine killed_iterate_cv hlast (.inr ⟨by simp [Life.asleep, hsleep], hcv, ?_⟩)
    exact h.calls q (by simp [hsleep])
  have hself : (e.toLife.kill q).pc q = .waitCas := by
    rw [Life.kill_pc, if_pos rfl, hsleep]
    rfl
  have htoken : (e.next (e.toLife.kill q) (.kill p q)).token = some q := by
    simp [Escape.next, hone, hsleep, hcv]
  have hesc : ∀ {r}, (e.next (e.toLife.kill q) (.kill p q)).escaping r = true → r ≠ q →
      e.escaping r = true ∧ (e.toLife.kill q).pc r = e.pc r := by
    intro r hr hne
    exact ⟨by simpa [Escape.next, hne] using hr, by rw [Life.kill_pc, if_neg hne]⟩
  refine ⟨fun r hr => h.kill_calls hr, fun r hr => ?_, fun r hr => ?_, fun r hr hpc => ?_,
    fun r hr => ?_, h.crossed⟩
  · by_cases hrq : r = q
    · rw [hrq]
      exact update_self ..
    · exact (update_of_ne hrq ..).trans (h.killed r (hesc hr hrq).1)
  · by_cases hrq : r = q
    · rw [hrq]
      exact congrArg Pc.past hself
    · obtain ⟨hr, hpc⟩ := hesc hr hrq
      exact (congrArg Pc.past hpc).trans (h.past r hr)
  · by_cases hrq : r = q
    · rw [hrq]
      exact ⟨hone, htoken⟩
    · obtain ⟨hr, hsame⟩ := hesc hr hrq
      exact absurd (hsame.symm.trans hpc) (hnobody r hr)
  · rw [htoken] at hr
    cases hr
    exact ⟨by simp [Escape.next, hsleep], hself⟩

/-- The target does not sleep in `cv_wait`: the `1` stays if somebody is about to pass. -/
theorem kill_other (h : EscapeInv e) (hsleep : e.pc q ≠ .waitSleep)
    (hlast : (∃ r, e.toLife.passing r) → (e.ref q : Int) < e.mux.refcount) :
    EscapeInv (e.next (e.toLife.kill q) (.kill p q)) := by
  have hescaping : (e.next (e.toLife.kill q) (.kill p q)).escaping = e.escaping := by
    simp [Escape.next, hsleep]
  have htoken : (e.next (e.toLife.kill q) (.kill p q)).token =
      if (e.toLife.kill q).mux.cv ≠ 1 then none else e.token := by
    simp [Escape.next, hsleep]
  have hplace : ∀ {r}, e.escaping r = true → ((e.toLife.kill q).pc r).past = true ∧
      ((e.toLife.kill q).pc r = .waitCas ↔ e.pc r = .waitCas) := by
    intro r hr
    rw [Life.kill_pc]
    split_ifs
    · exact Pc.past_wakeup (h.past r hr)
    · exact ⟨h.past r hr, Iff.rfl⟩
  refine ⟨fun r hr => h.kill_calls hr, fun r hr => ?_, fun r hr => ?_, fun r hr hpc => ?_,
    fun r hr => ?_, h.crossed⟩
  · rw [hescaping] at hr
    show update e.killed q true r = true
    rw [update_apply, h.killed r hr, ite_self]
  · rw [hescaping] at hr
    exact (hplace hr).1
  · rw [hescaping] at hr
    have hwas := (hplace hr).2.mp hpc
    obtain ⟨hcv, hr'⟩ := h.owed r hr hwas
    have hone : (e.toLife.kill q).mux.cv = 1 :=
      killed_iterate_cv (hlast ⟨r, h.passing hr hwas⟩) (.inl hcv)
    refine ⟨hone, ?_⟩
    rw [htoken, if_neg (not_not.mpr hone), hr']
  · rw [htoken] at hr
    split_ifs at hr
    obtain ⟨hesc, hwas⟩ := h.own r hr
    exact ⟨hescaping ▸ hesc, (hplace hesc).2.mpr hwas⟩

end EscapeInv

/-! ## Runs -/

theorem Escape.inv [Fintype P] (h : (Escape.machine pid).Reach (fun e a => e.toLife.letsPass a) e) :
    EscapeInv e := by
  refine h.invariant (fun e he => ?_) fun e e' a he hok hst => ?_
  · obtain ⟨⟨-, -, -, hpc, -, -⟩, hesc, htoken, hcrossed⟩ := he
    exact ⟨fun q hq => absurd (hpc q) hq, fun q hq => by simp [hesc] at hq,
      fun q hq => by simp [hesc] at hq, fun q hq => by simp [hesc] at hq,
      fun q hq => by simp [htoken] at hq, hcrossed⟩
  obtain ⟨t, ht, rfl⟩ := Option.map_eq_some_iff.mp hst
  have hnotKilled : ∀ {p}, e.killed p = false → e.escaping p ≠ true := fun hp hesc => by
    rw [he.killed _ hesc] at hp
    cases hp
  have hcalls : ∀ {p n m}, e.pc p = .user → ∀ q, ((e.toLife.setMux m).setRef p n).pc q ≠ .user →
      0 < ((e.toLife.setMux m).setRef p n).ref q := by
    intro p n m huser q hq
    have hqp : q ≠ p := fun heq => hq (heq ▸ huser)
    show 0 < update e.ref p n q
    rw [update_of_ne hqp]
    exact he.calls q hq
  cases a with
  | call p c =>
    obtain ⟨⟨⟨-, hkilled, -⟩, href⟩, ht⟩ := Option.ite_none_right_eq_some.mp ht
    cases ht
    refine he.other (fun q hq => ?_) rfl (fun q hq => ?_) (.inl rfl)
    · by_cases hqp : q = p
      · rw [hqp]
        exact href
      · exact he.calls q (by simpa [State.goto_pc, hqp] using hq)
    · have hqp : q ≠ p := fun heq => hnotKilled hkilled (heq ▸ hq)
      simp [State.goto_pc, hqp]
  | step p =>
    obtain ⟨t', hstep, rfl⟩ := Option.map_eq_some_iff.mp ht
    exact he.step hok hstep
  | join p =>
    obtain ⟨⟨⟨huser, -⟩, -⟩, ht⟩ := Option.ite_none_right_eq_some.mp ht
    cases ht
    exact he.other (hcalls huser) rfl (fun _ _ => rfl) (.inl rfl)
  | setup p name cid found =>
    obtain ⟨⟨⟨huser, -⟩, -⟩, ht⟩ := Option.ite_none_right_eq_some.mp ht
    cases ht
    exact he.other (hcalls huser) rfl (fun _ _ => rfl)
      (.inr fun q hesc hq => hok q (he.passing hesc hq))
  | delete p =>
    obtain ⟨⟨⟨huser, -⟩, -⟩, ht⟩ := Option.ite_none_right_eq_some.mp ht
    cases ht
    exact he.other (hcalls huser) rfl (fun _ _ => rfl) (.inl (dropRef_cv _ _ 1))
  | exit p =>
    obtain ⟨⟨huser, -⟩, ht⟩ := Option.ite_none_right_eq_some.mp ht
    cases ht
    exact he.other (hcalls huser) rfl (fun _ _ => rfl) (.inl (dropRef_cv _ _ _))
  | kill p q =>
    obtain ⟨-, ht⟩ := Option.ite_none_right_eq_some.mp ht
    cases ht
    obtain ⟨hzero, hlast⟩ := hok
    by_cases hsleep : e.pc q = .waitSleep
    · exact he.kill_sleeper hsleep (hzero hsleep) (hlast (.inl hsleep))
    · exact he.kill_other hsleep fun hr => hlast (.inr hr)

/-- **A process killed in its sleep passes, if it is let**: it is never asleep in `cv_wait` again,
it takes the `1` that was set for it, and nobody else does. -/
theorem killed_escapes [Fintype P]
    (h : (Escape.machine pid).Reach (fun e a => e.toLife.letsPass a) e) :
    (∀ q, e.escaping q = true → e.pc q ≠ .waitSleep) ∧ e.crossed = 0 := by
  have hinv := Escape.inv h
  refine ⟨fun q hesc hq => ?_, hinv.crossed⟩
  have hpast := hinv.past q hesc
  rw [hq] at hpast
  cases hpast

/-- The first process waits for a signal, and the second kills it. -/
def killWaiter : List (LifeAct (Fin 2)) :=
  [.call 0 .lock, .step 0, .step 0, .call 0 .wait, .step 0, .step 0, .step 0, .step 0, .step 0,
    .kill 1 0, .step 0]

/-- A state with an empty record. -/
def Life.recorded (s : Life P) : Escape P :=
  { toLife := s, escaping := fun _ => false, token := none, crossed := 0 }

/-- The first process alone refers to the mutex. -/
def oneUser : Life (Fin 2) :=
  { twoUsers with
    mux := { Mutex.zero with isAlloc := 1, refcount := 1 }, ref := fun p => if p = 0 then 1 else 0 }

theorem oneUser_init : (Life.machine twoPids).init oneUser :=
  ⟨rfl, rfl, by decide, fun _ => rfl, fun _ => rfl, fun _ => rfl⟩

/-- The killed process had the only reference: it finds `cv = 0` and sleeps again. -/
theorem killed_sleeps_again : ∃ e, (Escape.machine twoPids).Reachable e ∧ e.escaping 0 = true ∧
    e.pc 0 = .waitSleep := by
  have hinit : (Escape.machine twoPids).init oneUser.recorded :=
    ⟨oneUser_init, fun _ => rfl, rfl, rfl⟩
  refine ⟨_, Machine.reachable_of_exec hinit (killWaiter ++ [.step 0]) rfl, ?_⟩
  decide

instance (s : Life (Fin 2)) : (a : LifeAct (Fin 2)) → Decidable (s.letsPass a)
  | .kill _ q => inferInstanceAs (Decidable ((_ → _) ∧
      (s.pc q = .waitSleep ∨ (∃ r, s.killed r = true ∧ s.pc r = .waitCas) → _)))
  | .step p =>
    inferInstanceAs (Decidable (_ → ∀ r, r ≠ p → ¬ (s.killed r = true ∧ s.pc r = .waitCas)))
  | .setup .. => inferInstanceAs (Decidable (∀ r, ¬ (s.killed r = true ∧ s.pc r = .waitCas)))
  | .call _ _ | .join _ | .delete _ | .exit _ => .isTrue trivial

/-- With a second reference the killed process passes. -/
theorem killed_escapes_killWaiter : ∃ e : Escape (Fin 2),
    (Escape.machine twoPids).Reach (fun e a => e.toLife.letsPass a) e ∧ e.escaping 0 = true ∧
    e.pc 0 = .lockTest ∧ e.crossed = 0 := by
  have hinit : (Escape.machine twoPids).init twoUsers.recorded :=
    ⟨twoUsers_init, fun _ => rfl, rfl, rfl⟩
  have hreach := fun e => Machine.reach_of_exec_decide (Escape.machine twoPids)
    (fun e a => e.toLife.letsPass a) (t := e) hinit killWaiter
  refine ⟨_, hreach _ rfl, ?_, ?_, (killed_escapes (hreach _ rfl)).2⟩ <;> decide

end Dockv6.Mutex
