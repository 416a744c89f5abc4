import Dockv6.Foundations.Run
import Dockv6.Kernel.Param

/-!
# The space in the log

`begin_op`, `log_write` and `end_op` of `log.c` by any number of processes. A section under
`log.lock` is one step, and so are the two tests of `log_write` before it. `begin_op` compares with
`LOGSIZE`, but `log_write` panics when `log.size - 1` blocks are logged, and `log.size` is
`LOGSIZE`.
-/

namespace Dockv6.LogSpace

open Function

variable {P : Type*}

/-- Where a process is. `logged` are the blocks it has logged since its `begin_op`. -/
inductive Pc
  | idle
  | op (logged : List ℕ)
  /-- In `log_write` of the block `b`, after the tests. -/
  | logWrite (logged : List ℕ) (b : ℕ)
  /-- In `end_op`, before the end of `commit`. -/
  | commit
  /-- In `end_op`, after `commit`. -/
  | committed

namespace Pc

/-- Between `begin_op` and `end_op`. -/
def active : Pc → Bool
  | .op _ | .logWrite _ _ => true
  | _ => false

/-- The number of blocks logged. -/
def used : Pc → ℕ
  | .op l | .logWrite l _ => l.length
  | _ => 0

@[simp] theorem used_op (l : List ℕ) : (op l).used = l.length := rfl

@[simp] theorem used_logWrite (l : List ℕ) (b : ℕ) : (logWrite l b).used = l.length := rfl

/-- Between the two sections of an `end_op` that commits. -/
def ending : Pc → Bool
  | .commit | .committed => true
  | _ => false

end Pc

/-- `struct log` without what belongs to the disk, the processes, and the message of a `panic`. -/
structure State (P : Type*) where
  size : ℕ
  outstanding : Int
  committing : Bool
  lh : List ℕ
  pc : P → Pc
  halted : Option String

/-- What a process may do. -/
inductive Act (P : Type*)
  | beginOp (p : P)
  /-- The tests of `log_write` for the block `b`. -/
  | logWrite (p : P) (b : ℕ)
  /-- The section of `log_write`. -/
  | record (p : P)
  /-- The first section of `end_op`. -/
  | endOp (p : P)
  | commit (p : P)
  /-- The second section of `end_op`. -/
  | endCommit (p : P)

section Machine

variable [DecidableEq P]

/-- The process goes on at `pc`. -/
def State.setPc (s : State P) (p : P) (pc : Pc) : State P := { s with pc := update s.pc p pc }

/-- `panic(msg)` -/
def State.panic (s : State P) (msg : String) : State P := { s with halted := some msg }

/-- `log_write` up to where it takes the lock. -/
def logWrite (s : State P) (p : P) (logged : List ℕ) (b : ℕ) : State P :=
  if LOGSIZE ≤ s.lh.length ∨ (s.size : Int) - 1 ≤ s.lh.length then s.panic "too big a transaction"
  else if s.outstanding < 1 then s.panic "log_write outside of trans"
  else s.setPc p (.logWrite logged b)

/-- The first section of `end_op`. -/
def endOp (s : State P) (p : P) : State P :=
  let s := { s with outstanding := s.outstanding - 1 }
  if s.committing then s.panic "log.committing"
  else if s.outstanding = 0 then { s.setPc p .commit with committing := true }
  else s.setPc p .idle

/-- A process whose `begin_op` has to wait has not made the step. -/
def step (s : State P) : Act P → Option (State P)
  | .beginOp p =>
    match s.pc p with
    | .idle =>
      if s.committing then none
      else if (s.lh.length : Int) + (s.outstanding + 1) * MAXOPBLOCKS > LOGSIZE then none
      else some { s.setPc p (.op []) with outstanding := s.outstanding + 1 }
    | _ => none
  | .logWrite p b =>
    match s.pc p with
    | .op logged => some (logWrite s p logged b)
    | _ => none
  | .record p =>
    match s.pc p with
    | .logWrite logged b =>
      some { s.setPc p (.op (logged.insert b)) with lh := if b ∈ s.lh then s.lh else s.lh ++ [b] }
    | _ => none
  | .endOp p =>
    match s.pc p with
    | .op _ => some (endOp s p)
    | _ => none
  | .commit p =>
    match s.pc p with
    | .commit => some { s.setPc p .committed with lh := [] }
    | _ => none
  | .endCommit p =>
    match s.pc p with
    | .committed => some { s.setPc p .idle with committing := false }
    | _ => none

/-- The log after `initlog`, with `log.size` as `mkfs` writes it. A `panic` ends the run. -/
def machine (P : Type*) [DecidableEq P] : Machine (State P) (Act P) where
  init s :=
    s.size = LOGSIZE ∧ s.outstanding = 0 ∧ s.committing = false ∧ s.lh = [] ∧
      (∀ p, s.pc p = .idle) ∧ s.halted = none
  step s a := if s.halted = none then step s a else none

end Machine

/-- No process logs more than `k` different blocks between its `begin_op` and its `end_op`. -/
def logsAtMost (k : ℕ) (s : State P) : Act P → Prop
  | .logWrite p b => ∀ logged, s.pc p = .op logged → (logged.insert b).length ≤ k
  | _ => True

/-! ## The invariants -/

/-- The processes of `A` are those between `begin_op` and `end_op`, and `outstanding` counts them.
While one process commits there are none. -/
structure Trans (s : State P) (A : Finset P) : Prop where
  mem : ∀ p, p ∈ A ↔ (s.pc p).active = true
  outstanding : s.outstanding = A.card
  empty : s.committing = true → A = ∅
  ending : ∀ p, (s.pc p).ending = true → s.committing = true
  one : ∀ p q, (s.pc p).ending = true → (s.pc q).ending = true → p = q
  /-- Nothing is logged when nobody has anything to log. -/
  clean : A = ∅ → (∀ p, s.pc p ≠ .commit) → s.lh = []
  /-- A process has only logged blocks that are in the header. -/
  logged : ∀ p logged b, s.pc p = .op logged ∨ s.pc p = .logWrite logged b → logged ⊆ s.lh

/-- What is logged and what the processes may still log, with `k` blocks each. -/
def State.demand (k : ℕ) (s : State P) (A : Finset P) : ℕ :=
  s.lh.length + ∑ p ∈ A, (k - (s.pc p).used)

/-- The log has room for what the processes may still log, and two blocks to spare. -/
structure Fits (k : ℕ) (s : State P) (A : Finset P) : Prop where
  room : s.demand k A ≤ LOGSIZE - 2
  used : ∀ p logged b, s.pc p = .logWrite logged b → (logged.insert b).length ≤ k

section Steps

variable [DecidableEq P] {s s' : State P} {A : Finset P} {p : P} {k : ℕ}

/-- The demand when one process of `A` has got to another place. -/
theorem sum_update {A : Finset P} {pc : P → Pc} {x : Pc} (hp : p ∈ A) :
    ∑ q ∈ A, (k - (update pc p x q).used) + (k - (pc p).used) =
      ∑ q ∈ A, (k - (pc q).used) + (k - x.used) := by
  rw [← Finset.add_sum_erase A _ hp, ← Finset.add_sum_erase A (fun q => k - (pc q).used) hp,
    update_self]
  have hrest : ∑ q ∈ A.erase p, (k - (update pc p x q).used) =
      ∑ q ∈ A.erase p, (k - (pc q).used) :=
    Finset.sum_congr rfl fun q hq => by rw [update_of_ne (Finset.ne_of_mem_erase hq)]
  rw [hrest]
  omega

/-- The demand of the processes other than `p` does not depend on where `p` is. -/
theorem sum_update_of_notMem {A : Finset P} {pc : P → Pc} {x : Pc} (hp : p ∉ A) :
    ∑ q ∈ A, (k - (update pc p x q).used) = ∑ q ∈ A, (k - (pc q).used) :=
  Finset.sum_congr rfl fun q hq => by
    rw [update_of_ne]
    rintro rfl
    exact hp hq

/-! ## What a step keeps -/

omit [DecidableEq P] in
theorem Trans.notMem (h : Trans s A) (hp : (s.pc p).active = false) : p ∉ A := by
  rw [h.mem, hp]
  exact Bool.false_ne_true

omit [DecidableEq P] in
theorem Trans.pos (h : Trans s A) (hp : (s.pc p).active = true) : 0 < A.card :=
  Finset.card_pos.mpr ⟨p, (h.mem p).mpr hp⟩

omit [DecidableEq P] in
theorem Trans.not_committing (h : Trans s A) (hp : (s.pc p).active = true) :
    s.committing = false := by
  by_contra hc
  have hempty := h.empty (by simpa using hc)
  exact absurd ((h.mem p).mpr hp) (hempty ▸ Finset.notMem_empty p)

/-- One process has got to the place `x`. -/
theorem Trans.update {A' : Finset P} {x : Pc} (h : Trans s A) (hpc : s'.pc = update s.pc p x)
    (hmem : ∀ q, q ∈ A' ↔ q = p ∧ x.active = true ∨ q ≠ p ∧ q ∈ A) (hout : s'.outstanding = A'.card)
    (hempty : s'.committing = true → A' = ∅)
    (hothers : ∀ q, q ≠ p → (s.pc q).ending = true → s'.committing = true ∧ x.ending = false)
    (hx : x.ending = true → s'.committing = true)
    (hclean : A' = ∅ → (∀ q, s'.pc q ≠ .commit) → s'.lh = [])
    (hlh : ∀ q, q ≠ p → q ∈ A → s.lh ⊆ s'.lh)
    (hlogged : ∀ logged b, x = .op logged ∨ x = .logWrite logged b → logged ⊆ s'.lh) :
    Trans s' A' where
  mem q := by
    rw [hmem, hpc, update_apply]
    split_ifs with hq
    · simp [hq]
    · rw [h.mem]
      simp [hq]
  outstanding := hout
  empty := hempty
  ending q hq := by
    rw [hpc, update_apply] at hq
    split_ifs at hq with heq
    · exact hx hq
    · exact (hothers q heq hq).1
  one q r hq hr := by
    rw [hpc, update_apply] at hq hr
    split_ifs at hq hr with hqp hrp hrp
    · rw [hqp, hrp]
    · cases hq.symm.trans (hothers r hrp hr).2
    · cases hr.symm.trans (hothers q hqp hq).2
    · exact h.one q r hq hr
  clean := hclean
  logged q logged b hq := by
    rw [hpc, update_apply] at hq
    split_ifs at hq with heq
    · exact hlogged logged b hq
    · refine List.Subset.trans (h.logged q logged b hq) (hlh q heq ((h.mem q).mpr ?_))
      obtain hq | hq := hq <;> rw [hq] <;> rfl

theorem Trans.beginOp (h : Trans s A) (hp : s.pc p = .idle) (hc : s.committing = false) :
    Trans { s.setPc p (.op []) with outstanding := s.outstanding + 1 } (insert p A) := by
  have hnot : p ∉ A := h.notMem (by rw [hp]; rfl)
  refine h.update rfl (fun q => ?_) ?_ (fun hcommit => ?_) (fun q _ hq => ?_) nofun (fun hA => ?_)
    (fun _ _ _ => List.Subset.refl _) fun logged b hx => ?_
  · by_cases hq : q = p
    · simp [hq, Pc.active]
    · simp [hq]
  · rw [Finset.card_insert_of_notMem hnot]
    show s.outstanding + 1 = ((A.card + 1 : ℕ) : Int)
    rw [h.outstanding]
    rfl
  · cases hc.symm.trans hcommit
  · cases hc.symm.trans (h.ending q hq)
  · exact absurd hA (Finset.insert_ne_empty p A)
  · obtain hx | hx := hx
    · cases hx
      exact List.nil_subset _
    · cases hx

/-- A process goes on inside its transaction. -/
theorem Trans.inOp {x : Pc} {lh : List ℕ} (h : Trans s A) (hp : (s.pc p).active = true)
    (hx : x.active = true) (hlh : s.lh ⊆ lh)
    (hlogged : ∀ logged b, x = .op logged ∨ x = .logWrite logged b → logged ⊆ lh) :
    Trans { s.setPc p x with lh := lh } A := by
  have hmem : p ∈ A := (h.mem p).mpr hp
  have hc := h.not_committing hp
  refine h.update rfl (fun q => ?_) h.outstanding h.empty (fun q _ hq => ?_) (fun hend => ?_)
    (fun hA => ?_)
    (fun _ _ _ => hlh) hlogged
  · by_cases hq : q = p
    · simp [hq, hx, hmem]
    · simp [hq]
  · cases hc.symm.trans (h.ending q hq)
  · cases x with
    | idle | op | logWrite => cases hend
    | commit | committed => cases hx
  · exact absurd hmem (hA ▸ Finset.notMem_empty p)

/-- The end of a transaction: the last one commits. -/
theorem Trans.endOp_eq {logged : List ℕ} (h : Trans s A) (hp : s.pc p = .op logged) :
    ∃ x c, endOp s p = { s.setPc p x with outstanding := (A.erase p).card, committing := c } ∧
      (x = .commit ∧ c = true ∧ A.erase p = ∅ ∨ x = .idle ∧ c = false ∧ A.erase p ≠ ∅) := by
  have hact : (s.pc p).active = true := by rw [hp]; rfl
  have hc := h.not_committing hact
  have hcard := Finset.card_erase_add_one ((h.mem p).mpr hact)
  have hout : s.outstanding - 1 = ((A.erase p).card : Int) := by
    rw [h.outstanding]
    omega
  unfold LogSpace.endOp
  dsimp only
  rw [hc, if_neg Bool.false_ne_true, hout]
  split_ifs with hlast
  · exact ⟨.commit, true, rfl, .inl ⟨rfl, rfl, Finset.card_eq_zero.mp (by omega)⟩⟩
  · refine ⟨.idle, false, rfl, .inr ⟨rfl, rfl, fun hA => hlast ?_⟩⟩
    rw [hA]
    rfl

theorem Trans.endOp {logged : List ℕ} (h : Trans s A) (hp : s.pc p = .op logged) :
    Trans (endOp s p) (A.erase p) := by
  have hc := h.not_committing (p := p) (by rw [hp]; rfl)
  obtain ⟨x, c, heq, hx⟩ := h.endOp_eq hp
  have hact : x.active = false := by
    obtain ⟨rfl, -⟩ | ⟨rfl, -⟩ := hx <;> rfl
  rw [heq]
  refine h.update rfl
    (fun q => by simp [hact]) rfl (fun hcommit => ?_) (fun q _ hq => ?_) (fun hend => ?_)
    (fun hA hnone => ?_) (fun _ _ _ => List.Subset.refl _) fun l b hl => ?_
  · obtain ⟨-, -, hA⟩ | ⟨-, rfl, -⟩ := hx
    · exact hA
    · cases hcommit
  · cases hc.symm.trans (h.ending q hq)
  · obtain ⟨-, rfl, -⟩ | ⟨rfl, -⟩ := hx
    · rfl
    · cases hend
  · obtain ⟨rfl, -, -⟩ | ⟨-, -, hne⟩ := hx
    · have hself : Function.update s.pc p .commit p ≠ .commit := hnone p
      exact absurd (update_self ..) hself
    · exact absurd hA hne
  · obtain hl | hl := hl <;> rw [hl] at hact <;> cases hact

/-- The only process in `end_op` goes on. -/
theorem Trans.commit (h : Trans s A) (hp : s.pc p = .commit) :
    Trans { s.setPc p .committed with lh := [] } A := by
  have hend : (s.pc p).ending = true := by rw [hp]; rfl
  have hA : A = ∅ := h.empty (h.ending p hend)
  refine h.update rfl (fun q => ?_) h.outstanding h.empty (fun q hq hend' => ?_)
    (fun _ => h.ending p hend)
    (fun _ _ => rfl) (fun q _ hq => ?_) nofun
  · simp [hA, Pc.active]
  · exact absurd (h.one q p hend' hend) hq
  · rw [hA] at hq
    cases hq

theorem Trans.endCommit (h : Trans s A) (hp : s.pc p = .committed) :
    Trans { s.setPc p .idle with committing := false } A := by
  have hend : (s.pc p).ending = true := by rw [hp]; rfl
  have hA : A = ∅ := h.empty (h.ending p hend)
  have hother : ∀ q, q ≠ p → (s.pc q).ending = true → False := fun q hq hend' =>
    hq (h.one q p hend' hend)
  refine h.update rfl
    (fun q => ?_) h.outstanding nofun (fun q hq hend' => (hother q hq hend').elim) nofun
    (fun _ _ => h.clean hA fun q hq => ?_) (fun _ _ _ => List.Subset.refl _) nofun
  · simp [hA, Pc.active]
  · by_cases hqp : q = p
    · rw [hqp, hp] at hq
      cases hq
    · exact hother q hqp (by rw [hq]; rfl)

/-! ## The room in the log -/

/-- The first process finds the log empty; and when there are others, each of them has reserved one
block more than it may use. -/
theorem Fits.beginOp (hf : Fits (MAXOPBLOCKS - 1) s A) (h : Trans s A) (hp : s.pc p = .idle)
    (hc : s.committing = false)
    (hroom : (s.lh.length : Int) + (s.outstanding + 1) * MAXOPBLOCKS ≤ LOGSIZE) :
    Fits (MAXOPBLOCKS - 1) { s.setPc p (.op []) with outstanding := s.outstanding + 1 }
    (insert p A) := by
  have hnot : p ∉ A := h.notMem (by rw [hp]; rfl)
  refine ⟨?_, fun q logged b hq => ?_⟩
  · unfold State.demand
    show s.lh.length + ∑ q ∈ insert p A,
      (MAXOPBLOCKS - 1 - (update s.pc p (.op []) q).used) ≤ LOGSIZE - 2
    rw [Finset.sum_insert hnot, sum_update_of_notMem hnot, update_self]
    have hused : (Pc.op []).used = 0 := rfl
    rw [hused]
    rcases A.eq_empty_or_nonempty with hA | hA
    · have hclean : s.lh = [] := h.clean hA fun q hq => by
        cases hc.symm.trans (h.ending q (by rw [hq]; rfl))
      rw [hclean, hA, Finset.sum_empty]
      decide
    · have hpos : 0 < A.card := hA.card_pos
      have hsum : ∑ q ∈ A, (MAXOPBLOCKS - 1 - (s.pc q).used) ≤ A.card * (MAXOPBLOCKS - 1) :=
        Finset.sum_le_card_nsmul A _ _ fun q _ => Nat.sub_le _ _
      rw [h.outstanding] at hroom
      simp only [LOGSIZE, MAXOPBLOCKS] at hroom hsum ⊢
      omega
  · have hpc : update s.pc p (.op []) q = .logWrite logged b := hq
    rw [update_apply] at hpc
    split_ifs at hpc
    exact hf.used q logged b hpc

theorem Fits.logWrite {logged : List ℕ} {b : ℕ} (hf : Fits k s A) (hp : s.pc p = .op logged)
    (hk : (logged.insert b).length ≤ k) : Fits k (s.setPc p (.logWrite logged b)) A := by
  have hsame : ∀ q, (update s.pc p (.logWrite logged b) q).used = (s.pc q).used := by
    intro q
    rw [update_apply]
    split_ifs with hq
    · rw [hq, hp]
      rfl
    · rfl
  refine ⟨?_, fun q l c hq => ?_⟩
  · have hdemand : (s.setPc p (.logWrite logged b)).demand k A = s.demand k A :=
      congrArg (s.lh.length + ·) (Finset.sum_congr rfl fun q _ => congrArg (k - ·) (hsame q))
    rw [hdemand]
    exact hf.room
  · have hpc : update s.pc p (.logWrite logged b) q = .logWrite l c := hq
    rw [update_apply] at hpc
    split_ifs at hpc
    · cases hpc
      exact hk
    · exact hf.used q l c hpc

/-- A block that is new in the log is new for the process. -/
theorem Fits.record {logged : List ℕ} {b : ℕ} (hf : Fits k s A) (h : Trans s A)
    (hp : s.pc p = .logWrite logged b) :
    Fits k { s.setPc p (.op (logged.insert b)) with
      lh := if b ∈ s.lh then s.lh else s.lh ++ [b] } A := by
  have hk := hf.used p logged b hp
  have hmem : p ∈ A := (h.mem p).mpr (by rw [hp]; rfl)
  have hsub := h.logged p logged b (.inr hp)
  refine ⟨?_, fun q l c hq => ?_⟩
  · have hroom := hf.room
    have hsum : ∑ q ∈ A, (k - (update s.pc p (.op (logged.insert b)) q).used) +
      (k - (s.pc p).used) =
        ∑ q ∈ A, (k - (s.pc q).used) + (k - (Pc.op (logged.insert b)).used) := sum_update hmem
    unfold State.demand at hroom ⊢
    show (if b ∈ s.lh then s.lh else s.lh ++ [b]).length +
      ∑ q ∈ A, (k - (update s.pc p (.op (logged.insert b)) q).used) ≤ LOGSIZE - 2
    rw [hp, Pc.used_op, Pc.used_logWrite, List.length_insert] at hsum
    rw [List.length_insert] at hk
    split_ifs with hb
    · split_ifs at hsum hk <;> omega
    · rw [if_neg fun hmem => hb (hsub hmem)] at hsum hk
      rw [List.length_append, List.length_singleton]
      omega
  · have hpc : update s.pc p (.op (logged.insert b)) q = .logWrite l c := hq
    rw [update_apply] at hpc
    split_ifs at hpc
    exact hf.used q l c hpc

/-- A process leaves the log, or is outside of it. -/
theorem Fits.leave {x : Pc} {A' : Finset P} (hf : Fits k s A) (hA : A' ⊆ A) (hp : p ∉ A')
    (hx : ∀ logged b, x ≠ .logWrite logged b) (hpc : s'.pc = update s.pc p x)
    (hlh : s'.lh.length ≤ s.lh.length) : Fits k s' A' := by
  refine ⟨?_, fun q l c hq => ?_⟩
  · have hroom := hf.room
    have hsum : ∑ q ∈ A', (k - (s.pc q).used) ≤ ∑ q ∈ A, (k - (s.pc q).used) :=
      Finset.sum_le_sum_of_subset hA
    unfold State.demand at hroom ⊢
    rw [hpc, sum_update_of_notMem hp]
    omega
  · rw [hpc, update_apply] at hq
    split_ifs at hq
    · exact absurd hq (hx l c)
    · exact hf.used q l c hq

/-- The tests of `log_write` pass. -/
theorem Fits.tests {logged : List ℕ} {b : ℕ} (hf : Fits k s A) (h : Trans s A)
    (hsize : s.size = LOGSIZE)
    (hp : s.pc p = .op logged) : LogSpace.logWrite s p logged b = s.setPc p
    (.logWrite logged b) := by
  have hroom := hf.room
  unfold State.demand at hroom
  have hpos := h.pos (p := p) (by rw [hp]; rfl)
  unfold LogSpace.logWrite
  rw [if_neg, if_neg]
  · rw [h.outstanding]
    omega
  · rw [hsize]
    simp only [LOGSIZE, MAXOPBLOCKS] at hroom ⊢
    omega

/-! ## Runs -/

/-- What holds in every state: nobody has panicked, and the invariants. -/
structure Inv (s : State P) (A : Finset P) : Prop where
  size : s.size = LOGSIZE
  halted : s.halted = none
  trans : Trans s A
  fits : Fits (MAXOPBLOCKS - 1) s A

theorem Inv.step {a : Act P} (h : Inv s A) (hok : logsAtMost (MAXOPBLOCKS - 1) s a)
    (hstep : step s a = some s') : ∃ A', Inv s' A' := by
  cases a with
  | beginOp p =>
    rw [LogSpace.step] at hstep
    split at hstep
    · rename_i hp
      split_ifs at hstep with hc hroom
      cases hstep
      have hc' : s.committing = false := by simpa using hc
      exact ⟨insert p A, h.size, h.halted, h.trans.beginOp hp hc',
        h.fits.beginOp h.trans hp hc' (Int.not_lt.mp hroom)⟩
    · cases hstep
  | logWrite p b =>
    rw [LogSpace.step] at hstep
    split at hstep
    · rename_i logged hp
      cases hstep
      rw [h.fits.tests h.trans h.size hp]
      refine ⟨A, h.size, h.halted, ?_, h.fits.logWrite hp (hok logged hp)⟩
      refine h.trans.inOp (by rw [hp]; rfl) rfl (List.Subset.refl _) fun l c hx => ?_
      obtain hx | hx := hx
      · cases hx
      · cases hx
        exact h.trans.logged p logged b (.inl hp)
    · cases hstep
  | record p =>
    rw [LogSpace.step] at hstep
    split at hstep
    · rename_i logged b hp
      cases hstep
      have hsub : s.lh ⊆ (if b ∈ s.lh then s.lh else s.lh ++ [b]) := by
        split_ifs
        · exact List.Subset.refl _
        · exact List.subset_append_left _ _
      refine ⟨A, h.size, h.halted, ?_, h.fits.record h.trans hp⟩
      refine h.trans.inOp (by rw [hp]; rfl) rfl hsub fun l c hx => ?_
      obtain hx | hx := hx
      · cases hx
        intro b' hb'
        obtain rfl | hb' := List.mem_insert_iff.mp hb'
        · split_ifs with hmem
          · exact hmem
          · exact List.mem_append_right _ List.mem_cons_self
        · exact hsub (h.trans.logged p logged b (.inr hp) hb')
      · cases hx
    · cases hstep
  | endOp p =>
    rw [LogSpace.step] at hstep
    split at hstep
    · rename_i logged hp
      cases hstep
      have htrans := h.trans.endOp hp
      obtain ⟨x, c, heq, hx⟩ := h.trans.endOp_eq hp
      rw [heq] at htrans ⊢
      refine ⟨A.erase p, h.size, h.halted, htrans, h.fits.leave (Finset.erase_subset p A)
        (Finset.notMem_erase p A) ?_ rfl le_rfl⟩
      obtain ⟨rfl, -⟩ | ⟨rfl, -⟩ := hx <;> exact nofun
    · cases hstep
  | commit p =>
    rw [LogSpace.step] at hstep
    split at hstep
    · rename_i hp
      cases hstep
      exact ⟨A, h.size, h.halted, h.trans.commit hp, h.fits.leave (x := .committed)
        (Finset.Subset.refl A)
        (h.trans.notMem (by rw [hp]; rfl)) nofun rfl (Nat.zero_le _)⟩
    · cases hstep
  | endCommit p =>
    rw [LogSpace.step] at hstep
    split at hstep
    · rename_i hp
      cases hstep
      exact ⟨A, h.size, h.halted, h.trans.endCommit hp,
          h.fits.leave (x := .idle) (Finset.Subset.refl A)
        (h.trans.notMem (by rw [hp]; rfl)) nofun rfl le_rfl⟩
    · cases hstep

theorem inv_init (h : (machine P).init s) : Inv s ∅ := by
  obtain ⟨hsize, hout, hc, hlh, hpc, hhalted⟩ := h
  refine ⟨hsize, hhalted,
    ⟨fun p => ?_, hout, fun _ => rfl, fun p hp => ?_, fun p q hp => ?_, fun _ _ => hlh,
    fun p logged b hp => ?_⟩, ?_, fun p logged b hp => ?_⟩
  · rw [hpc]
    exact iff_of_false (Finset.notMem_empty p) Bool.false_ne_true
  · rw [hpc] at hp
    cases hp
  · rw [hpc] at hp
    cases hp
  · obtain hp | hp := hp <;> cases (hpc p).symm.trans hp
  · rw [State.demand, hlh, Finset.sum_empty]
    decide
  · cases (hpc p).symm.trans hp

/-- **The log does not run out of space** when no process logs more than `MAXOPBLOCKS - 1` different
blocks in one transaction: nobody panics, and while a process commits nobody is in a transaction. -/
theorem log_space (h : (machine P).Reach (logsAtMost (MAXOPBLOCKS - 1)) s) :
    s.halted = none ∧ (s.committing = true → s.outstanding = 0) := by
  have hinv : ∃ A, Inv s A := h.invariant (I := fun s => ∃ A, Inv s A)
    (fun _ hs => ⟨∅, inv_init hs⟩)
    fun _ _ _ ⟨_, hinv⟩ hok hstep => by
      have hrun := Option.ite_none_right_eq_some.mp hstep
      exact hinv.step hok hrun.2
  obtain ⟨A, hinv⟩ := hinv
  refine ⟨hinv.halted, fun hc => ?_⟩
  rw [hinv.trans.outstanding, hinv.trans.empty hc]
  rfl

end Steps

/-- The log after `initlog`. -/
def start : State (Fin 3) :=
  { size := LOGSIZE, outstanding := 0, committing := false, lh := [], pc := fun _ => .idle,
    halted := none }

theorem start_init : (machine (Fin 3)).init start := ⟨rfl, rfl, rfl, rfl, fun _ => rfl, rfl⟩

instance (k : ℕ) (s : State (Fin 3)) : (a : Act (Fin 3)) → Decidable (logsAtMost k s a)
  | .logWrite p b =>
    match h : s.pc p with
    | .op logged => decidable_of_iff ((logged.insert b).length ≤ k)
        ⟨fun hk _ hl => by cases h.symm.trans hl; exact hk, fun hk => hk logged h⟩
    | .idle | .logWrite .. | .commit | .committed => .isTrue fun _ hl => nomatch h.symm.trans hl
  | .beginOp _ | .record _ | .endOp _ | .commit _ | .endCommit _ => .isTrue trivial

/-- The process logs the blocks, one after another. -/
def logAll (p : Fin 3) (bs : List ℕ) : List (Act (Fin 3)) :=
  bs.flatMap fun b => [.logWrite p b, .record p]

/-- Three transactions are admitted together. They log ten different blocks each, and the last
`log_write` panics. -/
theorem three_full_transactions_panic :
    ∃ s : State (Fin 3), (machine (Fin 3)).Reach (logsAtMost MAXOPBLOCKS) s ∧
      s.halted = some "too big a transaction" := by
  have hrun : ((machine (Fin 3)).restrict (fun s a => decide (logsAtMost MAXOPBLOCKS s a))).exec
    start
      ([.beginOp 0, .beginOp 1, .beginOp 2] ++ logAll 0 (List.range' 100 10) ++ logAll 1
        (List.range' 110 10) ++ logAll 2 (List.range' 120 9) ++ [.logWrite 2 129]) |>.any
      (fun s => s.halted = some "too big a transaction") := by
    decide +kernel
  obtain ⟨s, hs, hP⟩ := (Option.any_eq_true _ _).mp hrun
  exact ⟨s, Machine.reach_of_exec_restrict (fun _ _ h => of_decide_eq_true h)
    (.init start_init) _ hs, of_decide_eq_true hP⟩

/-- Three transactions with nine blocks each. -/
theorem log_space_three : ∃ s : State (Fin 3), (machine (Fin 3)).Reach
    (logsAtMost (MAXOPBLOCKS - 1)) s ∧ s.lh.length = 27 ∧ s.halted = none := by
  have hrun : ((machine (Fin 3)).restrict
    (fun s a => decide (logsAtMost (MAXOPBLOCKS - 1) s a))).exec start
      ([.beginOp 0, .beginOp 1, .beginOp 2] ++ logAll 0 (List.range' 100 9) ++ logAll 1
        (List.range' 110 9) ++
        logAll 2 (List.range' 120 9)) |>.any (fun s => s.lh.length = 27) := by
    decide +kernel
  obtain ⟨s, hs, hP⟩ := (Option.any_eq_true _ _).mp hrun
  have hreach := Machine.reach_of_exec_restrict (fun _ _ h => of_decide_eq_true h)
    (.init start_init) _ hs
  exact ⟨s, hreach, of_decide_eq_true hP, (log_space hreach).1⟩

end Dockv6.LogSpace
