import Dockv6.Kernel.Shm
import Dockv6.Vm.Exact

/-!
# Fields of null structs

The kernel writes to `refcount`, `priority` and `next` of structs whose pointer is null: they are
words in the first page of the running process. `FieldsOnly` says that nothing else in its memory
has changed.
-/

namespace Dockv6

open Function

variable {d : Pgdir} {mem mem' mem1 : Mem} {e : Pte} {a b w f : ℕ}

/-- The word at the offset `a` of the page `f`. -/
def Mem.word (mem : Mem) (f a : ℕ) : ℕ :=
  (mem f a).toNat + 256 *
    ((mem f (a + 1)).toNat + 256 * ((mem f (a + 2)).toNat + 256 * (mem f (a + 3)).toNat))

/-- Words that are equal have the same bytes. -/
theorem Mem.byte_of_word (h : mem'.word f a = mem.word f a) {off : ℕ} (hlo : a ≤ off)
    (hhi : off < a + 4) : mem' f off = mem f off := by
  have h0 := (mem f a).toNat_lt
  have h1 := (mem f (a + 1)).toNat_lt
  have h2 := (mem f (a + 2)).toNat_lt
  have h3 := (mem f (a + 3)).toNat_lt
  have h0' := (mem' f a).toNat_lt
  have h1' := (mem' f (a + 1)).toNat_lt
  have h2' := (mem' f (a + 2)).toNat_lt
  have h3' := (mem' f (a + 3)).toNat_lt
  unfold Mem.word at h
  rw [← UInt8.toNat_inj]
  obtain rfl | rfl | rfl | rfl : off = a ∨ off = a + 1 ∨ off = a + 2 ∨ off = a + 3 := by omega
  all_goals omega

/-! ## Words of the first page -/

theorem uread_zero (he : d.pte 0 = some e) (ha : a < PGSIZE) :
    uread d mem a = some (mem e.ppn a) := by
  rw [uread, Nat.div_eq_of_lt ha, Nat.mod_eq_of_lt ha, he]
  rfl

theorem uword_zero (he : d.pte 0 = some e) (ha : a + 3 < PGSIZE) :
    uword d mem a = .ok (mem.word e.ppn a) := by
  rw [uword, uread_zero he (by omega), uread_zero he (by omega), uread_zero he (by omega),
    uread_zero he ha]
  rfl

/-- The word `w` has been written at the offset `a` of the page `f`. -/
structure Mem.WordSet (f a w : ℕ) (mem mem' : Mem) : Prop where
  page : ∀ f', f' ≠ f → mem' f' = mem f'
  outside : ∀ off, off < a ∨ a + 4 ≤ off → mem' f off = mem f off
  word : mem'.word f a = w % 2 ^ 32

theorem uwrite_zero {x : UInt8} (he : d.pte 0 = some e) (ha : a < PGSIZE)
    (h : uwrite d mem a x = .ok mem') : mem' = update mem e.ppn (update (mem e.ppn) a x) := by
  rw [uwrite, Nat.div_eq_of_lt ha, Nat.mod_eq_of_lt ha, he] at h
  dsimp only at h
  split_ifs at h
  exact (Except.ok.inj h).symm

theorem usetWord_zero (h : usetWord d mem a w = .ok mem') (ha : a + 3 < PGSIZE) :
    ∃ e, d.pte 0 = some e ∧ Mem.WordSet e.ppn a w mem mem' := by
  obtain ⟨mem0, h0, h⟩ := bind_eq_ok.mp h
  obtain ⟨mem1, h1, h⟩ := bind_eq_ok.mp h
  obtain ⟨mem2, h2, h⟩ := bind_eq_ok.mp h
  obtain ⟨mem3, h3, h⟩ := bind_eq_ok.mp h
  cases h
  cases he : d.pte 0 with
  | none =>
    rw [uwrite, Nat.div_eq_of_lt (show a < PGSIZE by omega), he] at h0
    cases h0
  | some e =>
    obtain rfl := uwrite_zero he (by omega) h0
    obtain rfl := uwrite_zero he (by omega) h1
    obtain rfl := uwrite_zero he (by omega) h2
    obtain rfl := uwrite_zero he (by omega) h3
    refine ⟨e, rfl, fun f hf => ?_, fun off hoff => ?_, ?_⟩
    · simp only [update_of_ne hf]
    · simp only [update_self]
      rw [update_of_ne (by omega), update_of_ne (by omega), update_of_ne (by omega),
        update_of_ne (by omega)]
    · unfold Mem.word
      simp only [update_apply, Nat.add_assoc, Nat.reduceAdd, Nat.add_left_cancel_iff,
        Nat.left_eq_add, Nat.reduceEqDiff, reduceIte, UInt8.toNat_ofNat']
      omega

theorem uword_usetWord (h : usetWord d mem a w = .ok mem') (ha : a + 3 < PGSIZE) :
    uword d mem' a = .ok (w % 2 ^ 32) := by
  obtain ⟨e, he, hset⟩ := usetWord_zero h ha
  rw [uword_zero he ha, hset.word]

/-- Other words are as they were. -/
theorem uword_usetWord_of_apart (h : usetWord d mem a w = .ok mem') (ha : a + 3 < PGSIZE)
    (hb : b + 3 < PGSIZE) (hapart : a + 4 ≤ b ∨ b + 4 ≤ a) : uword d mem' b = uword d mem b := by
  obtain ⟨e, he, hset⟩ := usetWord_zero h ha
  rw [uword_zero he hb, uword_zero he hb]
  unfold Mem.word
  rw [hset.outside _ (by omega), hset.outside _ (by omega), hset.outside _ (by omega),
    hset.outside _ (by omega)]

theorem uword_uincWord (h : uincWord d mem a = .ok mem') (ha : a + 3 < PGSIZE) :
    ∃ w, uword d mem a = .ok w ∧ usetWord d mem a (uinc w) = .ok mem' ∧
    uword d mem' a = .ok (uinc w) := by
  obtain ⟨w, hw, hset⟩ := bind_eq_ok.mp h
  refine ⟨w, hw, hset, ?_⟩
  rw [uword_usetWord hset ha]
  unfold uinc
  rw [Nat.mod_mod]

/-! ## What else may change -/

/-- The offsets of the fields that are written through null pointers. -/
def nullField (off : ℕ) : Prop :=
  (REFCOUNT_OFF ≤ off ∧ off < REFCOUNT_OFF + 4) ∨ (PRIORITY_OFF ≤ off ∧ off < PRIORITY_OFF + 4) ∨
    (NEXT_OFF ≤ off ∧ off < NEXT_OFF + 4)

/-- The pages of `d` hold what they held, but for the fields of null structs. -/
structure FieldsOnly (d : Pgdir) (mem mem' : Mem) : Prop where
  page : ∀ v e, d.pte v = some e → (∀ e0, d.pte 0 = some e0 → e0.ppn ≠ e.ppn) →
    mem' e.ppn = mem e.ppn
  off : ∀ e off, d.pte 0 = some e → ¬ nullField off → mem' e.ppn off = mem e.ppn off

namespace FieldsOnly

theorem refl (d : Pgdir) (mem : Mem) : FieldsOnly d mem mem :=
  ⟨fun _ _ _ _ => rfl, fun _ _ _ _ => rfl⟩

theorem trans (h : FieldsOnly d mem mem1) (h' : FieldsOnly d mem1 mem') :
    FieldsOnly d mem mem' where
  page v e he hne := (h'.page v e he hne).trans (h.page v e he hne)
  off e off he hoff := (h'.off e off he hoff).trans (h.off e off he hoff)

theorem usetWord (h : usetWord d mem a w = .ok mem')
    (ha : a = REFCOUNT_OFF ∨ a = PRIORITY_OFF ∨ a = NEXT_OFF) : FieldsOnly d mem mem' := by
  obtain ⟨e0, he0, hset⟩ :=
    usetWord_zero h (by unfold REFCOUNT_OFF PRIORITY_OFF NEXT_OFF PGSIZE at *; omega)
  refine ⟨fun v e he hne => hset.page _ (hne e0 he0).symm, fun e off he hoff => ?_⟩
  obtain rfl : e0 = e := Option.some.inj (he0.symm.trans he)
  refine hset.outside off ?_
  unfold nullField at hoff
  obtain rfl | rfl | rfl := ha <;> omega

/-- Pages are taken that are not the process's. -/
theorem took {m m' : Kmem} (h : m.Took m') (hfree : ∀ v e, d.pte v = some e → e.ppn ∉ m.free) :
    FieldsOnly d m.mem m'.mem where
  page v e he _ := h.mem _ (hfree v e he)
  off e off he _ := by rw [h.mem _ (hfree 0 e he)]

/-- The words before the first of the fields are as they were. -/
theorem uword_eq (h : FieldsOnly d mem mem') (ha : a + 3 < REFCOUNT_OFF) :
    uword d mem' a = uword d mem a := by
  have hread : ∀ off < REFCOUNT_OFF, uread d mem' off = uread d mem off := by
    intro off hoff
    have hpage : off < PGSIZE := hoff.trans (by decide)
    unfold uread
    rw [Nat.div_eq_of_lt hpage, Nat.mod_eq_of_lt hpage]
    cases he : d.pte 0 with
    | none => rfl
    | some e =>
      refine congrArg some (h.off e off he ?_)
      unfold nullField
      simp only [REFCOUNT_OFF, PRIORITY_OFF, NEXT_OFF] at hoff ⊢
      omega
  unfold uword
  rw [hread _ (by omega), hread _ (by omega), hread _ (by omega), hread _ ha]

end FieldsOnly

theorem uread_congr_uword (h : ∀ va, uread d mem' va = uread d mem va) (a : ℕ) :
    uword d mem' a = uword d mem a := by
  unfold uword
  rw [h, h, h, h]

theorem uread_congr_ustring (h : ∀ va, uread d mem' va = uread d mem va) (n a : ℕ) :
    ustring d mem' n a = ustring d mem n a := by
  induction n generalizing a with
  | zero => rfl
  | succ n ih => simp only [ustring, h, ih]

/-- Memory is as it was if the fields of null structs are. -/
theorem FieldsOnly.uread_eq_iff (h : FieldsOnly d mem mem') :
    (∀ va, uread d mem' va = uread d mem va) ↔
    uword d mem' REFCOUNT_OFF = uword d mem REFCOUNT_OFF ∧
      uword d mem' PRIORITY_OFF = uword d mem PRIORITY_OFF ∧
      uword d mem' NEXT_OFF = uword d mem NEXT_OFF := by
  refine ⟨fun hread =>
    ⟨uread_congr_uword hread _, uread_congr_uword hread _, uread_congr_uword hread _⟩, ?_⟩
  rintro ⟨hcount, hprio, hnext⟩ va
  unfold uread
  cases he : d.pte (va / PGSIZE) with
  | none => rfl
  | some e =>
    refine congrArg some ?_
    dsimp only
    by_cases hzero : ∃ e0, d.pte 0 = some e0 ∧ e0.ppn = e.ppn
    · obtain ⟨e0, he0, hppn⟩ := hzero
      rw [← hppn]
      rw [uword_zero he0 (by decide), uword_zero he0 (by decide)] at hcount hprio hnext
      by_cases hoff : nullField (va % PGSIZE)
      · obtain ⟨hlo, hhi⟩ | ⟨hlo, hhi⟩ | ⟨hlo, hhi⟩ := hoff
        · exact Mem.byte_of_word (Except.ok.inj hcount) hlo hhi
        · exact Mem.byte_of_word (Except.ok.inj hprio) hlo hhi
        · exact Mem.byte_of_word (Except.ok.inj hnext) hlo hhi
      · exact h.off e0 _ he0 hoff
    · rw [h.page _ e he fun e0 he0 hppn => hzero ⟨e0, he0, hppn⟩]

/-! ## Writes -/

theorem uinc_ne (w : ℕ) : uinc w ≠ w := by
  unfold uinc
  omega

theorem iterate_uinc (n w : ℕ) : uinc^[n + 1] w = (w + (n + 1)) % 2 ^ 32 := by
  induction n with
  | zero => rfl
  | succ n ih =>
    rw [iterate_succ_apply', ih]
    unfold uinc
    omega

theorem iterate_uinc_eq_self {n w : ℕ} (hn : n < 2 ^ 32) : uinc^[n] w = w ↔ n = 0 := by
  cases n with
  | zero => exact iff_of_true rfl rfl
  | succ n =>
    rw [iterate_uinc]
    omega

theorem iterate_uinc_eq_uinc {n w : ℕ} (hn : n < 2 ^ 32) : uinc^[n] w = uinc w ↔ n = 1 := by
  cases n with
  | zero => exact iff_of_false (uinc_ne w).symm nofun
  | succ n =>
    rw [iterate_uinc]
    unfold uinc
    omega

/-- The writes through null pointers: `count` increments of `refcount`, and what `priority` and
`next` were set to last, if they were. -/
structure NullWrites (d : Pgdir) (mem mem' : Mem) (count : ℕ) (prio next : Option ℕ) : Prop where
  only : FieldsOnly d mem mem'
  there : count ≠ 0 → ∃ w, uword d mem REFCOUNT_OFF = .ok w
  count : uword d mem' REFCOUNT_OFF = (uword d mem REFCOUNT_OFF).map (uinc^[count])
  prio : uword d mem' PRIORITY_OFF = prio.elim (uword d mem PRIORITY_OFF) .ok
  next : uword d mem' NEXT_OFF = next.elim (uword d mem NEXT_OFF) .ok

namespace NullWrites

variable {k k' : ℕ} {pr pr' nx nx' : Option ℕ}

theorem of_uword (honly : FieldsOnly d mem mem')
    (hsame : ∀ a, a + 3 < PGSIZE → uword d mem' a = uword d mem a) :
    NullWrites d mem mem' 0 none none where
  only := honly
  there h := absurd rfl h
  count := by
    rw [hsame _ (by decide)]
    cases uword d mem REFCOUNT_OFF <;> rfl
  prio := hsame _ (by decide)
  next := hsame _ (by decide)

theorem refl (d : Pgdir) (mem : Mem) : NullWrites d mem mem 0 none none :=
  .of_uword (.refl d mem) fun _ _ => rfl

/-- Pages are taken that are not the process's. -/
theorem took {m m' : Kmem} (h : m.Took m') (hfree : ∀ v e, d.pte v = some e → e.ppn ∉ m.free) :
    NullWrites d m.mem m'.mem 0 none none := by
  refine .of_uword (.took h hfree) fun a _ => uread_congr_uword (fun va => ?_) a
  unfold uread
  cases he : d.pte (va / PGSIZE) with
  | none => rfl
  | some e =>
    rw [Option.map_some, Option.map_some, h.mem _ (hfree _ e he)]

theorem trans (h : NullWrites d mem mem1 k pr nx) (h' : NullWrites d mem1 mem' k' pr' nx') :
    NullWrites d mem mem' (k + k') (pr' <|> pr) (nx' <|> nx) where
  only := h.only.trans h'.only
  there hne := by
    by_cases hk : k = 0
    · obtain ⟨w, hw⟩ := h'.there (by omega)
      rw [h.count, hk] at hw
      cases hword : uword d mem REFCOUNT_OFF with
      | ok w => exact ⟨w, rfl⟩
      | error e =>
        rw [hword] at hw
        cases hw
    · exact h.there hk
  count := by
    rw [h'.count, h.count, Nat.add_comm, iterate_add]
    cases uword d mem REFCOUNT_OFF <;> rfl
  prio := by
    rw [h'.prio, h.prio]
    cases pr' <;> rfl
  next := by
    rw [h'.next, h.next]
    cases nx' <;> rfl

theorem setPriority (h : usetWord d mem PRIORITY_OFF w = .ok mem') :
    NullWrites d mem mem' 0 (some (w % 2 ^ 32)) none where
  only := .usetWord h (.inr (.inl rfl))
  there hne := absurd rfl hne
  count := by
    rw [uword_usetWord_of_apart h (by decide) (by decide) (by decide)]
    cases uword d mem REFCOUNT_OFF <;> rfl
  prio := uword_usetWord h (by decide)
  next := uword_usetWord_of_apart h (by decide) (by decide) (by decide)

theorem setNext (h : usetWord d mem NEXT_OFF w = .ok mem') :
    NullWrites d mem mem' 0 none (some (w % 2 ^ 32)) where
  only := .usetWord h (.inr (.inr rfl))
  there hne := absurd rfl hne
  count := by
    rw [uword_usetWord_of_apart h (by decide) (by decide) (by decide)]
    cases uword d mem REFCOUNT_OFF <;> rfl
  prio := uword_usetWord_of_apart h (by decide) (by decide) (by decide)
  next := uword_usetWord h (by decide)

theorem incCount (h : uincWord d mem REFCOUNT_OFF = .ok mem') :
    NullWrites d mem mem' 1 none none := by
  obtain ⟨w, hw, hset, hword⟩ := uword_uincWord h (by decide)
  refine ⟨.usetWord hset (.inl rfl), fun _ => ⟨w, hw⟩, ?_, ?_, ?_⟩
  · rw [hword, hw]
    rfl
  · exact uword_usetWord_of_apart hset (by decide) (by decide) (by decide)
  · exact uword_usetWord_of_apart hset (by decide) (by decide) (by decide)

/-- Memory is as it was if `refcount` was not incremented and the other fields were set to what they
held. -/
theorem uread_eq_iff (h : NullWrites d mem mem' k pr nx) (hk : k < 2 ^ 32) :
    (∀ va, uread d mem' va = uread d mem va) ↔
    k = 0 ∧ (∀ x ∈ pr, uword d mem PRIORITY_OFF = .ok x) ∧
      ∀ x ∈ nx, uword d mem NEXT_OFF = .ok x := by
  have hcount : uword d mem' REFCOUNT_OFF = uword d mem REFCOUNT_OFF ↔ k = 0 := by
    rw [h.count]
    by_cases hzero : k = 0
    · refine iff_of_true ?_ hzero
      rw [hzero]
      cases uword d mem REFCOUNT_OFF <;> rfl
    · obtain ⟨w, hw⟩ := h.there hzero
      rw [hw]
      simp only [Except.map, Except.ok.injEq]
      exact iterate_uinc_eq_self hk
  have hset : ∀ (o : Option ℕ) (x : Res ℕ), o.elim x .ok = x ↔ ∀ y ∈ o, x = .ok y := by
    intro o x
    cases o with
    | none => exact iff_of_true rfl nofun
    | some y => simp [eq_comm]
  rw [h.only.uread_eq_iff, hcount, h.prio, h.next, hset, hset]

end NullWrites

end Dockv6
