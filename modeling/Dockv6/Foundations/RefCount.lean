import Mathlib

/-!
# Tables of references

A table assigns to each of finitely many places a slot or nothing. `refs f m` are the places that
refer to the slot `m`. When one place changes, the references to the slot it had and to the slot it
gets change by one, and those to other slots do not change.
-/

namespace Dockv6

variable {κ μ : Type*} [Fintype κ] [DecidableEq κ] [DecidableEq μ]

/-- The places that refer to `m`. -/
def refs (f : κ → Option μ) (m : μ) : Finset κ := Finset.univ.filter fun k => f k = some m

variable {f : κ → Option μ} {k : κ} {m m' : μ}

omit [DecidableEq κ] in
@[simp] theorem mem_refs : k ∈ refs f m ↔ f k = some m := by simp [refs]

omit [Fintype κ] [DecidableEq μ] in
theorem update_eq_some_iff {o : Option μ} {k' : κ} : Function.update f k o k' = some m ↔
    (k' = k ∧ o = some m) ∨ (k' ≠ k ∧ f k' = some m) := by
  rw [Function.update_apply]
  by_cases hk : k' = k <;> simp [hk]

theorem refs_update (f : κ → Option μ) (k : κ) (o : Option μ) (m : μ) :
    refs (Function.update f k o) m =
      if o = some m then insert k (refs f m) else (refs f m).erase k := by
  ext j
  by_cases hj : j = k
  · subst hj
    split_ifs with ho <;> simp [ho]
  · split_ifs <;> simp [hj]

/-- A place gives up its slot. -/
theorem card_refs_none (h : f k = some m) (m' : μ) :
    (refs (Function.update f k none) m').card + (if m' = m then 1 else 0) = (refs f m').card := by
  rw [refs_update, if_neg nofun]
  split_ifs with hm
  · exact Finset.card_erase_add_one (by simp [h, hm])
  · rw [Finset.erase_eq_of_notMem (by simpa [h] using Ne.symm hm), Nat.add_zero]

/-- A place that refers to nothing gets a slot. -/
theorem card_refs_some (h : f k = none) (m m' : μ) :
    (refs (Function.update f k (some m)) m').card =
      (refs f m').card + (if m' = m then 1 else 0) := by
  rw [refs_update]
  by_cases hm : m' = m
  · rw [if_pos (by rw [hm]), if_pos hm]
    exact Finset.card_insert_of_notMem (by simp [h])
  · rw [if_neg (by simpa using Ne.symm hm), if_neg hm, Finset.erase_eq_of_notMem (by simp [h]),
      Nat.add_zero]

omit [DecidableEq κ] in
theorem card_refs_eq_zero : (refs f m).card = 0 ↔ ∀ k, f k ≠ some m := by
  simp [refs, Finset.filter_eq_empty_iff]

omit [DecidableEq κ] in
theorem card_refs_pos_iff : 0 < (refs f m).card ↔ ∃ k, f k = some m := by
  rw [Finset.card_pos]
  exact exists_congr fun k => mem_refs

omit [DecidableEq κ] in
theorem card_refs_pos (h : f k = some m) : 0 < (refs f m).card := card_refs_pos_iff.mpr ⟨k, h⟩

omit [DecidableEq κ] in
theorem one_lt_card_refs {k' : κ} (h : f k = some m) (h' : f k' = some m) (hne : k ≠ k') :
    1 < (refs f m).card :=
  Finset.one_lt_card.mpr ⟨k, mem_refs.mpr h, k', mem_refs.mpr h', hne⟩

omit [DecidableEq κ] in
/-- The references from places of two kinds. -/
theorem card_refs_sum {ι : Type*} [Fintype ι] (f : κ ⊕ ι → Option μ) (m : μ) :
    (refs f m).card = (refs (f ∘ .inl) m).card + (refs (f ∘ .inr) m).card := by
  rw [← Finset.card_disjSum]
  congr 1
  ext (k | k) <;> simp

end Dockv6
