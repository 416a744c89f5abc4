import Mathlib


/-!
# Ring buffers with wrapping counters

A ring buffer has `cap` cells and counts the items put and the items taken modulo `M`, a multiple of
`cap`. `Holds cap M data nread nwrite r l` says that `r` items were taken and that the items of `l`
are in it. As `cap < M`, the counters tell whether it is empty or full.
-/

namespace Dockv6.Ring

variable {α : Type*} {cap M : ℕ} {data : ℕ → α} {nread nwrite r : ℕ} {l : List α} {x : α}

/-- After `r` items were taken, the ring buffer holds the items `l`. -/
structure Holds (cap M : ℕ) (data : ℕ → α) (nread nwrite r : ℕ) (l : List α) : Prop where
  nread : nread = r % M
  nwrite : nwrite = (r + l.length) % M
  length_le : l.length ≤ cap
  data : ∀ k x, l[k]? = some x → data ((r + k) % cap) = x

theorem Holds.nil (cap M : ℕ) (data : ℕ → α) : Holds cap M data 0 0 0 [] :=
  ⟨(Nat.zero_mod M).symm, (Nat.zero_mod M).symm, Nat.zero_le cap, nofun⟩

theorem add_mod_eq_iff {a b : ℕ} (ha : a < M) (hb : b < M) : (r + a) % M = (r + b) % M ↔ a = b := by
  refine ⟨fun h => ?_, fun h => by rw [h]⟩
  have hmod : a ≡ b [MOD M] := Nat.ModEq.add_left_cancel' r h
  rwa [Nat.ModEq, Nat.mod_eq_of_lt ha, Nat.mod_eq_of_lt hb] at hmod

section Counters

variable (hlt : cap < M) (h : Holds cap M data nread nwrite r l)

include hlt h

theorem Holds.empty_iff : nread = nwrite ↔ l = [] := by
  have hr : nread = (r + 0) % M := h.nread
  rw [hr, h.nwrite, add_mod_eq_iff (Nat.zero_lt_of_lt hlt) (h.length_le.trans_lt hlt), eq_comm,
    List.length_eq_zero_iff]

theorem Holds.full_iff : nwrite = (nread + cap) % M ↔ l.length = cap := by
  rw [h.nread, h.nwrite, Nat.mod_add_mod, add_mod_eq_iff (h.length_le.trans_lt hlt) hlt]

/-- The difference of the counters is the number of items. -/
theorem Holds.sub_eq : (nwrite + M - nread) % M = l.length := by
  have hM : 0 < M := Nat.zero_lt_of_lt hlt
  have hr : r % M ≤ M := (Nat.mod_lt r hM).le
  have hsum : (nwrite + M - nread) + r ≡ l.length + r [MOD M] := by
    have hsub : nwrite + M - nread + r % M = nwrite + M := by
      rw [h.nread]
      omega
    calc (nwrite + M - nread) + r
        ≡ (nwrite + M - nread) + r % M [MOD M] := (Nat.ModEq.add_left _ (Nat.mod_modEq r M)).symm
      _ ≡ nwrite + M [MOD M] := by rw [hsub]
      _ ≡ nwrite [MOD M] := Nat.add_modEq_right
      _ ≡ r + l.length [MOD M] := by
        rw [h.nwrite]
        exact Nat.mod_modEq _ _
      _ ≡ l.length + r [MOD M] := by rw [Nat.add_comm]
  have hmod : (nwrite + M - nread) % M = l.length % M := Nat.ModEq.add_right_cancel' r hsum
  rw [hmod, Nat.mod_eq_of_lt (h.length_le.trans_lt hlt)]

end Counters

section Cells

variable (hdvd : cap ∣ M) (h : Holds cap M data nread nwrite r l)

include hdvd h

/-- An item is put behind the last one. -/
theorem Holds.put (hroom : l.length < cap) :
    Holds cap M (Function.update data (nwrite % cap) x) nread ((nwrite + 1) % M) r (l ++ [x]) := by
  have hcell : nwrite % cap = (r + l.length) % cap := by rw [h.nwrite, Nat.mod_mod_of_dvd _ hdvd]
  refine ⟨h.nread, ?_, ?_, fun k y hk => ?_⟩
  · rw [h.nwrite, Nat.mod_add_mod, List.length_append, List.length_singleton, Nat.add_assoc]
  · rw [List.length_append, List.length_singleton]
    exact hroom
  · rw [hcell]
    rw [List.getElem?_append] at hk
    split_ifs at hk with hlt
    · -- The cell of an item in the buffer is not the one that is written.
      have hne : (r + k) % cap ≠ (r + l.length) % cap := fun heq =>
        hlt.ne ((add_mod_eq_iff (hlt.trans hroom) hroom).mp heq)
      rw [Function.update_of_ne hne]
      exact h.data k y hk
    · rw [List.getElem?_singleton] at hk
      split_ifs at hk with hzero
      have hk' : k = l.length := by omega
      rw [hk', Function.update_self]
      exact Option.some.inj hk

/-- The items are read off the cells, from the one that is taken next. -/
theorem Holds.map_range : (List.range l.length).map (fun k => data ((nread + k) % cap)) = l := by
  refine List.ext_getElem (by simp) fun k hk hk' => ?_
  have hcell : (nread + k) % cap = (r + k) % cap := by
    rw [h.nread, Nat.add_mod, Nat.mod_mod_of_dvd r hdvd, ← Nat.add_mod]
  rw [List.getElem_map, List.getElem_range, hcell]
  exact h.data k _ (List.getElem?_eq_getElem hk')

end Cells

/-- The first item is taken. -/
theorem Holds.take (hdvd : cap ∣ M) (h : Holds cap M data nread nwrite r (x :: l)) :
    data (nread % cap) = x ∧ Holds cap M data ((nread + 1) % M) nwrite (r + 1) l := by
  refine ⟨?_, ?_, ?_, ?_, fun k y hk => ?_⟩
  · have hfirst := h.data 0 x rfl
    rwa [Nat.add_zero, ← Nat.mod_mod_of_dvd r hdvd, ← h.nread] at hfirst
  · rw [h.nread, Nat.mod_add_mod]
  · rw [h.nwrite, List.length_cons]
    congr 1
    omega
  · exact Nat.le_of_succ_le h.length_le
  · have hcell : r + 1 + k = r + (k + 1) := by omega
    rw [hcell]
    exact h.data (k + 1) y hk

end Dockv6.Ring
