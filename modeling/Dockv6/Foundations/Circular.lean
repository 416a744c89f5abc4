import Mathlib

/-!
# Circular lists

The nodes on the way from `a` to `b` along a map `next` form a list (`Path`). A circular list is a
path from a node to itself; it can be read from any of its nodes (`Path.rotate`). What comes behind
a node can be exchanged (`Path.splice`), and a search along the list finds the only node that passes
a test (`Path.seek`).
-/

namespace Dockv6

variable {α : Type*}

/-- The nodes from `a` on along `next` are `l`, and then comes `b`. -/
def Path (next : α → α) : α → List α → α → Prop
  | a, [], b => a = b
  | a, c :: l, b => a = c ∧ Path next (next c) l b

/-- The first node from `a` on that passes the test. -/
def seek (next : α → α) (test : α → Bool) : ℕ → α → Option α
  | 0, _ => none
  | n + 1, a => if test a then some a else seek next test n (next a)

/-- A longer search finds the same node. -/
theorem seek_mono {next : α → α} {test : α → Bool} {n m : ℕ} {a p : α}
    (h : seek next test n a = some p) (hnm : n ≤ m) : seek next test m a = some p := by
  induction n generalizing a m with
  | zero => cases h
  | succ n ih =>
    obtain ⟨m, rfl⟩ : ∃ k, m = k + 1 := ⟨m - 1, by omega⟩
    rw [seek] at h ⊢
    split_ifs at h ⊢
    · exact h
    · exact ih h (Nat.le_of_succ_le_succ hnm)

namespace Path

variable {next next' : α → α} {a b c p : α} {l l1 l2 : List α}

theorem append_iff : Path next a (l1 ++ l2) b ↔ ∃ c, Path next a l1 c ∧ Path next c l2 b := by
  induction l1 generalizing a with
  | nil =>
    refine ⟨fun h => ⟨a, rfl, h⟩, ?_⟩
    rintro ⟨c, rfl, h⟩
    exact h
  | cons d l1 ih =>
    refine ⟨fun ⟨had, h⟩ => ?_, fun ⟨c, ⟨had, h1⟩, h2⟩ => ⟨had, ih.mpr ⟨c, h1, h2⟩⟩⟩
    obtain ⟨c, h1, h2⟩ := ih.mp h
    exact ⟨c, ⟨had, h1⟩, h2⟩

theorem congr (h : Path next a l b) (heq : ∀ c ∈ l, next' c = next c) : Path next' a l b := by
  induction l generalizing a with
  | nil => exact h
  | cons c l ih =>
    obtain ⟨rfl, hrest⟩ := h
    refine ⟨rfl, ?_⟩
    rw [heq a List.mem_cons_self]
    exact ih hrest fun d hd => heq d (List.mem_cons_of_mem a hd)

/-- The first node and the one behind the last are determined. -/
theorem split (h : Path next a (l1 ++ c :: l2) b) : Path next a l1 c ∧ Path next (next c) l2 b := by
  obtain ⟨d, h1, rfl, h2⟩ := append_iff.mp h
  exact ⟨h1, h2⟩

/-- A circular list from its node `c` on. -/
theorem rotate (h : Path next a (l1 ++ c :: l2) a) : Path next c (c :: l2 ++ l1) c := by
  obtain ⟨h1, h2⟩ := h.split
  exact append_iff.mpr ⟨a, ⟨rfl, h2⟩, h1⟩

/-- Other nodes come behind `p`. -/
theorem splice (h : Path next a (l1 ++ p :: l) b) (heq : ∀ c ∈ l1, next' c = next c)
    (hrest : Path next' (next' p) l2 b) : Path next' a (l1 ++ p :: l2) b :=
  append_iff.mpr ⟨p, h.split.1.congr heq, rfl, hrest⟩

theorem next_mem (h : Path next a l b) (hc : c ∈ l) : next c ∈ l ∨ next c = b := by
  obtain ⟨l1, l2, rfl⟩ := List.append_of_mem hc
  obtain ⟨-, h2⟩ := h.split
  cases l2 with
  | nil => exact .inr h2
  | cons d l2 =>
    refine .inl ?_
    rw [h2.1]
    simp

theorem seek {test : α → Bool} {n : ℕ} (h : Path next a l b) (hp : p ∈ l) (htest : test p = true)
    (honly : ∀ c ∈ l, test c = true → c = p) (hn : l.length ≤ n) : seek next test n a = some p := by
  induction l generalizing a n with
  | nil => cases hp
  | cons c l ih =>
    obtain ⟨rfl, hrest⟩ := h
    obtain ⟨n, rfl⟩ : ∃ m, n = m + 1 := ⟨n - 1, by rw [List.length_cons] at hn; omega⟩
    rw [Dockv6.seek]
    by_cases ha : test a = true
    · rw [if_pos ha, honly a List.mem_cons_self ha]
    · rw [if_neg ha]
      have hpl : p ∈ l := (List.mem_cons.mp hp).resolve_left fun heq => ha (heq ▸ htest)
      exact ih hrest hpl (fun d hd => honly d (List.mem_cons_of_mem a hd))
        (Nat.le_of_succ_le_succ hn)

end Path

end Dockv6
