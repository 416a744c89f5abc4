import Mathlib

/-!
# The matcher of `grep`

A regular expression stands for a language (`Grep.lang`), and `match` says whether the text is in
it. A text is a C string without its terminator. `here re` is the language of the texts that start
with `re`.
-/

namespace Dockv6.Grep

open Computability

variable {c : UInt8} {re text : List UInt8} {f : List UInt8 → Bool} {L : Language UInt8}

/-- The loop of `matchstar`; `here` is `matchhere` for the rest of the expression. -/
def matchstar (here : List UInt8 → Bool) (c : UInt8) : List UInt8 → Bool
  | [] => here []
  | x :: text => here (x :: text) || (x == c || c == 46) && matchstar here c text

/-- Search for `re` at the beginning of the text. The bytes are `*`, `$` and `.`. -/
def matchhere : List UInt8 → List UInt8 → Bool
  | [], _ => true
  | c :: 42 :: re, text => matchstar (matchhere re) c text
  | c :: re, text =>
    if c = 36 ∧ re = [] then text == []
    else text.head?.any (fun x => c == 46 || c == x) && matchhere re text.tail

/-- The loop of `match` over the text. -/
def matchany (here : List UInt8 → Bool) : List UInt8 → Bool
  | [] => here []
  | x :: text => here (x :: text) || matchany here text

/-- `match`. An expression that starts with `^` is matched at the beginning only. -/
def matchText : List UInt8 → List UInt8 → Bool
  | 94 :: re, text => matchhere re text
  | re, text => matchany (matchhere re) text

/-! ## Languages -/

/-- One character, any one for `.`. -/
def atom (c : UInt8) : Language UInt8 := {u | ∃ x, (c = 46 ∨ c = x) ∧ u = [x]}

/-- The texts that start with `re`. -/
def here : List UInt8 → Language UInt8
  | [] => ⊤
  | c :: 42 :: re => (atom c)∗ * here re
  | c :: re => if c = 36 ∧ re = [] then 1 else atom c * here re

/-- The texts in which `re` is found. -/
def lang : List UInt8 → Language UInt8
  | 94 :: re => here re
  | re => ⊤ * here re

theorem mem_atom_mul : text ∈ atom c * L ↔ ∃ x t, text = x :: t ∧ (c = 46 ∨ c = x) ∧ t ∈ L := by
  rw [Language.mem_mul]
  constructor
  · rintro ⟨_, ⟨x, hx, rfl⟩, t, ht, rfl⟩
    exact ⟨x, t, rfl, hx, ht⟩
  · rintro ⟨x, t, rfl, hx, ht⟩
    exact ⟨[x], ⟨x, hx, rfl⟩, t, ht, rfl⟩

theorem mem_kstar_mul : text ∈ (atom c)∗ * L ↔
    text ∈ L ∨ ∃ x t, text = x :: t ∧ (c = 46 ∨ c = x) ∧ t ∈ (atom c)∗ * L := by
  rw [← mem_atom_mul, ← Language.mem_add, ← mul_assoc, ← Language.one_add_self_mul_kstar_eq_kstar,
    add_mul, one_mul, Language.one_add_self_mul_kstar_eq_kstar]

theorem matchstar_iff (hf : ∀ t, f t = true ↔ t ∈ L) : matchstar f c text = true ↔
    text ∈ (atom c)∗ * L := by
  induction text with
  | nil =>
    rw [mem_kstar_mul]
    simp [matchstar, hf]
  | cons x t ih =>
    rw [matchstar, mem_kstar_mul, Bool.or_eq_true, hf, Bool.and_eq_true, ih]
    simp [or_comm, @eq_comm _ x c]

theorem matchany_iff (hf : ∀ t, f t = true ↔ t ∈ L) : matchany f text = true ↔ text ∈ ⊤ * L := by
  induction text with
  | nil =>
    have htop : ([] : List UInt8) ∈ (⊤ : Language UInt8) := trivial
    simp [matchany, hf, Language.mem_mul, htop]
  | cons x t ih =>
    rw [matchany, Bool.or_eq_true, hf, ih, Language.mem_mul, Language.mem_mul]
    constructor
    · rintro (h | ⟨u, -, v, hv, rfl⟩)
      · exact ⟨[], trivial, x :: t, h, rfl⟩
      · exact ⟨x :: u, trivial, v, hv, rfl⟩
    · rintro ⟨_ | ⟨y, u⟩, -, v, hv, heq⟩
      · exact .inl (heq ▸ hv)
      · exact .inr ⟨u, trivial, v, hv, (List.cons.inj heq).2⟩

theorem matchhere_iff (re text : List UInt8) : matchhere re text = true ↔ text ∈ here re := by
  fun_induction here re generalizing text with
  | case1 => exact iff_of_true rfl trivial
  | case2 c re ih =>
    rw [matchhere]
    exact matchstar_iff ih
  | case3 c re hstar hend =>
    rw [matchhere, if_pos hend]
    · simp
    · exact hstar
  | case4 c re hstar hend ih =>
    rw [matchhere, if_neg hend, mem_atom_mul]
    · cases text <;> simp [ih]
    · exact hstar

/-- **`match` decides the language of the expression.** -/
theorem match_iff (re text : List UInt8) : matchText re text = true ↔ text ∈ lang re := by
  fun_cases lang re with
  | case1 re => exact matchhere_iff re text
  | case2 =>
    rw [matchText]
    · exact matchany_iff (matchhere_iff re)
    · assumption

end Dockv6.Grep
