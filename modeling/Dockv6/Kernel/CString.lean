import Mathlib

/-!
# C strings

The string functions of `string.c`. A buffer or a string is the list of its bytes; a byte past the
end of the list reads as `0`, so a list without zero bytes is a string with its terminator left
implicit. A copy into a buffer returns the buffer's new bytes.
-/

namespace Dockv6

/-- The bytes of a buffer or of a C string. -/
abbrev Bytes := List UInt8

/-- The bytes before the first zero byte. -/
def cstr (s : Bytes) : Bytes := s.takeWhile (· ≠ 0)

/-- The length of a string. -/
def strlen (s : Bytes) : ℕ := (cstr s).length

/-- The byte `*p`. -/
def deref : Bytes → UInt8
  | [] => 0
  | a :: _ => a

/-- `while (n > 0 && *p && *p == *q) n--, p++, q++;` and then `0` or the difference. -/
def strncmp (p q : Bytes) : ℕ → Int
  | 0 => 0
  | n + 1 =>
    if deref p ≠ 0 ∧ deref p = deref q then strncmp p.tail q.tail n
    else ((deref p).toNat : Int) - (deref q).toNat

/-- The `n` bytes `strncpy` writes: the string, cut at `n`, and zeros. -/
def strncpyBytes (t : Bytes) (n : ℕ) : Bytes :=
  (cstr t).take n ++ List.replicate (n - strlen t) 0

/-- Exactly `n` bytes of `s` are overwritten; no terminator is added when `t` is longer. -/
def strncpy (s t : Bytes) (n : ℕ) : Bytes := strncpyBytes t n ++ s.drop n

/-- The bytes `safestrcpy` writes for `n > 0`. When the loop stops at the terminator, the
terminator has been copied and the final `*s = 0` writes a second zero. -/
def safestrcpyBytes (t : Bytes) (n : ℕ) : Bytes :=
  if strlen t + 2 ≤ n then cstr t ++ [0, 0] else (cstr t).take (n - 1) ++ [0]

/-- Like `strncpy`, but always terminated. -/
def safestrcpy (s t : Bytes) (n : ℕ) : Bytes :=
  if n = 0 then s else safestrcpyBytes t n ++ s.drop (safestrcpyBytes t n).length

/-! ## Lengths -/

/-- A copy of no bytes changes nothing: `strncpy(m->name, "", strlen(""))`. -/
@[simp] theorem strncpy_zero (s t : Bytes) : strncpy s t 0 = s := by
  simp [strncpy, strncpyBytes]

@[simp] theorem strlen_nil : strlen [] = 0 := rfl

/-! ## Comparison -/

@[simp] theorem cstr_nil : cstr [] = [] := rfl

theorem cstr_cons (a : UInt8) (s : Bytes) : cstr (a :: s) = if a = 0 then [] else a :: cstr s := by
  by_cases h : a = 0 <;> simp [cstr, h]

theorem cstr_of_deref_eq_zero {s : Bytes} (h : deref s = 0) : cstr s = [] := by
  rcases s with _ | ⟨a, s⟩
  · rfl
  · simpa [cstr_cons, deref] using h

theorem cstr_of_deref_ne_zero {s : Bytes} (h : deref s ≠ 0) :
    cstr s = deref s :: cstr s.tail := by
  rcases s with _ | ⟨a, s⟩
  · exact absurd rfl h
  · simpa [cstr_cons, deref] using h

theorem sub_toNat_eq_zero_iff (a b : UInt8) : (a.toNat : Int) - b.toNat = 0 ↔ a = b := by
  rw [← UInt8.toNat_inj]
  omega

/-- Two strings compare equal over `n` bytes exactly when they agree up to `n` bytes or to their
terminators. -/
theorem strncmp_eq_zero_iff (p q : Bytes) (n : ℕ) :
    strncmp p q n = 0 ↔ (cstr p).take n = (cstr q).take n := by
  induction n generalizing p q with
  | zero => simp [strncmp]
  | succ n ih =>
    rw [strncmp]
    by_cases hp : deref p = 0
    · rw [if_neg (by simp [hp]), cstr_of_deref_eq_zero hp, hp, sub_toNat_eq_zero_iff]
      by_cases hq : deref q = 0
      · simp [cstr_of_deref_eq_zero hq, hq]
      · simp [cstr_of_deref_ne_zero hq, Ne.symm hq]
    · by_cases hpq : deref p = deref q
      · have hq : deref q ≠ 0 := hpq ▸ hp
        rw [if_pos ⟨hp, hpq⟩, ih, cstr_of_deref_ne_zero hp, cstr_of_deref_ne_zero hq, hpq]
        simp
      · rw [if_neg (by simp [hpq]), sub_toNat_eq_zero_iff, cstr_of_deref_ne_zero hp]
        by_cases hq : deref q = 0
        · simp [cstr_of_deref_eq_zero hq, hpq]
        · simp [cstr_of_deref_ne_zero hq, hpq]

theorem strncmp_strlen_eq_zero_iff (p q : Bytes) :
    strncmp p q (strlen p) = 0 ↔ cstr p = (cstr q).take (strlen p) := by
  rw [strncmp_eq_zero_iff, strlen, List.take_length]

theorem cstr_append (a b : Bytes) : cstr (cstr a ++ b) = cstr a ++ cstr b :=
  List.takeWhile_append_of_pos fun _ hx => List.mem_takeWhile_imp (p := fun c => decide (c ≠ 0)) hx

theorem cstr_cstr (a : Bytes) : cstr (cstr a) = cstr a := by simpa using cstr_append a []

/-- A copy of a string without its terminator goes on with what was there before. -/
theorem cstr_strncpy_strlen (s t : Bytes) :
    cstr (strncpy s t (strlen t)) = cstr t ++ cstr (s.drop (strlen t)) := by
  have hbytes : strncpyBytes t (strlen t) = cstr t := by
    rw [strncpyBytes, strlen, List.take_length, Nat.sub_self, List.replicate_zero, List.append_nil]
  rw [strncpy, hbytes, cstr_append]

theorem cstr_append_zero (a b : Bytes) : cstr (cstr a ++ 0 :: b) = cstr a := by
  rw [cstr_append, cstr_cons, if_pos rfl, List.append_nil]

/-- What `safestrcpy` copies ends with a terminator. -/
theorem cstr_safestrcpy (s t : Bytes) {n : ℕ} (hn : n ≠ 0) :
    cstr (safestrcpy s t n) = (cstr t).take (n - 1) := by
  rw [safestrcpy, if_neg hn, safestrcpyBytes]
  split_ifs with hlen
  · rw [List.append_assoc, List.cons_append, cstr_append_zero, List.take_of_length_le]
    unfold strlen at hlen
    omega
  · have hcut : cstr ((cstr t).take (n - 1)) = (cstr t).take (n - 1) := by
      refine List.takeWhile_eq_self_iff.mpr fun x hx => ?_
      exact List.mem_takeWhile_imp (p := fun c => decide (c ≠ 0)) (List.mem_of_mem_take hx)
    rw [List.append_assoc, List.singleton_append, ← hcut, cstr_append_zero, hcut]

theorem strncmp_of_cstr_eq_nil {p q : Bytes} (hp : cstr p = []) (hq : strlen q ≠ 0) :
    strncmp p q (strlen q) ≠ 0 := by
  rw [Ne, strncmp_eq_zero_iff, hp]
  simpa [strlen, eq_comm] using hq

end Dockv6
