import Mathlib

/-!
# The two memmoves

`memmove` of `ulib.c` copies from the first byte on, and `memmove` of `string.c` from the last one
where the destination overlaps the end of the source. The two agree exactly when the first one reads
no byte that it has overwritten with another (`memmove_agree_iff`).
-/

namespace Dockv6.Memmove

open Function

/-- A pointer goes on by one byte, or back. -/
def inc (a : ℕ) : ℕ := (a + 1) % 2 ^ 32

/-- `a - 1` of a pointer. -/
def dec (a : ℕ) : ℕ := (a + (2 ^ 32 - 1)) % 2 ^ 32

variable {mem : ℕ → UInt8} {dst src n k a : ℕ}

/-- `while (n-- > 0) *dst++ = *src++;` -/
def copyUp (mem : ℕ → UInt8) (dst src : ℕ) : ℕ → ℕ → UInt8
  | 0 => mem
  | n + 1 => copyUp (update mem dst (mem src)) (inc dst) (inc src) n

/-- `while (n-- > 0) *--d = *--s;` -/
def copyDown (mem : ℕ → UInt8) (d s : ℕ) : ℕ → ℕ → UInt8
  | 0 => mem
  | n + 1 => copyDown (update mem (dec d) (mem (dec s))) (dec d) (dec s) n

/-- `memmove` of the user library. -/
def ulibMemmove (mem : ℕ → UInt8) (dst src : ℕ) (n : Int) : ℕ → UInt8 := copyUp mem dst src n.toNat

/-- `memmove` of the kernel. -/
def kernelMemmove (mem : ℕ → UInt8) (dst src n : ℕ) : ℕ → UInt8 :=
  if src < dst ∧ dst < (src + n) % 2 ^ 32 then
    copyDown mem ((dst + n) % 2 ^ 32) ((src + n) % 2 ^ 32) n
  else copyUp mem dst src n

/-- The `n` bytes at `dst` are those that were at `src`, and the others are as they were. -/
def moved (mem : ℕ → UInt8) (dst src n : ℕ) : ℕ → UInt8 := fun a =>
  if dst ≤ a ∧ a < dst + n then mem (src + (a - dst)) else mem a

theorem moved_of_out (h : ¬(dst ≤ a ∧ a < dst + n)) : moved mem dst src n a = mem a := if_neg h

theorem moved_add (h : k < n) : moved mem dst src n (dst + k) = mem (src + k) := by
  rw [moved, if_pos (by omega), Nat.add_sub_cancel_left]

/-- The last round of the forward copy. -/
theorem copyUp_succ (hdst : dst + n < 2 ^ 32) (hsrc : src + n < 2 ^ 32) :
    copyUp mem dst src (n + 1) =
      update (copyUp mem dst src n) (dst + n) (copyUp mem dst src n (src + n)) := by
  induction n generalizing mem dst src with
  | zero => rfl
  | succ n ih =>
    have hd : inc dst = dst + 1 := Nat.mod_eq_of_lt (by omega)
    have hs : inc src = src + 1 := Nat.mod_eq_of_lt (by omega)
    rw [copyUp, hd, hs, ih (by omega) (by omega), copyUp, hd, hs]
    simp only [Nat.add_assoc, Nat.add_comm 1 n]

theorem copyUp_of_out (hdst : dst + n ≤ 2 ^ 32) (hsrc : src + n ≤ 2 ^ 32)
    (h : ¬(dst ≤ a ∧ a < dst + n)) : copyUp mem dst src n a = mem a := by
  induction n with
  | zero => rfl
  | succ n ih =>
    rw [copyUp_succ (by omega) (by omega), update_of_ne (by omega),
      ih (by omega) (by omega) (by omega)]

/-- Byte `k` is what is read in round `k`: a byte that an earlier round has written, or one of the
source. -/
theorem copyUp_add (hdst : dst + n ≤ 2 ^ 32) (hsrc : src + n ≤ 2 ^ 32) (hk : k < n) :
    copyUp mem dst src n (dst + k) =
      if src < dst ∧ dst ≤ src + k then copyUp mem dst src n (src + k) else mem (src + k) := by
  induction n with
  | zero => omega
  | succ n ih =>
    rw [copyUp_succ (by omega) (by omega)]
    by_cases hlast : k = n
    · subst hlast
      rw [update_self]
      split_ifs with h
      · rw [update_of_ne (by omega)]
      · exact copyUp_of_out (by omega) (by omega) (by omega)
    · rw [update_of_ne (by omega), ih (by omega) (by omega) (by omega)]
      split_ifs with h
      · rw [update_of_ne (by omega)]
      · rfl

theorem copyDown_eq_moved (hdst : dst + n < 2 ^ 32 + 1) (hlt : src < dst) :
    copyDown mem (dst + n) (src + n) n = moved mem dst src n := by
  induction n generalizing mem with
  | zero =>
    funext a
    exact (moved_of_out (by omega)).symm
  | succ n ih =>
    have hd : dec (dst + (n + 1)) = dst + n := by
      unfold dec
      omega
    have hs : dec (src + (n + 1)) = src + n := by
      unfold dec
      omega
    rw [copyDown, hd, hs, ih (by omega)]
    funext a
    unfold moved
    by_cases ha : dst ≤ a ∧ a < dst + n
    · rw [if_pos ha, if_pos (by omega), update_of_ne (by omega)]
    · rw [if_neg ha]
      by_cases hlast : a = dst + n
      · rw [hlast, update_self, if_pos (by omega), Nat.add_sub_cancel_left]
      · rw [update_of_ne hlast, if_neg (by omega)]

theorem copyDown_mod (d s : ℕ) : copyDown mem (d % 2 ^ 32) (s % 2 ^ 32) n = copyDown mem d s n := by
  cases n with
  | zero => rfl
  | succ n => simp [copyDown, dec]

/-- The forward copy is right when the part of the source that it overwrites repeats what comes
before. -/
theorem copyUp_eq_moved_iff (hdst : dst + n ≤ 2 ^ 32) (hsrc : src + n ≤ 2 ^ 32) :
    copyUp mem dst src n = moved mem dst src n ↔
      (src < dst → ∀ k, dst + k < src + n → mem (dst + k) = mem (src + k)) := by
  constructor
  · intro h hlt k hk
    -- Round `k + (dst - src)` reads what round `k` has written.
    have hround : copyUp mem dst src n (dst + (k + (dst - src))) = _ :=
      copyUp_add hdst hsrc (by omega)
    have hread : src + (k + (dst - src)) = dst + k := by omega
    rw [if_pos (by omega), hread, h, moved_add (by omega), moved_add (by omega), hread] at hround
    exact hround
  · intro h
    have hall : ∀ k < n, copyUp mem dst src n (dst + k) = mem (src + k) := by
      intro k
      induction k using Nat.strong_induction_on with
      | _ k ih =>
        intro hk
        rw [copyUp_add hdst hsrc hk]
        split_ifs with hover
        · have hread : src + k = dst + (k - (dst - src)) := by omega
          rw [hread, ih _ (by omega) (by omega), h hover.1 _ (by omega)]
        · rfl
    funext a
    by_cases ha : dst ≤ a ∧ a < dst + n
    · obtain ⟨k, rfl⟩ := Nat.exists_eq_add_of_le ha.1
      rw [hall k (by omega), moved_add (by omega)]
    · rw [copyUp_of_out hdst hsrc ha, moved_of_out ha]

theorem kernelMemmove_eq_moved (hdst : dst + n ≤ 2 ^ 32) (hsrc : src + n ≤ 2 ^ 32) :
    kernelMemmove mem dst src n = moved mem dst src n := by
  unfold kernelMemmove
  split_ifs with h
  · rw [copyDown_mod, copyDown_eq_moved (by omega) h.1]
  · exact (copyUp_eq_moved_iff hdst hsrc).mpr fun hlt k hk => by omega

/-- **The two memmoves agree** and move the bytes exactly when the bytes of the source that are
overwritten before they are read, if any, are equal to those that they are overwritten with. -/
theorem memmove_agree_iff (hdst : dst + n ≤ 2 ^ 32) (hsrc : src + n ≤ 2 ^ 32) :
    ulibMemmove mem dst src n = kernelMemmove mem dst src n ∧
    kernelMemmove mem dst src n = moved mem dst src n ↔
      (src < dst → ∀ k, dst + k < src + n → mem (dst + k) = mem (src + k)) := by
  rw [kernelMemmove_eq_moved hdst hsrc, and_iff_left rfl]
  exact copyUp_eq_moved_iff hdst hsrc

/-- The destination lies before the source. -/
theorem memmove_agree_before :
    ulibMemmove (fun a => .ofNat a) 4 6 8 = kernelMemmove (fun a => .ofNat a) 4 6 8 ∧
    kernelMemmove (fun a => .ofNat a) 4 6 8 = moved (fun a => .ofNat a) 4 6 8 :=
  (memmove_agree_iff (by decide) (by decide)).mpr fun hlt => by omega

/-- Two bytes are moved up by one: the library writes the first one twice. -/
theorem ulib_overwrites_source :
    ulibMemmove (fun a => .ofNat a) 1 0 2 ≠ kernelMemmove (fun a => .ofNat a) 1 0 2 ∧
      ulibMemmove (fun a => .ofNat a) 1 0 2 2 = 0 ∧ moved (fun a => .ofNat a) 1 0 2 2 = 1 := by
  refine ⟨fun h => ?_, by decide, by decide⟩
  have h2 := congrFun h 2
  revert h2
  decide

end Dockv6.Memmove
