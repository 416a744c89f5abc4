import Mathlib

/-!
# Numbers, bits and strings in memory

Memory is a function from addresses to bytes. A number of `n` bytes is stored with the lowest byte
first, a bit map has its bits from the lowest of the first byte on, and a string is written over
what was there.
-/

namespace Dockv6

open Function

variable {f g : ℕ → UInt8} {off off' n n' v k b c : ℕ} {l : List UInt8}

/-! ## Numbers -/

/-- Byte `k` of a number. -/
def leByte (v k : ℕ) : UInt8 := UInt8.ofNat (v / 256 ^ k)

/-- The number in the `n` bytes from `off` on. -/
def getLe (f : ℕ → UInt8) (off : ℕ) : ℕ → ℕ
  | 0 => 0
  | n + 1 => (f off).toNat + 256 * getLe f (off + 1) n

/-- Store a number in the `n` bytes from `off` on. -/
def putLe (f : ℕ → UInt8) (off n v : ℕ) : ℕ → UInt8 := fun k =>
  if off ≤ k ∧ k < off + n then leByte v (k - off) else f k

theorem getLe_congr (h : ∀ k, off ≤ k → k < off + n → f k = g k) :
    getLe f off n = getLe g off n := by
  induction n generalizing off with
  | zero => rfl
  | succ n ih =>
    rw [getLe, getLe, h off le_rfl (by omega), ih fun k hk hk' => h k (by omega) (by omega)]

/-- The bytes of a number make up the number. -/
theorem getLe_eq_mod (h : ∀ k < n, f (off + k) = leByte v k) : getLe f off n = v % 256 ^ n := by
  induction n generalizing off v with
  | zero => exact (Nat.mod_one v).symm
  | succ n ih =>
    have hfirst : (f off).toNat = v % 256 := by
      have h0 := h 0 (by omega)
      rw [Nat.add_zero] at h0
      rw [h0, leByte, pow_zero, Nat.div_one]
      exact UInt8.toNat_ofNat
    have hrest : getLe f (off + 1) n = v / 256 % 256 ^ n := by
      refine ih fun k hk => ?_
      rw [Nat.add_assoc, Nat.add_comm 1 k, h (k + 1) (by omega), leByte, leByte,
        Nat.div_div_eq_div_mul, pow_succ']
    rw [getLe, hfirst, hrest, pow_succ', Nat.mod_mul]

theorem getLe_putLe (f : ℕ → UInt8) (off n v : ℕ) :
    getLe (putLe f off n v) off n = v % 256 ^ n := by
  refine getLe_eq_mod fun k hk => ?_
  rw [putLe, if_pos (by omega), Nat.add_sub_cancel_left]

theorem getLe_putLe_of_apart (h : off' + n' ≤ off ∨ off + n ≤ off') :
    getLe (putLe f off n v) off' n' = getLe f off' n' :=
  getLe_congr fun k _ _ => if_neg (by omega)

theorem getLe_zero (h : ∀ k, off ≤ k → k < off + n → f k = 0) : getLe f off n = 0 := by
  have hzero : getLe f off n = 0 % 256 ^ n := getLe_eq_mod fun k hk => by
    rw [h _ (by omega) (by omega), leByte, Nat.zero_div]
    rfl
  rw [hzero, Nat.zero_mod]

/-! ## Bits -/

/-- Bit `b` of a bit map. -/
def getBit (f : ℕ → UInt8) (b : ℕ) : Bool := (f (b / 8)).toNat.testBit (b % 8)

/-- The mask for a bit of a byte. -/
def bitMask (b : ℕ) : UInt8 := UInt8.ofNat (2 ^ (b % 8))

/-- Set bit `b` of a bit map. -/
def setBit (f : ℕ → UInt8) (b : ℕ) : ℕ → UInt8 := update f (b / 8) (f (b / 8) ||| bitMask b)

theorem testBit_bitMask (b k : ℕ) : (bitMask b).toNat.testBit k = decide (b % 8 = k) := by
  have hlt : 2 ^ (b % 8) < 2 ^ 8 := Nat.pow_lt_pow_right (by decide) (Nat.mod_lt b (by decide))
  rw [bitMask, UInt8.toNat_ofNat', Nat.mod_eq_of_lt hlt, Nat.testBit_two_pow]

theorem getBit_setBit (f : ℕ → UInt8) (b c : ℕ) :
    getBit (setBit f b) c = (getBit f c || decide (b = c)) := by
  unfold getBit setBit
  by_cases hbyte : c / 8 = b / 8
  · have hbit : b = c ↔ b % 8 = c % 8 := ⟨fun h => h ▸ rfl, fun h => by omega⟩
    rw [hbyte, update_self, UInt8.toNat_or, Nat.testBit_or, testBit_bitMask]
    simp only [hbit]
  · have hne : b ≠ c := fun h => hbyte (h ▸ rfl)
    rw [update_of_ne hbyte, decide_eq_false hne, Bool.or_false]

theorem getBit_foldl_setBit (l : List ℕ) (f : ℕ → UInt8) (c : ℕ) :
    getBit (l.foldl setBit f) c = (getBit f c || decide (c ∈ l)) := by
  induction l generalizing f with
  | nil => simp
  | cons b l ih => simp [ih, getBit_setBit, Bool.or_assoc, eq_comm]

theorem getBit_zero (c : ℕ) : getBit (fun _ => 0) c = false := Nat.zero_testBit _

/-! ## Strings -/

/-- Write a string from `off` on. -/
def splice (f : ℕ → UInt8) (off : ℕ) (l : List UInt8) : ℕ → UInt8 := fun k =>
  if off ≤ k ∧ k < off + l.length then l.getD (k - off) 0 else f k

/-- The `n` bytes from `off` on. -/
def slice (f : ℕ → UInt8) (off n : ℕ) : List UInt8 := (List.range n).map fun k => f (off + k)

theorem length_slice (f : ℕ → UInt8) (off n : ℕ) : (slice f off n).length = n := by simp [slice]

theorem slice_congr (h : ∀ k < n, f (off + k) = g (off' + k)) : slice f off n = slice g off' n :=
  List.map_congr_left fun k hk => h k (List.mem_range.mp hk)

theorem slice_add (f : ℕ → UInt8) (off n n' : ℕ) : slice f off (n + n') = slice f off n ++ slice f
    (off + n) n' := by
  unfold slice
  rw [List.range_add, List.map_append, List.map_map]
  exact congrArg _ (List.map_congr_left fun k _ => by simp [Nat.add_assoc])

theorem take_slice (f : ℕ → UInt8) (off n k : ℕ) :
    (slice f off n).take k = slice f off (min k n) := by
  simp [slice, ← List.map_take, List.take_range]

theorem drop_slice (f : ℕ → UInt8) (off n k : ℕ) :
    (slice f off n).drop k = slice f (off + k) (n - k) :=
  List.ext_getElem (by simp [slice]) fun j _ _ => by simp [slice, Nat.add_assoc]

theorem slice_eq {l : List UInt8} (h : ∀ k < l.length, f (off + k) = l.getD k 0) :
    slice f off l.length = l := by
  refine List.ext_getElem (length_slice _ _ _) fun k hk hk' => ?_
  rw [← List.getD_eq_getElem _ 0 hk', ← h k hk']
  simp [slice]

end Dockv6
