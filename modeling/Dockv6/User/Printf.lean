import Mathlib

/-!
# Numbers as text

`printint` of `printf.c` and `atoi` of `ulib.c`. The calls of `printint` in `printf` do not run over
its buffer of 16 bytes, and `atoi` reads back a number that is not negative, whatever text follows
it.
-/

namespace Dockv6.Printf

variable {base n k x : ℕ} {c : UInt8} {s t : List UInt8}

/-- `digits[d]`, of `"0123456789ABCDEF"`. -/
def digit (d : ℕ) : UInt8 := if d < 10 then .ofNat (48 + d) else .ofNat (55 + d)

/-- The first loop of `printint`, with `n` bytes left in `buf`: the digits from the last one on. -/
def fill (base : ℕ) : ℕ → ℕ → Option (List UInt8)
  | 0, _ => none
  | n + 1, x =>
    if x / base = 0 then some [digit (x % base)]
    else do
      let buf ← fill base n (x / base)
      return digit (x % base) :: buf

/-- The bytes that `printint` writes, unless it runs over the end of `buf`. -/
def printint (xx : BitVec 32) (base : ℕ) (sgn : Bool) : Option (List UInt8) := do
  let neg := sgn && xx.msb
  let buf ← fill base 16 (if neg then -xx else xx).toNat
  if neg then
    if buf.length < 16 then return 45 :: buf.reverse else none
  else return buf.reverse

/-- Is it a decimal digit? -/
def isDigit (c : UInt8) : Bool := 48 ≤ c && c ≤ 57

/-- The loop of `atoi`. -/
def atoiLoop (n : BitVec 32) : List UInt8 → BitVec 32
  | [] => n
  | c :: s => if isDigit c then atoiLoop (n * 10 + .ofNat 32 c.toNat - 48) s else n

/-- The number that a string starts with. -/
def atoi (s : List UInt8) : BitVec 32 := atoiLoop 0 s

/-- A number below `base ^ k` has at most `k` digits. -/
theorem fill_length (hx : x < base ^ (k + 1)) (hn : k < n) : ∃ buf, fill base n x = some buf ∧
    buf.length ≤ k + 1 := by
  induction k generalizing n x with
  | zero =>
    obtain ⟨n, rfl⟩ := Nat.exists_eq_succ_of_ne_zero (Nat.ne_of_gt hn)
    rw [zero_add, pow_one] at hx
    exact ⟨_, if_pos (Nat.div_eq_of_lt hx), le_rfl⟩
  | succ k ih =>
    obtain ⟨n, rfl⟩ := Nat.exists_eq_succ_of_ne_zero (Nat.ne_of_gt (Nat.zero_lt_of_lt hn))
    rw [fill]
    split_ifs with hz
    · exact ⟨_, rfl, by simp⟩
    · obtain ⟨buf, hbuf, hlen⟩ := ih (Nat.div_lt_of_lt_mul (pow_succ' base (k + 1) ▸ hx))
        (Nat.lt_of_succ_lt_succ hn)
      exact ⟨digit (x % base) :: buf, by rw [hbuf]; rfl, Nat.succ_le_succ hlen⟩

theorem atoiLoop_digit (hx : x < 10) (m : ℕ) :
    atoiLoop (.ofNat 32 m) (digit x :: t) = atoiLoop (.ofNat 32 (10 * m + x)) t := by
  have hval : (digit x).toNat = 48 + x := by
    rw [digit, if_pos hx, UInt8.toNat_ofNat', Nat.mod_eq_of_lt (by omega)]
  have hdigit : isDigit (digit x) = true := by
    simp only [isDigit, Bool.and_eq_true, decide_eq_true_eq, UInt8.le_iff_toNat_le, hval]
    exact ⟨by simp, by simp; omega⟩
  rw [atoiLoop, if_pos hdigit, hval]
  congr 1
  have hten : (10 : BitVec 32).toNat = 10 := rfl
  have hzero : (48 : BitVec 32).toNat = 48 := rfl
  apply BitVec.eq_of_toNat_eq
  simp only [hten, hzero, BitVec.toNat_sub, BitVec.toNat_add, BitVec.toNat_mul, BitVec.toNat_ofNat]
  omega

/-- `atoi` reads the digits of a number. -/
theorem atoiLoop_fill {buf : List UInt8} (h : fill 10 n x = some buf) :
    atoiLoop 0 (buf.reverse ++ t) = atoiLoop (.ofNat 32 x) t := by
  have hlast : ∀ m, atoiLoop (.ofNat 32 m) (digit (x % 10) :: t) = atoiLoop
      (.ofNat 32 (10 * m + x % 10)) t :=
    atoiLoop_digit (Nat.mod_lt x (by decide))
  induction n generalizing x buf t with
  | zero => cases h
  | succ n ih =>
    rw [fill] at h
    split_ifs at h with hz
    · cases h
      have hx : 10 * 0 + x % 10 = x := by omega
      exact (hlast 0).trans (by rw [hx])
    · obtain ⟨buf, hbuf, ⟨⟩⟩ := Option.bind_eq_some_iff.mp h
      rw [List.reverse_cons, List.append_assoc, List.singleton_append,
        ih hbuf (atoiLoop_digit (Nat.mod_lt _ (by decide))), hlast, Nat.div_add_mod]

theorem atoiLoop_rest {m : BitVec 32} (h : ∀ c ∈ t.head?, isDigit c = false) :
    atoiLoop m t = m := by
  cases t with
  | nil => rfl
  | cons c t => rw [atoiLoop, h c rfl, if_neg Bool.false_ne_true]

/-- **Numbers fit the buffer, and are read back.** A negative one is read as `0`. -/
theorem printint_atoi (xx : BitVec 32) :
    (∃ out, printint xx 16 false = some out ∧ out.length ≤ 8) ∧
    ∃ out, printint xx 10 true = some out ∧ out.length ≤ 11 ∧
      ∀ rest, (∀ c ∈ rest.head?, isDigit c = false) →
        atoi (out ++ rest) = if xx.msb then 0 else xx := by
  refine ⟨?_, ?_⟩
  · have hx : xx.toNat < 16 ^ (7 + 1) := xx.isLt
    obtain ⟨buf, hbuf, hlen⟩ := fill_length hx (show 7 < 16 by decide)
    exact ⟨buf.reverse, by simp [printint, hbuf], by simpa using hlen⟩
  · have hfill : ∀ y : BitVec 32, ∃ buf, fill 10 16 y.toNat = some buf ∧ buf.length ≤ 10 := fun y =>
      fill_length (y.isLt.trans (by decide)) (by decide)
    cases hneg : xx.msb with
    | true =>
      obtain ⟨buf, hbuf, hlen⟩ := hfill (-xx)
      have hroom : buf.length < 16 := by omega
      exact ⟨45 :: buf.reverse, by simp [printint, hneg, hbuf, hroom, -BitVec.toNat_neg],
        by simp; omega, fun _ _ => rfl⟩
    | false =>
      obtain ⟨buf, hbuf, hlen⟩ := hfill xx
      refine ⟨buf.reverse, by simp [printint, hneg, hbuf], by simp; omega, fun rest hrest => ?_⟩
      rw [atoi, atoiLoop_fill hbuf, atoiLoop_rest hrest]
      simp

end Dockv6.Printf
