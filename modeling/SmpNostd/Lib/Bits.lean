import Mathlib.Algebra.Group.Nat.Defs
import Mathlib.Tactic.Common

/-!
Bits of machine words: testing, setting and clearing the bit of a mask `1 << n`,
read back bit by bit, words made up of two halves, and words with fields in them.
-/

namespace SmpNostd.Bits

variable {w n : ℕ}

/-- `x & (1 << n) != 0` tests bit `n`. -/
theorem and_twoPow_ne_zero (hn : n < w) (x : BitVec w) :
    (x &&& BitVec.twoPow w n != 0#w) = x.getLsbD n := by
  rw [BitVec.and_twoPow]
  cases hx : x.getLsbD n with
  | false => simp
  | true =>
      have hne : BitVec.twoPow w n ≠ 0#w := by
        intro h
        have := congrArg (fun y => y.getLsbD n) h
        simp [hn] at this
      simpa using hne

/-- `x | (1 << n)` sets bit `n` and no other. -/
theorem getLsbD_set (hn : n < w) (x : BitVec w) (i : ℕ) :
    (x ||| BitVec.twoPow w n).getLsbD i = if i = n then true else x.getLsbD i := by
  rw [BitVec.getLsbD_or, BitVec.getLsbD_twoPow]
  by_cases h : i = n
  · simp [h, hn]
  · simp [h, Ne.symm h]

/-- `x & !(1 << n)` clears bit `n` and no other. -/
theorem getLsbD_clear (hn : n < w) (x : BitVec w) (i : ℕ) :
    (x &&& ~~~BitVec.twoPow w n).getLsbD i = if i = n then false else x.getLsbD i := by
  rw [BitVec.getLsbD_and, BitVec.getLsbD_not, BitVec.getLsbD_twoPow]
  by_cases h : i = n
  · simp [h, hn]
  · by_cases hi : i < w
    · simp [h, hi, Ne.symm h]
    · simp [h, hi, x.getLsbD_of_ge i (by omega)]

/-- Setting a bit that was set before it was cleared gives the word back. -/
theorem set_clear_of_getLsbD (hn : n < w) {x : BitVec w} (hx : x.getLsbD n = true) :
    (x &&& ~~~BitVec.twoPow w n) ||| BitVec.twoPow w n = x := by
  apply BitVec.eq_of_getLsbD_eq
  intro i _
  rw [getLsbD_set hn, getLsbD_clear hn]
  split
  · rename_i h
    rw [h, hx]
  · rfl

/-- Clearing a bit that is clear changes nothing. -/
theorem clear_of_getLsbD (hn : n < w) {x : BitVec w} (hx : x.getLsbD n = false) :
    x &&& ~~~BitVec.twoPow w n = x := by
  apply BitVec.eq_of_getLsbD_eq
  intro i _
  rw [getLsbD_clear hn]
  split
  · rename_i h
    rw [h, hx]
  · rfl

/-- `x & !(2^k - 1)` is the highest multiple of `2^k` that is not above `x`. -/
theorem toNat_alignDown (x : BitVec w) (k : ℕ) :
    (x &&& ~~~BitVec.ofNat w (2 ^ k - 1)).toNat = x.toNat / 2 ^ k * 2 ^ k := by
  have hshifts : x &&& ~~~BitVec.ofNat w (2 ^ k - 1) = x >>> k <<< k := by
    apply BitVec.eq_of_getLsbD_eq
    intro i hi
    simp only [BitVec.getLsbD_shiftLeft, BitVec.getLsbD_ushiftRight, BitVec.getLsbD_and,
      BitVec.getLsbD_not, BitVec.getLsbD_ofNat, Nat.testBit_two_pow_sub_one]
    by_cases hki : i < k
    · simp [hi, hki]
    · simp [hi, hki, Nat.add_sub_of_le (Nat.le_of_not_lt hki)]
  have hle : x.toNat / 2 ^ k * 2 ^ k ≤ x.toNat := Nat.div_mul_le_self ..
  rw [hshifts, BitVec.toNat_shiftLeft, BitVec.toNat_ushiftRight, Nat.shiftLeft_eq,
    Nat.shiftRight_eq_div_pow, Nat.mod_eq_of_lt (Nat.lt_of_le_of_lt hle x.isLt)]

/-! ### Words made up of two halves -/

variable {v : ℕ}

theorem setWidth_join (hv : w ≤ v) (low high : BitVec w) :
    (low.setWidth v ||| high.setWidth v <<< w).setWidth w = low := by
  apply BitVec.eq_of_getLsbD_eq
  intro i hi
  simp [hi, Nat.lt_of_lt_of_le hi hv]

theorem setWidth_ushiftRight_join (hv : w + w ≤ v) (low high : BitVec w) :
    ((low.setWidth v ||| high.setWidth v <<< w) >>> w).setWidth w = high := by
  apply BitVec.eq_of_getLsbD_eq
  intro i hi
  simp [hi, show w + i < v by omega, show i < v by omega]

theorem join_halves (hv : v ≤ w + w) (x : BitVec v) :
    (x.setWidth w).setWidth v ||| ((x >>> w).setWidth w).setWidth v <<< w = x := by
  apply BitVec.eq_of_getLsbD_eq
  intro i hi
  by_cases hlow : i < w
  · simp [hi, hlow]
  · simp [hi, hlow, show i - w < w by omega, show i - w < v by omega,
      show w + (i - w) = i by omega]

theorem append_halves (x : BitVec (v + w)) : (x >>> w).setWidth v ++ x.setWidth w = x := by
  apply BitVec.eq_of_getLsbD_eq
  intro i hi
  rw [BitVec.getLsbD_append]
  by_cases hlow : i < w
  · simp [hlow]
  · simp [hlow, show i - w < v by omega, show w + (i - w) = i by omega]

/-! ### Fields of a word -/

variable {p q m : ℕ}

/-- A field is read back from its place in a word. -/
theorem extractLsb'_field (hw : p + m ≤ w) (x : BitVec m) :
    (x.setWidth w <<< p).extractLsb' p m = x := by
  apply BitVec.eq_of_getLsbD_eq
  intro i hi
  simp [hi, show p + i < w by omega]

/-- Nothing of a field is in other places. -/
theorem extractLsb'_field_of_disjoint (h : p + m ≤ q ∨ q + n ≤ p) (x : BitVec m) :
    (x.setWidth w <<< p).extractLsb' q n = 0#n := by
  apply BitVec.eq_of_getLsbD_eq
  intro i hi
  rw [BitVec.getLsbD_extractLsb', BitVec.getLsbD_shiftLeft, BitVec.getLsbD_setWidth]
  rcases h with hbelow | habove
  · simp [x.getLsbD_of_ge (q + i - p) (by omega)]
  · simp [show q + i < p by omega]

/-- `x & (2^k - 1)` has the lowest `k` bits of `x`. -/
theorem setWidth_and_low {k : ℕ} (hk : k ≤ w) (x : BitVec w) :
    (x &&& BitVec.ofNat w (2 ^ k - 1)).setWidth k = x.setWidth k := by
  apply BitVec.eq_of_getLsbD_eq
  intro i hi
  have hiw : i < w := Nat.lt_of_lt_of_le hi hk
  rw [BitVec.getLsbD_setWidth, BitVec.getLsbD_setWidth, BitVec.getLsbD_and,
    BitVec.getLsbD_ofNat, Nat.testBit_two_pow_sub_one]
  simp [hi, hiw]

end SmpNostd.Bits
