import Mathlib

/-!
# Overflow and carry

When the sum, the difference or the product of two machine words is not a word any more, read with or without a sign.
-/

namespace Overflow

variable {w : Nat}

/-- A number that `w` bits hold in two's complement. -/
def Fits (w : Nat) (z : Int) : Prop := -2 ^ (w - 1) ≤ z ∧ z < 2 ^ (w - 1)

instance (w : Nat) (z : Int) : Decidable (Fits w z) := inferInstanceAs (Decidable (_ ∧ _))

theorem fits_toInt (x : BitVec w) : Fits w x.toInt := ⟨x.le_toInt, x.toInt_lt⟩

/-- A number fits if the word of its value still has it. -/
theorem fits_iff_toInt {z : Int} (pos : 0 < w) : Fits w z ↔ (BitVec.ofInt w z).toInt = z := by
  constructor
  · rintro ⟨low, high⟩
    obtain ⟨k, rfl⟩ : ∃ k, w = k + 1 := ⟨w - 1, by omega⟩
    rw [Nat.add_sub_cancel] at low high
    rw [BitVec.toInt_ofInt]
    refine Int.bmod_eq_of_le ?_ ?_
    · have : ((2 ^ (k + 1) : Nat) : Int) / 2 = 2 ^ k := by
        push_cast
        omega
      omega
    · have : (((2 ^ (k + 1) : Nat) : Int) + 1) / 2 = 2 ^ k := by
        push_cast
        omega
      omega
  · intro same
    rw [← same]
    exact fits_toInt _

theorem outside_iff {z : Int} : (decide (z ≥ 2 ^ (w - 1)) || decide (z < -2 ^ (w - 1))) = !decide (Fits w z) := by
  rw [Bool.eq_iff_iff, Bool.or_eq_true, decide_eq_true_iff, decide_eq_true_iff, Bool.not_eq_true', decide_eq_false_iff_not]
  unfold Fits
  omega

theorem saddOverflow_eq (x y : BitVec w) : x.saddOverflow y = !decide (Fits w (x.toInt + y.toInt)) := outside_iff

theorem ssubOverflow_eq (x y : BitVec w) : x.ssubOverflow y = !decide (Fits w (x.toInt - y.toInt)) := outside_iff

theorem smulOverflow_eq (x y : BitVec w) : x.smulOverflow y = !decide (Fits w (x.toInt * y.toInt)) := outside_iff

/-- A sum is less than what was added if there was a carry. -/
theorem ult_add_right (x y : BitVec w) : (x + y).ult y = decide (2 ^ w ≤ x.toNat + y.toNat) := by
  have hx := x.isLt
  have hy := y.isLt
  rw [BitVec.ult, decide_eq_decide, BitVec.toNat_add]
  by_cases carry : 2 ^ w ≤ x.toNat + y.toNat
  · rw [Nat.mod_eq_sub_mod carry, Nat.mod_eq_of_lt (by omega)]
    omega
  · rw [Nat.mod_eq_of_lt (by omega)]
    omega

/-- With a carry in, the sum is no more than what was added if there was a carry. -/
theorem ule_add_right (x y : BitVec w) (pos : 0 < w) : (x + y + 1).ule y = decide (2 ^ w ≤ x.toNat + y.toNat + 1) := by
  have hx := x.isLt
  have hy := y.isLt
  have one : (1 : BitVec w).toNat = 1 := BitVec.toNat_one pos
  rw [BitVec.ule, decide_eq_decide, BitVec.toNat_add, BitVec.toNat_add, one, Nat.mod_add_mod]
  by_cases carry : 2 ^ w ≤ x.toNat + y.toNat + 1
  · rw [Nat.mod_eq_sub_mod carry, Nat.mod_eq_of_lt (by omega)]
    omega
  · rw [Nat.mod_eq_of_lt (by omega)]
    omega

/-- What is left of a sum of two words that does not fit. -/
theorem toInt_wrapped {z : Int} (pos : 0 < w) (low : -2 ^ w ≤ z) (high : z < 2 ^ w) :
    (BitVec.ofInt w z).toInt = if z < -2 ^ (w - 1) then z + 2 ^ w else if z < 2 ^ (w - 1) then z else z - 2 ^ w := by
  obtain ⟨k, rfl⟩ : ∃ k, w = k + 1 := ⟨w - 1, by omega⟩
  rw [Nat.add_sub_cancel]
  have double : (2 : Int) ^ (k + 1) = 2 * 2 ^ k := by ring
  have shifted (d : Int) (same : BitVec.ofInt (k + 1) z = BitVec.ofInt (k + 1) d) (least : -2 ^ k ≤ d) (most : d < 2 ^ k) :
      (BitVec.ofInt (k + 1) z).toInt = d := by
    rw [same]
    exact (fits_iff_toInt pos).mp ⟨least, most⟩
  have period (n : Int) : BitVec.ofInt (k + 1) z = BitVec.ofInt (k + 1) (z + 2 ^ (k + 1) * n) := by
    apply BitVec.eq_of_toInt_eq
    rw [BitVec.toInt_ofInt, BitVec.toInt_ofInt]
    exact_mod_cast (Int.add_mul_bmod_self_left z (2 ^ (k + 1)) n).symm
  split
  · exact shifted _ (by simpa using period 1) (by omega) (by omega)
  · split
    · exact shifted _ rfl (by omega) (by omega)
    · exact shifted _ (by simpa [sub_eq_add_neg] using period (-1)) (by omega) (by omega)

/-- A sum of two words, with a carry or not, fits unless its sign differs from one that both have. -/
theorem signs_eq (x y : BitVec w) (pos : 0 < w) {z : Int} (carry : z = x.toInt + y.toInt ∨ z = x.toInt + y.toInt + 1) :
    ((x.msb && y.msb && !(BitVec.ofInt w z).msb) || (!x.msb && !y.msb && (BitVec.ofInt w z).msb)) = !decide (Fits w z) := by
  obtain ⟨k, rfl⟩ : ∃ k, w = k + 1 := ⟨w - 1, by omega⟩
  have double : (2 : Int) ^ (k + 1) = 2 * 2 ^ k := by ring
  have hx := fits_toInt x
  have hy := fits_toInt y
  unfold Fits at hx hy
  rw [Nat.add_sub_cancel] at hx hy
  have hs := toInt_wrapped (w := k + 1) (z := z) pos (by omega) (by omega)
  rw [Nat.add_sub_cancel] at hs
  rw [BitVec.msb_eq_toInt, BitVec.msb_eq_toInt, BitVec.msb_eq_toInt, Bool.eq_iff_iff]
  simp only [Bool.or_eq_true, Bool.and_eq_true, decide_eq_true_eq, Bool.not_eq_true', decide_eq_false_iff_not]
  unfold Fits
  rw [Nat.add_sub_cancel]
  generalize (BitVec.ofInt (k + 1) z).toInt = s at hs
  split at hs
  · omega
  · split at hs <;> omega

end Overflow
