import Mathlib

/-!
# Aligned blocks

A block of `2 ^ k` addresses starts at a multiple of `2 ^ k`. Masks of low bits take an address apart
into its block and its place there, and two blocks that meet are nested.
-/

namespace Aligned

/-- The lowest `k` bits. -/
def low (w k : Nat) : BitVec w := BitVec.ofNat w (2 ^ k - 1)

@[simp] theorem getLsbD_low {w k i : Nat} : (low w k).getLsbD i = (decide (i < w) && decide (i < k)) := by
  rw [low, BitVec.getLsbD_ofNat, Nat.testBit_two_pow_sub_one]

@[simp] theorem getElem_low {w k i : Nat} (inside : i < w) : (low w k)[i] = decide (i < k) := by
  rw [← BitVec.getLsbD_eq_getElem, getLsbD_low, decide_eq_true inside, Bool.true_and]

theorem and_low {w k : Nat} (a : BitVec w) (inside : k ≤ w) : (a &&& low w k).toNat = a.toNat % 2 ^ k := by
  have fits : 2 ^ k - 1 < 2 ^ w := by
    have := Nat.pow_le_pow_right (n := 2) (by decide) inside
    have := Nat.two_pow_pos k
    omega
  rw [BitVec.toNat_and, low, BitVec.toNat_ofNat, Nat.mod_eq_of_lt fits, Nat.and_two_pow_sub_one_eq_mod]

theorem and_not_low {w k : Nat} (a : BitVec w) : (a &&& ~~~low w k).toNat = a.toNat / 2 ^ k * 2 ^ k := by
  have shifted : a &&& ~~~low w k = a >>> k <<< k := by
    apply BitVec.eq_of_getLsbD_eq
    intro i inside
    by_cases below : i < k
    · simp [inside, below]
    · simp [inside, below, show k + (i - k) = i by omega]
  rw [shifted, BitVec.toNat_shiftLeft, BitVec.toNat_ushiftRight, Nat.shiftRight_eq_div_pow, Nat.shiftLeft_eq]
  exact Nat.mod_eq_of_lt (Nat.lt_of_le_of_lt (Nat.div_mul_le_self _ _) a.isLt)

/-- The block of an address starts at the multiple below it. -/
theorem block_bounds (n k : Nat) : n / 2 ^ k * 2 ^ k ≤ n ∧ n < n / 2 ^ k * 2 ^ k + 2 ^ k := by
  have := Nat.div_add_mod n (2 ^ k)
  have := Nat.mod_lt n (Nat.two_pow_pos k)
  have := Nat.mul_comm (2 ^ k) (n / 2 ^ k)
  omega

theorem block_unique {x n k : Nat} (above : x * 2 ^ k ≤ n) (below : n < x * 2 ^ k + 2 ^ k) : n / 2 ^ k = x := by
  refine Nat.div_eq_of_lt_le above ?_
  rw [Nat.add_mul, Nat.one_mul]
  exact below

/-- Of two blocks that meet, the smaller lies in the larger. -/
theorem nested {n i j : Nat} (smaller : i ≤ j) :
    n / 2 ^ j * 2 ^ j ≤ n / 2 ^ i * 2 ^ i ∧ n / 2 ^ i * 2 ^ i + 2 ^ i ≤ n / 2 ^ j * 2 ^ j + 2 ^ j := by
  obtain ⟨d, rfl⟩ := Nat.exists_eq_add_of_le smaller
  rw [pow_add, ← Nat.div_div_eq_div_mul]
  generalize n / 2 ^ i = q
  have split := Nat.div_add_mod q (2 ^ d)
  have rest := Nat.mod_lt q (Nat.two_pow_pos d)
  have left : q / 2 ^ d * (2 ^ i * 2 ^ d) = (2 ^ d * (q / 2 ^ d)) * 2 ^ i := by ring
  rw [left]
  constructor
  · exact Nat.mul_le_mul_right _ (by omega)
  · calc q * 2 ^ i + 2 ^ i = (q + 1) * 2 ^ i := by ring
      _ ≤ (2 ^ d * (q / 2 ^ d) + 2 ^ d) * 2 ^ i := Nat.mul_le_mul_right _ (by omega)
      _ = 2 ^ d * (q / 2 ^ d) * 2 ^ i + 2 ^ i * 2 ^ d := by ring

end Aligned
