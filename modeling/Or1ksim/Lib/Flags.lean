import Mathlib

/-!
# Flags of a register

A register is a bit vector, and a flag of it is a mask. What is read back from a mask after another one
has been set or cleared.
-/

namespace Flags

variable {w : Nat}

/-- Whether some bit of a mask is set. -/
def has (x mask : BitVec w) : Bool := x &&& mask ≠ 0#w

theorem has_iff {x mask : BitVec w} : has x mask = true ↔ x &&& mask ≠ 0#w := decide_eq_true_iff

@[simp] theorem has_zero (mask : BitVec w) : has 0#w mask = false := by
  unfold has
  rw [BitVec.zero_and]
  exact decide_eq_false fun not => not rfl

@[simp] theorem has_or (x y mask : BitVec w) : has (x ||| y) mask = (has x mask || has y mask) := by
  have split : (x ||| y) &&& mask = (x &&& mask) ||| (y &&& mask) := BitVec.and_or_distrib_right
  have parts : (x &&& mask) ||| (y &&& mask) ≠ 0#w ↔ x &&& mask ≠ 0#w ∨ y &&& mask ≠ 0#w := by
    rw [Ne, BitVec.or_eq_zero_iff, not_and_or]
  rw [Bool.eq_iff_iff, has_iff, split, parts, Bool.or_eq_true, has_iff, has_iff]

/-- A mask that is apart from what is cleared keeps its value. -/
theorem has_clear {y mask : BitVec w} (apart : ~~~y &&& mask = mask) (x : BitVec w) : has (x &&& ~~~y) mask = has x mask := by
  unfold has
  rw [BitVec.and_assoc, apart]

theorem has_cleared {y mask : BitVec w} (inside : ~~~y &&& mask = 0#w) (x : BitVec w) : has (x &&& ~~~y) mask = false := by
  unfold has
  rw [BitVec.and_assoc, inside, BitVec.and_zero]
  exact decide_eq_false fun not => not rfl

/-- What is left of a register has no flag that it did not have. -/
theorem has_and {x mask : BitVec w} (none : has x mask = false) (y : BitVec w) : has (x &&& y) mask = false := by
  have zero : x &&& mask = 0#w := not_not.mp (of_decide_eq_false none)
  unfold has
  rw [BitVec.and_assoc, BitVec.and_comm y, ← BitVec.and_assoc, zero, BitVec.zero_and]
  exact decide_eq_false fun not => not rfl

theorem and_eq_and_iff {i : Nat} (x y : BitVec w) :
    x &&& BitVec.twoPow w i = y &&& BitVec.twoPow w i ↔ has x (BitVec.twoPow w i) = has y (BitVec.twoPow w i) := by
  unfold has
  rw [BitVec.and_twoPow, BitVec.and_twoPow]
  by_cases none : BitVec.twoPow w i = 0#w
  · rw [none, ite_self, ite_self]
    exact iff_of_true rfl rfl
  · generalize x.getLsbD i = p, y.getLsbD i = q
    cases p <;> cases q <;> simp [none, Ne.symm none]

end Flags
