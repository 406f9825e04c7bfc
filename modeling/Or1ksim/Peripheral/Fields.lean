import Mathlib.Data.BitVec

/-!
# Flags and fields of registers

The macros of `peripheral/fields.h` on an `unsigned long`, which has 64 bits here.
-/

namespace Or1ksim.Peripheral

abbrev ULong := BitVec 64

def testFlag {w : Nat} (r : BitVec w) (flag : Nat) : Bool := r.getLsbD flag
def setFlag (r : ULong) (flag : Nat) : ULong := r ||| (1 : ULong) <<< flag
def clearFlag (r : ULong) (flag : Nat) : ULong := r &&& ~~~((1 : ULong) <<< flag)
def assignFlag (r : ULong) (flag : Nat) (value : Bool) : ULong := if value then setFlag r flag else clearFlag r flag
def getField (r : ULong) (offset width : Nat) : ULong := (r >>> offset) &&& ~~~(BitVec.allOnes 64 <<< width)
def setField (r : ULong) (offset width : Nat) (value : ULong) : ULong :=
  (r &&& ~~~(~~~(BitVec.allOnes 64 <<< width) <<< offset)) ||| (value <<< offset)

def clearFlags (r : ULong) (flags : List Nat) : ULong := flags.foldl clearFlag r

theorem getLsbD_one_shiftLeft {flag other : Nat} (inside : other < 64) :
    ((1 : ULong) <<< flag).getLsbD other = decide (other = flag) := by
  rw [BitVec.getLsbD_shiftLeft]
  by_cases before : other < flag
  · simp [before, Nat.ne_of_lt before]
  · by_cases same : other = flag
    · subst same
      simp [inside]
    · have later : other - flag ≠ 0 := by omega
      simp [before, same, BitVec.getLsbD_one, later]

theorem testFlag_clearFlag (r : ULong) (flag other : Nat) :
    testFlag (clearFlag r flag) other = (testFlag r other && decide (other ≠ flag)) := by
  unfold testFlag clearFlag
  rw [BitVec.getLsbD_and, BitVec.getLsbD_not]
  by_cases inside : other < 64
  · rw [getLsbD_one_shiftLeft inside]
    simp [inside]
  · rw [BitVec.getLsbD_of_ge r other (by omega), Bool.false_and, Bool.false_and]

theorem testFlag_setFlag (r : ULong) {flag : Nat} (inside : flag < 64) (other : Nat) :
    testFlag (setFlag r flag) other = (testFlag r other || decide (other = flag)) := by
  unfold testFlag setFlag
  rw [BitVec.getLsbD_or]
  by_cases small : other < 64
  · rw [getLsbD_one_shiftLeft small]
  · rw [BitVec.getLsbD_of_ge _ other (by omega), BitVec.getLsbD_of_ge _ other (by omega), decide_eq_false (by omega)]

theorem testFlag_assignFlag (r : ULong) {flag other : Nat} (inside : flag < 64) (differ : other ≠ flag) (value : Bool) :
    testFlag (assignFlag r flag value) other = testFlag r other := by
  unfold assignFlag
  split
  · rw [testFlag_setFlag r inside, decide_eq_false differ, Bool.or_false]
  · rw [testFlag_clearFlag, decide_eq_true differ, Bool.and_true]

theorem testFlag_setField (r : ULong) (offset width : Nat) (value : ULong) {flag : Nat} (below : flag < offset) :
    testFlag (setField r offset width value) flag = testFlag r flag := by
  unfold testFlag setField
  simp only [BitVec.getLsbD_or, BitVec.getLsbD_and, BitVec.getLsbD_not, BitVec.getLsbD_shiftLeft]
  by_cases inside : flag < 64
  · simp [inside, below]
  · simpa [inside] using BitVec.getLsbD_of_ge r flag (by omega)

theorem testFlag_clearFlags (r : ULong) (flags : List Nat) (other : Nat) :
    testFlag (clearFlags r flags) other = (testFlag r other && decide (other ∉ flags)) := by
  induction flags generalizing r with
  | nil => simp [clearFlags]
  | cons flag flags ih =>
    show testFlag (clearFlags (clearFlag r flag) flags) other = _
    rw [ih, testFlag_clearFlag]
    simp only [List.mem_cons, not_or, Bool.decide_and, Bool.and_assoc]

/-! ### The bits of a field -/

theorem fieldMask_eq {width : Nat} (inside : width ≤ 64) : ~~~(BitVec.allOnes 64 <<< width) = BitVec.ofNat 64 (2 ^ width - 1) := by
  apply BitVec.eq_of_getLsbD_eq
  intro i small
  rw [BitVec.getLsbD_not, BitVec.getLsbD_shiftLeft, BitVec.getLsbD_allOnes, BitVec.getLsbD_ofNat, Nat.testBit_two_pow_sub_one]
  by_cases low : i < width
  · simp [low, small]
  · have rest : i - width < 64 := by omega
    simp [low, small, rest]

theorem getField_toNat (r : ULong) (offset : Nat) {width : Nat} (inside : width ≤ 64) :
    (getField r offset width).toNat = r.toNat / 2 ^ offset % 2 ^ width := by
  have fits : 2 ^ width - 1 < 2 ^ 64 :=
    Nat.lt_of_lt_of_le (Nat.sub_lt (Nat.two_pow_pos width) Nat.one_pos) (Nat.pow_le_pow_right (by decide) inside)
  unfold getField
  rw [fieldMask_eq inside, BitVec.toNat_and, BitVec.toNat_ushiftRight, BitVec.toNat_ofNat, Nat.mod_eq_of_lt fits,
    Nat.shiftRight_eq_div_pow,
    Nat.and_two_pow_sub_one_eq_mod]

theorem getField_lt (r : ULong) (offset : Nat) {width : Nat} (inside : width ≤ 64) : (getField r offset width).toNat < 2 ^ width := by
  rw [getField_toNat r offset inside]
  exact Nat.mod_lt _ (Nat.two_pow_pos width)

theorem getLsbD_getField (r : ULong) (offset : Nat) {width : Nat} (inside : width ≤ 64) (i : Nat) :
    (getField r offset width).getLsbD i = (decide (i < width) && testFlag r (offset + i)) := by
  rw [← BitVec.testBit_toNat, getField_toNat r offset inside, Nat.testBit_mod_two_pow, Nat.testBit_div_two_pow, Nat.add_comm]
  rfl

/-- A value that fits a field is what the field holds, and the other bits are kept. -/
theorem testFlag_setField_fits (r : ULong) {offset width : Nat} {value : ULong} (small : value.toNat < 2 ^ width)
    (inside : offset + width ≤ 64) (flag : Nat) :
    testFlag (setField r offset width value) flag = if offset ≤ flag ∧ flag < offset + width then testFlag value (flag - offset)
      else testFlag r flag := by
  have high (i : Nat) (above : width ≤ i) : value.getLsbD i = false :=
    Nat.testBit_lt_two_pow (Nat.lt_of_lt_of_le small (Nat.pow_le_pow_right (by decide) above))
  unfold testFlag setField
  by_cases fits : flag < 64
  · simp only [BitVec.getLsbD_or, BitVec.getLsbD_and, BitVec.getLsbD_not, BitVec.getLsbD_shiftLeft, BitVec.getLsbD_allOnes,
      fits, decide_true,
      Bool.true_and]
    by_cases before : flag < offset
    · rw [if_neg (by omega)]
      simp [before]
    · have rest : flag - offset < 64 := by omega
      by_cases within : flag < offset + width
      · have low : flag - offset < width := by omega
        rw [if_pos ⟨Nat.le_of_not_lt before, within⟩]
        simp [before, low, rest]
      · have above : ¬flag - offset < width := by omega
        have rest' : flag - offset - width < 64 := by omega
        rw [if_neg (by omega), high (flag - offset) (Nat.le_of_not_lt above)]
        simp [before, above, rest, rest']
  · rw [if_neg (by omega), BitVec.getLsbD_of_ge _ flag (by omega), BitVec.getLsbD_of_ge r flag (by omega)]

theorem getField_setField (r : ULong) {offset width : Nat} {value : ULong} (small : value.toNat < 2 ^ width)
    (inside : offset + width ≤ 64) :
    getField (setField r offset width value) offset width = value := by
  apply BitVec.eq_of_getLsbD_eq
  intro i _
  rw [getLsbD_getField _ _ (by omega), testFlag_setField_fits r small inside]
  by_cases low : i < width
  · rw [if_pos ⟨Nat.le_add_right _ _, by omega⟩, decide_eq_true low, Bool.true_and, Nat.add_sub_cancel_left]
    rfl
  · rw [decide_eq_false low, Bool.false_and]
    exact (Nat.testBit_lt_two_pow (Nat.lt_of_lt_of_le small (Nat.pow_le_pow_right (by decide) (Nat.le_of_not_lt low)))).symm

theorem getField_clearFlag (r : ULong) {flag offset width : Nat} (below : flag < offset) (inside : width ≤ 64) :
    getField (clearFlag r flag) offset width = getField r offset width := by
  apply BitVec.eq_of_getLsbD_eq
  intro i _
  have differ : offset + i ≠ flag := by omega
  rw [getLsbD_getField _ _ inside, getLsbD_getField _ _ inside, testFlag_clearFlag, decide_eq_true differ, Bool.and_true]

end Or1ksim.Peripheral
