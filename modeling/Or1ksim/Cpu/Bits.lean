import Or1ksim.Cpu.Arithmetic
import Or1ksim.Lib.Bits

/-!
# Bits

The shifts, with the amounts that C leaves undefined, and the instructions that look for a bit.
-/

namespace Or1ksim.Cpu

open Bits (AtMostOne Highest Lowest)

/-! ### Shifts -/

inductive ShiftInsn where
  | sll | sra | srl | ror
  deriving DecidableEq, Repr

namespace ShiftInsn

def body {δ : Type} (c : Config δ) : ShiftInsn → P Unit
  | .sll => lSll c
  | .sra => lSra c
  | .srl => lSrl c
  | .ror => lRor c

/-- The shifts of C that an instruction evaluates, with their amounts. -/
def evaluated (y : Word) : ShiftInsn → List (Shift × Word)
  | .sll => [(.left, y)]
  | .sra => [(.arithmetic, y)]
  | .srl => [(.right, y)]
  | .ror => [(.right, y &&& 0x1f), (.left, 32 - (y &&& 0x1f))]

/-- The source `x` shifted by the operand modulo 32. -/
def value (x y : Word) : ShiftInsn → Word
  | .sll => x <<< (y.toNat % 32)
  | .sra => x.sshiftRight (y.toNat % 32)
  | .srl => x >>> (y.toNat % 32)
  | .ror => x.rotateRight (y.toNat % 32)

/-- The operands whose shifts C defines. -/
def InRange (y : Word) : ShiftInsn → Prop
  | .ror => y.toNat % 32 ≠ 0
  | _ => y.toNat < 32

end ShiftInsn

variable {δ : Type} {c : Config δ} {opd : Operands δ} {d : Fin 32} {m : Machine δ} {x y : Word}

theorem shift_body (i : ShiftInsn) : i.body c = computes fun x y => (i.evaluated y).foldl (fun t e => t ||| shift c e.1 x e.2) 0 := by
  have first (t : Word) : (0 : Word) ||| t = t := BitVec.zero_or
  cases i <;> simp only [ShiftInsn.body, ShiftInsn.evaluated, List.foldl_cons, List.foldl_nil, first] <;> rfl

theorem ror_amounts (y : Word) : (y &&& 0x1f).toNat = y.toNat % 32 ∧ (32 - (y &&& 0x1f)).toNat = 32 - y.toNat % 32 := by
  have low : (y &&& 0x1f).toNat = y.toNat % 32 := by
    rw [BitVec.toNat_and]
    exact Nat.and_two_pow_sub_one_eq_mod y.toNat 5
  refine ⟨low, ?_⟩
  rw [BitVec.toNat_sub, low]
  have less := Nat.mod_lt y.toNat (show 0 < 32 by decide)
  generalize y.toNat % 32 = k at less
  show (2 ^ 32 - k + 32) % 2 ^ 32 = 32 - k
  omega

theorem shift_defined_iff (i : ShiftInsn) : (∀ e ∈ i.evaluated y, e.2.toNat < 32) ↔ i.InRange y := by
  cases i with
  | ror =>
    obtain ⟨right, left⟩ := ror_amounts y
    simp only [ShiftInsn.evaluated, ShiftInsn.InRange, List.forall_mem_cons, List.not_mem_nil, false_imp_iff, implies_true,
      and_true, right, left]
    have less := Nat.mod_lt y.toNat (show 0 < 32 by decide)
    generalize y.toNat % 32 = n at less
    constructor <;> intro h
    · omega
    · omega
  | _ => simp [ShiftInsn.evaluated, ShiftInsn.InRange]

theorem shift_value (i : ShiftInsn) (range : i.InRange y) :
    (i.evaluated y).foldl (fun t e => t ||| shift c e.1 x e.2) 0 = i.value x y := by
  have first (t : Word) : (0 : Word) ||| t = t := BitVec.zero_or
  cases i with
  | ror =>
    obtain ⟨right, left⟩ := ror_amounts y
    have less := Nat.mod_lt y.toNat (show 0 < 32 by decide)
    have some : y.toNat % 32 ≠ 0 := range
    simp only [ShiftInsn.evaluated, List.foldl_cons, List.foldl_nil, first, shift, right, left]
    rw [if_pos less, if_pos (by omega), ShiftInsn.value, BitVec.rotateRight_def, Nat.mod_mod]
  | _ =>
    have less : y.toNat < 32 := range
    simp only [ShiftInsn.evaluated, List.foldl_cons, List.foldl_nil, first, shift, if_pos less, ShiftInsn.value,
      Nat.mod_eq_of_lt less]

/-- The instruction evaluates no undefined shift, and its destination is the source shifted by the operand modulo 32. -/
structure ShiftInsn.Correct (i : ShiftInsn) (c : Config δ) (opd : Operands δ) (m : Machine δ) (x y : Word) : Prop where
  defined : ∀ e ∈ i.evaluated y, e.2.toNat < 32
  computed : ∃ d w, opd.Sets d ∧ runP c opd (i.body c) m = .ok ((), setReg d w m) ∧ (d ≠ 0 → w = i.value x y)

/-- `computes`, with its destination. -/
theorem runP_computes (f : Word → Word → Word) (hx : opd.param 1 m = .ok (x, m)) (hy : opd.param 2 m = .ok (y, m)) (sets : opd.Sets d) :
    ∃ w, runP c opd (computes f) m = .ok ((), setReg d w m) ∧ (d ≠ 0 → w = f x y) := by
  obtain ⟨w, set, same⟩ := sets (f x y) m
  exact ⟨w, (runP_param hx _).trans ((runP_param hy _).trans ((runP_setParam0 set pure).trans rfl)), same⟩

/-- The shifts, in either executor: right on exactly the operands in range. -/
theorem shift_correct {t : Machine δ} {ops : List Decode.InsnOp} {tail : Machine δ → Machine δ} (frame : Frame c m ops opd tail)
    (i : ShiftInsn) {v : Word} (hx : opd.param 1 m = .ok (x, m)) (hy : opd.param 2 m = .ok (y, m))
    (set : opd.setParam0 v m = .ok ((), t)) : i.Correct c opd m x y ↔ i.InRange y := by
  constructor
  · exact fun correct => (shift_defined_iff i).mp correct.defined
  · intro range
    obtain ⟨d, sets⟩ := frame.sets set
    refine ⟨(shift_defined_iff i).mpr range, ?_⟩
    rw [shift_body]
    obtain ⟨w, ran, same⟩ := runP_computes (c := c) _ hx hy sets
    exact ⟨d, w, sets, ran, fun some => (same some).trans (shift_value i range)⟩

/-- The last bit of a word. -/
theorem shift_correct_last :
    let m := aluMachine srSm 0 0x80000001 31
    ShiftInsn.srl.Correct aluConfig (aluOperands m) m 0x80000001 31 ↔ ShiftInsn.srl.InRange 31 :=
  shift_correct (.complex rfl : Frame aluConfig _ registerOps _ (repair registerOps)) .srl rfl rfl
    (rfl : (aluOperands _).setParam0 0 _ = _)

/-- A register can hold 32, which `l_ror` takes modulo 32 and `l_sll` does not. -/
theorem sll_by_width :
    let m := aluMachine srSm 0 1 32
    ¬ ShiftInsn.sll.Correct aluConfig (aluOperands m) m 1 32 := by
  intro m correct
  exact absurd (correct.defined _ (List.mem_singleton_self _)) (by decide)

/-- A rotation by nothing shifts by the width of the word. -/
example : (ShiftInsn.ror.evaluated 0).map Prod.snd = [0, 32] := by decide

/-! ### Reversal -/

/-- The steps of `reversed` but for the last. -/
def exchanged (t : Word) : Word :=
  Bits.exchange 0xff00ff00 0x00ff00ff 8 (Bits.exchange 0xf0f0f0f0 0x0f0f0f0f 4
    (Bits.exchange 0xcccccccc 0x33333333 2 (Bits.exchange 0xaaaaaaaa 0x55555555 1 t)))

theorem getLsbD_exchanged {i : Nat} (lt : i < 32) : (exchanged x).getLsbD i = x.getLsbD (i ^^^ 15) := by
  have inside {a b : Nat} (ha : a < 32) (hb : b < 32) : a ^^^ b < 32 := Nat.xor_lt_two_pow (n := 5) ha hb
  have first := inside lt (show 8 < 32 by decide)
  have second := inside first (show 4 < 32 by decide)
  have third := inside second (show 2 < 32 by decide)
  unfold exchanged
  rw [Bits.getLsbD_exchange (by decide +kernel) lt, Bits.getLsbD_exchange (by decide +kernel) first,
    Bits.getLsbD_exchange (by decide +kernel) second, Bits.getLsbD_exchange (by decide +kernel) third]
  rw [Nat.xor_assoc, Nat.xor_assoc, Nat.xor_assoc]
  rfl

/-- The word reversed, but for the sign that the last step smears over its upper half. -/
theorem getLsbD_reversed {i : Nat} (lt : i < 32) :
    (reversed x).getLsbD i = (x.getLsbD (31 - i) || (decide (16 ≤ i) && x.getLsbD 16)) := by
  have mirror : ∀ j < 16, (j + 16) ^^^ 15 = 31 - j ∧ j ^^^ 15 = 15 - j := by decide
  have is : reversed x = (exchanged x).sshiftRight 16 ||| (exchanged x <<< 16) := rfl
  rw [is, BitVec.getLsbD_or, BitVec.getLsbD_sshiftRight, BitVec.getLsbD_shiftLeft]
  by_cases low : i < 16
  · have here := (mirror i low).1
    rw [if_pos (by omega), Nat.add_comm 16 i, getLsbD_exchanged (i := i + 16) (by omega), here, decide_eq_true low,
      decide_eq_false (show ¬ 16 ≤ i by omega)]
    simp [lt]
  · have here := (mirror (i - 16) (by omega)).2
    have msb : (exchanged x).msb = x.getLsbD 16 := by
      rw [BitVec.msb_eq_getLsbD_last, getLsbD_exchanged (by decide)]
      rfl
    have shifted : 15 - (i - 16) = 31 - i := by omega
    rw [if_neg (by omega), msb, getLsbD_exchanged (i := i - 16) (by omega), here, shifted, decide_eq_true lt, decide_eq_false low,
      decide_eq_true (show 16 ≤ i by omega), decide_eq_false (show ¬ 32 ≤ i by omega)]
    simp [Bool.or_comm]

/-! ### The first and the last bit -/

theorem ffs_zero : ffs 0 = 0 := by decide

theorem ffs_lowest {k : Nat} (lowest : Lowest x k) : (ffs x).toNat = k + 1 := by
  have lt := lowest.lt
  have found : (List.range 32).find? (fun j => x.getLsbD j) = some k := by
    rw [List.find?_range_eq_some]
    refine ⟨lowest.set, List.mem_range.mpr lt, fun j below => ?_⟩
    rw [lowest.below j below]
    rfl
  unfold ffs
  rw [found]
  exact Nat.mod_eq_of_lt (by omega)

/-- What `l_fl1` stores. -/
def fl1 (x : Word) : Word := if ffs (reversed x) = 0 then 0 else 33 - ffs (reversed x)

theorem fl1_zero : fl1 0 = 0 := by decide +kernel

/-- The sign that the reversal smears lies above the bit it came from. -/
theorem fl1_highest {k : Nat} (highest : Highest x k) : (fl1 x).toNat = k + 1 := by
  have lt := highest.lt
  have mirrored : Lowest (reversed x) (31 - k) := by
    refine ⟨?_, fun j below => ?_⟩
    · rw [getLsbD_reversed (by omega), show 31 - (31 - k) = k by omega, highest.set, Bool.true_or]
    · rw [getLsbD_reversed (by omega), highest.above _ (by omega), Bool.false_or]
      by_cases upper : 16 ≤ j
      · rw [highest.above 16 (by omega), Bool.and_false]
      · rw [decide_eq_false upper, Bool.false_and]
  have first := ffs_lowest mirrored
  have some : ffs (reversed x) ≠ 0 := by
    intro none
    rw [none] at first
    exact absurd first (Nat.succ_ne_zero _).symm
  unfold fl1
  rw [if_neg some, BitVec.toNat_sub, first]
  show (2 ^ 32 - (31 - k + 1) + 33) % 2 ^ 32 = k + 1
  omega

/-- `extends1`, with its destination. -/
theorem runP_extends1 (f : Word → Word) (hx : opd.param 1 m = .ok (x, m)) (sets : opd.Sets d) :
    ∃ w, runP c opd (extends1 f) m = .ok ((), setReg d w m) ∧ (d ≠ 0 → w = f x) := by
  obtain ⟨w, set, same⟩ := sets (f x) m
  exact ⟨w, (runP_param hx _).trans ((runP_setParam0 set pure).trans rfl), same⟩

theorem ffs_le_fl1 (x : Word) : (ffs x).toNat ≤ (fl1 x).toNat := by
  by_cases none : x = 0
  · rw [none, ffs_zero]
    exact Nat.zero_le _
  · obtain ⟨k, lowest⟩ := Bits.exists_lowest none
    obtain ⟨n, highest⟩ := Bits.exists_highest none
    rw [ffs_lowest lowest, fl1_highest highest]
    exact Nat.succ_le_succ (lowest.le_highest highest)

theorem ffs_eq_fl1_iff (x : Word) : ffs x = fl1 x ↔ AtMostOne x := by
  by_cases none : x = 0
  · rw [none, ffs_zero, fl1_zero]
    exact ⟨fun _ => Bits.atMostOne_zero, fun _ => rfl⟩
  · obtain ⟨k, lowest⟩ := Bits.exists_lowest none
    obtain ⟨n, highest⟩ := Bits.exists_highest none
    rw [← lowest.eq_highest_iff highest, ← BitVec.toNat_inj, ffs_lowest lowest, fl1_highest highest]
    exact Nat.add_right_cancel_iff

/-- The instructions that look for a bit, in either executor. -/
theorem find_bit_correct {t : Machine δ} {ops : List Decode.InsnOp} {tail : Machine δ → Machine δ} (frame : Frame c m ops opd tail)
    {v : Word} (hx : opd.param 1 m = .ok (x, m)) (set : opd.setParam0 v m = .ok ((), t)) :
    ∃ d first last, opd.Sets d ∧
      (∃ w, runP c opd lFf1 m = .ok ((), setReg d w m) ∧ (d ≠ 0 → w = first)) ∧
      (∃ w, runP c opd lFl1 m = .ok ((), setReg d w m) ∧ (d ≠ 0 → w = last)) ∧
      (x = 0 → first = 0 ∧ last = 0) ∧
      (x ≠ 0 → (∃ k, Lowest x k ∧ first.toNat = k + 1) ∧ ∃ k, Highest x k ∧ last.toNat = k + 1) ∧
      first.toNat ≤ last.toNat ∧ (first = last ↔ AtMostOne x) := by
  obtain ⟨d, sets⟩ := frame.sets set
  refine ⟨d, ffs x, fl1 x, sets, runP_extends1 ffs hx sets, runP_extends1 fl1 hx sets, ?_, ?_, ffs_le_fl1 x, ffs_eq_fl1_iff x⟩
  · rintro rfl
    exact ⟨ffs_zero, fl1_zero⟩
  · intro some
    obtain ⟨k, lowest⟩ := Bits.exists_lowest some
    obtain ⟨n, highest⟩ := Bits.exists_highest some
    exact ⟨⟨k, lowest, ffs_lowest lowest⟩, n, highest, fl1_highest highest⟩

/-- A word whose bit 16 the reversal smears. -/
theorem find_bit_correct_smeared :
    let m := aluMachine srSm 0 0x00010100 0
    ∃ d first last, (aluOperands m).Sets d ∧
      (∃ w, runP aluConfig (aluOperands m) lFf1 m = .ok ((), setReg d w m) ∧ (d ≠ 0 → w = first)) ∧
      (∃ w, runP aluConfig (aluOperands m) lFl1 m = .ok ((), setReg d w m) ∧ (d ≠ 0 → w = last)) ∧
      ((0x00010100 : Word) = 0 → first = 0 ∧ last = 0) ∧
      ((0x00010100 : Word) ≠ 0 → (∃ k, Lowest (0x00010100 : Word) k ∧ first.toNat = k + 1) ∧
        ∃ k, Highest (0x00010100 : Word) k ∧ last.toNat = k + 1) ∧
      first.toNat ≤ last.toNat ∧ (first = last ↔ AtMostOne (0x00010100 : Word)) :=
  find_bit_correct (.complex rfl : Frame aluConfig _ registerOps _ (repair registerOps)) rfl (rfl : (aluOperands _).setParam0 0 _ = _)

end Or1ksim.Cpu
