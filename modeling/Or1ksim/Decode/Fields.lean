import Or1ksim.Decode.Opcodes
import Or1ksim.Lib.Gather

/-!
# Fields of an encoding

The places of a letter in an encoding. `insn_extract` makes a mask of them that `parse_params` splits
into runs from the low end; `or1ksim_or32_extract` takes the bits from the high end. Both gather the
same bits.
-/

namespace Or1ksim.Decode

open Gather (gather gather_concat places mem_places places_eq places_run)

/-! ### Places of a letter -/

/-- The places of a letter, in the order of the text. -/
def positions (l : Char) : List Char → Nat → List Nat
  | [], _ => []
  | '0' :: 'x' :: [], _ => []
  | '0' :: 'x' :: _ :: enc, opcPos => positions l enc (opcPos - 4)
  | c :: enc, opcPos =>
    if c = '0' ∨ c = '1' ∨ c = '-' ∨ c.isAlpha then
      if c = l then (opcPos - 1) :: positions l enc (opcPos - 1) else positions l enc (opcPos - 1)
    else positions l enc opcPos

/-- The number of bits that an encoding describes. -/
def bitCount : List Char → Nat
  | [] => 0
  | '0' :: 'x' :: [] => 0
  | '0' :: 'x' :: _ :: enc => 4 + bitCount enc
  | c :: enc => (if c = '0' ∨ c = '1' ∨ c = '-' ∨ c.isAlpha then 1 else 0) + bitCount enc

section
variable {l : Char} {enc : List Char} {opcPos : Nat}

theorem ne_of_isUpper (upper : l.isUpper = true) : l ≠ '0' ∧ l ≠ '1' ∧ l ≠ '-' ∧ l ≠ 'r' ∧ l.isAlpha = true ∧ l.isLower = false := by
  refine ⟨?_, ?_, ?_, ?_, ?_, ?_⟩
  · rintro rfl
    exact absurd upper (by decide)
  · rintro rfl
    exact absurd upper (by decide)
  · rintro rfl
    exact absurd upper (by decide)
  · rintro rfl
    exact absurd upper (by decide)
  · unfold Char.isAlpha
    rw [upper]
    rfl
  · unfold Char.isUpper at upper
    unfold Char.isLower
    simp only [decide_eq_true_eq] at upper
    rw [Bool.and_eq_false_iff, decide_eq_false_iff_not]
    refine .inl fun low => ?_
    have := UInt32.le_iff_toNat_le.mp low
    have := UInt32.le_iff_toNat_le.mp upper.2
    simp at *
    omega

/-- The places go down, and stay below the bits that are left. -/
theorem positions_decreasing (fits : bitCount enc ≤ opcPos) :
    (positions l enc opcPos).Pairwise (· > ·) ∧ ∀ p ∈ positions l enc opcPos, p < opcPos := by
  fun_induction positions l enc opcPos with
  | case1 => simp
  | case2 => simp
  | case3 opcPos h enc ih =>
    rw [bitCount] at fits
    obtain ⟨decreasing, below⟩ := ih (by omega)
    exact ⟨decreasing, fun p member => by have := below p member; omega⟩
  | case4 enc opcPos notEnd notHex symbol ih =>
    rw [bitCount, if_pos symbol] at fits
    · obtain ⟨decreasing, below⟩ := ih (by omega)
      refine ⟨List.pairwise_cons.mpr ⟨below, decreasing⟩, fun p member => ?_⟩
      rcases List.mem_cons.mp member with rfl | later
      · omega
      · have := below p later
        omega
    · exact notEnd
    · exact notHex
  | case5 c enc opcPos notEnd notHex symbol other ih =>
    rw [bitCount, if_pos symbol] at fits
    · obtain ⟨decreasing, below⟩ := ih (by omega)
      exact ⟨decreasing, fun p member => by have := below p member; omega⟩
    · exact notEnd
    · exact notHex
  | case6 c enc opcPos notEnd notHex plain ih =>
    rw [bitCount, if_neg plain] at fits
    · exact ih (by omega)
    · exact notEnd
    · exact notHex

theorem insnExtract_hex (upper : l.isUpper = true) (h : Char) :
    insnExtract l ('0' :: 'x' :: h :: enc) opcPos = insnExtract l enc (opcPos - 4) := by
  obtain ⟨notZero, notOne, _⟩ := ne_of_isUpper upper
  have none : ∀ t : Word, (if l = '0' then 15 - t else if l = '1' then t else 0) = 0#32 := fun t => by
    rw [if_neg notZero, if_neg notOne]
    rfl
  rw [insnExtract, none, BitVec.zero_shiftLeft, BitVec.zero_or]

theorem extractLoop_hex (upper : l.isUpper = true) (h : Char) (insn ret : Word) (paramPos : Nat) :
    extractLoop l insn ('0' :: 'x' :: h :: enc) opcPos paramPos ret = extractLoop l insn enc (opcPos - 4) paramPos ret := by
  obtain ⟨notZero, notOne, _⟩ := ne_of_isUpper upper
  have none : ∀ t : Word, (if l = '0' then 15 - t else if l = '1' then t else 0) = 0#32 := fun t => by
    rw [if_neg notZero, if_neg notOne]
    rfl
  rw [extractLoop, none, BitVec.zero_shiftLeft, BitVec.or_zero]

theorem getLsbD_insnExtract (upper : l.isUpper = true) (fits : bitCount enc ≤ opcPos) (small : opcPos ≤ 32) (k : Nat) :
    (insnExtract l enc opcPos).getLsbD k = decide (k ∈ positions l enc opcPos) := by
  fun_induction positions l enc opcPos with
  | case1 => simp [insnExtract]
  | case2 => simp [insnExtract]
  | case3 h enc opcPos ih =>
    rw [bitCount] at fits
    rw [insnExtract_hex upper]
    exact ih (by omega) (by omega)
  | case4 enc opcPos notEnd notHex symbol ih =>
    rw [bitCount, if_pos symbol] at fits
    · have bit : (BitVec.ofNat 32 (1 <<< (opcPos - 1))).getLsbD k = decide (k = opcPos - 1) := by
        rw [BitVec.getLsbD_ofNat, Nat.one_shiftLeft, Nat.testBit_two_pow]
        by_cases here : k = opcPos - 1
        · simp only [here, decide_true, Bool.and_true, decide_eq_true_eq]
          omega
        · simp [here, Ne.symm here]
      rw [insnExtract, if_pos symbol, if_pos rfl, BitVec.getLsbD_or, ih (by omega) (by omega)]
      · refine (congrArg (· || _) bit).trans ?_
        rw [← Bool.decide_or]
        exact decide_eq_decide.mpr List.mem_cons.symm
      · exact notEnd
      · exact notHex
    · exact notEnd
    · exact notHex
  | case5 c enc opcPos notEnd notHex symbol other ih =>
    rw [bitCount, if_pos symbol] at fits
    · rw [insnExtract, if_pos symbol, if_neg fun same => other same.symm]
      · refine (congrArg (BitVec.getLsbD · k) BitVec.zero_or).trans ?_
        exact ih (by omega) (by omega)
      · exact notEnd
      · exact notHex
    · exact notEnd
    · exact notHex
  | case6 c enc opcPos notEnd notHex plain ih =>
    rw [bitCount, if_neg plain] at fits
    · rw [insnExtract, if_neg plain]
      · exact ih (by omega) small
      · exact notEnd
      · exact notHex
    · exact notEnd
    · exact notHex

/-- The disassembler gathers the bits of the places, the last as the lowest. -/
theorem extractLoop_eq (upper : l.isUpper = true) (insn ret : Word) :
    extractLoop l insn enc opcPos (positions l enc opcPos).length ret = ret + gather insn (positions l enc opcPos).reverse := by
  obtain ⟨notZero, notOne, _, _, _, notLower⟩ := ne_of_isUpper upper
  fun_induction positions l enc opcPos generalizing ret with
  | case1 => simp [extractLoop, gather]
  | case2 => simp [extractLoop, gather]
  | case3 h enc opcPos ih => rw [extractLoop_hex upper, ih]
  | case4 enc opcPos notEnd notHex symbol ih =>
    rw [extractLoop, if_neg (not_or.mpr ⟨notZero, notOne⟩), if_pos rfl, List.length_cons, List.reverse_cons, gather_concat,
      List.length_reverse]
    · simp only [notLower, Bool.false_eq_true, if_false, Nat.add_sub_cancel]
      rw [ih, BitVec.add_assoc]
    · exact notEnd
    · exact notHex
  | case5 c enc opcPos notEnd notHex symbol other ih =>
    by_cases digit : c = '0' ∨ c = '1'
    · have notDigit : l ≠ c := fun same => other same.symm
      rw [extractLoop, if_pos digit, if_neg notDigit, ih]
      · exact notEnd
      · exact notHex
    · have blank : c.isAlpha = true ∨ c = '-' := by tauto
      rw [extractLoop, if_neg digit, if_neg other, if_pos blank, ih]
      · exact notEnd
      · exact notHex
  | case6 c enc opcPos notEnd notHex plain ih =>
    obtain ⟨_, _, _, _, letter, _⟩ := ne_of_isUpper upper
    have digit : ¬ (c = '0' ∨ c = '1') := by tauto
    have other : c ≠ l := fun same => plain (.inr (.inr (.inr (same ▸ letter))))
    have notBlank : ¬ (c.isAlpha = true ∨ c = '-') := by tauto
    rw [extractLoop, if_neg digit, if_neg other, if_neg notBlank, ih]
    · exact notEnd
    · exact notHex

/-- The places of the mask that `insn_extract` makes. -/
theorem places_extract {op : Opcode} (upper : l.isUpper = true) (fits : bitCount op.encoding.toList ≤ 32) :
    places (op.extract l) = (positions l op.encoding.toList 32).reverse := by
  refine places_eq (List.pairwise_reverse.mpr (positions_decreasing fits).1) fun k => ?_
  rw [List.mem_reverse, Opcode.extract, getLsbD_insnExtract upper fits (Nat.le_refl _), decide_eq_true_eq]

end

/-! ### Runs of a mask -/

/-- The places of the runs, one run after the other. -/
def runPlaces (chunks : List (Nat × Nat)) : List Nat := chunks.flatMap fun run => List.range' run.1 run.2

theorem takeWhile_range_spec {p : Nat → Bool} {m k : Nat} (low : k < ((List.range m).takeWhile p).length) : p k = true ∧ k < m := by
  have start := List.takeWhile_prefix (l := List.range m) p
  have inside : k < (List.range m).length := Nat.lt_of_lt_of_le low start.length_le
  have same : ((List.range m).takeWhile p)[k] = (List.range m)[k] := start.getElem low
  rw [List.getElem_range] at same
  refine ⟨?_, by rwa [List.length_range] at inside⟩
  rw [← same]
  exact List.mem_takeWhile_imp (List.getElem_mem low)

theorem runPlaces_runs {fuel : Nat} {arg : Word} (enough : (places arg).length ≤ fuel) : runPlaces (runs fuel arg) = places arg := by
  induction fuel generalizing arg with
  | zero =>
    rw [List.eq_nil_of_length_eq_zero (Nat.le_zero.mp enough)]
    rfl
  | succ fuel ih =>
    cases first : (List.range 32).find? fun k => arg.getLsbD k with
    | none =>
      have noPlace : places arg = [] := by
        refine List.filter_eq_nil_iff.mpr fun k member => ?_
        exact List.find?_eq_none.mp first k member
      rw [runs, first, noPlace]
      rfl
    | some shr =>
      obtain ⟨bit, inside, below⟩ := List.find?_range_eq_some.mp first
      generalize length : ((List.range (32 - shr)).takeWhile fun k => arg.getLsbD (shr + k)).length = mask
      have ones : ∀ k < mask, arg.getLsbD (shr + k) = true ∧ k < 32 - shr := fun k low =>
        takeWhile_range_spec (p := fun k => arg.getLsbD (shr + k)) (length ▸ low)
      have some : 0 < mask := by
        have here : 32 - shr = (31 - shr) + 1 := by
          have := List.mem_range.mp inside
          omega
        rw [← length, here, List.range_succ_eq_map, List.takeWhile_cons_of_pos (a := 0) (p := fun k => arg.getLsbD (shr + k)) bit]
        exact Nat.succ_pos _
      have split : places arg = List.range' shr mask ++ places (arg &&& ~~~FieldTree.ones shr mask) := by
        refine places_run (fun k low => by simpa using below k low) (fun k above low => ?_) fun k => ?_
        · have := (ones (k - shr) (by omega)).1
          rwa [Nat.add_sub_cancel' above] at this
        · rw [BitVec.getLsbD_and, BitVec.getLsbD_not, FieldTree.getLsbD_ones]
          by_cases small : k < 32
          · simp only [small, decide_true, Bool.true_and, Bool.decide_and]
          · rw [BitVec.getLsbD_of_ge arg k (by omega)]
            rfl
      have fewer : (places (arg &&& ~~~FieldTree.ones shr mask)).length ≤ fuel := by
        rw [split, List.length_append, List.length_range'] at enough
        omega
      rw [runs, first]
      simp only [length]
      rw [split, ← ih fewer]
      rfl

theorem fst_lt_of_mem_runs {fuel : Nat} {arg : Word} {run : Nat × Nat} (member : run ∈ runs fuel arg) : run.1 < 32 := by
  induction fuel generalizing arg with
  | zero => cases member
  | succ fuel ih =>
    cases first : (List.range 32).find? fun k => arg.getLsbD k with
    | none =>
      rw [runs, first] at member
      cases member
    | some shr =>
      rw [runs, first] at member
      rcases List.mem_cons.mp member with rfl | later
      · exact List.mem_range.mp (List.mem_of_find?_eq_some first)
      · exact ih later

end Or1ksim.Decode
