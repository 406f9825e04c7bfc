import Or1ksim.Decode.Groups
import Or1ksim.Lib.Ascii

/-!
# Operands as they are printed

What `eval_operand_val` computes from the descriptors of an entry is what the disassembler prints:
`or1ksim_or32_extract` on the encoding, extended by `or1ksim_extend_imm` for an immediate.
-/

namespace Or1ksim.Decode

open Gather (gather getLsbD_gather getLsbD_gather_of_le places mem_places)

/-! ### Argument strings -/

/-- An argument string as `parse_params` expects it, from the start of an operand or behind one. -/
def wellFormed : Bool → List Char → Bool
  | true, [] => true
  | true, ',' :: args => wellFormed false args
  | true, '(' :: args => wellFormed false args
  | true, ')' :: args => wellFormed true args
  | false, 'r' :: c :: args => c.isUpper && wellFormed true args
  | false, c :: args => c.isUpper && wellFormed true args
  | _, _ => false

/-- The descriptors of an operand: one for each run of its mask. -/
def OperandGroup (op : Opcode) (o : ArgOperand) (group : List InsnOp) : Prop :=
  ClosedGroup (signOf o.letter (op.extract o.letter)) (runs 32 (op.extract o.letter)) group

section
variable {op : Opcode}

theorem numOnes_le (value : Word) : (places value).length ≤ 32 :=
  (List.length_filter_le _ _).trans (List.length_range.le)

theorem runs_ne_nil {arg : Word} (some : arg ≠ 0) : runs 32 arg ≠ [] := by
  intro none
  have all : places arg = [] := by
    rw [← runPlaces_runs (numOnes_le _), none]
    rfl
  refine some (BitVec.eq_of_getLsbD_eq fun k _ => ?_)
  show arg.getLsbD k = (0#32).getLsbD k
  rw [BitVec.getLsbD_zero, ← Bool.not_eq_true, ← mem_places, all]
  exact List.not_mem_nil

theorem parseArgs_letter {c : Char} (upper : c.isUpper = true) (args : List Char) (type : Word) (num : Nat) (done : List InsnOp) :
    parseArgs op (c :: args) type num done =
      parseArgs op args (type ||| signOf c (op.extract c)) (runs 32 (op.extract c)).length
        (((runs 32 (op.extract c)).map fun run => ⟨type ||| signOf c (op.extract c) ||| BitVec.ofNat 32 run.1,
          run.2⟩).reverse ++ done) := by
  obtain ⟨_, _, _, _, letter, _⟩ := ne_of_isUpper upper
  have other : ∀ d : Char, d.isUpper = false → c ≠ d := by
    rintro d small rfl
    exact absurd upper (by rw [small]; exact Bool.false_ne_true)
  rw [parseArgs, if_pos letter]
  · rfl
  · exact other 'r' (by decide)
  · exact other '(' (by decide)
  · exact other ',' (by decide)
  · exact other '0' (by decide)
  · exact other ')' (by decide)

/-- What the loop makes of an argument string: from the start of an operand, or with the open group of
the last one on top. -/
def Parses (op : Opcode) : Bool → List Char → Prop
  | false, args => ∀ type num earlier, Pending 0 type →
      ∃ groups, parseArgs op args type num earlier = some (earlier.reverse ++ groups.flatten) ∧
        List.Forall₂ (OperandGroup op) (argOperands args) groups
  | true, args => ∀ type sign chunks group earlier, Pending sign type → OpenGroup sign chunks group → group ≠ [] →
      ∃ closed groups, parseArgs op args type group.length (group.reverse ++ earlier) =
        some (earlier.reverse ++ closed ++ groups.flatten) ∧
        ClosedGroup sign chunks closed ∧ List.Forall₂ (OperandGroup op) (argOperands args) groups

theorem addFlags_group (flags : Word) (group earlier : List InsnOp) :
    addFlags group.length flags (group.reverse ++ earlier) = (group.map (InsnOp.mark flags)).reverse ++ earlier := by
  have size : group.length = group.reverse.length := List.length_reverse.symm
  rw [addFlags, size, List.take_left, List.drop_left, List.map_reverse]
  rfl

theorem isEmpty_group {group : List InsnOp} (some : group ≠ []) (earlier : List InsnOp) :
    (group.reverse ++ earlier).isEmpty = false := by
  rw [List.isEmpty_eq_false_iff]
  simp [some]

/-- The letter of an operand, and its group behind it. -/
theorem Parses.letter {c : Char} {args : List Char} (upper : c.isUpper = true) (some : op.extract c ≠ 0) (isReg : Bool)
    (behind : Parses op true args) {type : Word} (num : Nat) (earlier : List InsnOp) (pending : Pending 0 type) :
    ∃ groups, parseArgs op (c :: args) type num earlier = Option.some (earlier.reverse ++ groups.flatten) ∧
      List.Forall₂ (OperandGroup op) (⟨isReg, c⟩ :: argOperands args) groups := by
  have signed := pending.signed c (op.extract c)
  have made := OpenGroup.made signed fun run (member : run ∈ runs 32 (op.extract c)) => fst_lt_of_mem_runs member
  have nonempty := runs_ne_nil some
  obtain ⟨closed, groups, run, group, rest⟩ := behind _ _ _ _ earlier signed made (by simpa using nonempty)
  refine ⟨closed :: groups, ?_, .cons group rest⟩
  rw [parseArgs_letter upper, ← List.length_map, run, List.flatten_cons, List.append_assoc]

theorem parses {after : Bool} {args : List Char} (grammar : wellFormed after args = true)
    (some : ∀ o ∈ argOperands args, op.extract o.letter ≠ 0) : Parses op after args := by
  fun_induction wellFormed after args with
  | case1 =>
    intro type sign chunks group earlier pending opened nonempty
    have mark : Mark sign (type ||| optypeOp ||| optypeLast) true :=
      (pending.mark.or (by decide) rfl (by decide)).or (by decide) rfl (by decide)
    obtain ⟨closed, ends, run⟩ := opened.close nonempty mark earlier
    refine ⟨closed, [], ?_, ends, .nil⟩
    rw [parseArgs, isEmpty_group nonempty, run]
    simp
  | case2 args ih =>
    intro type sign chunks group earlier pending opened nonempty
    have mark : Mark sign (type ||| optypeOp) true := pending.mark.or (by decide) rfl (by decide)
    obtain ⟨closed, ends, run⟩ := opened.close nonempty mark earlier
    obtain ⟨groups, rest, described⟩ := ih grammar some 0 group.length (closed.reverse ++ earlier) ⟨rfl, rfl, rfl⟩
    refine ⟨closed, groups, ?_, ends, described⟩
    rw [parseArgs, isEmpty_group nonempty, run]
    simpa using rest
  | case3 args ih =>
    intro type sign chunks group earlier pending opened nonempty
    have displaced : Mark sign (type ||| optypeDis) false := pending.mark.or (by decide) rfl (by decide)
    have mark : Mark sign optypeOp true := ⟨by decide, by decide, .inl (by decide)⟩
    obtain ⟨closed, ends, run⟩ := (opened.marks displaced).close (by simpa using nonempty) mark earlier
    obtain ⟨groups, rest, described⟩ := ih grammar some 0 0 (closed.reverse ++ earlier) ⟨rfl, rfl, rfl⟩
    refine ⟨closed, groups, ?_, ends, described⟩
    rw [parseArgs, isEmpty_group nonempty, addFlags_group, run]
    simpa using rest
  | case4 args ih =>
    intro type sign chunks group earlier pending opened nonempty
    rw [parseArgs]
    exact ih grammar some type sign chunks group earlier pending opened nonempty
  | case5 c args ih =>
    intro type num earlier pending
    rw [Bool.and_eq_true] at grammar
    have here := some ⟨true, c⟩ (by rw [argOperands]; exact List.mem_cons_self)
    have behind := ih grammar.2 fun o later => some o (by rw [argOperands]; exact .tail _ later)
    rw [parseArgs, argOperands]
    exact Parses.letter grammar.1 here true behind num earlier (pending.reg _)
  | case6 c args other ih =>
    intro type num earlier pending
    rw [Bool.and_eq_true] at grammar
    obtain ⟨_, _, _, notReg, letter, _⟩ := ne_of_isUpper grammar.1
    have operands : argOperands (c :: args) = ⟨false, c⟩ :: argOperands args := by
      rw [argOperands, if_pos letter]
      exact other
    rw [operands] at some ⊢
    exact Parses.letter grammar.1 (some _ List.mem_cons_self) false
      (ih grammar.2 fun o later => some o (.tail _ later)) num earlier pending
  | case7 => exact absurd grammar Bool.false_ne_true

/-- An entry whose argument string and encoding the two readers understand alike, `args` and `encoding`
being their characters. -/
structure Regular (letterBits : Char → Nat) (args encoding : List Char) : Prop where
  grammar : args = [] ∨ wellFormed false args = true
  width : bitCount encoding ≤ 32
  letters : ∀ o ∈ argOperands args, o.letter.isUpper = true ∧ positions o.letter encoding 32 ≠ [] ∧
    paramCount o.letter none none encoding = (positions o.letter encoding 32).length ∧
    (if o.isReg then letterSigned o.letter = false
      else if letterSigned o.letter then (positions o.letter encoding 32).length = letterBits o.letter
      else (positions o.letter encoding 32).length ≤ letterBits o.letter)
  immediates : ∀ o ∈ argOperands args, o.isReg = false → o.letter = 'N' ∨ o.letter = 'K' ∨ o.letter = 'I' ∨ o.letter = 'L'

instance (letterBits : Char → Nat) (args encoding : List Char) : Decidable (Regular letterBits args encoding) :=
  decidable_of_iff (_ ∧ _ ∧ _ ∧ _) ⟨fun ⟨grammar, width, letters, immediates⟩ => ⟨grammar, width, letters, immediates⟩,
    fun regular => ⟨regular.grammar, regular.width, regular.letters, regular.immediates⟩⟩

/-- Every letter of the argument string stands in the encoding. -/
theorem Regular.extract_ne_zero {letterBits : Char → Nat} {op : Opcode}
    (regular : Regular letterBits op.args.toList op.encoding.toList) :
    ∀ o ∈ argOperands op.args.toList, op.extract o.letter ≠ 0 := by
  intro o operand none
  obtain ⟨upper, some, _⟩ := regular.letters o operand
  have field := places_extract upper regular.width
  rw [none] at field
  exact some (List.reverse_eq_nil_iff.mp (field.symm.trans (by decide)))

/-! ### Extension -/

/-- The sign bit that is stored for a field of some bits. -/
theorem sbit_signed {bits : Nat} (positive : 0 < bits) (small : bits ≤ 32) :
    (((optypeSig ||| (((BitVec.ofNat 32 bits - 1) <<< optypeSbitShr) &&& optypeSbit)) &&& optypeSbit) >>> optypeSbitShr).toNat =
      bits - 1 := by
  have all : ∀ bits < 33, 0 < bits →
      (((optypeSig ||| (((BitVec.ofNat 32 bits - 1) <<< optypeSbitShr) &&& optypeSbit)) &&& optypeSbit) >>> optypeSbitShr).toNat =
        bits - 1 := by
    decide
  exact all bits (Nat.lt_succ_of_le small) positive

variable {opd : InsnOp} {letter : Char} {arg : Word}

theorem has_sig (sign : opd.type &&& signField = signOf letter arg) : opd.has optypeSig = letterSigned letter := by
  have inside : optypeSig = signField &&& optypeSig := by decide
  have same : opd.type &&& optypeSig = signOf letter arg &&& optypeSig := by
    rw [inside, ← BitVec.and_assoc, sign, ← inside]
  unfold InsnOp.has
  rw [same, signOf]
  cases letterSigned letter with
  | false =>
    rw [if_neg Bool.false_ne_true]
    rfl
  | true =>
    rw [if_pos rfl, BitVec.and_or_distrib_right, BitVec.and_assoc]
    have off : optypeSbit &&& optypeSig = 0#32 := by decide
    rw [off, BitVec.and_zero, BitVec.or_zero, BitVec.and_self]
    rfl

theorem sbit_eq (sign : opd.type &&& signField = signOf letter arg) (signed : letterSigned letter = true) (some : 0 < numOnes arg) :
    opd.sbit = numOnes arg - 1 := by
  have inside : optypeSbit = signField &&& optypeSbit := by decide
  have same : opd.type &&& optypeSbit = signOf letter arg &&& optypeSbit := by
    rw [inside, ← BitVec.and_assoc, sign, ← inside]
  unfold InsnOp.sbit
  rw [same, signOf, if_pos signed]
  exact sbit_signed some (numOnes_le arg)

theorem and_bit_ne_zero_iff {w : Word} {k : Nat} : w &&& BitVec.ofNat 32 (1 <<< k) ≠ 0 ↔ w.getLsbD k = true := by
  have one : ∀ j, (w &&& BitVec.ofNat 32 (1 <<< k)).getLsbD j = (w.getLsbD j && decide (j = k)) := fun j => by
    rw [BitVec.getLsbD_and, BitVec.getLsbD_ofNat, Nat.one_shiftLeft, Nat.testBit_two_pow]
    by_cases inside : j < 32
    · simp only [inside, decide_true, Bool.true_and, eq_comm]
    · rw [BitVec.getLsbD_of_ge w j (by omega)]
      rfl
  constructor
  · intro some
    by_contra clear
    refine some (BitVec.eq_of_getLsbD_eq fun j _ => ?_)
    rw [one]
    by_cases here : j = k
    · rw [here, Bool.eq_false_of_not_eq_true clear]
      exact BitVec.getLsbD_zero.symm
    · rw [decide_eq_false here, Bool.and_false]
      exact BitVec.getLsbD_zero.symm
  · intro bit none
    have clear := one k
    rw [none, bit, decide_eq_true rfl] at clear
    exact absurd (BitVec.getLsbD_zero.symm.trans clear) Bool.false_ne_true

/-- The top bit of a field of some bits is all that a shift leaves. -/
theorem shiftRight_ne_zero_iff {w : Word} {bits : Nat} (small : ∀ k, bits ≤ k → w.getLsbD k = false) :
    w >>> (bits - 1) ≠ 0 ↔ w.getLsbD (bits - 1) = true := by
  constructor
  · intro some
    by_contra clear
    refine some (BitVec.eq_of_getLsbD_eq fun j _ => ?_)
    rw [BitVec.getLsbD_ushiftRight]
    refine Eq.trans ?_ BitVec.getLsbD_zero.symm
    cases j with
    | zero => exact Bool.eq_false_of_not_eq_true clear
    | succ j => exact small _ (by omega)
  · intro bit none
    have clear : (w >>> (bits - 1)).getLsbD 0 = true := by
      rw [BitVec.getLsbD_ushiftRight]
      exact bit
    rw [none] at clear
    exact absurd (BitVec.getLsbD_zero.symm.trans clear) Bool.false_ne_true

theorem extendImm_eq {opcodes : List Opcode} {imm : Word} {letterBits : Nat} (range : letterRange opcodes letter = some letterBits)
    (small : ∀ k, letterBits ≤ k → imm.getLsbD k = false) :
    or1ksimExtendImm opcodes imm letter =
      some (if letterSigned letter = true ∧ imm.getLsbD (letterBits - 1) = true then imm ||| ~~~ BitVec.ofNat 32 (2 ^ letterBits - 1)
        else imm) := by
  have mask : BitVec.ofNat 32 (1 <<< letterBits) - 1#32 = BitVec.ofNat 32 (2 ^ letterBits - 1) := by
    rw [Nat.one_shiftLeft]
    exact (Nat.cast_pred (R := Word) (Nat.two_pow_pos letterBits)).symm
  have kept : imm &&& BitVec.ofNat 32 (2 ^ letterBits - 1) = imm := by
    refine BitVec.eq_of_getLsbD_eq fun k inside => ?_
    rw [BitVec.getLsbD_and, BitVec.getLsbD_ofNat, Nat.testBit_two_pow_sub_one, decide_eq_true inside, Bool.true_and]
    by_cases field : k < letterBits
    · rw [decide_eq_true field, Bool.and_true]
    · rw [small k (by omega), Bool.false_and]
  rw [or1ksimExtendImm, range, Option.map_some]
  refine congrArg some ?_
  show (if letterSigned letter && decide ((imm &&& (BitVec.ofNat 32 (1 <<< letterBits) - 1#32)) >>> (letterBits - 1) ≠ 0) then
    (imm &&& (BitVec.ofNat 32 (1 <<< letterBits) - 1#32)) ||| ~~~(BitVec.ofNat 32 (1 <<< letterBits) - 1#32)
    else imm &&& (BitVec.ofNat 32 (1 <<< letterBits) - 1#32)) = _
  rw [mask, kept]
  refine if_congr ?_ rfl rfl
  rw [Bool.and_eq_true, decide_eq_true_eq, shiftRight_ne_zero_iff small]

/-- Ones above the top bit of a field, or from it on where it is set. -/
theorem signExtension_eq {w : Word} {bits : Nat} (some : 0 < bits) (top : w.getLsbD (bits - 1) = true) :
    w ||| (BitVec.allOnes 32 <<< (bits - 1)) = w ||| ~~~BitVec.ofNat 32 (2 ^ bits - 1) := by
  refine BitVec.eq_of_getLsbD_eq fun k inside => ?_
  rw [BitVec.getLsbD_or, BitVec.getLsbD_or, BitVec.getLsbD_shiftLeft, BitVec.getLsbD_not, BitVec.getLsbD_ofNat,
    Nat.testBit_two_pow_sub_one,
    decide_eq_true inside, BitVec.getLsbD_allOnes]
  by_cases here : k = bits - 1
  · rw [here, top, Bool.true_or, Bool.true_or]
  · by_cases field : k < bits
    · simp [field, show k < bits - 1 by omega]
    · have low : ¬ k < bits - 1 := by omega
      have far : k - (bits - 1) < 32 := by omega
      simp [field, low, far]

/-- The extension from the stored sign bit is the one from the letter's width. -/
theorem extend_eq {opcodes : List Opcode} {letterBits : Nat} (sign : opd.type &&& signField = signOf letter arg)
    (range : letterRange opcodes letter = some letterBits) (some : 0 < numOnes arg) (fits : numOnes arg ≤ letterBits)
    (exact' : letterSigned letter = true → numOnes arg = letterBits) (insn : Word) :
    or1ksimExtendImm opcodes (gather insn (places arg)) letter = Option.some (opd.extend (gather insn (places arg))) := by
  have small : ∀ k, letterBits ≤ k → (gather insn (places arg)).getLsbD k = false := fun k above =>
    getLsbD_gather_of_le insn _ (Nat.le_trans fits above)
  rw [extendImm_eq range small]
  refine congrArg Option.some ?_
  unfold InsnOp.extend
  rw [has_sig sign]
  cases signed : letterSigned letter with
  | false => rw [if_neg (by simp), if_neg (by simp)]
  | true =>
    have width := exact' signed
    rw [sbit_eq sign signed some, width]
    by_cases top : (gather insn (places arg)).getLsbD (letterBits - 1) = true
    · rw [if_pos ⟨rfl, top⟩, if_pos ⟨rfl, and_bit_ne_zero_iff.mpr top⟩, signExtension_eq (width ▸ some) top]
    · rw [if_neg fun both => top both.2, if_neg fun both => top (and_bit_ne_zero_iff.mp both.2)]

/-! ### Entries -/

theorem printedVal_eq {opcodes : List Opcode} {letterBits : Char → Nat} {o : ArgOperand} {group : List InsnOp}
    (regular : Regular letterBits op.args.toList op.encoding.toList) (member : o ∈ argOperands op.args.toList)
    (range : o.isReg = false → letterRange opcodes o.letter = some (letterBits o.letter))
    (operand : OperandGroup op o group) (insn : Word)
    (rest : List InsnOp) : evalOperandVal insn (group ++ rest) = op.printedVal opcodes o insn := by
  obtain ⟨upper, some, count, widths⟩ := regular.letters o member
  have field := places_extract upper regular.width
  have bits : numOnes (op.extract o.letter) = (positions o.letter op.encoding.toList 32).length := by
    have length := congrArg List.length field
    rwa [List.length_reverse] at length
  have gathered : or1ksimOr32Extract o.letter op.encoding.toList insn = gather insn (places (op.extract o.letter)) := by
    rw [or1ksimOr32Extract, count, extractLoop_eq upper, ← field]
    exact BitVec.zero_add _
  obtain ⟨opd, sign, value⟩ := operand.evalOperandVal insn rest
  rw [value, runPlaces_runs (numOnes_le _), Opcode.printedVal]
  simp only [gathered]
  have positive : 0 < numOnes (op.extract o.letter) := by
    rw [bits]
    exact List.length_pos_iff.mpr some
  cases reg : o.isReg with
  | true =>
    rw [reg, if_pos rfl] at widths
    rw [if_pos rfl]
    refine congrArg Option.some ?_
    unfold InsnOp.extend
    rw [has_sig sign, widths, if_neg (by simp)]
  | false =>
    rw [reg, if_neg Bool.false_ne_true] at widths
    rw [if_neg Bool.false_ne_true]
    refine (extend_eq sign (range reg) positive ?_ ?_ insn).symm
    · rw [bits]
      split at widths
      · exact Nat.le_of_eq widths
      · exact widths
    · intro signed
      rwa [bits, ← if_pos (c := letterSigned o.letter = true) (t := _ = letterBits o.letter) signed]

end

/-! ### The table -/

/-- The widths of the letters of immediates. -/
def letterBits (l : Char) : Nat :=
  if l = 'N' then 26 else if l = 'K' ∨ l = 'I' then 16 else 6

/-- `Regular` of the bytes of an entry. -/
def Opcode.Checked (op : Opcode) : Prop :=
  Ascii.IsAscii op.args ∧ Ascii.IsAscii op.encoding ∧ Regular letterBits (Ascii.chars op.args) (Ascii.chars op.encoding)

instance (op : Opcode) : Decidable op.Checked := inferInstanceAs (Decidable (_ ∧ _ ∧ _))

theorem or1ksimOr32Opcodes_checked (xori : Bool) : ∀ op ∈ or1ksimOr32Opcodes xori, op.Checked := by
  cases xori with
  | false => decide +kernel
  | true => decide +kernel

theorem or1ksimOr32Opcodes_regular {xori : Bool} {op : Opcode} (member : op ∈ or1ksimOr32Opcodes xori) :
    Regular letterBits op.args.toList op.encoding.toList := by
  obtain ⟨args, encoding, regular⟩ := or1ksimOr32Opcodes_checked xori op member
  rwa [Ascii.toList_eq_chars args, Ascii.toList_eq_chars encoding]

theorem find?_congr_mem {α : Type} {p q : α → Bool} {l : List α} (same : ∀ a ∈ l, p a = q a) : l.find? p = l.find? q := by
  induction l with
  | nil => rfl
  | cons a l ih =>
    rw [List.find?_cons, List.find?_cons, same a List.mem_cons_self, ih fun b later => same b (.tail _ later)]

theorem letterRange_eq_chars (xori : Bool) (l : Char) : letterRange (or1ksimOr32Opcodes xori) l =
    ((or1ksimOr32Opcodes xori).find? fun op => (Ascii.chars op.encoding).elem l).map fun op =>
      letterCount l (Ascii.chars op.encoding) := by
  have same : ∀ op ∈ or1ksimOr32Opcodes xori, op.encoding.toList = Ascii.chars op.encoding := fun op member =>
    Ascii.toList_eq_chars (or1ksimOr32Opcodes_checked xori op member).2.1
  have found : (or1ksimOr32Opcodes xori).find? (fun op => decide (l ∈ op.encoding.toList)) =
      (or1ksimOr32Opcodes xori).find? fun op => (Ascii.chars op.encoding).elem l :=
    find?_congr_mem fun op member => by rw [same op member, List.elem_eq_mem]
  rw [letterRange, found]
  cases first : (or1ksimOr32Opcodes xori).find? fun op => (Ascii.chars op.encoding).elem l with
  | none => rfl
  | some op =>
    rw [Option.map_some, Option.map_some, same op (List.mem_of_find?_eq_some first)]

theorem letterRange_letterBits (xori : Bool) {l : Char} (immediate : l = 'N' ∨ l = 'K' ∨ l = 'I' ∨ l = 'L') :
    letterRange (or1ksimOr32Opcodes xori) l = some (letterBits l) := by
  rw [letterRange_eq_chars]
  rcases immediate with rfl | rfl | rfl | rfl
  · show _ = some 26
    cases xori <;> decide +kernel
  · show _ = some 16
    cases xori <;> decide +kernel
  · show _ = some 16
    cases xori <;> decide +kernel
  · show _ = some 6
    cases xori <;> decide +kernel

theorem behindOperand_iterate {ops : List ArgOperand} {groups : List (List InsnOp)} {op : Opcode}
    (described : List.Forall₂ (OperandGroup op) ops groups) {k : Nat} {o : ArgOperand} (here : ops[k]? = some o) :
    ∃ group rest, OperandGroup op o group ∧ behindOperand^[k] groups.flatten = group ++ rest := by
  induction described generalizing k with
  | nil => cases here
  | @cons first group ops groups operand _ ih =>
    cases k with
    | zero =>
      cases here
      exact ⟨group, groups.flatten, operand, rfl⟩
    | succ k =>
      obtain ⟨later, rest, operand', same⟩ := ih here
      refine ⟨later, rest, operand', ?_⟩
      rw [Function.iterate_succ_apply, List.flatten_cons, operand.behindOperand, same]

/-- For every entry, every operand of its argument string and every word, the descriptors that
`parse_params` makes give the value that the disassembler prints. -/
theorem evalOperandVal_printedVal {xori : Bool} {op : Opcode} (member : op ∈ or1ksimOr32Opcodes xori) :
    ∃ opds, parseParams op = some opds ∧ ∀ k o, (argOperands op.args.toList)[k]? = some o → ∀ insn,
      ∃ value, evalOperandVal insn (behindOperand^[k] opds) = some value ∧
        op.printedVal (or1ksimOr32Opcodes xori) o insn = some value := by
  have regular := or1ksimOr32Opcodes_regular member
  rcases regular.grammar with noArgs | grammar
  · have empty : op.args.isEmpty = true := by
      rw [String.isEmpty_iff, ← String.toList_eq_nil_iff]
      exact noArgs
    refine ⟨_, by rw [parseParams, if_pos empty], fun k o here => ?_⟩
    rw [noArgs] at here
    cases here
  · have full : ¬ op.args.isEmpty = true := fun empty => by
      rw [String.isEmpty_iff, ← String.toList_eq_nil_iff] at empty
      rw [empty] at grammar
      exact Bool.false_ne_true grammar
    obtain ⟨groups, parsed, described⟩ := parses grammar regular.extract_ne_zero 0 0 [] ⟨rfl, rfl, rfl⟩
    refine ⟨groups.flatten, by rw [parseParams, if_neg full]; exact parsed, fun k o here insn => ?_⟩
    have operand := List.mem_of_getElem? here
    obtain ⟨group, rest, operandGroup, same⟩ := behindOperand_iterate described here
    obtain ⟨opd, _, value⟩ := operandGroup.evalOperandVal insn rest
    have printed := printedVal_eq regular operand (fun reg => letterRange_letterBits xori (regular.immediates o operand reg))
      operandGroup insn rest
    rw [same]
    exact ⟨_, value, printed.symm.trans value⟩

/-- The immediate of a store stands in two fields, above the registers and below them. -/
theorem evalOperandVal_printedVal_sw :
    let sw : Opcode := ⟨"l.sw", "I(rA),rB", "11 0x5  IIIII AAAAA BBBB BIII IIII IIII", "l_sw"⟩
    ∃ opds, parseParams sw = some opds ∧ ∀ insn, ∃ value,
      evalOperandVal insn opds = some value ∧ sw.printedVal (or1ksimOr32Opcodes true) ⟨false, 'I'⟩ insn = some value := by
  intro sw
  have member : sw ∈ or1ksimOr32Opcodes true := List.mem_of_getElem? (i := 175) rfl
  obtain ⟨opds, parsed, agree⟩ := evalOperandVal_printedVal member
  have first : (argOperands "I(rA),rB".toList)[0]? = some ⟨false, 'I'⟩ := by decide +kernel
  exact ⟨opds, parsed, agree 0 ⟨false, 'I'⟩ first⟩

end Or1ksim.Decode
