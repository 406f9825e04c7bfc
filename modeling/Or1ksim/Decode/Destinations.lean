import Or1ksim.Decode.Agreement
import Or1ksim.Decode.Generate

/-!
# Destinations

Which entries of the table have a destination register, as `parse_params` and `gen_eval_operands` see it: those whose argument
string starts with `rD`.
-/

namespace Or1ksim.Decode

/-! ### The statements for a destination -/

/-- A descriptor that does not end its operand. -/
def InsnOp.Continues (opd : InsnOp) : Prop := opd.has optypeOp = false ∧ opd.has optypeLast = false

/-- The last descriptor of a destination register. -/
structure InsnOp.Destination (opd : InsnOp) : Prop where
  op : opd.has optypeOp = true
  direct : opd.has optypeDis = false
  reg : opd.has optypeReg = true
  dst : opd.has optypeDst = true

theorem genLoop_destination {opds rest : List InsnOp} {opd : InsnOp} (continues : ∀ o ∈ opds, o.Continues)
    (destination : opd.Destination)
    (i nbits var : Nat) : .defineParam var true true ∈ genLoop (opds ++ opd :: rest) i nbits var false := by
  induction opds generalizing i nbits with
  | nil =>
    rw [List.nil_append, genLoop_direct i destination.op destination.direct]
    have defined : .defineParam var true true ∈ genDefine var i false opd := by
      rw [genDefine, destination.reg, destination.dst]
      exact List.mem_append_right _ List.mem_cons_self
    simp [defined]
  | cons o opds ih =>
    obtain ⟨op, last⟩ := continues o List.mem_cons_self
    rw [List.cons_append, genLoop_open i op last]
    exact .tail _ (ih (fun o later => continues o (.tail _ later)) _ _)

theorem writeToReg_destination {opds rest : List InsnOp} {opd : InsnOp} (continues : ∀ o ∈ opds, o.Continues)
    (destination : opd.Destination) :
    writeToReg (opds ++ opd :: rest) = true :=
  List.any_eq_true.mpr ⟨_, genLoop_destination continues destination 0 0 0, rfl⟩

/-! ### The descriptors of a destination -/

/-- The type of `rD` before the first of its descriptors. -/
def destinationType : Word := optypeReg ||| optypeDst

def destinationOp (run : Nat × Nat) : InsnOp := ⟨destinationType ||| BitVec.ofNat 32 run.1, run.2⟩

theorem destinationOp_continues {run : Nat × Nat} (inside : run.1 < 32) : (destinationOp run).Continues := by
  have all : ∀ start < 32, (destinationType ||| BitVec.ofNat 32 start) &&& optypeOp = 0 ∧
      (destinationType ||| BitVec.ofNat 32 start) &&& optypeLast = 0 := by decide
  obtain ⟨op, last⟩ := all run.1 inside
  exact ⟨decide_eq_false (not_not.mpr op), decide_eq_false (not_not.mpr last)⟩

theorem destinationOp_ends {run : Nat × Nat} (inside : run.1 < 32) {flags : Word} (op : flags &&& optypeOp ≠ 0)
    (direct : flags &&& optypeDis = 0) :
    ((destinationOp run).mark flags).Destination := by
  have all : ∀ start < 32, (destinationType ||| BitVec.ofNat 32 start) &&& optypeDis = 0 ∧
      (destinationType ||| BitVec.ofNat 32 start) &&& optypeReg ≠ 0 ∧ (destinationType ||| BitVec.ofNat 32 start) &&& optypeDst ≠ 0 :=
        by decide
  obtain ⟨dis, reg, dst⟩ := all run.1 inside
  have marked (flag : Word) : ((destinationOp run).mark flags).has flag =
      (decide ((destinationType ||| BitVec.ofNat 32 run.1) &&& flag ≠ 0) || decide (flags &&& flag ≠ 0)) := by
    rw [← Bool.decide_or]
    refine decide_eq_decide.mpr ?_
    show ((destinationType ||| BitVec.ofNat 32 run.1) ||| flags) &&& flag ≠ 0 ↔ _
    rw [BitVec.and_or_distrib_right]
    exact or_ne_zero_iff
  refine ⟨?_, ?_, ?_, ?_⟩
  · rw [marked, decide_eq_true op, Bool.or_true]
  · rw [marked, decide_eq_false (not_not.mpr dis), decide_eq_false (not_not.mpr direct), Bool.or_false]
  · rw [marked, decide_eq_true reg, Bool.true_or]
  · rw [marked, decide_eq_true dst, Bool.true_or]

/-- The argument string starts with a destination register, which is no part of a displacement. -/
def LeadsWithDestination (args : List Char) : Prop := args = ['r', 'D'] ∨ args.take 3 = ['r', 'D', ',']

instance (args : List Char) : Decidable (LeadsWithDestination args) := inferInstanceAs (Decidable (_ ∨ _))

variable {op : Opcode}

theorem parseArgs_destination (rest : List Char) : parseArgs op ('r' :: 'D' :: rest) 0 0 [] =
    parseArgs op rest destinationType (runs 32 (op.extract 'D')).length ((runs 32 (op.extract 'D')).map destinationOp).reverse := by
  have type : (0 ||| optypeReg ||| if ('D' :: rest).head? = some 'D' then optypeDst else 0) ||| signOf 'D' (op.extract 'D') =
      destinationType := by
    have unsigned : signOf 'D' (op.extract 'D') = 0 := if_neg (by decide)
    have leads : ('D' :: rest).head? = some 'D' := rfl
    rw [unsigned, if_pos leads]
    decide
  rw [parseArgs, parseArgs_letter (by decide), List.append_nil, type]
  rfl

theorem addFlags_destination {chunks : List (Nat × Nat)} (some : chunks ≠ []) (flags : Word) : ∃ before run, chunks = before ++ [run] ∧
    addFlags 1 flags (chunks.map destinationOp).reverse = (before.map destinationOp ++ [(destinationOp run).mark flags]).reverse := by
  obtain ⟨before, run, rfl⟩ := (List.eq_nil_or_concat' chunks).resolve_left some
  refine ⟨before, run, rfl, ?_⟩
  simp [addFlags, InsnOp.mark]

/-- An entry that starts with a destination register has one, whatever follows. -/
theorem writeToReg_of_leads {letterBits : Char → Nat} (regular : Regular letterBits op.args.toList op.encoding.toList)
    (leads : LeadsWithDestination op.args.toList) {opds : List InsnOp} (parsed : parseParams op = some opds) :
      writeToReg opds = true := by
  have grammar : wellFormed false op.args.toList = true := regular.grammar.resolve_left fun none => by
    rw [none] at leads
    exact absurd leads (by decide)
  have letters := regular.extract_ne_zero
  have full : ¬ op.args.isEmpty = true := fun empty => by
    rw [String.isEmpty_iff, ← String.toList_eq_nil_iff] at empty
    rw [empty] at grammar
    exact Bool.false_ne_true grammar
  rw [parseParams, if_neg full] at parsed
  generalize op.args.toList = args at leads grammar letters parsed
  have ends {flags : Word} (op' : flags &&& optypeOp ≠ 0) (direct : flags &&& optypeDis = 0) {before : List (Nat × Nat)}
    {run : Nat × Nat}
      (chunks : runs 32 (op.extract 'D') = before ++ [run]) (rest : List InsnOp) :
      writeToReg (before.map destinationOp ++ (destinationOp run).mark flags :: rest) = true := by
    have inside : ∀ r ∈ before ++ [run], r.1 < 32 := fun r member => fst_lt_of_mem_runs (chunks ▸ member)
    refine writeToReg_destination (fun o member => ?_) (destinationOp_ends (inside run (by simp)) op' direct)
    obtain ⟨r, earlier, rfl⟩ := List.mem_map.mp member
    exact destinationOp_continues (inside r (List.mem_append_left _ earlier))
  rcases leads with rfl | leads
  · have some := runs_ne_nil (letters ⟨true, 'D'⟩ (by decide))
    obtain ⟨before, run, chunks, marked⟩ := addFlags_destination some (destinationType ||| optypeOp ||| optypeLast)
    rw [parseArgs_destination, parseArgs, marked, if_neg (by simpa using some), List.reverse_reverse] at parsed
    obtain rfl := Option.some.inj parsed
    exact ends (by decide) (by decide) chunks []
  · obtain ⟨more, rfl⟩ : ∃ more, args = 'r' :: 'D' :: ',' :: more := by
      have split := List.take_append_drop 3 args
      rw [leads] at split
      exact ⟨args.drop 3, split.symm⟩
    have some := runs_ne_nil (letters ⟨true, 'D'⟩ (by rw [argOperands]; exact List.mem_cons_self))
    obtain ⟨before, run, chunks, marked⟩ := addFlags_destination some (destinationType ||| optypeOp)
    have grammar' : wellFormed false more = true := by
      rw [wellFormed, wellFormed, Bool.and_eq_true] at grammar
      exact grammar.2
    have behind : Parses op false more := parses grammar' fun o later => letters o (by
      rw [argOperands, argOperands, if_neg (by decide)]
      · exact .tail _ later
      · exact fun _ _ comma => absurd comma (by decide))
    obtain ⟨groups, rest, -⟩ := behind 0 (runs 32 (op.extract 'D')).length
      (before.map destinationOp ++ [(destinationOp run).mark (destinationType ||| optypeOp)]).reverse ⟨rfl, rfl, rfl⟩
    rw [parseArgs_destination, parseArgs, marked, if_neg (by simpa using some), rest, List.reverse_reverse] at parsed
    obtain rfl := Option.some.inj parsed
    rw [List.append_assoc]
    exact ends (by decide) (by decide) chunks groups.flatten

/-! ### The table -/

/-- The functions of the entries whose first operand is a register that is only read, or that have no operands. -/
def readers : List String :=
  ["l_jr", "l_jalr", "l_mac", "l_msb", "l_mtspr", "l_rfe", "l_sfeq", "l_sfne", "l_sfgts", "l_sfges", "l_sflts", "l_sfles",
    "l_sfgtu", "l_sfgeu",
    "l_sfltu", "l_sfleu", "lf_sfeq_s", "lf_sfge_s", "lf_sfgt_s", "lf_sfle_s", "lf_sflt_s", "lf_sfne_s", "l_cust1", "l_cust2", "l_cust3",
    "l_cust4", "l_none", "l_invalid"]

/-- The first operand of an entry is a destination, or not a register, or the function only reads it. -/
structure Marked (op : Opcode) (opds : List InsnOp) : Prop where
  destination : writeToReg opds = true ∨ .defineSetParam0 ∉ genEvalOperands opds ∨ op.functionName ∈ readers
  mtspr : op.functionName = "l_mtspr" → writeToReg opds = false

/-- `Marked`, as far as the bytes of the argument string tell. -/
def marks (op : Opcode) : Bool :=
  (decide (LeadsWithDestination (Ascii.chars op.args)) || readers.contains op.functionName ||
    (parseParams op).all fun opds => !(genEvalOperands opds).contains .defineSetParam0) &&
  (op.functionName != "l_mtspr" || (parseParams op).all fun opds => !writeToReg opds)

theorem or1ksimOr32Opcodes_marks (xori : Bool) : ∀ op ∈ or1ksimOr32Opcodes xori, marks op = true := by
  cases xori with
  | false => decide +kernel
  | true => decide +kernel

theorem or1ksimOr32Opcodes_marked {xori : Bool} (member : op ∈ or1ksimOr32Opcodes xori) {opds : List InsnOp}
    (parsed : parseParams op = some opds) : Marked op opds := by
  have checked := or1ksimOr32Opcodes_marks xori op member
  rw [marks, parsed, Option.all_some, Option.all_some, Bool.and_eq_true, Bool.or_eq_true, Bool.or_eq_true, Bool.or_eq_true] at checked
  obtain ⟨first, second⟩ := checked
  refine ⟨?_, fun is => ?_⟩
  · rcases first with (leads | reads) | none
    · refine .inl (writeToReg_of_leads (or1ksimOr32Opcodes_regular member) ?_ parsed)
      rw [Ascii.toList_eq_chars (or1ksimOr32Opcodes_checked xori op member).1]
      exact of_decide_eq_true leads
    · exact .inr (.inr (List.contains_iff_mem.mp reads))
    · rw [Bool.not_eq_true', ← Bool.not_eq_true, List.contains_iff_mem] at none
      exact .inr (.inl none)
  · rcases second with other | unmarked
    · exact absurd is (bne_iff_ne.mp other)
    · rwa [Bool.not_eq_true'] at unmarked

/-! ### The descriptors of an entry -/

variable {ops : List Opcode} {opStart : List (List InsnOp)} {i : Nat} {opds : List InsnOp}

theorem parseTable_parsed {used : Nat} (table : parseTable ops used = some opStart) (entry : ops[i]? = some op)
    (described : opStart[i]? = some opds) :
    parseParams op = some opds := by
  induction ops generalizing used opStart i with
  | nil => cases entry
  | cons first ops ih =>
    simp only [parseTable, Option.bind_eq_some_iff] at table
    obtain ⟨made, parsed, rest⟩ := table
    split at rest
    · cases rest
    · obtain ⟨tail, inner, rfl⟩ := Option.map_eq_some_iff.mp rest
      cases i with
      | zero =>
        cases entry
        cases described
        exact parsed
      | succ i => exact ih inner entry described

theorem buildAutomata_parsed {heap : Nat → Nat} {b : Build} (built : buildAutomata ops heap = some (b, opStart))
    (entry : ops[i]? = some op) (described : opStart[i]? = some opds) : parseParams op = some opds := by
  unfold buildAutomata at built
  split at built
  · cases built
  · obtain ⟨parsed, table, same⟩ := Option.map_eq_some_iff.mp built
    obtain ⟨rfl, rfl⟩ := Prod.mk.inj same
    exact parseTable_parsed table entry described

end Or1ksim.Decode
