import Or1ksim.Decode.Fields

/-!
# Descriptors of an operand

`parse_params` makes one group of descriptors for each operand of an argument string: one descriptor
for each run of the operand's mask, the last of them with `OPTYPE_OP`. `eval_operand_val` gathers the
bits of such a group.
-/

namespace Or1ksim.Decode

open Gather (gather gather_append gather_range' places)

/-- The bits of a type that say how an operand is extended. -/
def signField : Word := optypeSig ||| optypeSbit

/-- What `parse_params` puts there. -/
def signOf (letter : Char) (arg : Word) : Word :=
  if letterSigned letter then optypeSig ||| (((BitVec.ofNat 32 (numOnes arg) - 1) <<< optypeSbitShr) &&& optypeSbit)
  else 0

/-- The descriptor of a run, which ends the operand or not. -/
structure InsnOp.Describes (opd : InsnOp) (sign : Word) (closed : Bool) (run : Nat × Nat) : Prop where
  shr : opd.shr = run.1
  data : opd.data = run.2
  op : opd.has optypeOp = closed
  sign : opd.type &&& signField = sign

/-- Flags that leave the shift alone and the sign as it is. -/
structure Mark (sign flags : Word) (closes : Bool) : Prop where
  shr : flags &&& optypeShr = 0
  op : decide (flags &&& optypeOp ≠ 0) = closes
  sign : flags &&& signField = 0 ∨ flags &&& signField = sign

def InsnOp.mark (flags : Word) (opd : InsnOp) : InsnOp := { opd with type := opd.type ||| flags }

section
variable {opd : InsnOp} {sign flags type : Word} {closed closes : Bool} {run : Nat × Nat}

theorem or_ne_zero_iff {a b : Word} : a ||| b ≠ 0 ↔ a ≠ 0 ∨ b ≠ 0 :=
  (not_congr BitVec.or_eq_zero_iff).trans not_and_or

theorem InsnOp.Describes.mark (described : opd.Describes sign closed run) (mark : Mark sign flags closes) :
    (opd.mark flags).Describes sign (closed || closes) run := by
  refine ⟨?_, described.data, ?_, ?_⟩
  · rw [← described.shr]
    unfold InsnOp.shr InsnOp.mark
    rw [BitVec.and_or_distrib_right, mark.shr]
    exact congrArg BitVec.toNat BitVec.or_zero
  · rw [← described.op, ← mark.op]
    unfold InsnOp.has InsnOp.mark
    rw [BitVec.and_or_distrib_right, ← Bool.decide_or]
    exact decide_eq_decide.mpr or_ne_zero_iff
  · show (opd.type ||| flags) &&& signField = sign
    rw [BitVec.and_or_distrib_right, described.sign]
    rcases mark.sign with none | same
    · rw [none]
      exact BitVec.or_zero
    · rw [same, BitVec.or_self]

theorem Mark.or (mark : Mark sign flags closed) {more : Word} (shr : more &&& optypeShr = 0)
    (op : decide (more &&& optypeOp ≠ 0) = closes) (none : more &&& signField = 0) :
    Mark sign (flags ||| more) (closed || closes) := by
  refine ⟨?_, ?_, ?_⟩
  · rw [BitVec.and_or_distrib_right, mark.shr, shr]
    rfl
  · rw [← mark.op, ← op, BitVec.and_or_distrib_right, ← Bool.decide_or]
    exact decide_eq_decide.mpr or_ne_zero_iff
  · rw [BitVec.and_or_distrib_right, none]
    exact mark.sign.imp (BitVec.or_zero.trans ·) (BitVec.or_zero.trans ·)

/-- The type of an operand before its first descriptor and behind its last. -/
structure Pending (sign type : Word) : Prop where
  shr : type &&& optypeShr = 0
  op : type &&& optypeOp = 0
  sign : type &&& signField = sign

theorem Pending.mark (pending : Pending sign type) : Mark sign type false :=
  ⟨pending.shr, decide_eq_false (not_not.mpr pending.op), .inr pending.sign⟩

theorem Pending.or {a b signA signB : Word} (left : Pending signA a) (right : Pending signB b) :
    Pending (signA ||| signB) (a ||| b) := by
  refine ⟨?_, ?_, ?_⟩
  · rw [BitVec.and_or_distrib_right, left.shr, right.shr]
    rfl
  · rw [BitVec.and_or_distrib_right, left.op, right.op]
    rfl
  · rw [BitVec.and_or_distrib_right, left.sign, right.sign]

theorem Pending.reg (pending : Pending 0 type) (args : List Char) :
    Pending 0 (type ||| optypeReg ||| (if args.head? = some 'D' then optypeDst else 0)) := by
  have reg : Pending 0 (type ||| optypeReg) := pending.or (⟨by decide, by decide, by decide⟩ : Pending 0 optypeReg)
  split
  · exact reg.or (⟨by decide, by decide, by decide⟩ : Pending 0 optypeDst)
  · exact reg.or (⟨by decide, by decide, by decide⟩ : Pending 0 0)

theorem signOf_pending (letter : Char) (arg : Word) : Pending (signOf letter arg) (signOf letter arg) := by
  unfold signOf
  split
  · generalize (BitVec.ofNat 32 (numOnes arg) - 1) <<< optypeSbitShr = x
    have outside : ∀ field : Word, optypeSig &&& field = 0 → optypeSbit &&& field = 0 →
        (optypeSig ||| (x &&& optypeSbit)) &&& field = 0 := fun field sig sbit => by
      rw [BitVec.and_or_distrib_right, sig, BitVec.and_assoc, sbit]
      exact BitVec.zero_or.trans BitVec.and_zero
    refine ⟨outside _ (by decide) (by decide), outside _ (by decide) (by decide), ?_⟩
    have sig : optypeSig &&& signField = optypeSig := by decide
    have sbit : optypeSbit &&& signField = optypeSbit := by decide
    rw [BitVec.and_or_distrib_right, BitVec.and_assoc, sig, sbit]
  · exact ⟨by decide, by decide, by decide⟩

theorem Pending.signed (pending : Pending 0 type) (letter : Char) (arg : Word) :
    Pending (signOf letter arg) (type ||| signOf letter arg) := by
  have both := pending.or (signOf_pending letter arg)
  rwa [show (0 : Word) ||| signOf letter arg = signOf letter arg from BitVec.zero_or] at both

theorem Pending.describes (pending : Pending sign type) (inside : run.1 < 32) :
    (⟨type ||| BitVec.ofNat 32 run.1, run.2⟩ : InsnOp).Describes sign false run := by
  have low : ∀ start < 32, BitVec.ofNat 32 start &&& optypeShr = BitVec.ofNat 32 start ∧
      BitVec.ofNat 32 start &&& optypeOp = 0 ∧ BitVec.ofNat 32 start &&& signField = 0 := by decide
  obtain ⟨shr, op, none⟩ := low run.1 inside
  refine ⟨?_, rfl, ?_, ?_⟩
  · unfold InsnOp.shr
    rw [BitVec.and_or_distrib_right, pending.shr, shr]
    refine (congrArg BitVec.toNat BitVec.zero_or).trans ?_
    rw [BitVec.toNat_ofNat]
    omega
  · unfold InsnOp.has
    rw [BitVec.and_or_distrib_right, pending.op, op]
    rfl
  · show (type ||| BitVec.ofNat 32 run.1) &&& signField = sign
    rw [BitVec.and_or_distrib_right, pending.sign, none]
    exact BitVec.or_zero

end

/-! ### Groups -/

/-- The descriptors of an operand that is not ended yet. -/
def OpenGroup (sign : Word) (chunks : List (Nat × Nat)) (group : List InsnOp) : Prop :=
  List.Forall₂ (fun run opd => opd.Describes sign false run) chunks group

/-- The descriptors of an operand, of which the last has `OPTYPE_OP`. -/
def ClosedGroup (sign : Word) (chunks : List (Nat × Nat)) (group : List InsnOp) : Prop :=
  ∃ before run opds opd, chunks = before ++ [run] ∧ group = opds ++ [opd] ∧ OpenGroup sign before opds ∧ opd.Describes sign true run

section
variable {sign flags : Word} {closes : Bool} {chunks : List (Nat × Nat)} {group : List InsnOp}

theorem OpenGroup.marks (opened : OpenGroup sign chunks group) (mark : Mark sign flags false) :
    OpenGroup sign chunks (group.map (InsnOp.mark flags)) := by
  induction opened with
  | nil => exact .nil
  | cons described _ ih => exact .cons (described.mark mark) ih

theorem OpenGroup.made {type : Word} (pending : Pending sign type) (inside : ∀ run ∈ chunks, run.1 < 32) :
    OpenGroup sign chunks (chunks.map fun run => ⟨type ||| BitVec.ofNat 32 run.1, run.2⟩) := by
  induction chunks with
  | nil => exact .nil
  | cons run chunks ih =>
    exact .cons (pending.describes (inside run List.mem_cons_self)) (ih fun later member => inside later (.tail _ member))

theorem OpenGroup.close (opened : OpenGroup sign chunks group) (some : group ≠ []) (mark : Mark sign flags true)
    (earlier : List InsnOp) :
    ∃ closed, ClosedGroup sign chunks closed ∧ addFlags 1 flags (group.reverse ++ earlier) = closed.reverse ++ earlier := by
  have back := List.rel_reverse opened
  generalize reversed : group.reverse = latest at back ⊢
  generalize start : chunks.reverse = starts at back
  cases back with
  | nil => exact absurd (List.reverse_eq_nil_iff.mp reversed) some
  | @cons run opd before opds last rest =>
    refine ⟨opds.reverse ++ [opd.mark flags], ⟨before.reverse, run, opds.reverse, opd.mark flags, ?_, rfl, List.rel_reverse rest,
      last.mark mark⟩, ?_⟩
    · rw [← List.reverse_cons, ← start, List.reverse_reverse]
    · rw [List.reverse_append, List.reverse_reverse]
      rfl

/-! ### Values -/

theorem InsnOp.mask_eq (opd : InsnOp) : opd.mask = BitVec.ofNat 32 (2 ^ opd.data - 1) := by
  have positive := Nat.two_pow_pos opd.data
  rw [InsnOp.mask, Nat.one_shiftLeft]
  exact (Nat.cast_pred (R := Word) positive).symm

theorem InsnOp.Describes.chunk_eq {opd : InsnOp} {closed : Bool} {run : Nat × Nat} (described : opd.Describes sign closed run)
    (insn : Word) :
    opd.chunk insn = gather insn (List.range' run.1 run.2) := by
  rw [gather_range', InsnOp.chunk, InsnOp.mask_eq, described.shr, described.data]

theorem runPlaces_cons (run : Nat × Nat) (chunks : List (Nat × Nat)) :
    runPlaces (run :: chunks) = List.range' run.1 run.2 ++ runPlaces chunks := rfl

/-- The loop gathers the bits of the group, in the order of its runs. -/
theorem OpenGroup.evalOperandLoop {before : List (Nat × Nat)} {opds : List InsnOp} {opd : InsnOp} {run : Nat × Nat}
    (opened : OpenGroup sign before opds) (last : opd.Describes sign true run) (insn : Word) (rest : List InsnOp) (operand : Word)
    (nbits : Nat) :
    evalOperandLoop insn (opds ++ opd :: rest) operand nbits =
      some (opd.extend (operand ||| (gather insn (runPlaces (before ++ [run])) <<< nbits))) := by
  induction opened generalizing operand nbits with
  | nil =>
    rw [List.nil_append, List.nil_append, Decode.evalOperandLoop, if_pos last.op, last.chunk_eq, runPlaces_cons]
    rw [show runPlaces [] = [] from rfl, List.append_nil]
  | @cons first next before opds described _ ih =>
    have more : ¬ next.has optypeOp = true := by
      rw [described.op]
      exact Bool.false_ne_true
    rw [List.cons_append, Decode.evalOperandLoop, if_neg more, ih, List.cons_append, runPlaces_cons, gather_append, List.length_range',
      described.chunk_eq, described.data, BitVec.shiftLeft_or_distrib, BitVec.or_assoc, ← BitVec.shiftLeft_add, Nat.add_comm]

theorem ClosedGroup.evalOperandVal (closed : ClosedGroup sign chunks group) (insn : Word) (rest : List InsnOp) :
    ∃ opd : InsnOp, opd.type &&& signField = sign ∧ evalOperandVal insn (group ++ rest) =
      some (opd.extend (gather insn (runPlaces chunks))) := by
  obtain ⟨before, run, opds, opd, rfl, rfl, opened, last⟩ := closed
  refine ⟨opd, last.sign, ?_⟩
  rw [Decode.evalOperandVal, List.append_assoc, List.singleton_append, opened.evalOperandLoop last, BitVec.shiftLeft_zero]
  exact congrArg (fun operand => some (opd.extend operand)) BitVec.zero_or

theorem ClosedGroup.behindOperand (closed : ClosedGroup sign chunks group) (rest : List InsnOp) :
    behindOperand (group ++ rest) = rest := by
  obtain ⟨before, run, opds, opd, rfl, rfl, opened, last⟩ := closed
  rw [List.append_assoc, List.singleton_append]
  induction opened with
  | nil => rw [List.nil_append, Decode.behindOperand, if_pos last.op]
  | @cons first next before opds described _ ih =>
    have more : ¬ next.has optypeOp = true := by
      rw [described.op]
      exact Bool.false_ne_true
    rw [List.cons_append, Decode.behindOperand, if_neg more, ih]

end

end Or1ksim.Decode
