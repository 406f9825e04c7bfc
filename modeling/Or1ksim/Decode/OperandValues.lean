import Or1ksim.Decode.Operands

/-!
# Generated operands

The statements emitted for an entry leave in each operand variable what `eval_operand` computes,
provided every displacement is followed by a base register that is one run of bits.
-/

namespace Or1ksim.Decode

/-- The descriptors are operands as the generator expects them: they end with `OPTYPE_LAST`, the
runs of a displacement are all marked as such, and one run for the base register follows it. -/
def operandsOk : List InsnOp → Bool
  | [] => false
  | opd :: opds =>
    if opd.has optypeOp then
      if opd.has optypeDis then
        !opd.has optypeLast &&
          match opds with
          | [] => false
          | base :: opds =>
            base.has optypeOp && !base.has optypeDis && !base.has optypeSig &&
              (base.has optypeLast || operandsOk opds)
      else opd.has optypeLast || operandsOk opds
    else
      !opd.has optypeLast && (opds.head?.any fun next => next.has optypeDis == opd.has optypeDis) && operandsOk opds

section
variable (insn : Word) (reg : Word → Word)

@[simp] theorem execStmts_nil (vars : Nat → Word) : execStmts insn reg [] vars = vars := rfl

@[simp] theorem execStmts_cons (s : GenStmt) (stmts : List GenStmt) (vars : Nat → Word) :
    execStmts insn reg (s :: stmts) vars = execStmts insn reg stmts (s.exec insn reg vars) := rfl

theorem execStmts_append (left right : List GenStmt) (vars : Nat → Word) :
    execStmts insn reg (left ++ right) vars = execStmts insn reg right (execStmts insn reg left vars) :=
  List.foldl_append

theorem execStmts_genSign (var : Nat) (opd : InsnOp) (vars : Nat → Word) :
    execStmts insn reg (genSign var opd) vars = Function.update vars var (opd.extend (vars var)) := by
  by_cases sig : opd.has optypeSig = true
  · simp [genSign, sig, GenStmt.exec, InsnOp.extend]
  · simp [genSign, sig, InsnOp.extend]

@[simp] theorem execStmts_genDefine (var i : Nat) (dis : Bool) (opd : InsnOp) (vars : Nat → Word) :
    execStmts insn reg (genDefine var i dis opd) vars = vars := by
  unfold genDefine
  split
  · split <;> rfl
  · rfl

def firstStmt (opd : InsnOp) (nbits var : Nat) : GenStmt :=
  if nbits = 0 then .set var opd.shr opd.mask else .orShifted var opd.shr opd.mask nbits

/-- The first statement of a descriptor adds its bits to those taken before. -/
theorem exec_first (opd : InsnOp) {vars : Nat → Word} {var nbits : Nat} {operand : Word}
    (start : nbits = 0 → operand = 0) (taken : nbits ≠ 0 → vars var = operand) :
    GenStmt.exec insn reg vars (firstStmt opd nbits var) =
      Function.update vars var (operand ||| (opd.chunk insn <<< nbits)) := by
  by_cases zero : nbits = 0
  · subst zero
    simp [firstStmt, start rfl, GenStmt.exec, InsnOp.chunk]
  · simp [firstStmt, zero, GenStmt.exec, InsnOp.chunk, taken zero]

theorem chunk_empty (opd : InsnOp) (none : opd.data = 0) : opd.chunk insn = 0 := by
  simp [InsnOp.chunk, InsnOp.mask, none]

/-! ### One operand after the other -/

/-- What the variables hold after the statements for `opds`, when `nbits` bits of the first operand
have been taken before. -/
def Computed (opds : List InsnOp) (nbits var : Nat) (operand : Word) (vars vars' : Nat → Word) : Prop :=
  (∀ k < var, vars' k = vars k) ∧
    ∀ k < numOps opds, some (vars' (var + k)) =
      if k = 0 then operandValue insn reg opds operand nbits else evalOperand insn reg opds k

theorem evalOperand_zero (opds : List InsnOp) :
    evalOperand insn reg opds 0 = operandValue insn reg opds 0 0 := by
  simp [evalOperand, operandAt]

variable {insn reg} {opd base : InsnOp} {ops opds : List InsnOp} {var nbits : Nat} {operand value : Word}
  {vars vars' : Nat → Word}

/-- An operand is complete in its variable; the statements for the operands behind it follow. -/
theorem computed_operand (opds : List InsnOp) (value : Word) (final : Bool)
    (count : numOps ops = if final then 1 else 1 + numOps opds)
    (here : operandValue insn reg ops operand nbits = some value)
    (skip : final = false → ∀ k, evalOperand insn reg ops (k + 1) = evalOperand insn reg opds k)
    (rest : final = false → Computed insn reg opds 0 (var + 1) 0 (Function.update vars var value) vars')
    (last : final = true → vars' = Function.update vars var value) :
    Computed insn reg ops nbits var operand vars vars' := by
  cases final with
  | true =>
    obtain rfl := last rfl
    refine ⟨fun k low => Function.update_of_ne (by omega) _ _, fun k low => ?_⟩
    obtain rfl : k = 0 := by
      rw [count, if_pos rfl] at low
      omega
    simp [here]
  | false =>
    obtain ⟨kept, later⟩ := rest rfl
    refine ⟨fun k low => ?_, fun k low => ?_⟩
    · rw [kept k (by omega), Function.update_of_ne (by omega)]
    · cases k with
      | zero => simp [here, kept var (Nat.lt_succ_self _)]
      | succ k =>
        rw [count] at low
        simp only [Bool.false_eq_true, if_false] at low
        rw [if_neg (by omega), skip rfl, show var + (k + 1) = var + 1 + k by omega, later k (by omega)]
        cases k with
        | zero => rw [if_pos rfl, evalOperand_zero]
        | succ k => rw [if_neg (by omega)]

/-- The operand goes on behind `opd`. -/
theorem computed_open (more : opd.has optypeOp = false) (inner : opd.has optypeLast = false)
    (alike : (opds.head?.any fun next => next.has optypeDis == opd.has optypeDis) = true)
    (rest : Computed insn reg opds (nbits + opd.data) var (operand ||| (opd.chunk insn <<< nbits)) vars vars') :
    Computed insn reg (opd :: opds) nbits var operand vars vars' := by
  obtain ⟨kept, later⟩ := rest
  refine ⟨kept, fun k low => ?_⟩
  rw [later k (by simpa [numOps, more] using low)]
  cases k with
  | zero =>
    cases opds with
    | nil => simp at alike
    | cons next opds =>
      simp only [List.head?_cons, Option.any_some, beq_iff_eq] at alike
      simp [operandValue, alike, evalOperandLoop, more, behindOperand]
  | succ k => simp [evalOperand, operandAt, more, inner]

theorem Computed.of_update (computed : Computed insn reg opds nbits var operand (Function.update vars var value) vars') :
    Computed insn reg opds nbits var operand vars vars' :=
  ⟨fun k low => (computed.1 k low).trans (Function.update_of_ne (by omega) _ _), computed.2⟩

section
variable (i : Nat)

theorem genLoop_open (more : opd.has optypeOp = false) (inner : opd.has optypeLast = false) :
    genLoop (opd :: opds) i nbits var false =
      firstStmt opd nbits var :: genLoop opds (i + 1) (nbits + opd.data) var false := by
  cases opds <;> simp [genLoop, firstStmt, more, inner]

theorem genLoop_direct (op : opd.has optypeOp = true) (direct : opd.has optypeDis = false) :
    genLoop (opd :: opds) i nbits var false =
      firstStmt opd nbits var :: (genSign var opd ++ (genDefine var i false opd ++
        if opd.has optypeLast then [] else genLoop opds (i + 1) 0 (var + 1) false)) := by
  cases opds <;> simp [genLoop, firstStmt, op, direct]

theorem genLoop_displacement (op : opd.has optypeOp = true) (dis : opd.has optypeDis = true)
    (baseOp : base.has optypeOp = true) (baseUnsigned : base.has optypeSig = false) :
    genLoop (opd :: base :: opds) i nbits var false =
      firstStmt opd nbits var :: (genSign var opd ++ .addReg var base.shr base.mask ::
        (genDefine var i true base ++
          if base.has optypeLast then [] else genLoop opds (i + 1) 0 (var + 1) false)) := by
  simp [genLoop, firstStmt, op, dis, baseOp, genSign, baseUnsigned]

end

/-- The statements for the descriptors from some point on, in the middle of an operand or not. -/
theorem genLoop_computed (i : Nat) (ok : operandsOk opds = true) (start : nbits = 0 → operand = 0)
    (taken : nbits ≠ 0 → vars var = operand) :
    Computed insn reg opds nbits var operand vars (execStmts insn reg (genLoop opds i nbits var false) vars) := by
  -- one descriptor is taken, or two where a displacement and its base register stand
  induction size : opds.length using Nat.strong_induction_on generalizing opds i nbits var operand vars with
  | _ n ih =>
    have next : ∀ {opds : List InsnOp} (vars : Nat → Word), opds.length < n → operandsOk opds = true →
        Computed insn reg opds 0 (var + 1) 0 vars (execStmts insn reg (genLoop opds (i + 1) 0 (var + 1) false) vars) :=
      fun vars shorter ok => ih _ shorter (i + 1) ok (fun _ => rfl) (by simp) rfl
    cases opds with
    | nil => simp [operandsOk] at ok
    | cons opd opds =>
      have first := exec_first insn reg opd start taken
      have shorter : opds.length < n := by
        rw [← size]
        exact Nat.lt_succ_self _
      cases op : opd.has optypeOp with
      | false =>
        rw [operandsOk.eq_def] at ok
        simp only [op, Bool.false_eq_true, if_false, Bool.and_eq_true, Bool.not_eq_true'] at ok
        obtain ⟨⟨inner, alike⟩, ok⟩ := ok
        rw [genLoop_open i op inner, execStmts_cons, first]
        refine computed_open op inner alike (Computed.of_update (ih opds.length shorter (i + 1) ok ?_ ?_ rfl))
        · intro zero
          simp [start (by omega), chunk_empty insn opd (by omega)]
        · simp
      | true =>
        cases dis : opd.has optypeDis with
        | false =>
          rw [operandsOk.eq_def] at ok
          simp only [op, dis, if_true, Bool.false_eq_true, if_false, Bool.or_eq_true] at ok
          rw [genLoop_direct i op dis, execStmts_cons, first, execStmts_append, execStmts_genSign, execStmts_append,
            execStmts_genDefine, Function.update_self, Function.update_idem]
          refine computed_operand opds (opd.extend (operand ||| (opd.chunk insn <<< nbits)))
            (opd.has optypeLast) ?_ ?_ (fun final k => ?_) (fun final => ?_)
            (fun final => ?_)
          · simp [numOps, op, dis]
          · simp [operandValue, dis, evalOperandLoop, op]
          · simp [evalOperand, operandAt, op, dis, final]
          · rw [final]
            exact next _ shorter (ok.resolve_left (by simp [final]))
          · rw [final]
            rfl
        | true =>
          cases opds with
          | nil => simp [operandsOk, op, dis] at ok
          | cons base opds =>
            simp only [operandsOk, op, dis, if_true, Bool.and_eq_true, Bool.not_eq_true', Bool.or_eq_true] at ok
            obtain ⟨inner, ⟨⟨baseOp, baseDirect⟩, baseUnsigned⟩, ok⟩ := ok
            rw [genLoop_displacement i op dis baseOp baseUnsigned, execStmts_cons, first, execStmts_append,
              execStmts_genSign, execStmts_cons, execStmts_append, execStmts_genDefine, GenStmt.exec]
            simp only [Function.update_self, Function.update_idem]
            refine computed_operand opds
              (opd.extend (operand ||| (opd.chunk insn <<< nbits)) + reg (base.chunk insn)) (base.has optypeLast) ?_ ?_
                (fun final k => ?_) (fun final => ?_)
              (fun final => ?_)
            · simp [numOps, op, dis, baseOp, baseDirect]
            · simp [operandValue, dis, evalOperandLoop, op, behindOperand, evalOperandVal, baseOp, InsnOp.extend,
                baseUnsigned]
            · simp [evalOperand, operandAt, op, dis, inner, baseOp, baseDirect, final]
            · rw [final]
              exact next _ (Nat.lt_of_succ_lt shorter) (ok.resolve_left (by simp [final]))
            · rw [final]
              rfl

/-- For every operand of an entry, the generated statements leave in its variable the value that
`eval_operand` computes from the same descriptors. -/
theorem genEvalOperands_value (ok : operandsOk opds = true) (vars : Nat → Word) {opNo : Nat}
    (operand : opNo < numOps opds) :
    some (execStmts insn reg (genEvalOperands opds) vars opNo) = evalOperand insn reg opds opNo := by
  have computed := (genLoop_computed 0 ok (fun _ => rfl) (by simp) :
    Computed insn reg opds 0 0 0 vars _).2 opNo operand
  rw [Nat.zero_add] at computed
  cases opNo with
  | zero => rw [genEvalOperands, computed, if_pos rfl, evalOperand_zero]
  | succ k => rw [genEvalOperands, computed, if_neg (Nat.succ_ne_zero k)]

end

end Or1ksim.Decode
