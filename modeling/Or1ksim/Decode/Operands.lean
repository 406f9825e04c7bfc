import Or1ksim.Decode.Automata

/-!
# Operands

The operand descriptors that `parse_params` makes of an entry of the opcode table, their values as
`eval_operand_val` and `eval_operand` compute them, and the statements `gen_eval_operands` emits for
them.
-/

namespace Or1ksim.Decode

/-! ### The opcode table -/

structure Opcode where
  name : String
  args : String
  encoding : String
  functionName : String
  deriving DecidableEq, Repr

/-- `strtol` in base 16, on what stands behind the `0x` of an encoding. -/
def strtolHex (s : List Char) : Nat :=
  let digit (c : Char) : Option Nat :=
    if '0' ≤ c ∧ c ≤ '9' then some (c.toNat - '0'.toNat)
    else if 'a' ≤ c ∧ c ≤ 'f' then some (c.toNat - 'a'.toNat + 10)
    else if 'A' ≤ c ∧ c ≤ 'F' then some (c.toNat - 'A'.toNat + 10)
    else none
  ((s.map digit).takeWhile Option.isSome).foldl (fun n d => 16 * n + d.getD 0) 0

/-- `insn_extract`: the positions of a symbol in an encoding. -/
def insnExtract (paramCh : Char) : List Char → Nat → Word
  | [], _ => 0
  | '0' :: 'x' :: [], _ => 0
  | '0' :: 'x' :: h :: enc, opcPos =>
    let tmp := BitVec.ofNat 32 (strtolHex (h :: enc))
    let nibble := if paramCh = '0' then 15 - tmp else if paramCh = '1' then tmp else 0
    nibble <<< (opcPos - 4) ||| insnExtract paramCh enc (opcPos - 4)
  | c :: enc, opcPos =>
    if c = '0' ∨ c = '1' ∨ c = '-' ∨ c.isAlpha then
      (if paramCh = c then 1 <<< (opcPos - 1) else 0) ||| insnExtract paramCh enc (opcPos - 1)
    else insnExtract paramCh enc opcPos

def Opcode.extract (op : Opcode) (paramCh : Char) : Word := insnExtract paramCh op.encoding.toList 32

/-- The mask and the value that `or1ksim_build_automata` gives an entry. -/
def Opcode.pattern (op : Opcode) : FieldTree.Pattern 32 :=
  { mask := op.extract '1' ||| op.extract '0', value := op.extract '1' }

/-! ### Descriptors -/

structure InsnOp where
  type : Word
  data : Nat
  deriving DecidableEq, Repr

def optypeLast : Word := 0x80000000
def optypeOp : Word := 0x40000000
def optypeReg : Word := 0x20000000
def optypeSig : Word := 0x10000000
def optypeDis : Word := 0x08000000
def optypeDst : Word := 0x04000000
def optypeSbit : Word := 0x00001F00
def optypeShr : Word := 0x0000001F
def optypeSbitShr : Nat := 8

def InsnOp.has (opd : InsnOp) (flag : Word) : Bool := opd.type &&& flag ≠ 0

def InsnOp.shr (opd : InsnOp) : Nat := (opd.type &&& optypeShr).toNat

def InsnOp.sbit (opd : InsnOp) : Nat := ((opd.type &&& optypeSbit) >>> optypeSbitShr).toNat

/-- `(1 << data) - 1`. -/
def InsnOp.mask (opd : InsnOp) : Word := (1 <<< opd.data) - 1

def letterSigned (c : Char) : Bool := c = 'I' ∨ c = 'N'

def numOnes (value : Word) : Nat := ((List.range 32).filter fun k => value.getLsbD k).length

/-- The runs of ones of an argument, lowest first: where each starts and how long it is. -/
def runs : Nat → Word → List (Nat × Nat)
  | 0, _ => []
  | fuel + 1, arg =>
    match (List.range 32).find? fun k => arg.getLsbD k with
    | none => []
    | some shr =>
      let mask := ((List.range (32 - shr)).takeWhile fun k => arg.getLsbD (shr + k)).length
      (shr, mask) :: runs fuel (arg &&& ~~~FieldTree.ones shr mask)

/-- Adds flags to the latest descriptors; the list has the latest first. -/
def addFlags (count : Nat) (flags : Word) (done : List InsnOp) : List InsnOp :=
  (done.take count).map (fun opd => { opd with type := opd.type ||| flags }) ++ done.drop count

/-- The loop of `parse_params`: `done` are the descriptors made so far, the latest first. It fails
where the code ends the program, and where it would change a descriptor of the entry before. -/
def parseArgs (op : Opcode) : List Char → Word → Nat → List InsnOp → Option (List InsnOp)
  | [], type, _, done =>
    if done.isEmpty then none else some (addFlags 1 (type ||| optypeOp ||| optypeLast) done).reverse
  | 'r' :: args, type, numCurOp, done =>
    parseArgs op args (type ||| optypeReg ||| (if args.head? = some 'D' then optypeDst else 0)) numCurOp done
  | '(' :: args, type, numCurOp, done =>
    if done.isEmpty then none
    else parseArgs op args 0 0 (addFlags 1 optypeOp (addFlags numCurOp (type ||| optypeDis) done))
  | ',' :: args, type, numCurOp, done =>
    if done.isEmpty then none else parseArgs op args 0 numCurOp (addFlags 1 (type ||| optypeOp) done)
  | '0' :: args, type, numCurOp, done => parseArgs op args 0 numCurOp (⟨type, 0⟩ :: done)
  | ')' :: args, type, numCurOp, done => parseArgs op args type numCurOp done
  | c :: args, type, _, done =>
    if c.isAlpha then
      let arg := op.extract c
      let sign : Word :=
        if letterSigned c then optypeSig ||| (((BitVec.ofNat 32 (numOnes arg) - 1) <<< optypeSbitShr) &&& optypeSbit)
        else 0
      let chunks := runs 32 arg
      let made := chunks.map fun run => ⟨type ||| sign ||| BitVec.ofNat 32 run.1, run.2⟩
      parseArgs op args (type ||| sign) chunks.length (made.reverse ++ done)
    else none

def parseParams (op : Opcode) : Option (List InsnOp) :=
  if op.args.isEmpty then some [⟨optypeReg ||| optypeOp ||| optypeLast, 0⟩]
  else parseArgs op op.args.toList 0 0 []

def maxOpTableSize : Nat := 1200

/-- The loop of `or1ksim_build_automata` that fills `or1ksim_op_start`; `used` descriptors are taken. -/
def parseTable : List Opcode → Nat → Option (List (List InsnOp))
  | [], _ => some []
  | op :: ops, used =>
    (parseParams op).bind fun opds =>
      let used := used + opds.length
      if used > maxOpTableSize then none else (parseTable ops used).map (opds :: ·)

/-- `or1ksim_build_automata`, unless it ends the program: the automaton, in an array that holds
`heap` at first, and the descriptors of every entry. -/
def buildAutomata (ops : List Opcode) (heap : Nat → Nat) : Option (Build × List (List InsnOp)) :=
  match coverTable (ops.map Opcode.pattern) heap with
  | .error _ => none
  | .ok (_, b) => (parseTable ops 0).map (b, ·)

/-! ### Values -/

def InsnOp.chunk (opd : InsnOp) (insn : Word) : Word := (insn >>> opd.shr) &&& opd.mask

/-- The sign extension of an operand whose last descriptor is `opd`. -/
def InsnOp.extend (opd : InsnOp) (operand : Word) : Word :=
  if opd.has optypeSig ∧ operand &&& (1 <<< opd.sbit) ≠ 0 then operand ||| (BitVec.allOnes 32 <<< opd.sbit)
  else operand

/-- The loop of `eval_operand_val`. It runs off the descriptors when no `OPTYPE_OP` ends them. -/
def evalOperandLoop (insn : Word) : List InsnOp → Word → Nat → Option Word
  | [], _, _ => none
  | opd :: opds, operand, nbits =>
    let operand := operand ||| (opd.chunk insn <<< nbits)
    if opd.has optypeOp then some (opd.extend operand) else evalOperandLoop insn opds operand (nbits + opd.data)

def evalOperandVal (insn : Word) (opds : List InsnOp) : Option Word := evalOperandLoop insn opds 0 0

/-- The descriptors of operand `opNo`, as `eval_operand` finds them. -/
def operandAt : Nat → List InsnOp → Option (List InsnOp)
  | 0, opds => some opds
  | _ + 1, [] => none
  | opNo + 1, opd :: opds =>
    if opd.has optypeLast then none
    else operandAt (if opd.has optypeOp && !opd.has optypeDis then opNo else opNo + 1) opds

/-- The descriptors behind the one that ends the operand. -/
def behindOperand : List InsnOp → List InsnOp
  | [] => []
  | opd :: opds => if opd.has optypeOp then opds else behindOperand opds

/-- The value of the operand at the head, with `operand` and `nbits` taken from it already: for a
displacement the effective address, else the immediate or the register's number. -/
def operandValue (insn : Word) (reg : Word → Word) (opds : List InsnOp) (operand : Word) (nbits : Nat) : Option Word :=
  match opds with
  | [] => none
  | opd :: _ =>
    if opd.has optypeDis then
      (evalOperandLoop insn opds operand nbits).bind fun ret =>
        (evalOperandVal insn (behindOperand opds)).map fun base => ret + reg base
    else evalOperandLoop insn opds operand nbits

/-- `eval_operand`, up to the register that a direct register operand names. -/
def evalOperand (insn : Word) (reg : Word → Word) (opds : List InsnOp) (opNo : Nat) : Option Word :=
  (operandAt opNo opds).bind fun here => operandValue insn reg here 0 0

/-- The first loop of `gen_eval_operands`. -/
def numOps : List InsnOp → Nat
  | [] => 0
  | opd :: opds =>
    let here := if opd.has optypeOp && !opd.has optypeDis then 1 else 0
    if opd.has optypeOp && !opd.has optypeDis && opd.has optypeLast then here else here + numOps opds

/-! ### Generated statements -/

/-- The lines `gen_eval_operands` writes. The operand variables `a`, `b`, … are numbered. -/
inductive GenStmt where
  | set (var : Nat) (shr : Nat) (mask : Word)
  | orShifted (var : Nat) (shr : Nat) (mask : Word) (nbits : Nat)
  | signExtend (var : Nat) (bit ext : Word)
  | addReg (var : Nat) (shr : Nat) (mask : Word)
  | defineSetParam0
  | defineParam (var : Nat) (isReg dst : Bool)
  deriving DecidableEq, Repr

def genSign (var : Nat) (opd : InsnOp) : List GenStmt :=
  if opd.has optypeSig then [.signExtend var (1 <<< opd.sbit) (BitVec.allOnes 32 <<< opd.sbit)] else []

/-- The lines at the end of an operand. -/
def genDefine (var i : Nat) (dis : Bool) (opd : InsnOp) : List GenStmt :=
  if opd.has optypeReg && !dis then
    (if i = 0 then [.defineSetParam0] else []) ++ [.defineParam var true (opd.has optypeDst)]
  else [.defineParam var false false]

/-- The second loop of `gen_eval_operands`. -/
def genLoop : List InsnOp → Nat → Nat → Nat → Bool → List GenStmt
  | [], _, _, _, _ => []
  | opd :: opds, i, nbits, var, dis =>
    let first : GenStmt := if nbits = 0 then .set var opd.shr opd.mask else .orShifted var opd.shr opd.mask nbits
    let nbits := nbits + opd.data
    if opd.has optypeDis && opd.has optypeOp then
      match opds with
      | [] => first :: genSign var opd
      | base :: opds =>
        first :: (genSign var opd ++ .addReg var base.shr base.mask ::
          if base.has optypeOp then
            genSign var base ++ genDefine var i true base ++
              if base.has optypeLast then [] else genLoop opds (i + 1) 0 (var + 1) false
          else if base.has optypeLast then [] else genLoop opds (i + 1) nbits var true)
    else
      first ::
        if opd.has optypeOp then
          genSign var opd ++ genDefine var i dis opd ++
            if opd.has optypeLast then [] else genLoop opds (i + 1) 0 (var + 1) false
        else if opd.has optypeLast then [] else genLoop opds (i + 1) nbits var dis

def genEvalOperands (opds : List InsnOp) : List GenStmt := genLoop opds 0 0 0 false

/-- `write_to_reg`: some register operand of the entry is a destination. -/
def writeToReg (opds : List InsnOp) : Bool :=
  (genEvalOperands opds).any fun
    | .defineParam _ true dst => dst
    | _ => false

def GenStmt.exec (insn : Word) (reg : Word → Word) (vars : Nat → Word) : GenStmt → Nat → Word
  | .set var shr mask => Function.update vars var ((insn >>> shr) &&& mask)
  | .orShifted var shr mask nbits =>
    Function.update vars var (vars var ||| (((insn >>> shr) &&& mask) <<< nbits))
  | .signExtend var bit ext => Function.update vars var (if vars var &&& bit ≠ 0 then vars var ||| ext else vars var)
  | .addReg var shr mask => Function.update vars var (vars var + reg ((insn >>> shr) &&& mask))
  | .defineSetParam0 => vars
  | .defineParam _ _ _ => vars

def execStmts (insn : Word) (reg : Word → Word) (stmts : List GenStmt) (vars : Nat → Word) : Nat → Word :=
  stmts.foldl (GenStmt.exec insn reg) vars

end Or1ksim.Decode
