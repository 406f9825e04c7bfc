import Mathlib

/-!
# Instructions of the custom unit compiler

What an instruction computes is said by its entry of the table of known instructions, a Verilog assignment.
-/

namespace Or1ksim.Cuc

abbrev Word := BitVec 32

/-- What an operand holds, an `unsigned long`: a constant, the number of a register or a reference. -/
abbrev Op := BitVec 64

instance neZero_five : NeZero 5 := ⟨by decide⟩

inductive Index where
  | add | sub | and | or | xor | mul | srl | sll | sra | lb | lh | lw | sb | sh | sw | sfeq | sfne | sfle | sflt | sfge | sfgt | bf
  | lrbb | cmov | reg | nop | call
  deriving DecidableEq, Repr

/-- The kinds of operand. A destination is a register with the mark `OPT_DEST`. -/
inductive Opt where
  | none | const | register | ref | jump | dest | bb | lrbb
  deriving DecidableEq, Repr

/-- The marks of an instruction. -/
structure Marks where
  branch : Bool := false
  output : Bool := false
  signed : Bool := false
  memory : Bool := false
  unused : Bool := false
  flag1 : Bool := false
  flag2 : Bool := false
  volatile : Bool := false
  cond : Bool := false
  memadd : Bool := false
  deriving DecidableEq, Repr

structure Insn where
  type : Marks := {}
  index : Index
  opt : Fin 5 → Opt
  op : Fin 5 → Op
  dep : List Op := []
  deriving DecidableEq

/-- An instruction that becomes a NOP loses its operands, its marks and its dependencies. -/
def Insn.changeInsnType (i : Insn) (index : Index) : Insn :=
  if index = .nop then { i with index, opt := fun _ => .none, type := {}, dep := [] } else { i with index }

def Insn.setOpt (i : Insn) (k : Fin 5) (kind : Opt) : Insn := { i with opt := Function.update i.opt k kind }

def Insn.setOp (i : Insn) (k : Fin 5) (kind : Opt) (value : Op) : Insn :=
  { i with opt := Function.update i.opt k kind, op := Function.update i.op k value }

section
variable {i : Insn} {index : Index} {k j : Fin 5} {kind : Opt} {value : Op}

theorem changeInsnType_of_ne (other : index ≠ .nop) : i.changeInsnType index = { i with index } := if_neg other

@[simp] theorem setOpt_index : (i.setOpt k kind).index = i.index := rfl
@[simp] theorem setOpt_type : (i.setOpt k kind).type = i.type := rfl
@[simp] theorem setOpt_op : (i.setOpt k kind).op = i.op := rfl
@[simp] theorem setOpt_opt : (i.setOpt k kind).opt j = if j = k then kind else i.opt j := Function.update_apply ..
@[simp] theorem setOp_index : (i.setOp k kind value).index = i.index := rfl
@[simp] theorem setOp_type : (i.setOp k kind value).type = i.type := rfl
@[simp] theorem setOp_opt : (i.setOp k kind value).opt j = if j = k then kind else i.opt j := Function.update_apply ..
@[simp] theorem setOp_op : (i.setOp k kind value).op j = if j = k then value else i.op j := Function.update_apply ..
end

/-! ### Values -/

/-- The value of a wire of one bit. -/
def bit (b : Bool) : Word := if b then 1 else 0

/-- The assignment of the table, with its operands `\2`, `\3` and `\4`; the instructions that have none there are the memory accesses,
branches, calls, registers, and the one that tells where the block was entered from. The shift amount of `sra` has 33 bits. -/
def Index.rtl : Index → Word → Word → Word → Option Word
  | .add, a, b, _ => some (a + b)
  | .sub, a, b, _ => some (a - b)
  | .and, a, b, _ => some (a &&& b)
  | .or, a, b, _ => some (a ||| b)
  | .xor, a, b, _ => some (a ^^^ b)
  | .mul, a, b, _ => some (a * b)
  | .srl, a, b, _ => some (a >>> b)
  | .sll, a, b, _ => some (a <<< b)
  | .sra, a, b, _ => some ((if a.msb then BitVec.allOnes 32 else 0) <<< ((32 : BitVec 33) - b.setWidth 33) ||| a >>> b)
  | .sfeq, a, b, _ => some (bit (decide (a = b)))
  | .sfne, a, b, _ => some (bit (decide (a ≠ b)))
  | .sfle, a, b, _ => some (bit (decide (a ≤ b)))
  | .sflt, a, b, _ => some (bit (decide (a < b)))
  | .sfge, a, b, _ => some (bit (decide (b ≤ a)))
  | .sfgt, a, b, _ => some (bit (decide (b < a)))
  | .cmov, a, b, c => some (if c ≠ 0 then a else b)
  | _, _, _, _ => none

section
variable {a b c : Word}

@[simp] theorem rtl_add : Index.rtl .add a b c = some (a + b) := rfl
@[simp] theorem rtl_sub : Index.rtl .sub a b c = some (a - b) := rfl
@[simp] theorem rtl_and : Index.rtl .and a b c = some (a &&& b) := rfl
@[simp] theorem rtl_or : Index.rtl .or a b c = some (a ||| b) := rfl
@[simp] theorem rtl_xor : Index.rtl .xor a b c = some (a ^^^ b) := rfl
@[simp] theorem rtl_mul : Index.rtl .mul a b c = some (a * b) := rfl
@[simp] theorem rtl_srl : Index.rtl .srl a b c = some (a >>> b) := rfl
@[simp] theorem rtl_sll : Index.rtl .sll a b c = some (a <<< b) := rfl
@[simp] theorem rtl_sra : Index.rtl .sra a b c =
    some ((if a.msb then BitVec.allOnes 32 else 0) <<< ((32 : BitVec 33) - b.setWidth 33) ||| a >>> b) := rfl
@[simp] theorem rtl_sfeq : Index.rtl .sfeq a b c = some (bit (decide (a = b))) := rfl
@[simp] theorem rtl_sfne : Index.rtl .sfne a b c = some (bit (decide (a ≠ b))) := rfl
@[simp] theorem rtl_sfle : Index.rtl .sfle a b c = some (bit (decide (a ≤ b))) := rfl
@[simp] theorem rtl_sflt : Index.rtl .sflt a b c = some (bit (decide (a < b))) := rfl
@[simp] theorem rtl_sfge : Index.rtl .sfge a b c = some (bit (decide (b ≤ a))) := rfl
@[simp] theorem rtl_sfgt : Index.rtl .sfgt a b c = some (bit (decide (b < a))) := rfl
@[simp] theorem rtl_cmov : Index.rtl .cmov a b c = some (if c ≠ 0 then a else b) := rfl
end

/-- What the operands are read from: the values of the instructions referred to, and what the other kinds of operand stand for. -/
structure Env where
  ref : Op → Word
  other : Opt → Op → Word

/-- A constant is printed as one of 32 bits. -/
def Env.operand (e : Env) (kind : Opt) (value : Op) : Word :=
  match kind with
  | .const => value.setWidth 32
  | .ref => e.ref value
  | kind => e.other kind value

def Insn.operand (i : Insn) (e : Env) (k : Fin 5) : Word := e.operand (i.opt k) (i.op k)

/-- What the instruction computes, if the table has an assignment for it. -/
def Insn.value (i : Insn) (e : Env) : Option Word := i.index.rtl (i.operand e 1) (i.operand e 2) (i.operand e 3)

/-- The instructions of this kind compute their value from `\2` and `\3` alone. -/
def Index.Binary (index : Index) : Prop :=
  index ∈ [Index.add, .sub, .and, .or, .xor, .mul, .srl, .sll, .sra, .sfeq, .sfne, .sfle, .sflt, .sfge, .sfgt]

instance (index : Index) : Decidable index.Binary := inferInstanceAs (Decidable (_ ∈ _))

section
variable {i : Insn} {e : Env} {k j : Fin 5} {kind : Opt} {value : Op}

@[simp] theorem Env.operand_const : e.operand .const value = value.setWidth 32 := rfl
@[simp] theorem Env.operand_ref : e.operand .ref value = e.ref value := rfl

theorem operand_const (const : i.opt k = .const) : i.operand e k = (i.op k).setWidth 32 := by
  rw [Insn.operand, const, Env.operand_const]

theorem operand_ref (ref : i.opt k = .ref) : i.operand e k = e.ref (i.op k) := by
  rw [Insn.operand, ref, Env.operand_ref]

theorem operand_congr {i' : Insn} (opt : i'.opt k = i.opt j) (op : i'.op k = i.op j) : i'.operand e k = i.operand e j := by
  rw [Insn.operand, opt, op, Insn.operand]

end

end Or1ksim.Cuc
