import Or1ksim.Cuc.Insn

/-!
# Edge conditions

`apply_edge_condition` replaces an instruction that has a neutral, an absorbing or only constant operands by a simpler one.
-/

namespace Or1ksim.Cuc

/-- The instruction, and whether it is reported as simplified. -/
abbrev Edged := Insn × Bool

def Insn.isConst (i : Insn) (k : Fin 5) : Bool := i.opt k = .const

def Insn.sameOps (i : Insn) (j k : Fin 5) : Bool := i.opt j = i.opt k && i.op j = i.op k

/-- An ADD of zero to the first operand. -/
def Insn.becomeMove (ii : Insn) : Insn := (ii.changeInsnType .add).setOp 2 .const 0

/-- An ADD of zero to a constant. -/
def Insn.becomeConst (ii : Insn) (c : Op) : Insn := ((ii.changeInsnType .add).setOp 1 .const c).setOp 2 .const 0

def Insn.becomeBit (ii : Insn) (b : Bool) : Insn := ii.becomeConst (if b then 1 else 0)

/-- The low word of the second operand, an `unsigned int`. -/
def Insn.c (ii : Insn) : Word := (ii.op 2).setWidth 32

def edgeAnd (ii : Insn) : Edged :=
  if ii.isConst 2 ∧ ii.c = 0 then (ii.becomeConst 0, true)
  else if ii.isConst 2 ∧ ii.c = 0xffffffff then (ii.becomeMove, true)
  else (ii, false)

/-- As for AND a zero makes the result constant. -/
def edgeOr (ii : Insn) : Edged :=
  if ii.isConst 2 ∧ ii.c = 0 then (ii.becomeConst (ii.c.setWidth 64), true)
  else if ii.isConst 2 ∧ ii.c = 0xffffffff then (ii.becomeConst 0xffffffff, true)
  else (ii, false)

def edgeSub (ii : Insn) : Edged := if ii.sameOps 1 2 then (ii.becomeConst 0, true) else (ii, false)

/-- A factor of one makes the result the factor. -/
def edgeMul (ii : Insn) : Edged :=
  if ii.isConst 2 ∧ ii.c = 0 then (ii.becomeConst 0, true)
  else if ii.isConst 2 ∧ ii.c = 1 then (ii.becomeConst (ii.c.setWidth 64), true)
  else if ii.isConst 2 ∧ ii.c = 0xffffffff then
    (((ii.changeInsnType .sub).setOp 2 (ii.opt 1) (ii.op 1)).setOp 1 .const 0, true)
  else (ii, false)

/-- The cases of SRL and SLL. A shift by zero makes the result the amount. -/
def edgeShift (ii : Insn) : Edged :=
  if ii.isConst 2 ∧ ii.c = 0 then (ii.becomeConst (ii.c.setWidth 64), true)
  else if ii.isConst 2 ∧ 32 ≤ ii.c then (ii.becomeConst 0, true)
  else (ii, false)

def edgeSra (ii : Insn) : Edged :=
  if ii.isConst 2 ∧ ii.c = 0 then (ii.becomeConst (ii.c.setWidth 64), true) else (ii, false)

def edgeSfeq (ii : Insn) : Edged :=
  if ii.isConst 1 ∧ ii.isConst 2 then (ii.becomeBit (ii.op 1 = ii.op 2), true) else (ii, false)

def edgeSfne (ii : Insn) : Edged :=
  if ii.isConst 1 ∧ ii.isConst 2 then (ii.becomeBit (ii.op 1 ≠ ii.op 2), true) else (ii, false)

/-- The test of the constants is `ii->opt[2] && OPT_CONST`, which every operand passes that is there. -/
def Insn.zeroOp (ii : Insn) : Bool := ii.opt 2 ≠ .none && ii.op 2 = 0

/-- SFLT sets no second operand here and reports nothing. -/
def edgeSflt (ii : Insn) : Edged :=
  if ii.isConst 1 ∧ ii.isConst 2 then (ii.becomeBit (ii.op 1 < ii.op 2), true)
  else if ii.zeroOp then ((ii.changeInsnType .add).setOp 1 .const 0, false)
  else (ii, false)

/-- SFLE with a zero falls through into SFLT, now as SFEQ. -/
def edgeSfle (ii : Insn) : Edged :=
  if ii.isConst 1 ∧ ii.isConst 2 then (ii.becomeBit (ii.op 1 ≤ ii.op 2), true)
  else if ii.zeroOp then edgeSflt (ii.changeInsnType .sfeq)
  else (ii, false)

/-- What is left of the cases of CMOV for a conditional one. -/
def edgeCmovCond (ii : Insn) : Edged :=
  if ii.isConst 1 ∧ ii.isConst 2 ∧ ii.op 1 ≠ 0 ∧ ii.op 2 = 0 then
    ((ii.becomeMove.setOp 1 (ii.opt 3) (ii.op 3)).setOpt 3 .none, true)
  else if ii.isConst 1 ∧ ii.isConst 2 ∧ ii.op 1 ≠ 0 ∧ ii.op 2 ≠ 0 then ((ii.becomeConst 1).setOpt 3 .none, true)
  else if ii.isConst 1 ∧ ii.isConst 2 ∧ ii.op 1 = 0 ∧ ii.op 2 = 0 then ((ii.becomeConst 0).setOpt 3 .none, true)
  else if ii.sameOps 1 3 then (ii.setOp 1 .const 1, true)
  else if ii.sameOps 2 3 then (ii.setOp 2 .const 0, true)
  else (ii, false)

def edgeCmov (ii : Insn) : Edged :=
  if ii.sameOps 1 2 then (ii.becomeMove.setOpt 3 .none, true)
  else if ii.isConst 3 then
    if ii.op 3 ≠ 0 then (ii.becomeMove.setOpt 3 .none, true)
    else (((ii.changeInsnType .add).setOp 1 .const 0).setOpt 3 .none, true)
  else if ii.type.cond then edgeCmovCond ii
  else (ii, false)

/-- SFGT with a zero falls through into CMOV, now as SFNE. -/
def edgeSfgt (ii : Insn) : Edged :=
  if ii.isConst 1 ∧ ii.isConst 2 then (ii.becomeBit (ii.op 2 < ii.op 1), true)
  else if ii.zeroOp then edgeCmov (ii.changeInsnType .sfne)
  else (ii, false)

/-- SFGE with a zero falls through into SFGT, now as an ADD to one. -/
def edgeSfge (ii : Insn) : Edged :=
  if ii.isConst 1 ∧ ii.isConst 2 then (ii.becomeBit (ii.op 2 ≤ ii.op 1), true)
  else if ii.zeroOp then edgeSfgt ((ii.changeInsnType .add).setOp 1 .const 1)
  else (ii, false)

def applyEdgeCondition (ii : Insn) : Edged :=
  match ii.index with
  | .and => edgeAnd ii
  | .or => edgeOr ii
  | .sub => edgeSub ii
  | .mul => edgeMul ii
  | .srl => edgeShift ii
  | .sll => edgeShift ii
  | .sra => edgeSra ii
  | .sfeq => edgeSfeq ii
  | .sfne => edgeSfne ii
  | .sfle => edgeSfle ii
  | .sflt => edgeSflt ii
  | .sfge => edgeSfge ii
  | .sfgt => edgeSfgt ii
  | .cmov => edgeCmov ii
  | _ => (ii, false)

/-! ### What has to be kept -/

section
variable (cond : Op → Bool)

/-- The operands the assignment reads are constants or references; the condition of a CMOV is conditional, and no other instruction has
one. -/
structure HasForm (ii : Insn) : Prop where
  pair : ii.index.Binary ∨ ii.index = .cmov → ∀ k ∈ [(1 : Fin 5), 2], ii.opt k = .const ∨ ii.opt k = .ref
  chosen : ii.index = .cmov → ii.opt 3 = .const ∨ ii.opt 3 = .ref ∧ cond (ii.op 3)
  alone : ii.index.Binary → ii.opt 3 = .none

/-- The conditional instructions referred to have the value zero or one. -/
def Env.Typed (e : Env) : Prop := ∀ r, cond r → e.ref r = 0 ∨ e.ref r = 1

/-- The value is kept for all values of the operands, and a change is reported. -/
def Preserved (ii : Insn) (after : Edged) : Prop :=
  (∀ e : Env, e.Typed cond → after.1.value e = ii.value e) ∧ (after.1 ≠ ii → after.2)
end

/-- The operand is a constant with this low word. -/
def Insn.IsWord (ii : Insn) (k : Fin 5) (w : Word) : Prop := ii.opt k = .const ∧ (ii.op k).setWidth 32 = w

instance (ii : Insn) (k : Fin 5) (w : Word) : Decidable (ii.IsWord k w) := inferInstanceAs (Decidable (_ ∧ _))

/-- The comparison of the two constants as `unsigned long` is the one of their low words. -/
def Insn.SameOrder (ii : Insn) : Prop :=
  ii.isConst 1 → ii.isConst 2 →
    match ii.index with
    | .sfeq | .sfne => (ii.op 1 = ii.op 2 ↔ (ii.op 1).setWidth 32 = (ii.op 2).setWidth 32)
    | .sflt | .sfge => (ii.op 1 < ii.op 2 ↔ (ii.op 1).setWidth 32 < (ii.op 2).setWidth 32)
    | _ => (ii.op 1 ≤ ii.op 2 ↔ (ii.op 1).setWidth 32 ≤ (ii.op 2).setWidth 32)

/-- When a CMOV may be simplified as it is: a constant condition is zero only with a low word that is,
and of a conditional one with constant arms the arms that are taken for true are one. -/
def CmovHolds (ii : Insn) : Prop :=
  ii.sameOps 1 2 ∨ (∃ w, ii.IsWord 1 w ∧ ii.IsWord 2 w) ∧ ii.isConst 3 ∨
    if ii.isConst 3 then ii.op 3 ≠ 0 → (ii.op 3).setWidth 32 ≠ (0 : Word)
    else ii.type.cond → ii.isConst 1 → ii.isConst 2 → ii.op 1 ≠ 0 →
      ii.IsWord 1 1 ∧ (ii.op 2 ≠ 0 → ii.IsWord 2 1)

/-- When `apply_edge_condition` keeps what the instruction computes and says that it changed it. -/
def EdgeHolds (ii : Insn) : Prop :=
  match ii.index with
  | .or => ii.IsWord 2 0 → ii.IsWord 1 0
  | .mul => ii.IsWord 2 1 → ii.IsWord 1 1
  | .srl | .sll | .sra => ii.IsWord 2 0 → ii.IsWord 1 0
  | .sfeq | .sfne => ii.SameOrder
  | .sfle | .sflt | .sfgt => ii.SameOrder ∧ (ii.op 2 = 0 → ii.isConst 1 ∧ ii.isConst 2)
  | .sfge => ii.SameOrder ∧ (ii.op 2 = 0 → ii.isConst 2)
  | .cmov => CmovHolds ii
  | _ => True

/-! ### The values before and after -/

/-- All the instructions referred to have this value. -/
def Env.flat (w : Word) : Env := ⟨fun _ => w, fun _ _ => w⟩

section
variable {cond : Op → Bool} {ii ii' : Insn} {e : Env} {k : Fin 5} {w : Word} {c : Op} {b : Bool}

theorem flat_typed (one : w = 0 ∨ w = 1) : (Env.flat w).Typed cond := fun _ _ => one

theorem isConst_iff : ii.isConst k ↔ ii.opt k = .const := by simp [Insn.isConst]

theorem isWord_c : ii.isConst 2 ∧ ii.c = w ↔ ii.IsWord 2 w := by simp [Insn.isConst, Insn.c, Insn.IsWord]

theorem sameOps_iff {j : Fin 5} : ii.sameOps j k ↔ ii.opt j = ii.opt k ∧ ii.op j = ii.op k := by simp [Insn.sameOps]

theorem operand_isWord (word : ii.IsWord k w) : ii.operand e k = w := by rw [operand_const word.1, word.2]

/-- An operand that is no constant takes both zero and one. -/
theorem operand_fixed_iff (kind : ii.opt k = .const ∨ ii.opt k = .ref) :
    (∀ e : Env, e.Typed cond → ii.operand e k = w) ↔ ii.IsWord k w := by
  constructor
  · intro fixed
    have zero := fixed (Env.flat 0) (flat_typed (.inl rfl))
    have one := fixed (Env.flat 1) (flat_typed (.inr rfl))
    obtain const | ref := kind
    · exact ⟨const, by rw [← zero, operand_const const]⟩
    · rw [operand_ref ref] at zero one
      have absurdity : (0 : Word) = 1 := zero.trans one.symm
      cases absurdity
  · exact fun word e _ => operand_isWord word

theorem becomeConst_value : (ii.becomeConst c).value e = some (c.setWidth 32) := by
  simp [Insn.becomeConst, Insn.value, changeInsnType_of_ne, Insn.operand, Env.operand]

theorem becomeMove_value : ii.becomeMove.value e = some (ii.operand e 1) := by
  simp [Insn.becomeMove, Insn.value, changeInsnType_of_ne, Insn.operand]

theorem moveAlone_value : (ii.becomeMove.setOpt 3 .none).value e = some (ii.operand e 1) := by
  rw [← becomeMove_value]
  simp [Insn.becomeMove, Insn.value, changeInsnType_of_ne, Insn.operand]

theorem becomeBit_value : (ii.becomeBit b).value e = some (bit b) := by
  rw [Insn.becomeBit, becomeConst_value]
  cases b <;> rfl

theorem mul_ones (x : Word) : x * 0xffffffff = -x := by
  rw [show (0xffffffff : Word) = -1 by decide, BitVec.mul_neg]
  exact congrArg Neg.neg (BitVec.mul_one x)

theorem bit_inj {a b : Bool} : bit a = bit b ↔ a = b := by cases a <;> cases b <;> decide

theorem preserved_self {r : Bool} : Preserved cond ii (ii, r) := ⟨fun _ _ => rfl, fun other => absurd rfl other⟩

theorem preserved_reported : Preserved cond ii (ii', true) ↔ ∀ e : Env, e.Typed cond → ii'.value e = ii.value e := by simp [Preserved]

theorem not_preserved (other : ii'.index ≠ ii.index) : ¬Preserved cond ii (ii', false) := by
  intro kept
  have reported := kept.2 fun same => other (congrArg Insn.index same)
  cases reported

end

/-! ### Each case of the switch -/

section
variable {cond : Op → Bool} {ii : Insn} {w : Word}

/-- Where the second operand is neutral, it is put in the place of the result. -/
theorem neutral_iff (form : HasForm cond ii) (binary : ii.index.Binary) (word : ii.IsWord 2 w)
    (neutral : ∀ x z, ii.index.rtl x w z = some x) : Preserved cond ii (ii.becomeConst (ii.c.setWidth 64), true) ↔ ii.IsWord 1 w := by
  have c : ii.c = w := word.2
  rw [preserved_reported, ← @operand_fixed_iff cond _ _ _ (form.pair (.inl binary) 1 (by simp))]
  refine forall₂_congr fun e _ => ?_
  rw [becomeConst_value, Insn.value, operand_isWord word, neutral, c]
  simp [eq_comm]

theorem edgeAnd_preserved (index : ii.index = .and) : Preserved cond ii (edgeAnd ii) := by
  unfold edgeAnd
  simp only [isWord_c]
  split_ifs with zero ones
  · refine preserved_reported.mpr fun e _ => ?_
    rw [becomeConst_value, Insn.value, index, operand_isWord zero]
    simp
  · refine preserved_reported.mpr fun e _ => ?_
    rw [becomeMove_value, Insn.value, index, operand_isWord ones]
    exact congrArg some (BitVec.and_allOnes).symm
  · exact preserved_self

theorem edgeOr_iff (form : HasForm cond ii) (index : ii.index = .or) :
    Preserved cond ii (edgeOr ii) ↔ (ii.IsWord 2 0 → ii.IsWord 1 0) := by
  unfold edgeOr
  simp only [isWord_c]
  split_ifs with zero ones
  · rw [forall_prop_of_true zero]
    refine neutral_iff form (by simp [index, Index.Binary]) zero fun x z => ?_
    rw [index, rtl_or]
    exact congrArg some BitVec.or_zero
  · refine iff_of_true (preserved_reported.mpr fun e _ => ?_) fun zero => absurd (zero.2.symm.trans ones.2) (by decide)
    rw [becomeConst_value, Insn.value, index, operand_isWord ones]
    exact congrArg some (BitVec.or_allOnes).symm
  · exact iff_of_true preserved_self fun word => absurd word zero

theorem edgeSub_preserved (index : ii.index = .sub) : Preserved cond ii (edgeSub ii) := by
  unfold edgeSub
  split_ifs with same
  · obtain ⟨opt, op⟩ := sameOps_iff.mp same
    refine preserved_reported.mpr fun e _ => ?_
    rw [becomeConst_value, Insn.value, index, operand_congr opt op]
    simp
  · exact preserved_self

theorem edgeMul_iff (form : HasForm cond ii) (index : ii.index = .mul) :
    Preserved cond ii (edgeMul ii) ↔ (ii.IsWord 2 1 → ii.IsWord 1 1) := by
  unfold edgeMul
  simp only [isWord_c]
  split_ifs with zero one ones
  · refine iff_of_true (preserved_reported.mpr fun e _ => ?_) fun one => absurd (one.2.symm.trans zero.2) (by decide)
    rw [becomeConst_value, Insn.value, index, operand_isWord zero]
    simp
  · rw [forall_prop_of_true one]
    refine neutral_iff form (by simp [index, Index.Binary]) one fun x z => ?_
    rw [index, rtl_mul]
    exact congrArg some (BitVec.mul_one x)
  · refine iff_of_true (preserved_reported.mpr fun e _ => ?_) fun word => absurd word one
    have negated : (((ii.changeInsnType .sub).setOp 2 (ii.opt 1) (ii.op 1)).setOp 1 .const 0).value e = some (0 - ii.operand e 1) := by
      simp [Insn.value, changeInsnType_of_ne, Insn.operand]
    rw [negated, Insn.value, index, operand_isWord ones, rtl_mul, mul_ones]
    exact congrArg some (BitVec.zero_sub _)
  · exact iff_of_true preserved_self fun word => absurd word one

theorem srl_amount (x y z : Word) : Index.srl.rtl x y z = some (x >>> y.toNat) := rfl
theorem sll_amount (x y z : Word) : Index.sll.rtl x y z = some (x <<< y.toNat) := rfl

theorem shift_zero (index : ii.index = .srl ∨ ii.index = .sll ∨ ii.index = .sra) (x z : Word) : ii.index.rtl x 0 z = some x := by
  obtain index | index | index := index <;> simp [index]

theorem edgeShift_iff (form : HasForm cond ii) (index : ii.index = .srl ∨ ii.index = .sll) :
    Preserved cond ii (edgeShift ii) ↔ (ii.IsWord 2 0 → ii.IsWord 1 0) := by
  have binary : ii.index.Binary := by obtain index | index := index <;> simp [index, Index.Binary]
  unfold edgeShift
  simp only [isWord_c]
  split_ifs with zero large
  · rw [forall_prop_of_true zero]
    exact neutral_iff form binary zero (shift_zero (index.imp_right .inl))
  · obtain ⟨const, more⟩ := large
    refine iff_of_true (preserved_reported.mpr fun e _ => ?_) fun word => absurd word zero
    have amount : 32 ≤ (ii.operand e 2).toNat := by rw [operand_const (isConst_iff.mp const)]; exact more
    rw [becomeConst_value, Insn.value]
    obtain index | index := index <;> rw [index]
    · rw [srl_amount, BitVec.ushiftRight_eq_zero amount]; rfl
    · rw [sll_amount, BitVec.shiftLeft_eq_zero amount]; rfl
  · exact iff_of_true preserved_self fun word => absurd word zero

theorem edgeSra_iff (form : HasForm cond ii) (index : ii.index = .sra) :
    Preserved cond ii (edgeSra ii) ↔ (ii.IsWord 2 0 → ii.IsWord 1 0) := by
  unfold edgeSra
  simp only [isWord_c]
  split_ifs with zero
  · rw [forall_prop_of_true zero]
    exact neutral_iff form (by simp [index, Index.Binary]) zero (shift_zero (.inr (.inr index)))
  · exact iff_of_true preserved_self fun word => absurd word zero

/-! ### The comparisons -/

/-- Two constants are compared as `unsigned long` by `p` and as words by `q`. -/
theorem constants_iff {p : Prop} {q : Word → Word → Prop} [Decidable p] [DecidableRel q]
    (rtl : ∀ x y z, ii.index.rtl x y z = some (bit (decide (q x y)))) (consts : ii.isConst 1 ∧ ii.isConst 2) :
    Preserved cond ii (ii.becomeBit (decide p), true) ↔ (p ↔ q ((ii.op 1).setWidth 32) ((ii.op 2).setWidth 32)) := by
  have value : ∀ e, ii.value e = some (bit (decide (q ((ii.op 1).setWidth 32) ((ii.op 2).setWidth 32)))) := fun e => by
    rw [Insn.value, operand_const (isConst_iff.mp consts.1), operand_const (isConst_iff.mp consts.2), rtl]
  rw [preserved_reported, ← decide_eq_decide (p := p), ← bit_inj]
  simp only [becomeBit_value, value, Option.some.injEq]
  exact ⟨fun same => same (Env.flat 0) (flat_typed (.inl rfl)), fun same _ _ => same⟩

theorem zeroOp_iff (form : HasForm cond ii) (binary : ii.index.Binary) : ii.zeroOp ↔ ii.op 2 = 0 := by
  have kind := form.pair (.inl binary) 2 (by simp)
  obtain kind | kind := kind <;> simp [Insn.zeroOp, kind]

theorem sameOrder_of_not (consts : ¬(ii.isConst 1 ∧ ii.isConst 2)) : ii.SameOrder :=
  fun first second => absurd ⟨first, second⟩ consts

theorem sameOrder_iff (consts : ii.isConst 1 ∧ ii.isConst 2) {p : Prop} (same : ii.SameOrder ↔ (ii.isConst 1 → ii.isConst 2 → p)) :
    ii.SameOrder ↔ p := by
  rw [same, forall_prop_of_true consts.1, forall_prop_of_true consts.2]

theorem edgeSfeq_iff (index : ii.index = .sfeq) : Preserved cond ii (edgeSfeq ii) ↔ ii.SameOrder := by
  unfold edgeSfeq
  split_ifs with consts
  · rw [constants_iff (q := fun x y => x = y) (by simp [index]) consts, sameOrder_iff consts (by rw [Insn.SameOrder, index])]
  · exact iff_of_true preserved_self (sameOrder_of_not consts)

theorem edgeSfne_iff (index : ii.index = .sfne) : Preserved cond ii (edgeSfne ii) ↔ ii.SameOrder := by
  unfold edgeSfne
  split_ifs with consts
  · rw [constants_iff (q := fun x y => x ≠ y) (by simp [index]) consts,
      sameOrder_iff consts (by rw [Insn.SameOrder, index]), not_iff_not]
  · exact iff_of_true preserved_self (sameOrder_of_not consts)

theorem edgeSflt_iff (form : HasForm cond ii) (index : ii.index = .sflt) :
    Preserved cond ii (edgeSflt ii) ↔ ii.SameOrder ∧ (ii.op 2 = 0 → ii.isConst 1 ∧ ii.isConst 2) := by
  have zero := zeroOp_iff form (by simp [index, Index.Binary])
  unfold edgeSflt
  split_ifs with consts none
  · rw [constants_iff (q := fun x y => x < y) (by simp [index]) consts, sameOrder_iff consts (by rw [Insn.SameOrder, index])]
    exact (and_iff_left fun _ => consts).symm
  · refine iff_of_false (not_preserved ?_) fun holds => consts (holds.2 (zero.mp none))
    simp [changeInsnType_of_ne, index]
  · exact iff_of_true preserved_self ⟨sameOrder_of_not consts, fun none' => absurd (zero.mpr none') none⟩

theorem edgeSfle_iff (form : HasForm cond ii) (index : ii.index = .sfle) :
    Preserved cond ii (edgeSfle ii) ↔ ii.SameOrder ∧ (ii.op 2 = 0 → ii.isConst 1 ∧ ii.isConst 2) := by
  have zero := zeroOp_iff form (by simp [index, Index.Binary])
  unfold edgeSfle
  split_ifs with consts none
  · rw [constants_iff (q := fun x y => x ≤ y) (by simp [index]) consts, sameOrder_iff consts (by rw [Insn.SameOrder, index])]
    exact (and_iff_left fun _ => consts).symm
  · have fallen : edgeSflt (ii.changeInsnType .sfeq) = (((ii.changeInsnType .sfeq).changeInsnType .add).setOp 1 .const 0, false) :=
      (if_neg consts).trans (if_pos none)
    rw [fallen]
    refine iff_of_false (not_preserved ?_) fun holds => consts (holds.2 (zero.mp none))
    simp [changeInsnType_of_ne, index]
  · exact iff_of_true preserved_self ⟨sameOrder_of_not consts, fun none' => absurd (zero.mpr none') none⟩

/-- What reaches the cases of CMOV from above has no condition. -/
theorem edgeCmov_fallen (kind : ii.opt 1 = .const ∨ ii.opt 1 = .ref) (kind' : ii.opt 2 = .const ∨ ii.opt 2 = .ref)
    (alone : ii.opt 3 = .none) (apart : ii.opt 1 ≠ .const ∨ ii.opt 2 ≠ .const) :
    edgeCmov ii = if ii.sameOps 1 2 then (ii.becomeMove.setOpt 3 .none, true) else (ii, false) := by
  have consts : ¬(ii.isConst 1 ∧ ii.isConst 2) := by
    rw [isConst_iff, isConst_iff]
    exact fun both => apart.elim (fun first => first both.1) fun second => second both.2
  have first : ¬ii.sameOps 1 3 := fun same => by
    have opt := (sameOps_iff.mp same).1
    obtain kind | kind := kind <;> simp [kind, alone] at opt
  have second : ¬ii.sameOps 2 3 := fun same => by
    have opt := (sameOps_iff.mp same).1
    obtain kind' | kind' := kind' <;> simp [kind', alone] at opt
  have unconditional : ii.isConst 3 = false := by simp [Insn.isConst, alone]
  have rest : edgeCmovCond ii = (ii, false) := by
    rw [edgeCmovCond, if_neg (by tauto), if_neg (by tauto), if_neg (by tauto), if_neg first, if_neg second]
  simp [edgeCmov, unconditional, rest]

theorem edgeSfgt_iff (form : HasForm cond ii) (index : ii.index = .sfgt) :
    Preserved cond ii (edgeSfgt ii) ↔ ii.SameOrder ∧ (ii.op 2 = 0 → ii.isConst 1 ∧ ii.isConst 2) := by
  have binary : ii.index.Binary := by simp [index, Index.Binary]
  have kind := form.pair (.inl binary)
  have zero := zeroOp_iff form binary
  unfold edgeSfgt
  split_ifs with consts none
  · rw [constants_iff (q := fun x y => y < x) (by simp [index]) consts, sameOrder_iff consts (by rw [Insn.SameOrder, index]),
      ← BitVec.not_le, ← BitVec.not_le, not_iff_not]
    exact (and_iff_left fun _ => consts).symm
  · refine iff_of_false (fun kept => ?_) fun holds => consts (holds.2 (zero.mp none))
    have apart : ii.opt 1 ≠ .const ∨ ii.opt 2 ≠ .const := by
      rw [← not_and_or, ← isConst_iff, ← isConst_iff]
      exact consts
    have fallen := @edgeCmov_fallen (ii.changeInsnType .sfne) (kind 1 (by simp)) (kind 2 (by simp)) (form.alone binary) apart
    rw [fallen] at kept
    split_ifs at kept with same
    · -- one operand is compared with itself: zero before, the operand after
      obtain ⟨opt, op⟩ := sameOps_iff.mp same
      have ref : ii.opt 1 = .ref := (kind 1 (by simp)).resolve_left fun const => consts
        ⟨isConst_iff.mpr const, isConst_iff.mpr (opt.symm.trans const)⟩
      have value := preserved_reported.mp kept (Env.flat 1) (flat_typed (.inr rfl))
      have one : (ii.changeInsnType .sfne).operand (Env.flat 1) 1 = 1 := operand_ref ref
      have equal : ii.operand (Env.flat 1) 1 = ii.operand (Env.flat 1) 2 := operand_congr opt op
      rw [moveAlone_value, one, Insn.value, index, equal] at value
      simp [bit] at value
    · exact not_preserved (by simp [index, changeInsnType_of_ne]) kept
  · exact iff_of_true preserved_self ⟨sameOrder_of_not consts, fun none' => absurd (zero.mpr none') none⟩

/-- What reaches the cases of SFGT from above has the constant one as its first operand. -/
theorem edgeSfgt_fallen (first : ii.opt 1 = .const) (second : ii.opt 2 = .ref) (alone : ii.opt 3 = .none) (none : ii.op 2 = 0) :
    edgeSfgt ii = (ii.changeInsnType .sfne, false) := by
  have consts : ¬(ii.isConst 1 ∧ ii.isConst 2) := by simp [Insn.isConst, second]
  have zero : ii.zeroOp := by simp [Insn.zeroOp, second, none]
  have apart : ¬(ii.changeInsnType .sfne).sameOps 1 2 := by simp [Insn.sameOps, changeInsnType_of_ne, first, second]
  have fallen := @edgeCmov_fallen (ii.changeInsnType .sfne) (.inl first) (.inr second) alone
    (.inr (by simp [changeInsnType_of_ne, second]))
  rw [edgeSfgt, if_neg consts, if_pos zero, fallen, if_neg apart]

theorem edgeSfge_iff (form : HasForm cond ii) (index : ii.index = .sfge) :
    Preserved cond ii (edgeSfge ii) ↔ ii.SameOrder ∧ (ii.op 2 = 0 → ii.isConst 2) := by
  have binary : ii.index.Binary := by simp [index, Index.Binary]
  have zero := zeroOp_iff form binary
  unfold edgeSfge
  split_ifs with consts none
  · rw [constants_iff (q := fun x y => y ≤ x) (by simp [index]) consts, sameOrder_iff consts (by rw [Insn.SameOrder, index]),
      ← BitVec.not_lt, ← BitVec.not_lt, not_iff_not]
    exact (and_iff_left fun _ => consts.2).symm
  · have op : ii.op 2 = 0 := zero.mp none
    have first : ((ii.changeInsnType .add).setOp 1 .const 1).opt 1 = .const := by simp
    obtain const | ref := form.pair (.inl binary) 2 (by simp)
    · have fallen : edgeSfgt ((ii.changeInsnType .add).setOp 1 .const 1) =
          (((ii.changeInsnType .add).setOp 1 .const 1).becomeBit true, true) := by
        simp [edgeSfgt, Insn.isConst, changeInsnType_of_ne, const, op]
      rw [fallen]
      refine iff_of_true (preserved_reported.mpr fun e _ => ?_) ⟨sameOrder_of_not consts, fun _ => isConst_iff.mpr const⟩
      have least : (0 : Op).setWidth 32 ≤ ii.operand e 1 := BitVec.le_def.mpr (Nat.zero_le _)
      rw [becomeBit_value, Insn.value, index, operand_const const, op, rtl_sfge, decide_eq_true least]
    · rw [edgeSfgt_fallen first (by simp [changeInsnType_of_ne, ref]) (by simp [changeInsnType_of_ne, form.alone binary])
        (by simp [changeInsnType_of_ne, op])]
      refine iff_of_false (not_preserved ?_) fun holds => ?_
      · simp [changeInsnType_of_ne, index]
      · exact absurd (isConst_iff.mp (holds.2 op)) (by simp [ref])
  · exact iff_of_true preserved_self ⟨sameOrder_of_not consts, fun none' => absurd (zero.mpr none') none⟩

/-! ### Conditional moves -/

theorem cmov_value (index : ii.index = .cmov) (e : Env) :
    ii.value e = some (if ii.operand e 3 ≠ 0 then ii.operand e 1 else ii.operand e 2) := by rw [Insn.value, index, rtl_cmov]

/-- Two references are told apart by some values, and so are a reference and a constant. -/
theorem operands_equal_iff (kind : ii.opt 1 = .const ∨ ii.opt 1 = .ref) (kind' : ii.opt 2 = .const ∨ ii.opt 2 = .ref) :
    (∀ e : Env, e.Typed cond → ii.operand e 1 = ii.operand e 2) ↔ ii.sameOps 1 2 ∨ ∃ w, ii.IsWord 1 w ∧ ii.IsWord 2 w := by
  constructor
  · intro equal
    obtain const | ref := kind
    · refine .inr ⟨_, ⟨const, rfl⟩, (@operand_fixed_iff cond _ _ _ kind').mp fun e typed => ?_⟩
      rw [← equal e typed, operand_const const]
    · obtain const' | ref' := kind'
      · have word : ii.IsWord 1 ((ii.op 2).setWidth 32) := (@operand_fixed_iff cond _ _ _ (.inr ref)).mp fun e typed => by
          rw [equal e typed, operand_const const']
        exact .inr ⟨_, word, const', rfl⟩
      · by_cases same : ii.op 1 = ii.op 2
        · exact .inl (sameOps_iff.mpr ⟨ref.trans ref'.symm, same⟩)
        · have typed : (⟨fun r => if r = ii.op 1 then 1 else 0, fun _ _ => 0⟩ : Env).Typed cond := fun r _ => by
            by_cases first : r = ii.op 1 <;> simp [first]
          have absurdity := equal _ typed
          rw [operand_ref ref, operand_ref ref'] at absurdity
          simp [Ne.symm same] at absurdity
  · rintro (same | ⟨w, word, word'⟩) e _
    · obtain ⟨opt, op⟩ := sameOps_iff.mp same
      exact operand_congr opt op
    · rw [operand_isWord word, operand_isWord word']

/-- An arm that is the condition itself is one where it is taken for true and zero where it is taken for false. -/
theorem edgeCmovArms_preserved (index : ii.index = .cmov) (ref : ii.opt 3 = .ref) (chosen : cond (ii.op 3)) :
    Preserved cond ii (if ii.sameOps 1 3 then (ii.setOp 1 .const 1, true) else if ii.sameOps 2 3 then (ii.setOp 2 .const 0, true)
      else (ii, false)) := by
  have cases3 : ∀ e : Env, e.Typed cond → ii.operand e 3 = 0 ∨ ii.operand e 3 = 1 := fun e typed => by
    rw [operand_ref ref]
    exact typed _ chosen
  split_ifs with first second
  · refine preserved_reported.mpr fun e typed => ?_
    obtain ⟨opt, op⟩ := sameOps_iff.mp first
    have one : (ii.setOp 1 .const 1).operand e 1 = 1 := by simp [Insn.operand]
    have others : ∀ k ∈ [(2 : Fin 5), 3], (ii.setOp 1 .const 1).operand e k = ii.operand e k := by simp [Insn.operand]
    rw [cmov_value index, cmov_value (by simpa using index), one, others 2 (by simp), others 3 (by simp), operand_congr opt op]
    obtain zero | one := cases3 e typed <;> simp [*]
  · refine preserved_reported.mpr fun e typed => ?_
    obtain ⟨opt, op⟩ := sameOps_iff.mp second
    have zero : (ii.setOp 2 .const 0).operand e 2 = 0 := by simp [Insn.operand]
    have others : ∀ k ∈ [(1 : Fin 5), 3], (ii.setOp 2 .const 0).operand e k = ii.operand e k := by simp [Insn.operand]
    have same : ii.operand e 2 = ii.operand e 3 := operand_congr opt op
    rw [cmov_value index, cmov_value (by simpa using index), zero, others 1 (by simp), others 3 (by simp), same]
    obtain zero | one := cases3 e typed <;> simp [*]
  · exact preserved_self

theorem edgeCmovCond_iff (index : ii.index = .cmov) (apart : ¬ii.sameOps 1 2) (ref : ii.opt 3 = .ref) (chosen : cond (ii.op 3)) :
    Preserved cond ii (edgeCmovCond ii) ↔
      (ii.isConst 1 → ii.isConst 2 → ii.op 1 ≠ 0 → ii.IsWord 1 1 ∧ (ii.op 2 ≠ 0 → ii.IsWord 2 1)) := by
  have third : ∀ e, ii.operand e 3 = e.ref (ii.op 3) := fun e => operand_ref ref
  by_cases consts : ii.isConst 1 ∧ ii.isConst 2 ∧ ii.op 1 ≠ 0
  · obtain ⟨const1, const2, nonzero⟩ := consts
    have first : ∀ e, ii.operand e 1 = (ii.op 1).setWidth 32 := fun e => operand_const (isConst_iff.mp const1)
    have second : ∀ e, ii.operand e 2 = (ii.op 2).setWidth 32 := fun e => operand_const (isConst_iff.mp const2)
    simp only [const1, const2, ne_eq, nonzero, not_false_eq_true, forall_const, Insn.IsWord, isConst_iff.mp const1,
      isConst_iff.mp const2, true_and]
    by_cases zero : ii.op 2 = 0
    · rw [edgeCmovCond, if_pos ⟨const1, const2, nonzero, zero⟩, preserved_reported]
      have moved : ∀ e, ((ii.becomeMove.setOp 1 (ii.opt 3) (ii.op 3)).setOpt 3 .none).value e = some (ii.operand e 3) := fun e => by
        simp [Insn.becomeMove, Insn.value, changeInsnType_of_ne, Insn.operand]
      simp only [moved, cmov_value index, first, second, third, Option.some.injEq, zero]
      constructor
      · intro kept
        have one := kept (Env.flat 1) (flat_typed (.inr rfl))
        exact ⟨by simpa [Env.flat, eq_comm] using one, fun other => absurd trivial other⟩
      · rintro ⟨one, _⟩ e typed
        obtain low | high := typed _ chosen <;> simp [*]
    · rw [edgeCmovCond, if_neg (fun all => zero all.2.2.2), if_pos ⟨const1, const2, nonzero, zero⟩, preserved_reported]
      have constant : ∀ e, ((ii.becomeConst 1).setOpt 3 .none).value e = some 1 := fun e => by
        simp [Insn.becomeConst, Insn.value, changeInsnType_of_ne, Insn.operand]
      simp only [constant, cmov_value index, first, second, third, Option.some.injEq, zero, not_false_eq_true, forall_const]
      constructor
      · intro kept
        have one := kept (Env.flat 1) (flat_typed (.inr rfl))
        have other := kept (Env.flat 0) (flat_typed (.inl rfl))
        exact ⟨by simpa [Env.flat, eq_comm] using one, by simpa [Env.flat, eq_comm] using other⟩
      · rintro ⟨one, other⟩ e _
        rw [one, other, ite_self]
  · have vacuous : ii.isConst 1 → ii.isConst 2 → ii.op 1 ≠ 0 → ii.IsWord 1 1 ∧ (ii.op 2 ≠ 0 → ii.IsWord 2 1) :=
      fun const1 const2 nonzero => absurd ⟨const1, const2, nonzero⟩ consts
    have both : ¬(ii.isConst 1 ∧ ii.isConst 2 ∧ ii.op 1 = 0 ∧ ii.op 2 = 0) := fun all =>
      apart (sameOps_iff.mpr ⟨(isConst_iff.mp all.1).trans (isConst_iff.mp all.2.1).symm, all.2.2.1.trans all.2.2.2.symm⟩)
    rw [edgeCmovCond, if_neg (fun all => consts ⟨all.1, all.2.1, all.2.2.1⟩),
      if_neg (fun all => consts ⟨all.1, all.2.1, all.2.2.1⟩), if_neg both]
    exact iff_of_true (edgeCmovArms_preserved index ref chosen) vacuous

/-- A constant condition is tested as an `unsigned long`. -/
theorem edgeCmov_const_iff (form : HasForm cond ii) (index : ii.index = .cmov) (apart : ¬ii.sameOps 1 2) (const : ii.isConst 3) :
    Preserved cond ii (edgeCmov ii) ↔ (∃ w, ii.IsWord 1 w ∧ ii.IsWord 2 w) ∨ (ii.op 3 ≠ 0 → (ii.op 3).setWidth 32 ≠ (0 : Word)) := by
  have kind := form.pair (.inr index)
  have third : ∀ e, ii.operand e 3 = (ii.op 3).setWidth 32 := fun e => operand_const (isConst_iff.mp const)
  rw [edgeCmov, if_neg apart, if_pos const]
  by_cases zero : ii.op 3 = 0
  · rw [if_neg (not_not.mpr zero)]
    refine iff_of_true (preserved_reported.mpr fun e _ => ?_) (.inr fun other => absurd zero other)
    have moved : (((ii.changeInsnType .add).setOp 1 .const 0).setOpt 3 .none).value e = some (ii.operand e 2) := by
      simp [Insn.value, changeInsnType_of_ne, Insn.operand]
    rw [moved, cmov_value index, third, zero]
    simp
  · rw [if_pos zero, preserved_reported]
    by_cases word : (ii.op 3).setWidth 32 = (0 : Word)
    · have value : ∀ e, ii.value e = some (ii.operand e 2) := fun e => by
        rw [cmov_value index, third, if_neg (not_not.mpr word)]
      simp only [moveAlone_value, value, Option.some.injEq]
      rw [operands_equal_iff (kind 1 (by simp)) (kind 2 (by simp))]
      simp only [apart, word, false_or, ne_eq, not_true_eq_false, imp_false, not_not, zero, or_false, Bool.false_eq_true]
    · refine iff_of_true (fun e _ => ?_) (.inr fun _ => word)
      rw [moveAlone_value, cmov_value index, third, if_pos word]

theorem edgeCmov_iff (form : HasForm cond ii) (index : ii.index = .cmov) : Preserved cond ii (edgeCmov ii) ↔ CmovHolds ii := by
  by_cases same : ii.sameOps 1 2
  · rw [edgeCmov, if_pos same]
    refine iff_of_true (preserved_reported.mpr fun e _ => ?_) (.inl same)
    obtain ⟨opt, op⟩ := sameOps_iff.mp same
    have equal : ii.operand e 1 = ii.operand e 2 := operand_congr opt op
    rw [moveAlone_value, cmov_value index, equal, ite_self]
  · by_cases const : ii.isConst 3
    · rw [edgeCmov_const_iff form index same const, CmovHolds, if_pos const]
      simp [same, const]
    · obtain ⟨ref, chosen⟩ := (form.chosen index).resolve_left fun const' => const (isConst_iff.mpr const')
      rw [edgeCmov, if_neg same, if_neg const, CmovHolds, if_neg const]
      by_cases conditional : ii.type.cond
      · rw [if_pos conditional, edgeCmovCond_iff index same ref chosen]
        simp [same, const, conditional]
      · rw [if_neg conditional]
        exact iff_of_true preserved_self (.inr (.inr fun yes => absurd yes conditional))

theorem applyEdgeCondition_preserved_iff (form : HasForm cond ii) : Preserved cond ii (applyEdgeCondition ii) ↔ EdgeHolds ii := by
  unfold applyEdgeCondition EdgeHolds
  cases index : ii.index
  case and => exact iff_of_true (edgeAnd_preserved index) trivial
  case or => exact edgeOr_iff form index
  case sub => exact iff_of_true (edgeSub_preserved index) trivial
  case mul => exact edgeMul_iff form index
  case srl => exact edgeShift_iff form (.inl index)
  case sll => exact edgeShift_iff form (.inr index)
  case sra => exact edgeSra_iff form index
  case sfeq => exact edgeSfeq_iff index
  case sfne => exact edgeSfne_iff index
  case sfle => exact edgeSfle_iff form index
  case sflt => exact edgeSflt_iff form index
  case sfge => exact edgeSfge_iff form index
  case sfgt => exact edgeSfgt_iff form index
  case cmov => exact edgeCmov_iff form index
  all_goals exact iff_of_true preserved_self trivial

end

/-- What `cuc_load` makes of `l.movhi`. -/
def movhi : Insn := { index := .or, opt := ![.dest, .const, .const, .none, .none], op := ![3, 0x12340000, 0, 0, 0] }

theorem movhi_hasForm : HasForm (fun _ => false) movhi where
  pair _ := by simp [movhi]
  chosen := nofun
  alone _ := rfl

theorem movhi_kept_iff : Preserved (fun _ => false) movhi (applyEdgeCondition movhi) ↔ EdgeHolds movhi :=
  applyEdgeCondition_preserved_iff movhi_hasForm

/-- The constant becomes zero. -/
theorem movhi_lost : ¬∀ (cond : Op → Bool) (ii : Insn), HasForm cond ii → Preserved cond ii (applyEdgeCondition ii) := by
  intro all
  have kept := (all _ movhi movhi_hasForm).1 (Env.flat 0) (flat_typed (.inl rfl))
  have before : movhi.value (Env.flat 0) = some 0x12340000 := by decide
  have after : (applyEdgeCondition movhi).1.value (Env.flat 0) = some 0 := by decide
  rw [before, after] at kept
  exact absurd kept (by decide)

end Or1ksim.Cuc
