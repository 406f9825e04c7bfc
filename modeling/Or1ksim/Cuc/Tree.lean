import Or1ksim.Cuc.Edge
import Or1ksim.Cuc.Graph

/-!
# The rewriting of the dataflow tree

The rewritings of `optimize_tree`, each at one instruction. All but the linking of a move change this instruction alone.
-/

namespace Or1ksim.Cuc

open Dataflow

/-- `known[index].comutative`. -/
def Index.comutative (index : Index) : Bool := index ∈ [Index.add, .and, .or, .xor, .mul, .sfeq, .sfne, .nop]

def Index.isCompare (index : Index) : Bool := index ∈ [Index.sfeq, .sfne, .sflt, .sfle, .sfgt, .sfge]

/-- What a comparison becomes when its operands are exchanged. -/
def Index.exchanged : Index → Index
  | .sfeq => .sfne
  | .sfne => .sfeq
  | .sfle => .sfgt
  | .sflt => .sfge
  | .sfge => .sflt
  | .sfgt => .sfle
  | index => index

/-- A constant first operand is exchanged with the second. -/
def Insn.exchange (ii : Insn) : Option Insn :=
  if ii.isConst 1 ∧ ¬ii.isConst 2 ∧ (ii.index.comutative ∨ ii.index.isCompare) then
    some { (ii.setOp 1 (ii.opt 2) (ii.op 2)).setOp 2 (ii.opt 1) (ii.op 1) with index := ii.index.exchanged }
  else none

/-- The operand refers to a move, whose operand takes its place. A memory access keeps the move of its address. -/
def Func.promote (f : Func) (j : Fin 5) (ii : Insn) : Option Insn :=
  if ii.opt j = .ref then
    (f.insn? (ii.op j)).bind fun t =>
      if t.index = .add ∧ t.isConst 2 ∧ t.op 2 = 0 ∧ ¬(ii.type.memory ∧ t.type.memadd)
        then some (ii.setOp j (t.opt 1) (t.op 1)) else none
  else none

/-- What the host makes of a shift of an `unsigned long` by its width or more is its own. -/
structure Host where
  shiftLeft : Op → Op → Op
  shiftRight : Op → Op → Op

/-- The value of a constant expression, an `unsigned long`. -/
def Host.constant (h : Host) (ii : Insn) : Option Op :=
  match ii.index with
  | .add => some (ii.op 1 + ii.op 2)
  | .sub => some (ii.op 1 - ii.op 2)
  | .sll => some (if ii.op 2 < 64 then ii.op 1 <<< ii.op 2 else h.shiftLeft (ii.op 1) (ii.op 2))
  | .srl => some (if ii.op 2 < 64 then ii.op 1 >>> ii.op 2 else h.shiftRight (ii.op 1) (ii.op 2))
  | .mul => some (ii.op 1 * ii.op 2)
  | .or => some (ii.op 1 ||| ii.op 2)
  | .xor => some (ii.op 1 ^^^ ii.op 2)
  | .and => some (ii.op 1 &&& ii.op 2)
  | _ => none

/-- A constant expression becomes its value. The register it was for is forgotten. -/
def Host.fold (h : Host) (ii : Insn) : Option Insn :=
  if ¬ii.type.volatile ∧ ii.isConst 1 ∧ ii.isConst 2 ∧ ¬(ii.index = .add ∧ ii.op 2 = 0) then
    (h.constant ii).map fun value => (ii.becomeConst value).setOp 0 .dest (-1)
  else none

def Insn.isMove (ii : Insn) : Bool := ii.index = .add && !ii.type.memadd && ii.op 2 = 0

/-- An instruction that is no move, of a reference and a constant. -/
def Insn.joins (ii : Insn) : Bool := !ii.type.volatile && ii.isConst 2 && ii.opt 1 = .ref && !ii.isMove

/-- The instruction takes the first operand of the one it refers to, and another constant. -/
def Insn.join (ii prev : Insn) (c : Op) : Insn := (ii.setOp 1 (prev.opt 1) (prev.op 1)).setOp 2 (ii.opt 2) c

/-- `prev` is of this kind and its second operand a constant. -/
def Insn.constant (prev : Insn) (index : Index) : Bool := prev.index = index && prev.isConst 2

def Insn.addAdd (ii prev : Insn) : Option Insn :=
  if ii.index = .add ∧ prev.constant .add then some (ii.join prev (ii.op 2 + prev.op 2)) else none

/-- The type is changed of an instruction of the global array, not of this one. -/
def Insn.addSub (ii prev : Insn) : Option Insn :=
  if ii.index = .add ∧ prev.constant .sub then some (ii.join prev (ii.op 2 + prev.op 2)) else none

def Insn.subAdd (ii prev : Insn) : Option Insn :=
  if ii.index = .sub ∧ prev.constant .add then some (ii.join prev (ii.op 2 + prev.op 2)) else none

def Insn.addCompare (ii prev : Insn) : Option Insn :=
  if ii.index.isCompare ∧ prev.constant .add ∧ ii.op 2 < 0x80000000 then some (ii.join prev (ii.op 2 - prev.op 2)) else none

def Insn.subCompare (ii prev : Insn) : Option Insn :=
  if ii.index.isCompare ∧ prev.constant .sub ∧ ii.op 2 < 0x80000000 then some (ii.join prev (ii.op 2 + prev.op 2)) else none

/-- References to `r` lead to `q` instead. -/
def Insn.redirect (ii : Insn) (r q : Op) : Insn := { ii with op := fun j => if ii.opt j = .ref ∧ ii.op j = r then q else ii.op j }

/-- `prev` becomes what `ii` was: it has its destination and is an output if `ii` is. -/
def Insn.inherit (prev ii : Insn) : Insn :=
  { prev.setOp 0 (ii.opt 0) (ii.op 0) with type := { prev.type with output := prev.type.output || ii.type.output } }

/-- Whoever refers to the move at `r` refers to its operand. -/
def Func.linked (f : Func) (r : Op) (ii : Insn) : Func :=
  ((f.modify (ii.op 1) fun prev => prev.inherit ii).mapLive fun jj => jj.redirect r (ii.op 1)).modify r fun ii => ii.changeInsnType .nop

/-- A move is linked. It has a destination, by an assertion. -/
def Func.link (f : Func) (r : Op) (ii : Insn) : Option Func :=
  if ¬ii.type.volatile ∧ ii.isConst 2 ∧ ii.opt 1 = .ref ∧ ii.isMove then
    (f.insn? (ii.op 1)).bind fun prev =>
      if ¬prev.type.output ∧ ¬prev.type.volatile ∧ ii.opt 0 = .dest then
        some (f.linked r ii)
      else none
  else none

inductive Rule where
  | exchange | promotion (j : Fin 5) | folding | linking | addAdd | addSub | subAdd | addCompare | subCompare
  deriving DecidableEq

/-- The instruction as the rewriting leaves it. -/
def Rule.apply (h : Host) (f : Func) (ii : Insn) : Rule → Option Insn
  | .exchange => ii.exchange
  | .promotion j => f.promote j ii
  | .folding => h.fold ii
  | .linking => none
  | .addAdd => if ii.joins then (f.insn? (ii.op 1)).bind ii.addAdd else none
  | .addSub => if ii.joins then (f.insn? (ii.op 1)).bind ii.addSub else none
  | .subAdd => if ii.joins then (f.insn? (ii.op 1)).bind ii.subAdd else none
  | .addCompare => if ii.joins then (f.insn? (ii.op 1)).bind ii.addCompare else none
  | .subCompare => if ii.joins then (f.insn? (ii.op 1)).bind ii.subCompare else none

/-- The function after the rewriting at the instruction `r`. -/
def Func.rewrite (f : Func) (h : Host) (r : Op) (rule : Rule) : Option Func :=
  (f.live? r).bind fun ii => if rule = .linking then f.link r ii else (rule.apply h f ii).map (f.set r)

/-! ### When the instruction keeps its value -/

abbrev low (c : Op) : Word := c.setWidth 32

/-- The shift by a constant leaves in the low word what it leaves of a word. -/
def Host.FoldKeeps (h : Host) (ii : Insn) : Prop :=
  match ii.index with
  | .srl =>
    if ii.op 2 < 64 then (ii.op 1).toNat % 2 ^ (32 + (ii.op 2).toNat) < 2 ^ max 32 (ii.op 2).toNat
    else low (h.shiftRight (ii.op 1) (ii.op 2)) = low (ii.op 1) >>> low (ii.op 2)
  | .sll => 64 ≤ ii.op 2 → low (h.shiftLeft (ii.op 1) (ii.op 2)) = low (ii.op 1) <<< low (ii.op 2)
  | _ => True

/-- When a rewriting keeps the value of the instruction, by the values of the operands before it. -/
def Rule.Keeps (h : Host) (f : Func) (x : Input) (v : Op → Word) (ii : Insn) : Rule → Prop
  | .exchange => ii.index.isCompare → ii.index ≠ .sfeq ∧ ii.index ≠ .sfne ∧ ii.operand ⟨v, x.other⟩ 1 ≠ ii.operand ⟨v, x.other⟩ 2
  | .folding => h.FoldKeeps ii
  | .addSub => ∀ prev, f.insn? (ii.op 1) = some prev → low (prev.op 2) + low (prev.op 2) = 0
  | .subAdd => ∀ prev, f.insn? (ii.op 1) = some prev → low (prev.op 2) + low (prev.op 2) = 0
  | .addCompare => ii.index ≠ .sfeq → ii.index ≠ .sfne → ∀ prev, f.insn? (ii.op 1) = some prev →
      (2 ^ 32 ≤ (prev.operand ⟨v, x.other⟩ 1).toNat + (low (prev.op 2)).toNat ↔ low (ii.op 2) < low (prev.op 2))
  | .subCompare => ii.index ≠ .sfeq → ii.index ≠ .sfne → ∀ prev, f.insn? (ii.op 1) = some prev →
      (prev.operand ⟨v, x.other⟩ 1 < low (prev.op 2) ↔ 2 ^ 32 ≤ (low (ii.op 2)).toNat + (low (prev.op 2)).toNat)
  | _ => True

/-- When a rewriting keeps what is used: the value of the instruction, and the number of the register it is the final value of. -/
def Rule.Holds (rule : Rule) (h : Host) (f : Func) (x : Input) (v : Op → Word) (r : Op) (ii : Insn) : Prop :=
  (f.Referenced r ∨ ii.type.output → rule.Keeps h f x v ii) ∧ (rule = .folding → ii.type.output → ii.op 0 = -1)

/-! ### Each rewriting -/

section
variable {f : Func} {h : Host} {x : Input} {v v' : Op → Word} {r : Op} {ii ii' prev : Insn}

/-- What a rewriting does besides changing the value. -/
structure Rewritten (f : Func) (ii ii' : Insn) : Prop where
  within : f.Within ii ii'
  output : ii'.type.output = ii.type.output

theorem exchange_rewritten (fires : ii.exchange = some ii') : Rewritten f ii ii' := by
  unfold Insn.exchange at fires
  split_ifs at fires
  cases fires
  refine ⟨?_, rfl⟩
  rintro s ⟨k, ref, op⟩
  refine .inl ?_
  by_cases second : k = 2
  · subst second
    exact ⟨1, by simpa using ref, by simpa using op⟩
  · by_cases first : k = 1
    · subst first
      exact ⟨2, by simpa using ref, by simpa using op⟩
    · exact ⟨k, by simpa [first, second] using ref, by simpa [first, second] using op⟩

theorem exchange_value (fires : ii.exchange = some ii') (e : Env) :
    ii'.value e = ii.index.exchanged.rtl (ii.operand e 2) (ii.operand e 1) (ii.operand e 3) := by
  unfold Insn.exchange at fires
  split_ifs at fires
  cases fires
  simp [Insn.value, Insn.operand]

theorem exchange_index (fires : ii.exchange = some ii') : ii.index.comutative ∨ ii.index.isCompare := by
  unfold Insn.exchange at fires
  split_ifs at fires with guard
  exact guard.2.2

theorem exchange_index' (fires : ii.exchange = some ii') : ii'.index = ii.index.exchanged := by
  unfold Insn.exchange at fires
  split_ifs at fires
  cases fires
  rfl

theorem exchange_number (fires : ii.exchange = some ii') : ii'.op 0 = ii.op 0 := by
  unfold Insn.exchange at fires
  split_ifs at fires
  cases fires
  simp

theorem exchanged_eq (plain : ii.index.isCompare = false) : ii.index.exchanged = ii.index := by
  cases index : ii.index <;> simp_all [Index.exchanged, Index.isCompare]

theorem rtl_comm {index : Index} (commutes : index.comutative) (a b c : Word) : index.rtl b a c = index.rtl a b c := by
  cases index <;> simp [Index.comutative] at commutes
  case add => exact congrArg some (BitVec.add_comm b a)
  case and => exact congrArg some (BitVec.and_comm b a)
  case or => exact congrArg some (BitVec.or_comm b a)
  case xor => exact congrArg some (BitVec.xor_comm b a)
  case mul => exact congrArg some (BitVec.mul_comm b a)
  case sfeq => simp [eq_comm]
  case sfne => simp [eq_comm]
  case nop => rfl

/-- A comparison is negated where it had to be turned round. -/
theorem exchanged_rtl_iff {index : Index} (compare : index.isCompare) (a b c : Word) :
    index.exchanged.rtl b a c = index.rtl a b c ↔ index ≠ .sfeq ∧ index ≠ .sfne ∧ a ≠ b := by
  cases index <;> simp [Index.isCompare] at compare
  case sfeq => simp [Index.exchanged, bit_inj, eq_comm]
  case sfne => simp [Index.exchanged, bit_inj, eq_comm]
  all_goals
    simp only [Index.exchanged, rtl_sfle, rtl_sflt, rtl_sfge, rtl_sfgt, Option.some.injEq, bit_inj, decide_eq_decide, ne_eq,
      reduceCtorEq, not_false_eq_true, true_and]
    simp only [BitVec.le_def, BitVec.lt_def, ← BitVec.toNat_inj]
    omega

theorem compare_isSome {index : Index} (compare : index.isCompare) (a b c : Word) : (index.rtl a b c).isSome := by
  cases index <;> simp [Index.isCompare] at compare <;> rfl

theorem comutative_isSome {index : Index} (commutes : index.comutative) (other : index ≠ .nop) (a b c : Word) :
    (index.rtl a b c).isSome := by
  cases index <;> simp [Index.comutative] at commutes other <;> rfl

theorem exchanged_isCompare {index : Index} (compare : index.isCompare) : index.exchanged.isCompare := by
  cases index <;> simp [Index.isCompare] at compare <;> rfl

theorem exchange_keeps_iff (fires : ii.exchange = some ii') (own : v r = ii.result x r v) :
    ii'.result x r v = v r ↔ Rule.exchange.Keeps h f x v ii := by
  have value := exchange_value fires ⟨v, x.other⟩
  rw [own]
  cases compare : ii.index.isCompare with
  | true =>
    rw [result_eq_iff (compare_isSome compare ..) (by rw [value]; exact compare_isSome (exchanged_isCompare compare) ..), value,
      Insn.value, exchanged_rtl_iff compare]
    simp [Rule.Keeps, compare]
  | false =>
    have commutes := (exchange_index fires).resolve_right (by simp [compare])
    refine iff_of_true ?_ fun yes => absurd yes (by simp [compare])
    rw [exchanged_eq compare, rtl_comm commutes] at value
    by_cases nop : ii.index = .nop
    · rw [nop_result nop, nop_result (by rw [exchange_index' fires, nop]; rfl)]
    · have known := comutative_isSome commutes nop (ii.operand ⟨v, x.other⟩ 1) (ii.operand ⟨v, x.other⟩ 2) (ii.operand ⟨v, x.other⟩ 3)
      exact (result_eq_iff known (by rw [value]; exact known)).mpr value

theorem live?_operand {k : Fin 5} {t : Insn} (wf : f.Acyclic) (live : f.live? r = some ii) (ref : ii.opt k = .ref)
    (there : f.insn? (ii.op k) = some t) :
    f.live? (ii.op k) = some t ∧ t.opt 0 = .dest := by
  obtain ⟨t', live', dest⟩ := wf.valid r ii _ live ⟨k, ref, rfl⟩
  cases there.symm.trans (insn?_of_live? live')
  exact ⟨live', dest⟩

theorem move_result {t : Insn} (add : t.index = .add) (const : t.isConst 2) (zero : t.op 2 = 0) :
    t.result x r v = t.operand ⟨v, x.other⟩ 1 := by
  refine result_of_value ?_
  rw [Insn.value, add, operand_const (isConst_iff.mp const), zero]
  simp

theorem result_of_operands (index : ii'.index = ii.index) (operands : ∀ k, ii'.operand ⟨v, x.other⟩ k = ii.operand ⟨v, x.other⟩ k)
    (dest : ∀ k, ii'.opt k = .dest ↔ ii.opt k = .dest) : ii'.result x r v = ii.result x r v := by
  have value : ii'.value ⟨v, x.other⟩ = ii.value ⟨v, x.other⟩ := by simp only [Insn.value, index, operands]
  have sources : ii'.sources ⟨v, x.other⟩ = ii.sources ⟨v, x.other⟩ := funext fun k => by simp only [Insn.sources, operands, dest]
  rw [Insn.result, Insn.result, value, sources, index]

theorem promote_of_some {j : Fin 5} (fires : f.promote j ii = some ii') : ∃ t, ii.opt j = .ref ∧ f.insn? (ii.op j) = some t ∧
    t.index = .add ∧ t.isConst 2 ∧ t.op 2 = 0 ∧ ¬(ii.type.memory ∧ t.type.memadd) ∧ ii' = ii.setOp j (t.opt 1) (t.op 1) := by
  unfold Func.promote at fires
  split_ifs at fires with ref
  obtain ⟨t, there, fires⟩ := Option.bind_eq_some_iff.mp fires
  split_ifs at fires with move
  cases fires
  exact ⟨t, ref, there, move.1, move.2.1, move.2.2.1, move.2.2.2, rfl⟩

theorem promote_rewritten {j : Fin 5} (wf : f.Acyclic) (live : f.live? r = some ii) (fires : f.promote j ii = some ii') :
    Rewritten f ii ii' := by
  obtain ⟨t, ref, there, -, -, -, -, rfl⟩ := promote_of_some fires
  obtain ⟨live', -⟩ := live?_operand wf live ref there
  refine ⟨?_, rfl⟩
  rintro s ⟨k, ref', op⟩
  by_cases same : k = j
  · subst same
    exact .inr ⟨ii.op k, t, ⟨k, ref, rfl⟩, live', 1, by simpa using ref', by simpa using op⟩
  · exact .inl ⟨k, by simpa [same] using ref', by simpa [same] using op⟩

theorem promote_keeps {j : Fin 5} (wf : f.Acyclic) (live : f.live? r = some ii) (values : f.Values x v)
    (fires : f.promote j ii = some ii') :
    ii'.result x r v = v r := by
  obtain ⟨t, ref, there, add, const, zero, -, rfl⟩ := promote_of_some fires
  obtain ⟨live', -⟩ := live?_operand wf live ref there
  have moved : v (ii.op j) = t.operand ⟨v, x.other⟩ 1 := by rw [values _ t live', move_result add const zero]
  rw [values r ii live]
  refine result_of_operands rfl (fun k => ?_) fun k => ?_
  · by_cases same : k = j
    · subst same
      rw [operand_ref ref]
      exact Eq.trans (by simp [Insn.operand]) moved.symm
    · simp [Insn.operand, same]
  · by_cases same : k = j
    · subst same
      have plain : t.opt 1 ≠ .dest := fun dest => absurd (wf.first _ t 1 live' dest) (by decide)
      simp [ref, plain]
    · simp [same]

theorem fold_of_some (fires : h.fold ii = some ii') : ∃ c, ii.isConst 1 ∧ ii.isConst 2 ∧ h.constant ii = some c ∧
    ii' = (ii.becomeConst c).setOp 0 .dest (-1) := by
  unfold Host.fold at fires
  split_ifs at fires with guard
  obtain ⟨c, constant, same⟩ := Option.map_eq_some_iff.mp fires
  exact ⟨c, guard.2.1, guard.2.2.1, constant, same.symm⟩

theorem fold_rewritten (fires : h.fold ii = some ii') : Rewritten f ii ii' := by
  obtain ⟨c, -, -, -, rfl⟩ := fold_of_some fires
  refine ⟨?_, by simp [Insn.becomeConst, changeInsnType_of_ne]⟩
  rintro s ⟨k, ref, op⟩
  refine .inl ⟨k, ?_⟩
  by_cases known : k = 0 ∨ k = 1 ∨ k = 2
  · obtain rfl | rfl | rfl := known <;> simp [Insn.becomeConst] at ref
  · obtain ⟨zero, one, two⟩ := by simpa using known
    simp only [Insn.becomeConst, setOp_opt, setOp_op, zero, one, two, if_false,
      changeInsnType_of_ne (show Index.add ≠ .nop by decide)] at ref op
    exact ⟨ref, op⟩

theorem low_add (a b : Op) : low (a + b) = low a + low b := BitVec.setWidth_add a b (by decide)
theorem low_mul (a b : Op) : low (a * b) = low a * low b := BitVec.setWidth_mul a b (by decide)
theorem low_or (a b : Op) : low (a ||| b) = low a ||| low b := BitVec.setWidth_or
theorem low_xor (a b : Op) : low (a ^^^ b) = low a ^^^ low b := BitVec.setWidth_xor
theorem low_and (a b : Op) : low (a &&& b) = low a &&& low b := BitVec.setWidth_and

theorem low_sub (a b : Op) : low (a - b) = low a - low b := by
  have whole := low_add (a - b) b
  rw [BitVec.sub_add_cancel] at whole
  rw [whole, BitVec.add_sub_cancel]

theorem low_amount {s : Op} (fits : s < 64) : (low s).toNat = s.toNat := by
  have small : s.toNat < 64 := fits
  rw [BitVec.toNat_setWidth, Nat.mod_eq_of_lt (by omega)]

theorem shiftLeft_low (c : Op) {s : Op} (fits : s < 64) : low (c <<< s) = low c <<< low s := by
  refine BitVec.eq_of_toNat_eq ?_
  rw [BitVec.shiftLeft_eq' (y := low s), low_amount fits]
  simp only [BitVec.shiftLeft_eq', BitVec.toNat_setWidth, BitVec.toNat_shiftLeft, Nat.shiftLeft_eq, Nat.mod_mul_mod]
  exact Nat.mod_mod_of_dvd _ (by decide)

theorem div_mod_eq_iff (d n s : Nat) : d / 2 ^ s = d % 2 ^ n / 2 ^ s ↔ d < 2 ^ max n s := by
  have low := Nat.mod_lt d (Nat.two_pow_pos n)
  by_cases le : n ≤ s
  · have less : d % 2 ^ n < 2 ^ s := low.trans_le (Nat.pow_le_pow_right (by decide) le)
    rw [Nat.max_eq_right le, Nat.div_eq_of_lt less, Nat.div_eq_zero_iff_lt (Nat.two_pow_pos s)]
  · rw [Nat.max_eq_left (by omega)]
    refine ⟨fun equal => ?_, fun small => by rw [Nat.mod_eq_of_lt small]⟩
    by_contra! large
    have factor : 2 ^ n = 2 ^ s * 2 ^ (n - s) := by rw [← Nat.pow_add]; congr 1; omega
    have above : d % 2 ^ n + 2 ^ s * 2 ^ (n - s) ≤ d := by
      have whole := Nat.div_add_mod d (2 ^ n)
      have once : 1 ≤ d / 2 ^ n := (Nat.one_le_div_iff (Nat.two_pow_pos n)).mpr large
      have grows := Nat.mul_le_mul_left (2 ^ n) once
      omega
    have quotient := Nat.div_le_div_right (c := 2 ^ s) above
    rw [Nat.add_mul_div_left _ _ (Nat.two_pow_pos s), equal] at quotient
    have positive := Nat.two_pow_pos (n - s)
    omega

/-- The low word of a shift to the right has lost nothing when the bits are zero that came from above. -/
theorem shiftRight_low_iff (c : Op) {s : Op} (fits : s < 64) :
    low (c >>> s) = low c >>> low s ↔ c.toNat % 2 ^ (32 + s.toNat) < 2 ^ max 32 s.toNat := by
  have split : c.toNat / 2 ^ s.toNat % 2 ^ 32 = c.toNat % 2 ^ (32 + s.toNat) / 2 ^ s.toNat := by
    rw [Nat.pow_add, Nat.mul_comm (2 ^ 32), Nat.mod_mul_right_div_self]
  have inner : c.toNat % 2 ^ 32 = c.toNat % 2 ^ (32 + s.toNat) % 2 ^ 32 := by
    rw [Nat.pow_add, Nat.mod_mul_right_mod]
  rw [← BitVec.toNat_inj, BitVec.ushiftRight_eq' (y := low s), low_amount fits]
  simp only [BitVec.ushiftRight_eq', BitVec.toNat_setWidth, BitVec.toNat_ushiftRight, Nat.shiftRight_eq_div_pow]
  rw [split, inner]
  exact div_mod_eq_iff _ 32 _

theorem fold_keeps_iff (fires : h.fold ii = some ii') (own : v r = ii.result x r v) :
    ii'.result x r v = v r ↔ Rule.folding.Keeps h f x v ii := by
  obtain ⟨c, const1, const2, constant, rfl⟩ := fold_of_some fires
  have first : ii.operand ⟨v, x.other⟩ 1 = low (ii.op 1) := operand_const (isConst_iff.mp const1)
  have second : ii.operand ⟨v, x.other⟩ 2 = low (ii.op 2) := operand_const (isConst_iff.mp const2)
  have after : ((ii.becomeConst c).setOp 0 .dest (-1)).result x r v = low c := by
    refine result_of_value ?_
    simp [Insn.becomeConst, Insn.value, changeInsnType_of_ne, Insn.operand]
  rw [after, own]
  have known : ∀ w, ii.index.rtl (low (ii.op 1)) (low (ii.op 2)) (ii.operand ⟨v, x.other⟩ 3) = some w → ii.result x r v = w :=
    fun w value => result_of_value (by rw [Insn.value, first, second, value])
  unfold Host.constant at constant
  unfold Rule.Keeps Host.FoldKeeps
  cases index : ii.index <;> rw [index] at constant known <;> simp only [reduceCtorEq, Option.some.injEq] at constant
  case add => exact iff_of_true (by rw [known _ rfl, ← constant, low_add]) trivial
  case sub => exact iff_of_true (by rw [known _ rfl, ← constant, low_sub]) trivial
  case mul => exact iff_of_true (by rw [known _ rfl, ← constant, low_mul]) trivial
  case or => exact iff_of_true (by rw [known _ rfl, ← constant, low_or]) trivial
  case xor => exact iff_of_true (by rw [known _ rfl, ← constant, low_xor]) trivial
  case and => exact iff_of_true (by rw [known _ rfl, ← constant, low_and]) trivial
  case sll =>
    rw [known _ rfl, ← constant]
    by_cases fits : ii.op 2 < 64
    · rw [if_pos fits]
      exact iff_of_true (shiftLeft_low _ fits) fun large => absurd fits (BitVec.not_lt.mpr large)
    · rw [if_neg fits]
      exact ⟨fun same _ => same, fun same => same (BitVec.not_lt.mp fits)⟩
  case srl =>
    rw [known _ rfl, ← constant]
    by_cases fits : ii.op 2 < 64
    · simp only [if_pos fits, shiftRight_low_iff _ fits]
    · simp only [if_neg fits]

/-- The sum may be moved to the other side where it carries exactly when the difference there borrows. -/
theorem add_compare_iff {index : Index} (compare : index.isCompare) (y c1 c2 z : Word) :
    index.rtl y (c2 - c1) z = index.rtl (y + c1) c2 z ↔
      (index ≠ .sfeq → index ≠ .sfne → (2 ^ 32 ≤ y.toNat + c1.toNat ↔ c2 < c1)) := by
  have hy := y.isLt
  have h1 := c1.isLt
  have h2 := c2.isLt
  cases index <;> simp [Index.isCompare] at compare
  all_goals
    simp only [rtl_sfeq, rtl_sfne, rtl_sfle, rtl_sflt, rtl_sfge, rtl_sfgt, Option.some.injEq, bit_inj, decide_eq_decide, ne_eq,
      reduceCtorEq, not_false_eq_true, not_true_eq_false, forall_const, false_implies, iff_true]
    simp only [BitVec.le_def, BitVec.lt_def, ← BitVec.toNat_inj, BitVec.toNat_add, BitVec.toNat_sub]
    omega

theorem sub_compare_iff {index : Index} (compare : index.isCompare) (y c1 c2 z : Word) :
    index.rtl y (c2 + c1) z = index.rtl (y - c1) c2 z ↔
      (index ≠ .sfeq → index ≠ .sfne → (y < c1 ↔ 2 ^ 32 ≤ c2.toNat + c1.toNat)) := by
  have hy := y.isLt
  have h1 := c1.isLt
  have h2 := c2.isLt
  cases index <;> simp [Index.isCompare] at compare
  all_goals
    simp only [rtl_sfeq, rtl_sfne, rtl_sfle, rtl_sflt, rtl_sfge, rtl_sfgt, Option.some.injEq, bit_inj, decide_eq_decide, ne_eq,
      reduceCtorEq, not_false_eq_true, not_true_eq_false, forall_const, false_implies, iff_true]
    simp only [BitVec.le_def, BitVec.lt_def, ← BitVec.toNat_inj, BitVec.toNat_add, BitVec.toNat_sub]
    omega

theorem double_iff_sub (y c1 c2 : Word) : y + (c2 + c1) = y - c1 + c2 ↔ c1 + c1 = 0 := by
  have hy := y.isLt
  have h1 := c1.isLt
  have h2 := c2.isLt
  simp only [← BitVec.toNat_inj, BitVec.toNat_add, BitVec.toNat_sub]
  have : (0 : Word).toNat = 0 := rfl
  omega

theorem double_iff_add (y c1 c2 : Word) : y - (c2 + c1) = y + c1 - c2 ↔ c1 + c1 = 0 := by
  have hy := y.isLt
  have h1 := c1.isLt
  have h2 := c2.isLt
  simp only [← BitVec.toNat_inj, BitVec.toNat_add, BitVec.toNat_sub]
  have : (0 : Word).toNat = 0 := rfl
  omega

theorem joined {g : Insn → Option Insn} (fires : (if ii.joins then (f.insn? (ii.op 1)).bind g else none) = some ii') :
    ∃ prev, ii.opt 1 = .ref ∧ ii.opt 2 = .const ∧ f.insn? (ii.op 1) = some prev ∧ g prev = some ii' := by
  split_ifs at fires with joins
  obtain ⟨prev, there, fires⟩ := Option.bind_eq_some_iff.mp fires
  simp only [Insn.joins, Bool.and_eq_true, decide_eq_true_eq, isConst_iff] at joins
  exact ⟨prev, joins.1.2, joins.1.1.2, there, fires⟩

/-- An instruction is joined with the one its first operand refers to. -/
structure Joined (f : Func) (r : Op) (ii prev : Insn) : Prop where
  live : f.live? r = some ii
  ref : ii.opt 1 = .ref
  const : ii.opt 2 = .const
  there : f.insn? (ii.op 1) = some prev

theorem join_rewritten {c : Op} (wf : f.Acyclic) (joined : Joined f r ii prev) : Rewritten f ii (ii.join prev c) := by
  refine ⟨?_, rfl⟩
  rintro s ⟨k, ref, op⟩
  by_cases second : k = 2
  · subst second
    simp [Insn.join, joined.const] at ref
  · by_cases first : k = 1
    · subst first
      exact .inr ⟨ii.op 1, prev, ⟨1, joined.ref, rfl⟩, (live?_operand wf joined.live joined.ref joined.there).1, 1,
        by simpa [Insn.join] using ref, by simpa [Insn.join] using op⟩
    · exact .inl ⟨k, by simpa [Insn.join, first, second] using ref, by simpa [Insn.join, first, second] using op⟩

/-- The values of a joined instruction before and after, by the two constants and what `prev` reads. -/
theorem join_keeps_iff {c : Op} {y z : Word} (wf : f.Acyclic) (joined : Joined f r ii prev)
    (values : f.Values x v) (known : ∀ a b c, (ii.index.rtl a b c).isSome) (y' : y = prev.operand ⟨v, x.other⟩ 1)
    (z' : z = prev.result x (ii.op 1) v) : (ii.join prev c).result x r v = v r ↔
      ii.index.rtl y (low c) (ii.operand ⟨v, x.other⟩ 3) = ii.index.rtl z (low (ii.op 2)) (ii.operand ⟨v, x.other⟩ 3) := by
  have live := (live?_operand wf joined.live joined.ref joined.there).1
  have first : ii.operand ⟨v, x.other⟩ 1 = z := (operand_ref joined.ref).trans ((values _ _ live).trans z'.symm)
  have before : ii.value ⟨v, x.other⟩ = ii.index.rtl z (low (ii.op 2)) (ii.operand ⟨v, x.other⟩ 3) := by
    rw [Insn.value, first, operand_const joined.const]
  have after : (ii.join prev c).value ⟨v, x.other⟩ = ii.index.rtl y (low c) (ii.operand ⟨v, x.other⟩ 3) := by
    rw [y']
    simp [Insn.value, Insn.join, Insn.operand, joined.const]
  rw [values r ii joined.live, result_eq_iff (by rw [before]; exact known ..) (by rw [after]; exact known ..), before, after]

theorem sum_result (add : prev.constant .add) : prev.result x r v = prev.operand ⟨v, x.other⟩ 1 + low (prev.op 2) := by
  simp only [Insn.constant, Bool.and_eq_true, decide_eq_true_eq, isConst_iff] at add
  exact result_of_value (by rw [Insn.value, add.1, operand_const add.2]; rfl)

theorem difference_result (sub : prev.constant .sub) : prev.result x r v = prev.operand ⟨v, x.other⟩ 1 - low (prev.op 2) := by
  simp only [Insn.constant, Bool.and_eq_true, decide_eq_true_eq, isConst_iff] at sub
  exact result_of_value (by rw [Insn.value, sub.1, operand_const sub.2]; rfl)

theorem sum_isSome (index : ii.index = .add ∨ ii.index = .sub) (a b c : Word) : (ii.index.rtl a b c).isSome := by
  obtain index | index := index <;> rw [index] <;> rfl

/-- What the joining of two instructions leaves of the second one, by the rule. -/
theorem join_rules {rule : Rule} {g : Insn → Option Insn} (wf : f.Acyclic) (live : f.live? r = some ii)
    (fires : (if ii.joins then (f.insn? (ii.op 1)).bind g else none) = some ii')
    (keeps : ∀ prev, Joined f r ii prev → g prev = some ii' →
      ∃ c, ii' = ii.join prev c ∧ ((ii.join prev c).result x r v = v r ↔ rule.Keeps h f x v ii)) :
    Rewritten f ii ii' ∧ (ii'.result x r v = v r ↔ rule.Keeps h f x v ii) ∧ ii'.op 0 = ii.op 0 := by
  obtain ⟨prev, ref, const, there, fires⟩ := joined fires
  obtain ⟨c, rfl, kept⟩ := keeps prev ⟨live, ref, const, there⟩ fires
  exact ⟨join_rewritten wf ⟨live, ref, const, there⟩, kept, by simp [Insn.join]⟩

theorem addAdd_keeps (wf : f.Acyclic) (values : f.Values x v) (joined : Joined f r ii prev) (fires : ii.addAdd prev = some ii') :
    ∃ c, ii' = ii.join prev c ∧ ((ii.join prev c).result x r v = v r ↔ Rule.addAdd.Keeps h f x v ii) := by
  unfold Insn.addAdd at fires
  split_ifs at fires with guard
  cases fires
  refine ⟨_, rfl, ?_⟩
  rw [join_keeps_iff wf joined values (sum_isSome (.inl guard.1)) rfl (sum_result guard.2).symm, guard.1, low_add]
  refine iff_of_true (congrArg some ?_) trivial
  rw [BitVec.add_assoc, BitVec.add_comm (low (ii.op 2))]

theorem addSub_keeps (wf : f.Acyclic) (values : f.Values x v) (joined : Joined f r ii prev) (fires : ii.addSub prev = some ii') :
    ∃ c, ii' = ii.join prev c ∧ ((ii.join prev c).result x r v = v r ↔ Rule.addSub.Keeps h f x v ii) := by
  unfold Insn.addSub at fires
  split_ifs at fires with guard
  cases fires
  refine ⟨_, rfl, ?_⟩
  rw [join_keeps_iff wf joined values (sum_isSome (.inl guard.1)) rfl (difference_result guard.2).symm, guard.1, low_add,
    rtl_add, rtl_add,
    Option.some.injEq, double_iff_sub]
  simp [Rule.Keeps, joined.there]

theorem subAdd_keeps (wf : f.Acyclic) (values : f.Values x v) (joined : Joined f r ii prev) (fires : ii.subAdd prev = some ii') :
    ∃ c, ii' = ii.join prev c ∧ ((ii.join prev c).result x r v = v r ↔ Rule.subAdd.Keeps h f x v ii) := by
  unfold Insn.subAdd at fires
  split_ifs at fires with guard
  cases fires
  refine ⟨_, rfl, ?_⟩
  rw [join_keeps_iff wf joined values (sum_isSome (.inr guard.1)) rfl (sum_result guard.2).symm, guard.1, low_add, rtl_sub, rtl_sub,
    Option.some.injEq, double_iff_add]
  simp [Rule.Keeps, joined.there]

theorem addCompare_keeps (wf : f.Acyclic) (values : f.Values x v) (joined : Joined f r ii prev) (fires : ii.addCompare prev = some ii') :
    ∃ c, ii' = ii.join prev c ∧ ((ii.join prev c).result x r v = v r ↔ Rule.addCompare.Keeps h f x v ii) := by
  unfold Insn.addCompare at fires
  split_ifs at fires with guard
  cases fires
  refine ⟨_, rfl, ?_⟩
  rw [join_keeps_iff wf joined values (compare_isSome guard.1) rfl (sum_result guard.2.1).symm, low_sub, add_compare_iff guard.1]
  simp [Rule.Keeps, joined.there]

theorem subCompare_keeps (wf : f.Acyclic) (values : f.Values x v) (joined : Joined f r ii prev) (fires : ii.subCompare prev = some ii') :
    ∃ c, ii' = ii.join prev c ∧ ((ii.join prev c).result x r v = v r ↔ Rule.subCompare.Keeps h f x v ii) := by
  unfold Insn.subCompare at fires
  split_ifs at fires with guard
  cases fires
  refine ⟨_, rfl, ?_⟩
  rw [join_keeps_iff wf joined values (compare_isSome guard.1) rfl (difference_result guard.2.1).symm, low_add, sub_compare_iff guard.1]
  simp [Rule.Keeps, joined.there]

/-- What a rewriting makes of the instruction alone. -/
theorem apply_spec {rule : Rule} (wf : f.Acyclic) (live : f.live? r = some ii) (values : f.Values x v)
    (fires : rule.apply h f ii = some ii') :
    Rewritten f ii ii' ∧ (ii'.result x r v = v r ↔ rule.Keeps h f x v ii) ∧
      (ii.type.output → (ii'.op 0 = ii.op 0 ↔ (rule = .folding → ii.op 0 = -1))) := by
  have own := values r ii live
  have joined : ∀ {g : Insn → Option Insn}, rule ≠ .folding → (if ii.joins then (f.insn? (ii.op 1)).bind g else none) = some ii' →
      (∀ prev, Joined f r ii prev → g prev = some ii' →
        ∃ c, ii' = ii.join prev c ∧ ((ii.join prev c).result x r v = v r ↔ rule.Keeps h f x v ii)) →
      Rewritten f ii ii' ∧ (ii'.result x r v = v r ↔ rule.Keeps h f x v ii) ∧
        (ii.type.output → (ii'.op 0 = ii.op 0 ↔ (rule = .folding → ii.op 0 = -1))) := fun other fires keeps => by
    obtain ⟨rewritten, keeps, number⟩ := join_rules wf live fires keeps
    exact ⟨rewritten, keeps, fun _ => iff_of_true number fun folding => absurd folding other⟩
  cases rule with
  | exchange =>
    exact ⟨exchange_rewritten fires, exchange_keeps_iff fires own, fun _ => iff_of_true (exchange_number fires) nofun⟩
  | promotion j =>
    refine ⟨promote_rewritten wf live fires, iff_of_true (promote_keeps wf live values fires) trivial,
      fun output => iff_of_true ?_ nofun⟩
    obtain ⟨t, ref, -, -, -, -, -, rfl⟩ := promote_of_some fires
    have apart : (0 : Fin 5) ≠ j := fun same => absurd ((wf.holder r ii live output).symm.trans (same ▸ ref)) (by decide)
    simp [apart]
  | folding =>
    refine ⟨fold_rewritten fires, fold_keeps_iff fires own, fun _ => ?_⟩
    obtain ⟨c, -, -, -, rfl⟩ := fold_of_some fires
    simp [eq_comm]
  | linking => cases fires
  | addAdd => exact joined (by decide) fires fun prev joined => addAdd_keeps wf values joined
  | addSub => exact joined (by decide) fires fun prev joined => addSub_keeps wf values joined
  | subAdd => exact joined (by decide) fires fun prev joined => subAdd_keeps wf values joined
  | addCompare => exact joined (by decide) fires fun prev joined => addCompare_keeps wf values joined
  | subCompare => exact joined (by decide) fires fun prev joined => subCompare_keeps wf values joined

end

/-! ### Linking -/

section
variable {f f' : Func} {x : Input} {v v' : Op → Word} {r s t q : Op} {ii prev jj : Insn}

theorem live?_linked : (f.linked r ii).live? s = (f.live? s).map fun jj =>
    if s = r then ((if s = ii.op 1 then jj.inherit ii else jj).redirect r (ii.op 1)).changeInsnType .nop
    else (if s = ii.op 1 then jj.inherit ii else jj).redirect r (ii.op 1) := by
  rw [Func.linked, live?_modify, live?_mapLive, live?_modify, Option.map_map, Option.map_map]
  rfl

theorem link_of_some (fires : f.link r ii = some f') :
    ∃ prev, ii.isConst 2 ∧ ii.opt 1 = .ref ∧ ii.isMove ∧ f.insn? (ii.op 1) = some prev ∧
    prev.type.output = false ∧ ii.opt 0 = .dest ∧ f' = f.linked r ii := by
  unfold Func.link at fires
  split_ifs at fires with guard
  obtain ⟨prev, there, fires⟩ := Option.bind_eq_some_iff.mp fires
  split_ifs at fires with guard'
  cases fires
  exact ⟨prev, guard.2.1, guard.2.2.1, guard.2.2.2, there, by simpa using guard'.1, guard'.2.2, rfl⟩

theorem redirect_refersTo (refers : (jj.redirect r q).RefersTo t) : jj.RefersTo r ∧ t = q ∨ jj.RefersTo t ∧ t ≠ r := by
  obtain ⟨k, ref, op⟩ := refers
  have ref' : jj.opt k = .ref := ref
  by_cases same : jj.op k = r
  · refine .inl ⟨⟨k, ref', same⟩, ?_⟩
    rw [← op]
    simp [Insn.redirect, ref', same]
  · have kept : jj.op k = t := by
      rw [← op]
      simp [Insn.redirect, same]
    exact .inr ⟨⟨k, ref', kept⟩, fun equal => same (kept.trans equal)⟩

theorem redirect_result (same : v r = v q) : (jj.redirect r q).result x s v = jj.result x s v := by
  refine result_of_operands rfl (fun k => ?_) fun k => Iff.rfl
  by_cases ref : jj.opt k = .ref
  · have ref' : (jj.redirect r q).opt k = .ref := ref
    rw [operand_ref ref, operand_ref ref']
    by_cases moved : jj.op k = r
    · simp [Insn.redirect, ref, moved, same]
    · simp [Insn.redirect, moved]
  · simp [Insn.operand, Insn.redirect, ref]

theorem inherit_result (dest : prev.opt 0 = .dest) (dest' : ii.opt 0 = .dest) : (prev.inherit ii).result x s v = prev.result x s v := by
  have value : (prev.inherit ii).value ⟨v, x.other⟩ = prev.value ⟨v, x.other⟩ := by simp [Insn.value, Insn.inherit, Insn.operand]
  have sources : (prev.inherit ii).sources ⟨v, x.other⟩ = prev.sources ⟨v, x.other⟩ := funext fun k => by
    by_cases zero : k = 0
    · simp [Insn.sources, Insn.inherit, zero, dest, dest']
    · simp [Insn.sources, Insn.inherit, zero, Insn.operand]
  rw [Insn.result, Insn.result, value, sources]
  rfl

theorem inherit_refersTo (dest' : ii.opt 0 = .dest) (refers : (prev.inherit ii).RefersTo t) : prev.RefersTo t := by
  obtain ⟨k, ref, op⟩ := refers
  by_cases zero : k = 0
  · subst zero
    simp [Insn.inherit, dest'] at ref
  · exact ⟨k, by simpa [Insn.inherit, zero] using ref, by simpa [Insn.inherit, zero] using op⟩

/-- A move of what `prev` computes, which is no output. -/
structure Links (f : Func) (r : Op) (ii prev : Insn) : Prop where
  live : f.live? r = some ii
  const : ii.isConst 2
  ref : ii.opt 1 = .ref
  move : ii.isMove
  there : f.live? (ii.op 1) = some prev
  plain : prev.type.output = false
  dest : ii.opt 0 = .dest
  dest' : prev.opt 0 = .dest

theorem Links.apart (links : Links f r ii prev) (wf : f.Acyclic) : ii.op 1 ≠ r := fun same =>
  wf.not_self links.live ⟨1, links.ref, same⟩

theorem Links.value (links : Links f r ii prev) (values : f.Values x v) : v r = v (ii.op 1) := by
  have move := links.move
  simp only [Insn.isMove, Bool.and_eq_true, decide_eq_true_eq] at move
  rw [values r ii links.live, move_result move.1.1 links.const move.2, operand_ref links.ref]

/-- What is referred to after the linking. -/
theorem Links.refers (links : Links f r ii prev) (live : (f.linked r ii).live? s = some jj) (refers : jj.RefersTo t) :
    s ≠ r ∧ ∃ old, f.live? s = some old ∧ (old.RefersTo r ∧ t = ii.op 1 ∨ old.RefersTo t ∧ t ≠ r) := by
  rw [live?_linked] at live
  obtain ⟨old, there, same⟩ := Option.map_eq_some_iff.mp live
  by_cases gone : s = r
  · rw [if_pos gone] at same
    subst same
    obtain ⟨k, ref, -⟩ := refers
    simp [Insn.changeInsnType] at ref
  · rw [if_neg gone] at same
    subst same
    refine ⟨gone, old, there, ?_⟩
    by_cases source : s = ii.op 1
    · rw [if_pos source] at refers
      exact (redirect_refersTo refers).imp (And.imp_left (inherit_refersTo links.dest)) (And.imp_left (inherit_refersTo links.dest))
    · rw [if_neg source] at refers
      exact redirect_refersTo refers

theorem Links.acyclic (links : Links f r ii prev) (wf : f.Acyclic) : ((f.linked r ii).system x).Acyclic := by
  obtain ⟨rank, lower⟩ := wf.ranked
  refine acyclic_of_rank rank fun n m reads => ?_
  obtain ⟨jj, live, refers⟩ := reads
  obtain ⟨-, old, there, ⟨through, rfl⟩ | ⟨direct, -⟩⟩ := links.refers live refers
  · exact (lower r ii _ links.live ⟨1, links.ref, rfl⟩).trans (lower n old r there through)
  · exact lower n old m there direct

theorem Links.closed (links : Links f r ii prev) (wf : f.Acyclic) :
    ((f.linked r ii).system x).Closed fun s => (f.live? s).isSome ∧ s ≠ r := by
  rintro n m - ⟨jj, live, refers⟩
  obtain ⟨-, old, there, ⟨-, rfl⟩ | ⟨direct, apart⟩⟩ := links.refers live refers
  · exact ⟨by simp [links.there], links.apart wf⟩
  · obtain ⟨_, valid, -⟩ := wf.valid n old m there direct
    exact ⟨by simp [valid], apart⟩

theorem Links.solves (links : Links f r ii prev) (values : f.Values x v) :
    ((f.linked r ii).system x).Solves (fun s => (f.live? s).isSome ∧ s ≠ r) v := by
  rintro s ⟨live, apart⟩
  obtain ⟨jj, live⟩ := Option.isSome_iff_exists.mp live
  have after : (f.linked r ii).live? s = some ((if s = ii.op 1 then jj.inherit ii else jj).redirect r (ii.op 1)) := by
    rw [live?_linked, live, Option.map_some, if_neg apart]
  rw [system_eqn after, redirect_result (links.value values), values s jj live]
  by_cases source : s = ii.op 1
  · subst source
    cases links.there.symm.trans live
    rw [if_pos rfl, inherit_result links.dest' links.dest]
  · rw [if_neg source]

/-- The linking of a move keeps every value that is used. -/
theorem Links.kept (links : Links f r ii prev) (wf : f.Acyclic) (values : f.Values x v) (values' : (f.linked r ii).Values x v') :
    Kept f (f.linked r ii) v v' := by
  have same : ∀ s, (f.live? s).isSome ∧ s ≠ r → v' s = v s := fun s inside =>
    (solutions_agree (links.acyclic wf) (links.closed wf) (links.solves values)
      (Solves.mono (values_iff.mp values') fun s inside => by rw [live?_linked, Option.isSome_map]; exact inside.1) s inside).symm
  constructor
  · rintro s ⟨t, jj, live, refers⟩
    obtain ⟨apart, old, there, -⟩ := links.refers live refers
    exact same s (links.closed (x := x) wf t s ⟨by simp [there], apart⟩ ⟨jj, live, refers⟩)
  · intro s jj live output
    by_cases gone : s = r
    · -- the register is now held by `prev`
      subst gone
      cases links.live.symm.trans live
      refine ⟨ii.op 1, (prev.inherit ii).redirect s (ii.op 1), ?_, ?_, ?_, ?_⟩
      · rw [live?_linked, links.there, Option.map_some, if_neg (links.apart wf), if_pos rfl]
      · simp [Insn.redirect, Insn.inherit, output]
      · simp [Insn.redirect, Insn.inherit, links.dest]
      · rw [same _ ⟨by simp [links.there], links.apart wf⟩, links.value values]
    · have source : s ≠ ii.op 1 := fun equal => by
        subst equal
        cases links.there.symm.trans live
        simp [links.plain] at output
      refine ⟨s, jj.redirect r (ii.op 1), ?_, output, ?_, same s ⟨by simp [live], gone⟩⟩
      · rw [live?_linked, live, Option.map_some, if_neg gone, if_neg source]
      · simp [Insn.redirect, wf.holder s jj live output]

end

/-- Each rewriting keeps the values that are used exactly when the instruction is not used or its value is kept, and a folded output has
no register. -/
theorem rewrite_kept_iff {f f' : Func} {h : Host} {x : Input} {v v' : Op → Word} {r : Op} {ii : Insn} {rule : Rule} (wf : f.Acyclic)
    (live : f.live? r = some ii) (fires : f.rewrite h r rule = some f') (values : f.Values x v) (values' : f'.Values x v') :
    Kept f f' v v' ↔ rule.Holds h f x v r ii := by
  rw [Func.rewrite, live, Option.bind_some] at fires
  by_cases linking : rule = .linking
  · rw [if_pos linking] at fires
    obtain ⟨prev, const, ref, move, there, plain, dest, rfl⟩ := link_of_some fires
    obtain ⟨live', dest'⟩ := live?_operand wf live ref there
    refine iff_of_true (Links.kept ⟨live, const, ref, move, live', plain, dest, dest'⟩ wf values values') ?_
    subst linking
    exact ⟨fun _ => trivial, nofun⟩
  · rw [if_neg linking] at fires
    obtain ⟨ii', applied, rfl⟩ := Option.map_eq_some_iff.mp fires
    obtain ⟨rewritten, keeps, number⟩ := apply_spec wf live values applied
    rw [kept_set_iff wf live rewritten.within rewritten.output values values', keeps, Rule.Holds]
    refine and_congr_right fun _ => ?_
    exact ⟨fun same folding output => (number output).mp (same output) folding,
      fun same output => (number output).mpr fun folding => same folding output⟩

/-! ### A sum after a difference -/

/-- `r3 - 3`. -/
def lessThree : Insn := { index := .sub, opt := ![.dest, .register, .const, .none, .none], op := ![3, 3, 3, 0, 0] }

/-- The result of this and 5, left in `r11`. -/
def plusFive : Insn :=
  { type := { output := true }, index := .add, opt := ![.dest, .ref, .const, .none, .none], op := ![11, 0, 5, 0, 0] }

def plusTwo : Func := { bb := [{ insn := [lessThree, plusFive] }] }

theorem plusTwo_live {r : Op} {ii : Insn} (live : plusTwo.live? r = some ii) : r = 0 ∧ ii = lessThree ∨ r = 1 ∧ ii = plusFive := by
  have place := live?_single live
  have number : ∀ n : Nat, r.toNat = n → r = BitVec.ofNat 64 n := fun n same => by rw [← same, BitVec.ofNat_toNat, BitVec.setWidth_eq]
  rcases at_ : r.toNat with _ | _ | n
  · rw [at_] at place
    exact .inl ⟨number 0 at_, by simpa [eq_comm] using place⟩
  · rw [at_] at place
    exact .inr ⟨number 1 at_, by simpa [eq_comm] using place⟩
  · rw [at_] at place
    simp at place

theorem lessThree_refersTo {s : Op} : ¬lessThree.RefersTo s := by
  rintro ⟨k, ref, -⟩
  revert k
  decide

theorem plusFive_refersTo {s : Op} (refers : plusFive.RefersTo s) : s = 0 := by
  obtain ⟨k, ref, rfl⟩ := refers
  revert k
  decide

theorem plusTwo_acyclic : plusTwo.Acyclic where
  valid r ii s live refers := by
    obtain ⟨rfl, rfl⟩ | ⟨rfl, rfl⟩ := plusTwo_live live
    · exact absurd refers lessThree_refersTo
    · rw [plusFive_refersTo refers]
      exact ⟨lessThree, rfl, rfl⟩
  first r ii k live := by
    obtain ⟨rfl, rfl⟩ | ⟨rfl, rfl⟩ := plusTwo_live live <;> revert k <;> decide
  ranked := by
    refine ⟨BitVec.toNat, fun r ii s live refers => ?_⟩
    obtain ⟨rfl, rfl⟩ | ⟨rfl, rfl⟩ := plusTwo_live live
    · exact absurd refers lessThree_refersTo
    · rw [plusFive_refersTo refers]
      decide
  holder r ii live := by
    obtain ⟨rfl, rfl⟩ | ⟨rfl, rfl⟩ := plusTwo_live live <;> decide
  outputs r s ii jj live live' output output' _ := by
    obtain ⟨rfl, rfl⟩ | ⟨rfl, rfl⟩ := plusTwo_live live <;> obtain ⟨rfl, rfl⟩ | ⟨rfl, rfl⟩ := plusTwo_live live' <;> simp_all [lessThree]

/-- All registers are 10. -/
def tens : Input := ⟨fun _ _ => 10, fun _ _ _ => 0⟩

/-- The values of the two instructions. -/
def pair (a b : Word) (r : Op) : Word := if r = 0 then a else b

/-- `r3 + 8`. -/
def plusEight : Func := plusTwo.set 1 (plusFive.join lessThree 8)

theorem plusTwo_values : plusTwo.Values tens (pair 7 12) := by
  intro r ii live
  obtain ⟨rfl, rfl⟩ | ⟨rfl, rfl⟩ := plusTwo_live live <;> decide

theorem plusEight_values : plusEight.Values tens (pair 7 18) := by
  intro r ii live
  by_cases second : r = 1
  · subst second
    rw [plusEight, live?_set_self (show plusTwo.live? 1 = some plusFive from rfl)] at live
    cases live
    decide
  · rw [plusEight, live?_set_ne second] at live
    obtain ⟨rfl, rfl⟩ | ⟨rfl, -⟩ := plusTwo_live live
    · decide
    · exact absurd rfl second

def shiftless : Host := ⟨fun _ _ => 0, fun _ _ => 0⟩

theorem plusTwo_kept_iff : Kept plusTwo plusEight (pair 7 12) (pair 7 18) ↔
    Rule.addSub.Holds shiftless plusTwo tens (pair 7 12) 1 plusFive :=
  rewrite_kept_iff plusTwo_acyclic rfl rfl plusTwo_values plusEight_values

/-- The constants are added though the first one is subtracted. -/
theorem plusTwo_lost : ¬∀ (f f' : Func) (h : Host) (x : Input) (v v' : Op → Word) (r : Op) (rule : Rule), f.Acyclic →
    f.rewrite h r rule = some f' → f.Values x v → f'.Values x v' → Kept f f' v v' := by
  intro all
  have kept := all plusTwo plusEight shiftless tens (pair 7 12) (pair 7 18) 1 .addSub plusTwo_acyclic rfl plusTwo_values plusEight_values
  obtain ⟨s, jj, live, output, -, value⟩ := kept.outputs 1 plusFive rfl rfl
  have different : s ≠ 1 := fun same => by
    subst same
    exact absurd value (by decide)
  rw [plusEight, live?_set_ne different] at live
  obtain ⟨-, rfl⟩ | ⟨rfl, -⟩ := plusTwo_live live
  · exact absurd output (by decide)
  · exact different rfl

end Or1ksim.Cuc
