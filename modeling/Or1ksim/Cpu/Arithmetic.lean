import Or1ksim.Lib.Overflow
import Or1ksim.Cpu.FaultingAccess

/-!
# Arithmetic

What the arithmetic instructions are for: a number, with the two ways in which a word can fail to hold it. The
instructions write the word of the number, the flags, and raise the range exception for them.
-/

namespace Or1ksim.Cpu

open Overflow (Fits)

/-! ### Numbers -/

inductive Alu where
  | add | addc | sub | mul | mulu | div | divu
  deriving DecidableEq, Repr

/-- What an instruction answers: the value of its destination, and the flags. `none` leaves them as they are. -/
structure Answer where
  value : Option Word
  ov : Option Bool
  cy : Option Bool
  deriving DecidableEq, Repr

namespace Alu

def body : Alu → P Unit
  | .add => lAdd
  | .addc => lAddc
  | .sub => lSub
  | .mul => lMul
  | .mulu => lMulu
  | .div => lDiv
  | .divu => lDivu

/-- A number with a sign, and whether one without a sign was carried, borrowed or lost. -/
def signed (z : Int) (cy : Option Bool) : Answer := ⟨some (BitVec.ofInt 32 z), some !decide (Fits 32 z), cy⟩

/-- Division has no answer by zero, nor where the quotient does not fit. -/
def quotient (fails : Bool) (z : Int) : Answer := ⟨if fails then none else some (BitVec.ofInt 32 z), some fails, none⟩

/-- `x` and `y` are the sources, and `carry` the carry flag. -/
def answer (x y : Word) (carry : Bool) : Alu → Answer
  | .add => signed (x.toInt + y.toInt) (some (decide (2 ^ 32 ≤ x.toNat + y.toNat)))
  | .addc => signed (x.toInt + y.toInt + carry.toInt) (some (decide (2 ^ 32 ≤ x.toNat + y.toNat + carry.toNat)))
  | .sub => signed (x.toInt - y.toInt) (some (decide (x.toNat < y.toNat)))
  | .mul => signed (x.toInt * y.toInt) none
  | .mulu => ⟨some (BitVec.ofNat 32 (x.toNat * y.toNat)), none, some (decide (2 ^ 32 ≤ x.toNat * y.toNat))⟩
  | .div => quotient (y = 0 ∨ (x.toInt = -2 ^ 31 ∧ y.toInt = -1)) (x.toInt.tdiv y.toInt)
  | .divu => quotient (y = 0) (x.toNat / y.toNat)

/-- The bits of `AECR` and `AESR` for an overflow and for a carry of the instruction. -/
def ovBit : Alu → Word
  | .add | .addc | .sub => aeOvadde
  | .mul => aeOvmule
  | .mulu => 0
  | .div | .divu => aeDbze

def cyBit : Alu → Word
  | .add | .addc | .sub => aeCyadde
  | .mulu => aeCymule
  | .mul | .div | .divu => 0

end Alu

/-- The bits of the conditions that an answer raises. -/
def Answer.raised (a : Answer) (ovBit cyBit : Word) : Word :=
  (if a.ov = some true then ovBit else 0) ||| (if a.cy = some true then cyBit else 0)

variable {δ : Type}

/-- Whether an answer enters the range exception. -/
def Answer.Ranges (a : Answer) (ovBit cyBit : Word) (m : Machine δ) : Prop :=
  has m.sr srOve = true ∧
    if has (m.sprs sprCpucfgr) cpucfgrAecsrp then has (m.sprs sprAecr) (a.raised ovBit cyBit) = true else a.ov = some true

/-- The state `s` holds the answer, beside what was in `m`. -/
structure Answer.Written (a : Answer) (d : Fin 32) (m s : Machine δ) : Prop where
  value : d ≠ 0 → s.reg d = a.value.getD (m.reg d)
  others : ∀ k, k ≠ d → s.reg k = m.reg k
  ov : has s.sr srOv = a.ov.getD (has m.sr srOv)
  cy : has s.sr srCy = a.cy.getD (has m.sr srCy)
  bits : s.sr &&& ~~~(srOv ||| srCy) = m.sr &&& ~~~(srOv ||| srCy)
  rest : s = setSpr sprSr s.sr { m with reg := s.reg }

/-- The instruction writes its answer, and enters the range exception when it has to. -/
def Answer.Concludes (a : Answer) (ovBit cyBit : Word) (d : Fin 32) (m after : Machine δ) : Prop :=
  ∃ s, a.Written d m s ∧
    ((¬ a.Ranges ovBit cyBit m ∧ after = s) ∨
      (a.Ranges ovBit cyBit m ∧ ∃ t, (t = s ∨ ∃ aesr, t = setSpr sprAesr aesr s) ∧ after = exceptHandle .range m.pc t))

/-! ### Flags -/

section Flags
variable {x : Word}

theorem has_or_of_apart {bit mask : Word} (apart : bit &&& mask = 0#32) : has (x ||| bit) mask = has x mask := by
  unfold has
  rw [BitVec.and_or_distrib_right, apart, BitVec.or_zero]

theorem has_clear_of_apart {bit mask : Word} (apart : ~~~bit &&& mask = mask) : has (x &&& ~~~bit) mask = has x mask := by
  unfold has
  rw [BitVec.and_assoc, apart]

theorem has_or_self {bit : Word} (set : bit ≠ 0) : has (x ||| bit) bit = true := by
  unfold has
  rw [BitVec.and_or_distrib_right, BitVec.and_self]
  refine decide_eq_true fun none => set ?_
  exact (BitVec.or_eq_zero_iff.mp none).2

theorem has_clear_self {bit : Word} : has (x &&& ~~~bit) bit = false := by
  unfold has
  rw [BitVec.and_assoc, BitVec.not_and_self]
  exact decide_eq_false fun not => not BitVec.and_zero

end Flags

theorem setFlag_sr (flag : Flag) (b : Bool) (s : Machine δ) :
    (setFlag flag b s).sr = if b then s.sr ||| flag.bit else s.sr &&& ~~~flag.bit := rfl

theorem setFlag_has (flag : Flag) (b : Bool) (s : Machine δ) : has (setFlag flag b s).sr flag.bit = b := by
  rw [setFlag_sr]
  cases b with
  | false => exact has_clear_self
  | true => exact has_or_self (by cases flag <;> decide)

theorem setFlag_has_other {flag : Flag} (b : Bool) (s : Machine δ) {mask : Word} (apart : flag.bit &&& mask = 0#32)
    (kept : ~~~flag.bit &&& mask = mask) :
    has (setFlag flag b s).sr mask = has s.sr mask := by
  rw [setFlag_sr]
  cases b with
  | false => exact has_clear_of_apart kept
  | true => exact has_or_of_apart apart

theorem setFlag_bits {flag : Flag} (b : Bool) (s : Machine δ) {mask : Word} (apart : flag.bit &&& mask = 0#32)
    (kept : ~~~flag.bit &&& mask = mask) :
    (setFlag flag b s).sr &&& mask = s.sr &&& mask := by
  rw [setFlag_sr]
  cases b with
  | false => rw [if_neg (by decide), BitVec.and_assoc, kept]
  | true => rw [if_pos rfl, BitVec.and_or_distrib_right, apart, BitVec.or_zero]

/-! ### Writing an answer -/

def setFlagOf (flag : Flag) : Option Bool → Machine δ → Machine δ
  | none, s => s
  | some b, s => setFlag flag b s

/-- The flags of an answer. -/
def Answer.flags (a : Answer) (s : Machine δ) : Machine δ := setFlagOf .cy a.cy (setFlagOf .ov a.ov s)

theorem setFlagOf_rest (flag : Flag) (b : Option Bool) (s : Machine δ) :
    setFlagOf flag b s = setSpr sprSr (setFlagOf flag b s).sr s := by
  cases b with
  | none => exact (setSpr_self sprSr s).symm
  | some b => rfl

theorem Answer.flags_rest (a : Answer) (s : Machine δ) : a.flags s = setSpr sprSr (a.flags s).sr s := by
  unfold Answer.flags
  rw [setFlagOf_rest, setFlagOf_rest .ov a.ov s, setSpr_setSpr]
  rfl

theorem Answer.flags_ov (a : Answer) (s : Machine δ) : has (a.flags s).sr srOv = a.ov.getD (has s.sr srOv) := by
  have cy : has (a.flags s).sr srOv = has (setFlagOf .ov a.ov s).sr srOv := by
    unfold Answer.flags
    cases a.cy with
    | none => rfl
    | some b => exact setFlag_has_other b _ (by decide) (by decide)
  rw [cy]
  cases a.ov with
  | none => rfl
  | some b => exact setFlag_has .ov b s

theorem Answer.flags_cy (a : Answer) (s : Machine δ) : has (a.flags s).sr srCy = a.cy.getD (has s.sr srCy) := by
  unfold Answer.flags
  cases a.cy with
  | some b => exact setFlag_has .cy b _
  | none =>
    cases a.ov with
    | none => rfl
    | some b => exact setFlag_has_other b s (by decide) (by decide)

theorem Answer.flags_bits (a : Answer) (s : Machine δ) : (a.flags s).sr &&& ~~~(srOv ||| srCy) = s.sr &&& ~~~(srOv ||| srCy) := by
  have ov : (setFlagOf .ov a.ov s).sr &&& ~~~(srOv ||| srCy) = s.sr &&& ~~~(srOv ||| srCy) := by
    cases a.ov with
    | none => rfl
    | some b => exact setFlag_bits b s (by decide) (by decide)
  unfold Answer.flags
  cases a.cy with
  | none => exact ov
  | some b => exact (setFlag_bits b _ (by decide) (by decide)).trans ov

/-- Operand 0 is the register `d`. Register `0` may be put back at once. -/
def Operands.Sets (opd : Operands δ) (d : Fin 32) : Prop :=
  ∀ v s, ∃ w, opd.setParam0 v s = .ok ((), setReg d w s) ∧ (d ≠ 0 → w = v)

/-- The destination holds the value of an answer. -/
def Answer.Stored (a : Answer) (d : Fin 32) (m t : Machine δ) : Prop :=
  t = m ∧ a.value = none ∨ ∃ v w, a.value = some v ∧ t = setReg d w m ∧ (d ≠ 0 → w = v)

theorem Answer.Stored.written {a : Answer} {d : Fin 32} {m t : Machine δ} (written : a.Stored d m t) :
    a.Written d m (a.flags t) := by
  have rest := a.flags_rest t
  have reg : (a.flags t).reg = t.reg := by rw [rest]; rfl
  have sr : t.sr = m.sr ∧ t = { m with reg := t.reg } := by
    obtain ⟨rfl, _⟩ | ⟨v, w, _, rfl, _⟩ := written
    · exact ⟨rfl, rfl⟩
    · exact ⟨rfl, rfl⟩
  refine ⟨fun some => ?_, fun k other => ?_, ?_, ?_, ?_, ?_⟩
  · rw [reg]
    obtain ⟨rfl, none⟩ | ⟨v, w, value, rfl, same⟩ := written
    · rw [none]
      rfl
    · rw [value]
      exact (if_pos rfl).trans (same some)
  · rw [reg]
    obtain ⟨rfl, _⟩ | ⟨v, w, _, rfl, _⟩ := written
    · rfl
    · exact if_neg other
  · rw [a.flags_ov, sr.1]
  · rw [a.flags_cy, sr.1]
  · rw [a.flags_bits, sr.1]
  · rw [reg, ← sr.2]
    exact rest

/-! ### The range exception -/

/-- The end of an arithmetic instruction, with what it reports in `AESR`. -/
def Answer.conclude (a : Answer) (ovBit cyBit aesr : Word) (s : Machine δ) : Machine δ :=
  if has s.sr srOve then
    if has (s.sprs sprCpucfgr) cpucfgrAecsrp then
      if has (s.sprs sprAecr) (a.raised ovBit cyBit) then exceptHandle .range s.pc (setSpr sprAesr aesr s) else s
    else if a.ov = some true then exceptHandle .range s.pc s else s
  else s

theorem has_or_mask (x y z : Word) : has x (y ||| z) = (has x y || has x z) := by
  have split : x &&& (y ||| z) = (x &&& y) ||| (x &&& z) := by ext; simp [Bool.and_or_distrib_left]
  unfold has
  rw [split, Bool.eq_iff_iff, Bool.or_eq_true, decide_eq_true_iff, decide_eq_true_iff, decide_eq_true_iff, Ne,
    show (0 : Word) = 0#32 from rfl, BitVec.or_eq_zero_iff, not_and_or]

theorem has_none (x : Word) : has x 0 = false := by
  unfold has
  exact decide_eq_false fun not => not BitVec.and_zero

section
variable {c : Config δ} {opd : Operands δ} {a : Answer} {s : Machine δ}

theorem runP_true {α : Type} {b : Bool} {p q : P α} (h : b = true) : runP c opd (if b then p else q) s = runP c opd p s := by
  rw [if_pos h]

theorem runP_false {α : Type} {b : Bool} {p q : P α} (h : ¬ b = true) : runP c opd (if b then p else q) s = runP c opd q s := by
  rw [if_neg h]

/-- The end of `l_mulu`. -/
def rangeCy : P Unit := do
  let v ← act .view
  if has v.sr srOve then
    if has v.cpucfgr cpucfgrAecsrp then
      if has v.sr srCy && has v.aecr aeCymule then
        act (.setSpr .aesr (if has v.sr srOv then aeCymule else 0))
        act (.exceptHandle .range v.pc)

/-- The end of an arithmetic instruction: what it asks for under `AECR`, what it reports, and what it asks for without. -/
def rangeEnd (enabled : View → Bool) (reported : View → Word) (alone : View → Bool) : P Unit := do
  let v ← act .view
  if has v.sr srOve then
    if has v.cpucfgr cpucfgrAecsrp then
      if enabled v then
        act (.setSpr .aesr (reported v))
        act (.exceptHandle .range v.pc)
    else if alone v then act (.exceptHandle .range v.pc)

theorem runP_rangeEnd {enabled : View → Bool} {reported : View → Word} {alone : View → Bool} {ovBit cyBit : Word}
    (on : enabled s.view = has (s.sprs sprAecr) (a.raised ovBit cyBit)) (off : alone s.view = decide (a.ov = some true)) :
    runP c opd (rangeEnd enabled reported alone) s = .ok ((), a.conclude ovBit cyBit (reported s.view) s) := by
  unfold rangeEnd Answer.conclude
  rw [runP_view, ← on]
  by_cases ove : has s.sr srOve = true
  · rw [if_pos ove]
    refine (runP_true ove).trans ?_
    by_cases aecsrp : has (s.sprs sprCpucfgr) cpucfgrAecsrp = true
    · rw [if_pos aecsrp]
      refine (runP_true aecsrp).trans ?_
      by_cases raises : enabled s.view = true
      · rw [if_pos raises]
        exact (runP_true raises).trans rfl
      · rw [if_neg raises]
        exact (runP_false raises).trans rfl
    · rw [if_neg aecsrp]
      refine (runP_false aecsrp).trans ?_
      by_cases raises : a.ov = some true
      · rw [if_pos raises]
        exact (runP_true (off.trans (decide_eq_true raises))).trans rfl
      · rw [if_neg raises]
        exact (runP_false (by rw [off]; simpa using raises)).trans rfl
  · rw [if_neg ove]
    exact (runP_false ove).trans rfl

theorem raised_enabled (x : Word) {o y : Bool} (ovBit cyBit : Word) (v : Option Word) :
    has x ((⟨v, some o, some y⟩ : Answer).raised ovBit cyBit) = ((y && has x cyBit) || (o && has x ovBit)) := by
  have none : has x 0#32 = false := has_none _
  rw [Answer.raised, has_or_mask]
  cases o <;> cases y <;> simp [none, Bool.or_comm]

theorem runP_rangeCyOv {o y : Bool} {v : Option Word} (ov : has s.sr srOv = o) (cy : has s.sr srCy = y) :
    let a : Answer := ⟨v, some o, some y⟩
    runP c opd rangeCyOv s = .ok ((), a.conclude aeOvadde aeCyadde (a.raised aeOvadde aeCyadde) s) := by
  subst ov cy
  intro a
  have reported : a.raised aeOvadde aeCyadde = (if has s.sr srOv then aeOvadde else 0) ||| (if has s.sr srCy then aeCyadde else 0) := by
    simp only [a, Answer.raised, Option.some.injEq]
  rw [reported]
  refine runP_rangeEnd (raised_enabled _ _ _ _).symm ?_
  simp [a, Machine.view]

theorem runP_rangeOv {o : Bool} {v : Option Word} (bit : Word) (ov : has s.sr srOv = o) :
    let a : Answer := ⟨v, some o, none⟩
    runP c opd (rangeOv bit) s = .ok ((), a.conclude bit 0 (a.raised bit 0) s) := by
  subst ov
  intro a
  have reported : a.raised bit 0 = if has s.sr srOv then bit else 0 := by simp [a, Answer.raised]
  rw [reported]
  refine runP_rangeEnd ?_ ?_
  · rw [reported]
    show (has s.sr srOv && has (s.sprs sprAecr) bit) = _
    cases has s.sr srOv
    · exact (has_none _).symm
    · rfl
  · simp [a, Machine.view]

theorem runP_rangeCy {y : Bool} {v : Option Word} (cy : has s.sr srCy = y) :
    let a : Answer := ⟨v, none, some y⟩
    runP c opd rangeCy s = .ok ((), a.conclude 0 aeCymule (if has s.sr srOv then aeCymule else 0) s) := by
  subst cy
  intro a
  have reported : a.raised 0 aeCymule = if has s.sr srCy then aeCymule else 0 := by simp [a, Answer.raised]
  have ends : rangeCy =
      rangeEnd (fun v => has v.sr srCy && has v.aecr aeCymule) (fun v => if has v.sr srOv then aeCymule else 0) fun _ => false := rfl
  rw [ends]
  refine runP_rangeEnd ?_ rfl
  · rw [reported]
    show (has s.sr srCy && has (s.sprs sprAecr) aeCymule) = _
    cases has s.sr srCy
    · exact (has_none _).symm
    · rfl

/-! ### The instructions -/

theorem runP_setParam0 {α : Type} {v : Word} {t : Machine δ} (set : opd.setParam0 v s = .ok ((), t)) (f : Unit → P α) :
    runP c opd (act (.setParam0 v) >>= f) s = runP c opd (f ()) t := Programs.bind_of_ok set

variable {d : Fin 32} (sets : opd.Sets d)
include sets

theorem stores (v : Word) {o y : Option Bool} (m : Machine δ) :
    ∃ t, opd.setParam0 v m = .ok ((), t) ∧ (⟨some v, o, y⟩ : Answer).Stored d m t := by
  obtain ⟨w, set, same⟩ := sets v m
  exact ⟨_, set, .inr ⟨v, w, rfl, rfl, same⟩⟩

/-- `l_add`, `l_addc` and `l_sub`, behind their operands. -/
theorem runP_sum (v : Word) (o y : Bool) (m : Machine δ) :
    let a : Answer := ⟨some v, some o, some y⟩
    ∃ t, a.Stored d m t ∧
      runP c opd (do act (.setParam0 v); act (.setFlag .ov o); act (.setFlag .cy y); rangeCyOv) m =
        .ok ((), a.conclude aeOvadde aeCyadde (a.raised aeOvadde aeCyadde) (a.flags t)) := by
  intro a
  obtain ⟨t, set, stored⟩ := stores sets v (o := some o) (y := some y) m
  refine ⟨t, stored, (runP_setParam0 set _).trans ?_⟩
  exact runP_rangeCyOv (a.flags_ov t) (a.flags_cy t)

/-- `l_mul`, and the divisions where they have an answer. -/
theorem runP_product (v bit : Word) (o : Bool) (m : Machine δ) :
    let a : Answer := ⟨some v, some o, none⟩
    ∃ t, a.Stored d m t ∧
      runP c opd (do act (.setParam0 v); act (.setFlag .ov o); rangeOv bit) m =
        .ok ((), a.conclude bit 0 (a.raised bit 0) (a.flags t)) := by
  intro a
  obtain ⟨t, set, stored⟩ := stores sets v (o := some o) (y := none) m
  refine ⟨t, stored, (runP_setParam0 set _).trans ?_⟩
  exact runP_rangeOv bit (a.flags_ov t)

omit sets in
theorem runP_undefined (d : Fin 32) (bit : Word) (m : Machine δ) :
    let a : Answer := ⟨none, some true, none⟩
    a.Stored d m m ∧ runP c opd (do act (.setFlag .ov true); rangeOv bit) m =
      .ok ((), a.conclude bit 0 (a.raised bit 0) (a.flags m)) := by
  intro a
  exact ⟨.inl ⟨rfl, rfl⟩, runP_rangeOv bit (a.flags_ov m)⟩

/-- `l_mulu`. It reports by a flag that it has not set. -/
theorem runP_mulu (x y : Word) {m : Machine δ} (hx : opd.param 1 m = .ok (x, m)) (hy : opd.param 2 m = .ok (y, m)) :
    let a : Answer := ⟨some (x * y), none, some (x.umulOverflow y)⟩
    ∃ t, a.Stored d m t ∧
      runP c opd lMulu m = .ok ((), a.conclude 0 aeCymule (if has m.sr srOv then aeCymule else 0) (a.flags t)) := by
  intro a
  obtain ⟨t, set, stored⟩ := stores sets (x * y) (o := none) (y := some (x.umulOverflow y)) m
  have sr : t.sr = m.sr := by
    obtain ⟨rfl, _⟩ | ⟨v, w, _, rfl, _⟩ := stored <;> rfl
  have ov : has (a.flags t).sr srOv = has m.sr srOv := (a.flags_ov t).trans (by rw [sr]; rfl)
  refine ⟨t, stored, (runP_param hy _).trans ((runP_param hx _).trans ((runP_setParam0 set _).trans ?_))⟩
  rw [← ov]
  exact runP_rangeCy (a.flags_cy t)

end

/-! ### The answers -/

theorem ofInt_add_toInt (x y : Word) : BitVec.ofInt 32 (x.toInt + y.toInt) = y + x := by
  rw [BitVec.ofInt_add, BitVec.ofInt_toInt, BitVec.ofInt_toInt, BitVec.add_comm]

namespace Alu

theorem answer_add (x y : Word) (carry : Bool) : add.answer x y carry =
    ⟨some (y + x), some (y.saddOverflow x), some ((y + x).ult y)⟩ := by
  rw [Overflow.saddOverflow_eq, BitVec.add_comm, Overflow.ult_add_right, Int.add_comm, answer, signed, ofInt_add_toInt, BitVec.add_comm]

theorem answer_addc (x y : Word) (carry : Bool) :
    let sum := y + x + if carry then 1 else 0
    addc.answer x y carry = ⟨some sum, some ((y.msb && x.msb && !sum.msb) || (!y.msb && !x.msb && sum.msb)),
      some ((carry && sum.ule y) || sum.ult y)⟩ := by
  intro sum
  have value : BitVec.ofInt 32 (x.toInt + y.toInt + carry.toInt) = sum := by
    rw [BitVec.ofInt_add, ofInt_add_toInt]
    cases carry <;> rfl
  have ov : ((y.msb && x.msb && !sum.msb) || (!y.msb && !x.msb && sum.msb)) = !decide (Fits 32 (x.toInt + y.toInt + carry.toInt)) := by
    rw [← value]
    refine Overflow.signs_eq y x (by decide) ?_
    cases carry with
    | false => exact .inl (by rw [Bool.toInt_false, Int.add_zero, Int.add_comm])
    | true => exact .inr (by rw [Bool.toInt_true, Int.add_comm x.toInt])
  have cy : ((carry && sum.ule y) || sum.ult y) = decide (2 ^ 32 ≤ x.toNat + y.toNat + carry.toNat) := by
    cases carry with
    | false =>
      show (false || (y + x + 0).ult y) = _
      rw [Bool.false_or, show y + x + 0 = x + y by rw [BitVec.add_comm y]; exact BitVec.add_zero _, Overflow.ult_add_right]
      rfl
    | true =>
      have le := Overflow.ule_add_right x y (by decide)
      have lt : (y + x + 1).ult y = true → (y + x + 1).ule y = true := by
        simp only [BitVec.ult, BitVec.ule, decide_eq_true_eq]
        omega
      show (true && (y + x + 1).ule y || (y + x + 1).ult y) = _
      rw [BitVec.add_comm y] at lt ⊢
      rw [Bool.true_and, Bool.or_eq_left_iff_imp.mpr lt, le]
      rfl
  rw [ov, cy, ← value]
  rfl

theorem answer_sub (x y : Word) (carry : Bool) : sub.answer x y carry = ⟨some (x - y), some (x.ssubOverflow y), some (x.ult y)⟩ := by
  have value : BitVec.ofInt 32 (x.toInt - y.toInt) = x - y := by
    apply BitVec.eq_of_toInt_eq
    rw [BitVec.toInt_ofInt, BitVec.toInt_sub]
  rw [Overflow.ssubOverflow_eq, answer, signed, value]
  rfl

theorem answer_mul (x y : Word) (carry : Bool) : mul.answer x y carry = ⟨some (x * y), some (x.smulOverflow y), none⟩ := by
  have value : BitVec.ofInt 32 (x.toInt * y.toInt) = x * y := by
    rw [BitVec.ofInt_mul, BitVec.ofInt_toInt, BitVec.ofInt_toInt]
  rw [Overflow.smulOverflow_eq, answer, signed, value]

theorem answer_mulu (x y : Word) (carry : Bool) : mulu.answer x y carry = ⟨some (x * y), none, some (x.umulOverflow y)⟩ := by
  have value : BitVec.ofNat 32 (x.toNat * y.toNat) = x * y := by
    rw [BitVec.ofNat_mul, BitVec.ofNat_toNat, BitVec.ofNat_toNat, BitVec.setWidth_eq, BitVec.setWidth_eq]
  rw [answer, value]
  rfl

theorem quotient_eq (p : Prop) [Decidable p] (z : Int) :
    quotient (decide p) z = if p then ⟨none, some true, none⟩ else ⟨some (BitVec.ofInt 32 z), some false, none⟩ := by
  by_cases fails : p <;> simp [quotient, fails]

theorem div_fails_iff (x y : Word) : (y = 0 ∨ (x.toInt = -2 ^ 31 ∧ y.toInt = -1)) ↔ (y = 0 ∨ (x = 0x80000000 ∧ y = 0xffffffff)) := by
  have least : x.toInt = -2 ^ 31 ↔ x = 0x80000000 := by
    rw [← BitVec.toInt_inj]
    rfl
  have minus : y.toInt = -1 ↔ y = 0xffffffff := by
    rw [← BitVec.toInt_inj]
    rfl
  rw [least, minus]

theorem answer_div (x y : Word) (carry : Bool) :
    div.answer x y carry =
      if y = 0 ∨ (x = 0x80000000 ∧ y = 0xffffffff) then ⟨none, some true, none⟩ else ⟨some (x.sdiv y), some false, none⟩ := by
  have value : BitVec.ofInt 32 (x.toInt.tdiv y.toInt) = x.sdiv y := by
    apply BitVec.eq_of_toInt_eq
    rw [BitVec.toInt_ofInt, BitVec.toInt_sdiv]
  rw [answer, quotient_eq, value]
  exact if_congr (div_fails_iff x y) rfl rfl

theorem answer_divu (x y : Word) (carry : Bool) :
    divu.answer x y carry = if y = 0 then ⟨none, some true, none⟩ else ⟨some (x / y), some false, none⟩ := by
  have value : BitVec.ofInt 32 ((x.toNat : Int) / y.toNat) = x / y := by
    apply BitVec.eq_of_toNat_eq
    have quotient : ((x.toNat : Int) / y.toNat) = ((x.toNat / y.toNat : Nat) : Int) := by push_cast; rfl
    rw [quotient, BitVec.ofInt_natCast, BitVec.toNat_ofNat, BitVec.toNat_udiv]
    exact Nat.mod_eq_of_lt ((Nat.div_le_self _ _).trans_lt x.isLt)
  rw [answer, quotient_eq, value]

/-- What the instruction reports in `AESR`. -/
def reports (a : Answer) (m : Machine δ) : Alu → Word
  | .mulu => if has m.sr srOv then aeCymule else 0
  | i => a.raised i.ovBit i.cyBit

end Alu

section
variable {c : Config δ} {opd : Operands δ} {d : Fin 32} {m : Machine δ} {x y : Word}

/-- An instruction stores its answer, sets the flags of it, and ends. -/
theorem alu_run (i : Alu) (hx : opd.param 1 m = .ok (x, m)) (hy : opd.param 2 m = .ok (y, m)) (sets : opd.Sets d) :
    let a := i.answer x y (has m.sr srCy)
    ∃ t, a.Stored d m t ∧ runP c opd i.body m = .ok ((), a.conclude i.ovBit i.cyBit (i.reports a m) (a.flags t)) := by
  cases i with
  | add =>
    rw [Alu.answer_add]
    obtain ⟨t, stored, ran⟩ := runP_sum (c := c) sets (y + x) (y.saddOverflow x) ((y + x).ult y) m
    exact ⟨t, stored, (runP_param hy _).trans ((runP_param hx _).trans ran)⟩
  | addc =>
    rw [Alu.answer_addc]
    obtain ⟨t, stored, ran⟩ := runP_sum (c := c) sets (y + x + if has m.sr srCy then 1 else 0) _ _ m
    exact ⟨t, stored, (runP_param hy _).trans ((runP_param hx _).trans ran)⟩
  | sub =>
    rw [Alu.answer_sub]
    obtain ⟨t, stored, ran⟩ := runP_sum (c := c) sets (x - y) (x.ssubOverflow y) (x.ult y) m
    exact ⟨t, stored, (runP_param hy _).trans ((runP_param hx _).trans ran)⟩
  | mul =>
    rw [Alu.answer_mul]
    obtain ⟨t, stored, ran⟩ := runP_product (c := c) sets (x * y) aeOvmule (x.smulOverflow y) m
    exact ⟨t, stored, (runP_param hy _).trans ((runP_param hx _).trans ran)⟩
  | mulu =>
    rw [Alu.answer_mulu]
    exact runP_mulu sets x y hx hy
  | div =>
    rw [Alu.answer_div]
    by_cases fails : y = 0 ∨ (x = 0x80000000 ∧ y = 0xffffffff)
    · obtain ⟨stored, ran⟩ := runP_undefined d aeDbze m
      rw [if_pos fails]
      refine ⟨m, stored, (runP_param hy _).trans ((runP_param hx _).trans ?_)⟩
      rw [if_pos fails]
      exact ran
    · obtain ⟨t, stored, ran⟩ := runP_product (c := c) sets (x.sdiv y) aeDbze false m
      rw [if_neg fails]
      refine ⟨t, stored, (runP_param hy _).trans ((runP_param hx _).trans ?_)⟩
      rw [if_neg fails]
      exact ran
  | divu =>
    rw [Alu.answer_divu]
    by_cases fails : y = 0
    · obtain ⟨stored, ran⟩ := runP_undefined d aeDbze m
      rw [if_pos fails]
      refine ⟨m, stored, (runP_param hy _).trans ((runP_param hx _).trans ?_)⟩
      rw [if_pos fails]
      exact ran
    · obtain ⟨t, stored, ran⟩ := runP_product (c := c) sets (x / y) aeDbze false m
      rw [if_neg fails]
      refine ⟨t, stored, (runP_param hy _).trans ((runP_param hx _).trans ?_)⟩
      rw [if_neg fails]
      exact ran

end

/-! ### The destination of an entry -/

theorem simpleOperands_sets {insn v : Word} {ops : List Decode.InsnOp} {m t : Machine δ}
    (set : (simpleOperands insn ops : Operands δ).setParam0 v m = .ok ((), t)) :
    ∃ d, (simpleOperands insn ops : Operands δ).Sets d := by
  unfold simpleOperands at set
  dsimp only at set
  rcases head : ops.head? with _ | opd
  · rw [head] at set
    cases set
  rcases number : Decode.evalOperandVal insn ops with _ | regno
  · rw [head, number] at set
    cases set
  rw [head, number] at set
  dsimp only at set
  by_cases register : opd.has Decode.optypeReg = true
  · rw [if_pos register] at set
    by_cases low : regno.toNat < 32
    · refine ⟨⟨regno.toNat, low⟩, fun v s => ⟨if regno = 0 then 0 else v, ?_, fun some => ?_⟩⟩
      · unfold simpleOperands
        dsimp only
        rw [head, number]
        dsimp only
        rw [if_pos register, setsimReg, dif_pos low]
        rfl
      · exact if_neg fun zero => some (by subst zero; rfl)
    · rw [setsimReg, dif_neg low] at set
      cases set
  · rw [if_neg register] at set
    cases set

theorem complexOperands_sets {v : Word} {ops : List Decode.InsnOp} {vars : List Word} {m t : Machine δ}
    (set : (complexOperands ops vars : Operands δ).setParam0 v m = .ok ((), t)) :
    ∃ d, (complexOperands ops vars : Operands δ).Sets d := by
  unfold complexOperands at set
  dsimp only at set
  rcases number : vars[0]? with _ | a
  · rw [number] at set
    cases set
  rw [number] at set
  dsimp only at set
  by_cases defined : Decode.GenStmt.defineSetParam0 ∈ Decode.genEvalOperands ops
  · rw [if_pos defined] at set
    by_cases low : a.toNat < 32
    · refine ⟨⟨a.toNat, low⟩, fun v s => ⟨v, ?_, fun _ => rfl⟩⟩
      unfold complexOperands
      dsimp only
      rw [number]
      dsimp only
      rw [if_pos defined, dif_pos low]
      rfl
    · rw [dif_neg low] at set
      cases set
  · rw [if_neg defined] at set
    cases set

theorem Frame.sets {c : Config δ} {m t : Machine δ} {ops : List Decode.InsnOp} {opd : Operands δ} {tail : Machine δ → Machine δ}
    (frame : Frame c m ops opd tail) {v : Word} (set : opd.setParam0 v m = .ok ((), t)) : ∃ d, opd.Sets d := by
  cases frame with
  | simple => exact simpleOperands_sets set
  | complex => exact complexOperands_sets set

/-! ### Correctness -/

theorem Answer.Written.sprs {a : Answer} {d : Fin 32} {m s : Machine δ} (written : a.Written d m s) {r : SprNo} (other : r ≠ sprSr) :
    s.sprs r = m.sprs r := by
  rw [written.rest]
  exact if_neg other

theorem Answer.Written.ove {a : Answer} {d : Fin 32} {m s : Machine δ} (written : a.Written d m s) :
    has s.sr srOve = has m.sr srOve := by
  have kept (x : Word) : has (x &&& ~~~(srOv ||| srCy)) srOve = has x srOve := has_clear_of_apart (by decide)
  rw [← kept s.sr, written.bits, kept]

/-- The end of an instruction enters the range exception where its answer has to. -/
theorem Answer.Written.concludes {a : Answer} {d : Fin 32} {m s : Machine δ} (written : a.Written d m s) (ovBit cyBit aesr : Word) :
    a.Concludes ovBit cyBit d m (a.conclude ovBit cyBit aesr s) := by
  have pc : s.pc = m.pc := by rw [written.rest]; rfl
  have aecr : s.sprs sprAecr = m.sprs sprAecr := written.sprs (by decide)
  have cpucfgr : s.sprs sprCpucfgr = m.sprs sprCpucfgr := written.sprs (by decide)
  refine ⟨s, written, ?_⟩
  unfold Answer.conclude Answer.Ranges
  rw [written.ove, aecr, cpucfgr, pc]
  by_cases ove : has m.sr srOve = true
  · rw [if_pos ove]
    split
    · split
      · next on => exact .inr ⟨⟨ove, on⟩, _, .inr ⟨aesr, rfl⟩, rfl⟩
      · next off => exact .inl ⟨fun ranges => off ranges.2, rfl⟩
    · split
      · next on => exact .inr ⟨⟨ove, on⟩, s, .inl rfl, rfl⟩
      · next off => exact .inl ⟨fun ranges => off ranges.2, rfl⟩
  · rw [if_neg ove]
    exact .inl ⟨fun ranges => ove ranges.1, rfl⟩

section
variable {c : Config δ} {opd : Operands δ}

/-- The arithmetic instructions, in either executor: the number of the sources is written and reported. -/
theorem alu_correct {m t : Machine δ} {ops : List Decode.InsnOp} {tail : Machine δ → Machine δ} (frame : Frame c m ops opd tail)
    (i : Alu) {x y v : Word} (hx : opd.param 1 m = .ok (x, m)) (hy : opd.param 2 m = .ok (y, m))
    (set : opd.setParam0 v m = .ok ((), t)) :
    ∃ d after, opd.Sets d ∧ runP c opd i.body m = .ok ((), after) ∧
      (i.answer x y (has m.sr srCy)).Concludes i.ovBit i.cyBit d m after := by
  obtain ⟨d, sets⟩ := frame.sets set
  obtain ⟨t, stored, ran⟩ := alu_run (c := c) i hx hy sets
  exact ⟨d, _, sets, ran, stored.written.concludes _ _ _⟩

end

/-- The operands of `rD,rA,rB`. -/
def registerOps : List Decode.InsnOp := [⟨0x64000015, 5⟩, ⟨0x60000010, 5⟩, ⟨0xe000000b, 5⟩]

/-- At an instruction with the operands `r3,r1,r2`. -/
def aluMachine (sr aecr x y : Word) : Machine Unit :=
  { Machine.bare () sr 0x2000 with
    insn := 0xe0611000
    reg := fun i => if i = 1 then x else if i = 2 then y else 0
    sprs := fun r => if r = sprSr then sr else if r = sprAecr then aecr else if r = sprCpucfgr then cpucfgrAecsrp else 0 }

def aluOperands (m : Machine Unit) : Operands Unit :=
  complexOperands registerOps (Decode.operandVars m.insn (regFile m) registerOps)

def aluConfig : Config Unit := Config.bare [⟨"l.add", "rD,rA,rB", "11 0x8  DDDDD AAAAA BBBB B-00 ---- 0x0", "l_add"⟩] []

/-- The greatest number and one more. -/
theorem alu_correct_greatest :
    let m := aluMachine (srOve ||| srSm) aeOvadde 0x7fffffff 1
    ∃ d after, (aluOperands m).Sets d ∧ runP aluConfig (aluOperands m) Alu.add.body m = .ok ((), after) ∧
      (Alu.add.answer 0x7fffffff 1 (has m.sr srCy)).Concludes Alu.add.ovBit Alu.add.cyBit d m after :=
  alu_correct (.complex rfl : Frame aluConfig _ registerOps _ (repair registerOps)) .add rfl rfl
    (rfl : (aluOperands _).setParam0 0 _ = _)

end Or1ksim.Cpu
