import Or1ksim.Cpu.Arithmetic

/-!
# The accumulator

`MACHI` and `MACLO` are the halves of one number of 64 bits, to which `l_mac` and `l_msb` add and from which they
take away. In between anything may happen that leaves them alone.
-/

namespace Or1ksim.Cpu

open Overflow (Fits)

variable {δ : Type}

def Machine.acc (m : Machine δ) : BitVec 64 := m.sprs sprMachi ++ m.sprs sprMaclo

/-- `l.maci` is `l_mac` as well. -/
inductive MacInsn where
  | mac | msb
  deriving DecidableEq, Repr

namespace MacInsn

def body : MacInsn → P Unit
  | .mac => lMac
  | .msb => lMsb

/-- What is added. -/
def term (x y : Word) : MacInsn → Int
  | .mac => x.toInt * y.toInt
  | .msb => -(x.toInt * y.toInt)

end MacInsn

/-! ### A step -/

theorem product_exact (x y : Word) : (x.signExtend 64 * y.signExtend 64).toInt = x.toInt * y.toInt := by
  have hx := Overflow.fits_toInt x
  have hy := Overflow.fits_toInt y
  have sx : (x.signExtend 64).toInt = x.toInt := BitVec.toInt_signExtend_of_le (by decide)
  have sy : (y.signExtend 64).toInt = y.toInt := BitVec.toInt_signExtend_of_le (by decide)
  have value : BitVec.ofInt 64 (x.toInt * y.toInt) = x.signExtend 64 * y.signExtend 64 := by
    rw [BitVec.ofInt_mul, ← sx, ← sy, BitVec.ofInt_toInt, BitVec.ofInt_toInt]
  rw [← value]
  refine (Overflow.fits_iff_toInt (by decide)).mp ?_
  unfold Fits at *
  norm_num at *
  constructor <;> nlinarith

/-- A step of the accumulator: the sum, and whether it fits. -/
theorem macInsn_sum (i : MacInsn) (acc : BitVec 64) (x y : Word) :
    let prod := x.signExtend 64 * y.signExtend 64
    (match i with | .mac => acc + prod | .msb => acc - prod) = BitVec.ofInt 64 (acc.toInt + i.term x y) ∧
      (match i with | .mac => acc.saddOverflow prod | .msb => acc.ssubOverflow prod) = !decide (Fits 64 (acc.toInt + i.term x y)) := by
  intro prod
  have exact : prod.toInt = x.toInt * y.toInt := product_exact x y
  cases i with
  | mac =>
    refine ⟨?_, ?_⟩
    · rw [MacInsn.term, ← exact, BitVec.ofInt_add, BitVec.ofInt_toInt, BitVec.ofInt_toInt]
    · show acc.saddOverflow prod = _
      rw [Overflow.saddOverflow_eq, exact]
      rfl
  | msb =>
    refine ⟨?_, ?_⟩
    · apply BitVec.eq_of_toInt_eq
      show (acc - prod).toInt = _
      rw [BitVec.toInt_sub, BitVec.toInt_ofInt, exact]
      rfl
    · show acc.ssubOverflow prod = _
      rw [Overflow.ssubOverflow_eq, exact]
      rfl

/-! ### Exceptions -/

/-- The entry of an exception keeps the arithmetic flags. -/
theorem exceptHandle_flags (e : Exception) (ea : Word) (m : Machine δ) {bit : Word} (flag : bit = srOv ∨ bit = srCy) :
    has (exceptHandle e ea m).sr bit = has m.sr bit := by
  obtain rfl | rfl := flag
  · exact exceptHandle_has e ea m (by decide)
  · exact exceptHandle_has e ea m (by decide)

theorem Answer.conclude_keeps {P : Machine δ → Prop} (a : Answer) (ovBit cyBit aesr : Word) {s : Machine δ} (here : P s)
    (raised : ∀ t, P t → P (exceptHandle .range t.pc t)) (reported : P (setSpr sprAesr aesr s)) : P (a.conclude ovBit cyBit aesr s) := by
  unfold Answer.conclude
  split
  · split
    · split
      · exact raised _ reported
      · exact here
    · split
      · exact raised s here
      · exact here
  · exact here

theorem Answer.conclude_sprs (a : Answer) (ovBit cyBit aesr : Word) (s : Machine δ) {r : SprNo} (other : r ∉ entrySprs)
    (open_ : r ≠ sprAesr) :
    (a.conclude ovBit cyBit aesr s).sprs r = s.sprs r :=
  Answer.conclude_keeps (P := fun t => t.sprs r = s.sprs r) a ovBit cyBit aesr rfl
    (fun t same => (exceptHandle_sprs .range t.pc t other).trans same) (if_neg open_)

theorem Answer.conclude_has (a : Answer) (ovBit cyBit aesr : Word) (s : Machine δ) {bit : Word} (flag : bit = srOv ∨ bit = srCy) :
    has (a.conclude ovBit cyBit aesr s).sr bit = has s.sr bit :=
  Answer.conclude_keeps (P := fun t => has t.sr bit = has s.sr bit) a ovBit cyBit aesr rfl
    (fun t same => (exceptHandle_flags .range t.pc t flag).trans same) rfl

/-! ### A run -/

section
variable {c : Config δ} {opd : Operands δ} {m : Machine δ} {x y : Word}

/-- The accumulator with a new value. -/
def setAcc (v : BitVec 64) (m : Machine δ) : Machine δ := setSpr sprMachi (v.extractLsb' 32 32) (setSpr sprMaclo (v.extractLsb' 0 32) m)

theorem setAcc_acc (v : BitVec 64) (m : Machine δ) : (setAcc v m).acc = v := by
  show v.extractLsb' 32 32 ++ v.extractLsb' 0 32 = v
  ext i low
  simp only [BitVec.getElem_append, BitVec.getElem_extractLsb']
  split
  · next here => simp [BitVec.getLsbD_eq_getElem low]
  · next here => rw [show 32 + (i - 32) = i by omega, BitVec.getLsbD_eq_getElem low]

/-- The overflow flag of a sum. -/
def sumFlag (sum : Int) : Answer := ⟨none, some !decide (Fits 64 sum), none⟩

/-- What an instruction makes of the accumulator. -/
def accumulated (sum : Int) (m : Machine δ) : Machine δ :=
  (sumFlag sum).conclude aeOvmacadde 0 ((sumFlag sum).raised aeOvmacadde 0) ((sumFlag sum).flags (setAcc (BitVec.ofInt 64 sum) m))

theorem mac_run (i : MacInsn) (hx : opd.param 0 m = .ok (x, m)) (hy : opd.param 1 m = .ok (y, m)) :
    runP c opd i.body m = .ok ((), accumulated (m.acc.toInt + i.term x y) m) := by
  obtain ⟨value, ov⟩ := macInsn_sum i m.acc x y
  let sum := m.acc.toInt + i.term x y
  let a := sumFlag sum
  have ends (v : BitVec 64) (o : Bool) (hv : v = BitVec.ofInt 64 sum) (ho : o = !decide (Fits 64 sum)) :
      runP c opd (do
        act (.setSpr .maclo (v.extractLsb' 0 32)); act (.setSpr .machi (v.extractLsb' 32 32))
        act (.setFlag .ov o); rangeOv aeOvmacadde) m = .ok ((), accumulated sum m) := by
    subst hv ho
    exact runP_rangeOv aeOvmacadde (a.flags_ov _)
  cases i with
  | mac => exact (runP_view _).trans ((runP_param hx _).trans ((runP_param hy _).trans (ends _ _ value ov)))
  | msb => exact (runP_view _).trans ((runP_param hx _).trans ((runP_param hy _).trans (ends _ _ value ov)))

end

/-- A multiplication into the accumulator, between two states. -/
structure MacEvent (δ : Type) where
  insn : MacInsn
  x : Word
  y : Word
  before : Machine δ
  after : Machine δ

namespace MacEvent

/-- The event is an execution, by either executor. -/
def Happens (c : Config δ) (e : MacEvent δ) : Prop :=
  ∃ ops opd tail, Frame c e.before ops opd tail ∧ opd.param 0 e.before = .ok (e.x, e.before) ∧
    opd.param 1 e.before = .ok (e.y, e.before) ∧ runP c opd e.insn.body e.before = .ok ((), e.after)

def term (e : MacEvent δ) : Int := e.insn.term e.x e.y

/-- The sum without a limit. -/
def sum (e : MacEvent δ) : Int := e.before.acc.toInt + e.term

theorem Happens.effect {c : Config δ} {e : MacEvent δ} (happens : e.Happens c) :
    e.after.acc = BitVec.ofInt 64 e.sum ∧ has e.after.sr srOv = !decide (Fits 64 e.sum) ∧
      has e.after.sr srCy = has e.before.sr srCy := by
  obtain ⟨ops, opd, tail, -, hx, hy, ran⟩ := happens
  let a := sumFlag e.sum
  have after : e.after = a.conclude aeOvmacadde 0 (a.raised aeOvmacadde 0) (a.flags (setAcc (BitVec.ofInt 64 e.sum) e.before)) :=
    (Prod.mk.inj (Except.ok.inj (ran.symm.trans (mac_run e.insn hx hy)))).2
  have rest := a.flags_rest (setAcc (BitVec.ofInt 64 e.sum) e.before)
  rw [after]
  refine ⟨?_, ?_, ?_⟩
  · have kept (r : SprNo) (other : r ∉ entrySprs) (open_ : r ≠ sprAesr) (flags : r ≠ sprSr) :
        (a.conclude aeOvmacadde 0 (a.raised aeOvmacadde 0) (a.flags (setAcc (BitVec.ofInt 64 e.sum) e.before))).sprs r =
          (setAcc (BitVec.ofInt 64 e.sum) e.before).sprs r := by
      rw [a.conclude_sprs _ _ _ _ other open_, rest]
      exact if_neg flags
    rw [Machine.acc, kept _ (by decide) (by decide) (by decide), kept _ (by decide) (by decide) (by decide)]
    exact setAcc_acc _ _
  · rw [a.conclude_has _ _ _ _ (.inl rfl), a.flags_ov]
    rfl
  · rw [a.conclude_has _ _ _ _ (.inr rfl), a.flags_cy]
    rfl

end MacEvent

/-- A run with its multiplications, oldest first. Whatever else happens leaves the accumulator alone. -/
inductive MacRun (c : Config δ) : Machine δ → List (MacEvent δ) → Machine δ → Prop where
  | done (m : Machine δ) : MacRun c m [] m
  | other {m m' n : Machine δ} {es : List (MacEvent δ)} (same : m'.acc = m.acc) (rest : MacRun c m' es n) : MacRun c m es n
  | insn {n : Machine δ} {es : List (MacEvent δ)} (e : MacEvent δ) (happens : e.Happens c) (rest : MacRun c e.after es n) :
      MacRun c e.before (e :: es) n

theorem ofInt_add_wrapped (u v : Int) : BitVec.ofInt 64 ((BitVec.ofInt 64 u).toInt + v) = BitVec.ofInt 64 (u + v) := by
  rw [BitVec.ofInt_add, BitVec.ofInt_toInt, ← BitVec.ofInt_add]

theorem MacRun.acc {c : Config δ} {m n : Machine δ} {es : List (MacEvent δ)} (run : MacRun c m es n) :
    n.acc = BitVec.ofInt 64 (m.acc.toInt + (es.map MacEvent.term).sum) := by
  induction run with
  | done m => rw [List.map_nil, List.sum_nil, Int.add_zero, BitVec.ofInt_toInt]
  | other same _ ih => rw [ih, same]
  | insn e happens _ ih =>
    rw [ih, happens.effect.1, ofInt_add_wrapped, MacEvent.sum, List.map_cons, List.sum_cons, Int.add_assoc]

theorem MacRun.happens {c : Config δ} {m n : Machine δ} {es : List (MacEvent δ)} (run : MacRun c m es n) : ∀ e ∈ es, e.Happens c := by
  induction run with
  | done m => exact fun e he => (List.not_mem_nil he).elim
  | other _ _ ih => exact ih
  | insn e happens _ ih => exact List.forall_mem_cons.mpr ⟨happens, ih⟩

/-- What `l_macrc` leaves. -/
structure Cleared (d : Fin 32) (m after : Machine δ) : Prop where
  value : d ≠ 0 → after.reg d = m.acc.extractLsb' 0 32
  acc : after.acc = 0
  cy : has after.sr srCy = has m.sr srCy

theorem macrc_run {c : Config δ} {opd : Operands δ} {d : Fin 32} (sets : opd.Sets d) (m : Machine δ) :
    ∃ after, runP c opd lMacrc m = .ok ((), after) ∧ Cleared d m after := by
  obtain ⟨w, set, same⟩ := sets (m.sprs sprMaclo) m
  refine ⟨setSpr sprMachi 0 (setSpr sprMaclo 0 (setReg d w m)), (runP_view _).trans ((runP_setParam0 set _).trans rfl),
    fun some => ?_, ?_, rfl⟩
  swap
  · show (0#32 ++ 0#32 : BitVec 64) = 0
    decide
  have low : m.acc.extractLsb' 0 32 = m.sprs sprMaclo := by
    ext i here
    rw [BitVec.getElem_extractLsb', Nat.zero_add]
    exact BitVec.getLsbD_append.trans ((if_pos here).trans (BitVec.getLsbD_eq_getElem here))
  rw [low, ← same some]
  exact if_pos rfl

/-- The accumulator holds its first value with every product added or taken away, whatever else happens in between; a step
sets the overflow flag where its own sum does not fit, and none touches the carry flag. Every step comes to its end. -/
theorem mac_accumulates {c : Config δ} {m n : Machine δ} {es : List (MacEvent δ)} (run : MacRun c m es n) :
    n.acc = BitVec.ofInt 64 (m.acc.toInt + (es.map MacEvent.term).sum) ∧
      (∀ e ∈ es, has e.after.sr srOv = !decide (Fits 64 e.sum) ∧ has e.after.sr srCy = has e.before.sr srCy) ∧
      (∀ (opd : Operands δ) (d : Fin 32), opd.Sets d → ∃ after, runP c opd lMacrc n = .ok ((), after) ∧ Cleared d n after) ∧
      ∀ (i : MacInsn) (opd : Operands δ) (x y : Word), opd.param 0 n = .ok (x, n) → opd.param 1 n = .ok (y, n) →
        ∃ after, runP c opd i.body n = .ok ((), after) :=
  ⟨run.acc, fun e he => (run.happens e he).effect.2, fun _ _ sets => macrc_run sets n, fun i _ _ _ hx hy => ⟨_, mac_run i hx hy⟩⟩

/-- The operands of `rA,rB`. -/
def macOps : List Decode.InsnOp := [⟨0x60000010, 5⟩, ⟨0xe000000b, 5⟩]

/-- An instruction with the operands `r1,r2`. -/
def macWord : Word := 0xc4011001

def macOperands (m : Machine Unit) : Operands Unit := complexOperands macOps (Decode.operandVars m.insn (regFile m) macOps)

/-- The instruction at work. -/
def macStep (i : MacInsn) (m : Machine Unit) : MacEvent Unit :=
  ⟨i, m.reg 1, m.reg 2, m, accumulated (m.acc.toInt + i.term (m.reg 1) (m.reg 2)) m⟩

theorem macStep_happens (i : MacInsn) {m : Machine Unit} (insn : m.insn = macWord) : (macStep i m).Happens aluConfig := by
  have hx : (macOperands m).param 0 m = .ok (m.reg 1, m) := by
    rw [macOperands, insn]
    rfl
  have hy : (macOperands m).param 1 m = .ok (m.reg 2, m) := by
    rw [macOperands, insn]
    rfl
  exact ⟨macOps, macOperands m, repair macOps, .complex rfl, hx, hy, mac_run i hx hy⟩

/-- The two factors are in their registers. -/
def factors (x y : Word) (m : Machine Unit) : Machine Unit :=
  { m with insn := macWord, reg := fun i => if i = 1 then x else if i = 2 then y else 0 }

/-- Fifteen are added to an accumulator that lacks ten of its limit. -/
def macFirst : MacEvent Unit := macStep .mac (factors 3 5 (setAcc 0x7ffffffffffffff6 (Machine.bare () srSm 0x2000)))

/-- Minus fourteen are taken away, -/
def macSecond : MacEvent Unit := macStep .msb (factors 7 (-2) macFirst.after)

/-- and added. -/
def macThird : MacEvent Unit := macStep .mac (factors 7 (-2) macSecond.after)

theorem macThird_run : MacRun aluConfig macFirst.before [macFirst, macSecond, macThird] macThird.after :=
  have third : MacRun aluConfig macThird.before [macThird] macThird.after := .insn macThird (macStep_happens .mac rfl) (.done _)
  have second : MacRun aluConfig macSecond.before [macSecond, macThird] macThird.after :=
    .insn macSecond (macStep_happens .msb rfl) (.other (show macThird.before.acc = macSecond.after.acc from rfl) third)
  .insn macFirst (macStep_happens .mac rfl) (.other (show macSecond.before.acc = macFirst.after.acc from rfl) second)

/-- The first sum overflows, and the others do not. -/
theorem mac_accumulates_past_limit :
    macThird.after.acc = 0x8000000000000005 ∧ has macFirst.after.sr srOv = true ∧ has macSecond.after.sr srOv = false ∧
      has macThird.after.sr srOv = false := by
  obtain ⟨acc, flags, -, -⟩ := mac_accumulates macThird_run
  have start : macFirst.before.acc = 0x7ffffffffffffff6 := setAcc_acc _ (Machine.bare () srSm 0x2000)
  have terms : [macFirst, macSecond, macThird].map MacEvent.term = [15, 14, -14] := by decide +kernel
  refine ⟨?_, ?_, ?_, ?_⟩
  · rw [acc, start, terms]
    decide
  · exact (flags macFirst (by simp)).1.trans (by decide +kernel)
  · exact (flags macSecond (by simp)).1.trans (by decide +kernel)
  · exact (flags macThird (by simp)).1.trans (by decide +kernel)

end Or1ksim.Cpu
