import Or1ksim.Cpu.Memory

/-!
# The instructions

`cpu/or32/insnset.c`, in its order. An instruction is a program over the operations of the core,
except for the few that reach state outside its view: the moves to and from the special purpose
registers, the return from an exception, and the two atomic accesses.
-/

namespace Or1ksim.Cpu

variable {δ : Type}

/-- `eval` an operand. -/
def param (n : Nat) : P Word := act (.param n)

/-! ### Arithmetic -/

/-- The end of `l_add`, `l_addc` and `l_sub`: a range exception on carry or overflow. -/
def rangeCyOv : P Unit := do
  let v ← act .view
  if has v.sr srOve then
    if has v.cpucfgr cpucfgrAecsrp then
      if (has v.sr srCy && has v.aecr aeCyadde) || (has v.sr srOv && has v.aecr aeOvadde) then
        act (.setSpr .aesr ((if has v.sr srOv then aeOvadde else 0) ||| (if has v.sr srCy then aeCyadde else 0)))
        act (.exceptHandle .range v.pc)
    else if has v.sr srOv then act (.exceptHandle .range v.pc)

/-- The end of the instructions that have one bit of `AECR` for their overflow. -/
def rangeOv (bit : Word) : P Unit := do
  let v ← act .view
  if has v.sr srOve then
    if has v.cpucfgr cpucfgrAecsrp then
      if has v.sr srOv && has v.aecr bit then
        act (.setSpr .aesr (if has v.sr srOv then bit else 0))
        act (.exceptHandle .range v.pc)
    else if has v.sr srOv then act (.exceptHandle .range v.pc)

def lAdd : P Unit := do
  let temp2 ← param 2
  let temp3 ← param 1
  let temp1 := temp2 + temp3
  act (.setParam0 temp1)
  act (.setFlag .ov (temp2.saddOverflow temp3))
  act (.setFlag .cy (temp1.ult temp2))
  rangeCyOv

def lAddc : P Unit := do
  let v ← act .view
  let carryIn := has v.sr srCy
  let temp2 ← param 2
  let temp3 ← param 1
  let temp1 := temp2 + temp3 + if carryIn then 1 else 0
  act (.setParam0 temp1)
  act (.setFlag .ov ((temp2.msb && temp3.msb && !temp1.msb) || (!temp2.msb && !temp3.msb && temp1.msb)))
  act (.setFlag .cy ((carryIn && temp1.ule temp2) || temp1.ult temp2))
  rangeCyOv

/-! ### Loads and stores -/

/-- An operation of the store buffer, when there is one. -/
def sbufOp (c : Config δ) (o : Op) : P Unit := if c.sbufLen ≠ 0 then act o >>= fun _ => pure () else pure ()

/-- A store, with its time in the store buffer. -/
def storeInsn (c : Config δ) (store : P Unit) : P Unit := do
  sbufOp c .sbufBegin
  store
  sbufOp c .sbufEnd

def storeWidth (c : Config δ) (w : Width) : P Unit :=
  storeInsn c do
    let addr ← param 0
    let value ← param 1
    setMem c w addr (value.setWidth w.bits)

def lSw (c : Config δ) : P Unit := storeWidth c .word

def lSb (c : Config δ) : P Unit := storeWidth c .byte

def lSh (c : Config δ) : P Unit := storeWidth c .half

/-- A load: the destination keeps its value when the access raised an exception or hit a breakpoint. -/
def loadInsn (c : Config δ) (w : Width) (extend : BitVec w.bits → Word) : P Unit := do
  sbufOp c .sbufLoad
  let val ← evalMem c w (← param 1)
  let v ← act .view
  if !(v.exceptPending || v.breakpoint) then act (.setParam0 (extend val))

def lLws (c : Config δ) : P Unit := loadInsn c .word fun val => val

def lLwz (c : Config δ) : P Unit := loadInsn c .word fun val => val

def lLbs (c : Config δ) : P Unit := loadInsn c .byte fun val => val.signExtend 32

def lLbz (c : Config δ) : P Unit := loadInsn c .byte fun val => val.setWidth 32

def lLhs (c : Config δ) : P Unit := loadInsn c .half fun val => val.signExtend 32

def lLhz (c : Config δ) : P Unit := loadInsn c .half fun val => val.setWidth 32

/-! ### Logic, and the rest of arithmetic -/

/-- An instruction whose destination is a function of its two sources. -/
def computes (f : Word → Word → Word) : P Unit := do
  let x ← param 1
  let y ← param 2
  act (.setParam0 (f x y))

/-- An instruction whose destination is a function of its source. -/
def extends1 (f : Word → Word) : P Unit := do
  let x ← param 1
  act (.setParam0 (f x))

def lMovhi : P Unit := extends1 fun x => x <<< 16

def lAnd : P Unit := computes fun x y => x &&& y

def lOr : P Unit := computes fun x y => x ||| y

def lXor : P Unit := computes fun x y => x ^^^ y

def lSub : P Unit := do
  let temp3 ← param 2
  let temp2 ← param 1
  act (.setParam0 (temp2 - temp3))
  act (.setFlag .ov (temp2.ssubOverflow temp3))
  act (.setFlag .cy (temp2.ult temp3))
  rangeCyOv

def lMul : P Unit := do
  let temp2 ← param 2
  let temp1 ← param 1
  act (.setParam0 (temp1 * temp2))
  act (.setFlag .ov (temp1.smulOverflow temp2))
  rangeOv aeOvmule

/-- Its `AESR` bit depends on `OV`, which it does not touch, and without `AECR` it raises nothing. -/
def lMulu : P Unit := do
  let temp2 ← param 2
  let temp1 ← param 1
  act (.setParam0 (temp1 * temp2))
  act (.setFlag .cy (temp1.umulOverflow temp2))
  let v ← act .view
  if has v.sr srOve then
    if has v.cpucfgr cpucfgrAecsrp then
      if has v.sr srCy && has v.aecr aeCymule then
        act (.setSpr .aesr (if has v.sr srOv then aeCymule else 0))
        act (.exceptHandle .range v.pc)

def lDiv : P Unit := do
  let temp3 ← param 2
  let temp2 ← param 1
  if temp3 = 0 ∨ (temp2 = 0x80000000 ∧ temp3 = 0xffffffff) then act (.setFlag .ov true)
  else
    act (.setParam0 (temp2.sdiv temp3))
    act (.setFlag .ov false)
  rangeOv aeDbze

def lDivu : P Unit := do
  let temp3 ← param 2
  let temp2 ← param 1
  if temp3 = 0 then act (.setFlag .ov true)
  else
    act (.setParam0 (temp2 / temp3))
    act (.setFlag .ov false)
  rangeOv aeDbze

/-- A shift of C. -/
def shift (c : Config δ) (s : Shift) (x amount : Word) : Word :=
  if amount.toNat < 32 then
    match s with
    | .left => x <<< amount.toNat
    | .right => x >>> amount.toNat
    | .arithmetic => x.sshiftRight amount.toNat
  else c.wideShift s x amount

def lSll (c : Config δ) : P Unit := computes (shift c .left)

def lSra (c : Config δ) : P Unit := computes (shift c .arithmetic)

def lSrl (c : Config δ) : P Unit := computes (shift c .right)

def lRor (c : Config δ) : P Unit :=
  computes fun x y => shift c .right x (y &&& 0x1f) ||| shift c .left x (32 - (y &&& 0x1f))

/-! ### Jumps -/

/-- The jump of every branch: at once without delay slots, else after the next instruction. -/
def jumpTo (target : Word) : P Unit := do
  let v ← act .view
  if has v.cpucfgr cpucfgrNd then act (.setPcnext target) else act (.setDelay target)

/-- The target of a relative jump. -/
def relative : P Word := do
  let v ← act .view
  pure (v.pc + (← param 0) * 4)

def lBf : P Unit := do
  let v ← act .view
  if has v.sr srF then jumpTo (← relative)

def lBnf : P Unit := do
  let v ← act .view
  if !has v.sr srF then jumpTo (← relative)

def lJ : P Unit := do jumpTo (← relative)

/-- `setsim_reg` of the link register, with the address behind the jump or behind its delay slot. -/
def link : P Unit := do
  let v ← act .view
  act (.setLink (v.pc + if has v.cpucfgr cpucfgrNd then 4 else 8))

/-- The profile looks up the area of the target. -/
def lJal (c : Config δ) : P Unit := do
  let target ← relative
  jumpTo target
  link
  if c.profile then act (.verifyMemoryarea target)

def lJalr : P Unit := do
  let temp1 ← param 0
  let v ← act .view
  let regno : Word ← act .regParam0
  if regno = 9 then act (.exceptHandle .illegal v.pc)
  else if temp1 &&& 3 ≠ 0 then act (.exceptHandle .align v.pc)
  else
    jumpTo temp1
    link

def lJr : P Unit := do
  let temp1 ← param 0
  let v ← act .view
  if temp1 &&& 3 ≠ 0 then act (.exceptHandle .align v.pc) else jumpTo temp1

/-! ### Simulator services -/

def lNop (c : Config δ) : P Unit := do
  let k ← param 0
  match k.toNat with
  | 0x0001 | 0x000c => if c.isLibrary then act .halt else act .simDone
  | 0x0006 => act .getTicks
  | 0x0007 => act (.setReg11 c.clkcyclePs)
  | 0x000a => do act (.setReg11 (← act .random))
  | 0x000b => act (.setReg11 1)
  | _ => pure ()

/-! ### Comparisons and extensions -/

def compares (f : Word → Word → Bool) : P Unit := do
  let x ← param 0
  let y ← param 1
  act (.setFlag .f (f x y))

def lSfeq : P Unit := compares fun x y => x = y
def lSfne : P Unit := compares fun x y => x ≠ y
def lSfgts : P Unit := compares fun x y => y.slt x
def lSfges : P Unit := compares fun x y => y.sle x
def lSflts : P Unit := compares fun x y => x.slt y
def lSfles : P Unit := compares fun x y => x.sle y
def lSfgtu : P Unit := compares fun x y => y.ult x
def lSfgeu : P Unit := compares fun x y => y.ule x
def lSfltu : P Unit := compares fun x y => x.ult y
def lSfleu : P Unit := compares fun x y => x.ule y

def lExtbs : P Unit := extends1 fun x => (x.setWidth 8).signExtend 32
def lExtbz : P Unit := extends1 fun x => (x.setWidth 8).setWidth 32
def lExths : P Unit := extends1 fun x => (x.setWidth 16).signExtend 32
def lExthz : P Unit := extends1 fun x => (x.setWidth 16).setWidth 32
def lExtws : P Unit := extends1 fun x => x
def lExtwz : P Unit := extends1 fun x => x

/-! ### Exceptions and the multiplier -/

def lSys : P Unit := do
  let v ← act .view
  act (.exceptHandle .syscall v.eear)

def lTrap : P Unit := do
  let v ← act .view
  act (.exceptHandle .trap v.eear)

/-- The accumulator and the product of `l_mac` and `l_msb`, combined in 64 bits. -/
def accumulates (combine : BitVec 64 → BitVec 64 → BitVec 64) (overflow : BitVec 64 → BitVec 64 → Bool) : P Unit := do
  let v ← act .view
  let x ← param 0
  let y ← param 1
  let acc : BitVec 64 := v.machi ++ v.maclo
  let prod := x.signExtend 64 * y.signExtend 64
  let tmp := combine acc prod
  act (.setSpr .maclo (tmp.extractLsb' 0 32))
  act (.setSpr .machi (tmp.extractLsb' 32 32))
  act (.setFlag .ov (overflow acc prod))
  rangeOv aeOvmacadde

def lMac : P Unit := accumulates (fun acc prod => acc + prod) fun acc prod => acc.saddOverflow prod

def lMsb : P Unit := accumulates (fun acc prod => acc - prod) fun acc prod => acc.ssubOverflow prod

def lMacrc : P Unit := do
  let v ← act .view
  act (.setParam0 v.maclo)
  act (.setSpr .maclo 0)
  act (.setSpr .machi 0)

def lCmov : P Unit := do
  let v ← act .view
  act (.setParam0 (← if has v.sr srF then param 1 else param 2))

/-- `ffs`: one more than the lowest bit that is set. -/
def ffs (x : Word) : Word :=
  match (List.range 32).find? fun k => x.getLsbD k with
  | none => 0
  | some k => BitVec.ofNat 32 (k + 1)

def lFf1 : P Unit := extends1 ffs

/-- The word reversed, as `l_fl1` does it. Its last right shift is of a signed value. -/
def reversed (t : Word) : Word :=
  let t := ((t &&& 0xaaaaaaaa) >>> 1) ||| ((t &&& 0x55555555) <<< 1)
  let t := ((t &&& 0xcccccccc) >>> 2) ||| ((t &&& 0x33333333) <<< 2)
  let t := ((t &&& 0xf0f0f0f0) >>> 4) ||| ((t &&& 0x0f0f0f0f) <<< 4)
  let t := ((t &&& 0xff00ff00) >>> 8) ||| ((t &&& 0x00ff00ff) <<< 8)
  t.sshiftRight 16 ||| (t <<< 16)

def lFl1 : P Unit := extends1 fun x => if ffs (reversed x) = 0 then 0 else 33 - ffs (reversed x)

/-! ### Floating point -/

def lInvalid : P Unit := do
  let v ← act .view
  act (.exceptHandle .illegal v.insnAddr)

/-- `float_set_rm`. -/
def rounding (fpcsr : Word) : Rounding :=
  match ((fpcsr &&& fpcsrRm) >>> 1).toNat with
  | 0 => .nearestEven
  | 1 => .toZero
  | 2 => .up
  | _ => .down

/-- The flags of `softfloat` as bits of `FPCSR`. -/
def FloatFlags.bits (f : FloatFlags) : Word :=
  (if f.invalid then fpcsrIvf else 0) ||| (if f.divbyzero then fpcsrDzf else 0) |||
    (if f.overflow then fpcsrOvf else 0) ||| (if f.underflow then fpcsrUnf else 0) |||
    (if f.inexact then fpcsrIxf else 0)

def floatSetFlags (flags : FloatFlags) : P Unit := do
  let v ← act .view
  let fpcsr := (v.fpcsr &&& ~~~fpcsrAllf) ||| flags.bits
  act (.setSpr .fpcsr fpcsr)
  if has fpcsr fpcsrFpee && has fpcsr fpcsrAllf then act (.exceptHandle .fpe v.eear)

/-- An instruction of the floating point unit: its work yields the flags raised. -/
def floatInsn (c : Config δ) (work : Rounding → P FloatFlags) : P Unit := do
  if c.hardfloat then
    let v ← act .view
    floatSetFlags (← work (rounding v.fpcsr))
  else lInvalid

def floatComputes (c : Config δ) (f : Rounding → Word → Word → Word × FloatFlags) : P Unit :=
  floatInsn c fun rm => do
    let result := f rm (← param 1) (← param 2)
    act (.setParam0 result.1)
    pure result.2

def floatConverts (c : Config δ) (f : Rounding → Word → Word × FloatFlags) : P Unit :=
  floatInsn c fun rm => do
    let result := f rm (← param 1)
    act (.setParam0 result.1)
    pure result.2

def lfAddS (c : Config δ) : P Unit := floatComputes c c.softfloat.float32Add
def lfDivS (c : Config δ) : P Unit := floatComputes c c.softfloat.float32Div
def lfFtoiS (c : Config δ) : P Unit := floatConverts c c.softfloat.float32ToInt32
def lfItofS (c : Config δ) : P Unit := floatConverts c c.softfloat.int32ToFloat32

def lfMaddS (c : Config δ) : P Unit :=
  floatInsn c fun rm => do
    let product := c.softfloat.float32Mul rm (← param 1) (← param 2)
    let sum := c.softfloat.float32Add rm (← param 0) product.1
    act (.setParam0 sum.1)
    pure (product.2.or sum.2)

def lfMulS (c : Config δ) : P Unit := floatComputes c c.softfloat.float32Mul
def lfRemS (c : Config δ) : P Unit := floatComputes c c.softfloat.float32Rem

/-- A comparison; `ordered` ones are false when an operand is not a number. -/
def floatCompares (c : Config δ) (f : Word → Word → Bool × FloatFlags) (negate ordered : Bool) : P Unit :=
  floatInsn c fun _ => do
    let x ← param 0
    let y ← param 1
    let result := f x y
    let numbers := !c.softfloat.float32IsNan x && !c.softfloat.float32IsNan y
    act (.setFlag .f ((result.1 != negate) && (!ordered || numbers)))
    pure result.2

def lfSfeqS (c : Config δ) : P Unit := floatCompares c c.softfloat.float32Eq false false
def lfSfgeS (c : Config δ) : P Unit := floatCompares c c.softfloat.float32Lt true true
def lfSfgtS (c : Config δ) : P Unit := floatCompares c c.softfloat.float32Le true true
def lfSfleS (c : Config δ) : P Unit := floatCompares c c.softfloat.float32Le false true
def lfSfltS (c : Config δ) : P Unit := floatCompares c c.softfloat.float32Lt false true
def lfSfneS (c : Config δ) : P Unit := floatCompares c c.softfloat.float32Eq true false

def lfSubS (c : Config δ) : P Unit := floatComputes c c.softfloat.float32Sub

/-! ### The set -/

/-- `l_cust1` to `l_cust4`, and the entries of the table without a function. -/
def lCust : P Unit := pure ()

inductive Insn where
  | plain (body : P Unit)
  | mtspr | mfspr | rfe | lwa | swa

/-- The function of a name. -/
def insnset (c : Config δ) : List (String × Insn) :=
  [("l_add", .plain lAdd), ("l_addc", .plain lAddc), ("l_swa", .swa), ("l_sw", .plain (lSw c)),
    ("l_sb", .plain (lSb c)), ("l_sh", .plain (lSh c)), ("l_lwa", .lwa), ("l_lws", .plain (lLws c)),
    ("l_lwz", .plain (lLwz c)), ("l_lbs", .plain (lLbs c)), ("l_lbz", .plain (lLbz c)),
    ("l_lhs", .plain (lLhs c)), ("l_lhz", .plain (lLhz c)), ("l_movhi", .plain lMovhi),
    ("l_and", .plain lAnd), ("l_or", .plain lOr), ("l_xor", .plain lXor), ("l_sub", .plain lSub),
    ("l_mul", .plain lMul), ("l_mulu", .plain lMulu), ("l_div", .plain lDiv), ("l_divu", .plain lDivu),
    ("l_sll", .plain (lSll c)), ("l_sra", .plain (lSra c)), ("l_srl", .plain (lSrl c)),
    ("l_ror", .plain (lRor c)), ("l_bf", .plain lBf), ("l_bnf", .plain lBnf), ("l_j", .plain lJ),
    ("l_jal", .plain (lJal c)), ("l_jalr", .plain lJalr), ("l_jr", .plain lJr), ("l_rfe", .rfe),
    ("l_nop", .plain (lNop c)), ("l_sfeq", .plain lSfeq), ("l_sfne", .plain lSfne),
    ("l_sfgts", .plain lSfgts), ("l_sfges", .plain lSfges), ("l_sflts", .plain lSflts),
    ("l_sfles", .plain lSfles), ("l_sfgtu", .plain lSfgtu), ("l_sfgeu", .plain lSfgeu),
    ("l_sfltu", .plain lSfltu), ("l_sfleu", .plain lSfleu), ("l_extbs", .plain lExtbs),
    ("l_extbz", .plain lExtbz), ("l_exths", .plain lExths), ("l_exthz", .plain lExthz),
    ("l_extws", .plain lExtws), ("l_extwz", .plain lExtwz), ("l_mtspr", .mtspr), ("l_mfspr", .mfspr),
    ("l_sys", .plain lSys), ("l_trap", .plain lTrap), ("l_mac", .plain lMac), ("l_msb", .plain lMsb),
    ("l_macrc", .plain lMacrc), ("l_cmov", .plain lCmov), ("l_ff1", .plain lFf1), ("l_fl1", .plain lFl1),
    ("lf_add_s", .plain (lfAddS c)), ("lf_div_s", .plain (lfDivS c)), ("lf_ftoi_s", .plain (lfFtoiS c)),
    ("lf_itof_s", .plain (lfItofS c)), ("lf_madd_s", .plain (lfMaddS c)), ("lf_mul_s", .plain (lfMulS c)),
    ("lf_rem_s", .plain (lfRemS c)), ("lf_sfeq_s", .plain (lfSfeqS c)), ("lf_sfge_s", .plain (lfSfgeS c)),
    ("lf_sfgt_s", .plain (lfSfgtS c)), ("lf_sfle_s", .plain (lfSfleS c)), ("lf_sflt_s", .plain (lfSfltS c)),
    ("lf_sfne_s", .plain (lfSfneS c)), ("lf_sub_s", .plain (lfSubS c)), ("l_cust1", .plain lCust),
    ("l_cust2", .plain lCust), ("l_cust3", .plain lCust), ("l_cust4", .plain lCust),
    ("lf_cust1", .plain lCust)]

end Or1ksim.Cpu
