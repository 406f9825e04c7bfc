import Or1ksim.Cpu.Insnset
import Or1ksim.Decode.Generate

/-!
# Execution

`sprs.c`, the instruction cache, and the execution of an instruction by `execute.c`: fetch, decode
and execute in either executor, and the main loop.
-/

namespace Or1ksim.Cpu

open Decode (InsnOp Opcode Code GenStmt)

variable {δ : Type}

def runP (c : Config δ) (opd : Operands δ) {α : Type} (p : P α) : Sim δ α := p.run (Op.sem c opd)

/-- For programs that are not part of an instruction. -/
def noOperands : Operands δ :=
  { param := fun _ => stop .crash, regParam0 := stop .crash, setParam0 := fun _ => stop .crash }

/-! ### The instruction cache -/

def countEvent (c : Config δ) (event : Word) : Sim δ Unit :=
  if c.pcuEnabled then modify (pcuCountEvent event) else pure ()

namespace Ic

/-- A word as the host stores it. -/
def read32 (ic : Ic) (i : Nat) : Word := ic.mem (i + 3) ++ ic.mem (i + 2) ++ ic.mem (i + 1) ++ ic.mem i

def write32 (ic : Ic) (i : Nat) (value : Word) : Ic :=
  { ic with
    mem := fun k => if i ≤ k ∧ k < i + 4 then value.extractLsb' (8 * (k - i)) 8 else ic.mem k }

end Ic

namespace IcConfig

def set (i : IcConfig) (fetchaddr : Word) : Nat := fetchaddr.toNat / i.blocksize % i.nsets

def tagaddr (i : IcConfig) (fetchaddr : Word) : Word :=
  fetchaddr &&& ~~~(BitVec.ofNat 32 (i.nsets * i.blocksize) - 1)

def offset (i : IcConfig) (addr : Nat) : Nat := addr % i.blocksize

/-- The ways of a set. -/
def ways (i : IcConfig) (fetchaddr : Word) : List Nat :=
  (List.range i.nways).map fun k => i.set fetchaddr + i.nsets * k

def findWay (i : IcConfig) (ic : Ic) (fetchaddr : Word) : Option Nat :=
  (i.ways fetchaddr).find? fun way => ic.tags way = i.tagaddr fetchaddr

def hit (i : IcConfig) (fetchaddr : Word) (way : Nat) (ic : Ic) : Ic :=
  { ic with
    lrus := fun k =>
      if k = way then i.ustates - 1
      else if k ∈ i.ways fetchaddr ∧ ic.lrus k > ic.lrus way then ic.lrus k - 1 else ic.lrus k }

def minway (i : IcConfig) (ic : Ic) (fetchaddr : Word) : Nat :=
  ((i.ways fetchaddr).foldl
    (fun min way => if ic.lrus way < min.2 then (way, ic.lrus way) else min) (i.set fetchaddr, i.ustates - 1)).1

/-- The tag and the usage states before a refill. -/
def claim (i : IcConfig) (fetchaddr : Word) (way : Nat) (ic : Ic) : Ic :=
  { ic with
    tags := fun k => if k = way then i.tagaddr fetchaddr else ic.tags k
    lrus := fun k =>
      if k = way then i.ustates - 1
      else if k ∈ i.ways fetchaddr ∧ ic.lrus k ≠ 0 then ic.lrus k - 1 else ic.lrus k }

end IcConfig

def Ic.clear (way : Nat) (ic : Ic) : Ic :=
  { ic with
    tags := fun k => if k = way then -1 else ic.tags k
    lrus := fun k => if k = way then 0 else ic.lrus k }

def icActive (m : Machine δ) : Bool := has (m.sprs sprUpr) uprIcp && has m.sr srIce && !m.insnCi

/-- The refill of a line, `more` words from `reloadAddr` on: whether it came to its end. -/
def icRefill (c : Config δ) (fetchaddr : Word) (way : Nat) : Nat → Nat → Sim δ Bool
  | 0, _ => pure true
  | more + 1, reloadAddr => do
    let block := fetchaddr &&& ~~~(BitVec.ofNat 32 c.ic.blocksize - 1)
    let got ← evalsimMem c .word (block ||| BitVec.ofNat 32 (c.ic.offset reloadAddr)) 0
    modify fun m => { m with ic := m.ic.write32 (way * c.ic.blocksize + c.ic.offset reloadAddr) got.1 }
    if got.2 then icRefill c fetchaddr way more (reloadAddr + 4)
    else do
      modify fun m => { m with ic := m.ic.clear way }
      pure false

def icSimulateFetch (c : Config δ) (fetchaddr virtAddr : Word) : Sim δ Word := do
  let m ← get
  if !icActive m then do
    let got ← evalsimMem c .word fetchaddr virtAddr
    pure got.1
  else
    let offset := c.ic.offset fetchaddr.toNat
    match c.ic.findWay m.ic fetchaddr with
    | some way => do
      set { m with ic := c.ic.hit fetchaddr way m.ic, memCycles := m.memCycles + c.ic.hitdelay }
      pure (m.ic.read32 (way * c.ic.blocksize + offset))
    | none => do
      let way := c.ic.minway m.ic fetchaddr
      set { m with ic := c.ic.claim fetchaddr way m.ic }
      if ← icRefill c fetchaddr way (c.ic.blocksize / 4) offset then
        modify fun m => { m with memCycles := m.memCycles + c.ic.missdelay }
        countEvent c pcmrIcm
        pure ((← get).ic.read32 (way * c.ic.blocksize + offset))
      else pure 0

def icInv (c : Config δ) (dataaddr : Word) (m : Machine δ) : Machine δ :=
  if !has (m.sprs sprUpr) uprIcp then m
  else
    let stale : Nat → Bool := fun k =>
      k ∈ c.ic.ways dataaddr ∧ (has m.sr srIce → m.ic.tags k = c.ic.tagaddr dataaddr)
    { m with
      ic := { m.ic with
        tags := fun k => if stale k then -1 else m.ic.tags k
        lrus := fun k => if stale k then 0 else m.ic.lrus k } }

/-- `check_debug_unit`, where it is compiled in. -/
def watch (c : Config δ) (action : DebugAction) (udata : Word) : Sim δ Unit :=
  if c.debugEnabled then modify (checkDebugUnit c action udata) else pure ()

/-- The read of `eval_insn`, through the cache or past it. -/
def readInsn (c : Config δ) (physMemaddr memaddr : Word) : Sim δ Word :=
  if c.ic.enabled then icSimulateFetch c physMemaddr memaddr
  else do
    let got ← evalsimMem c .word physMemaddr memaddr
    pure got.1

def evalInsn (c : Config δ) (memaddr : Word) : Sim δ Word := do
  let physMemaddr ← runP c noOperands (immuTranslate c memaddr)
  let m ← get
  if m.exceptPending then pure 0
  else do
    watch c .instructionFetch memaddr
    countEvent c pcmrIf
    let temp ← readInsn c physMemaddr memaddr
    watch c .loadData temp
    pure temp

/-! ### Special purpose registers -/

/-- What is kept of a value written to a register of the data TLB. -/
def maskDtlb (c : Config δ) (regno : SprNo) (value : Word) : Word :=
  (value &&& c.dmmu.pageMask) |||
    (value &&& if regno &&& 0xff < 0x80 then tlbmrV ||| tlbmrPl1 ||| tlbmrCid ||| tlbmrLru else dtlbtrBits)

def maskItlb (c : Config δ) (regno : SprNo) (value : Word) : Word :=
  (value &&& c.immu.pageMask) |||
    (value &&& if regno &&& 0xff < 0x80 then tlbmrV ||| tlbmrPl1 ||| tlbmrCid ||| tlbmrLru else itlbtrBits)

/-- The register that a number links to. -/
def gprLink (regno : SprNo) : Option (Fin 32) :=
  if low : 0x400 ≤ regno.toNat ∧ regno.toNat < 0x420 then some ⟨regno.toNat - 0x400, by omega⟩ else none

/-- The default case of `mtspr`. -/
def mtsprDefault (c : Config δ) (regno : SprNo) (value : Word) (m : Machine δ) : Machine δ :=
  let m := if 0x0a00 ≤ regno ∧ regno < 0x0dff then setSpr regno (maskDtlb c regno value) m else m
  let m := if 0x1200 ≤ regno ∧ regno < 0x15ff then setSpr regno (maskItlb c regno value) m else m
  match gprLink regno with
  | some i => setReg i value m
  | none => m

def mtsprNpc (value : Word) (m : Machine δ) : Machine δ :=
  if value = m.pc then m
  else { m with
    pc := value
    delayInsn := false
    pcnext := value + 4
    npcNotValid := m.stalled || m.npcNotValid }

def mtspr (c : Config δ) (regno : SprNo) (value : Word) : Sim δ Unit := do
  let prevVal := (← get).sprs regno
  modify (setSpr regno value)
  if regno = sprTtcr then sprWriteTtcr value
  else if regno = sprTtmr then sprWriteTtmr prevVal
  else if regno = sprDcbpr then do
    let phys ← runP c noOperands (peekIntoDtlb c value false)
    let _ ← runP c noOperands (dcSimulateRead c .word phys value)
    modify (setSpr sprDcbpr 0)
  else if regno = sprDcbfr then do
    runP c noOperands (dcInv c value)
    modify (setSpr sprDcbfr (-1))
  else if regno = sprDcbir then do
    runP c noOperands (dcInv c value)
    modify (setSpr sprDcbir 0)
  else if regno = sprDcbwr then modify (setSpr sprDcbwr 0)
  else if regno = sprDcblr then modify (setSpr sprDcblr 0)
  else if regno = sprIcbpr then do
    let phys ← runP c noOperands (peekIntoItlb c value)
    let _ ← icSimulateFetch c phys value
    modify (setSpr sprIcbpr 0)
  else if regno = sprIcbir then modify fun m => setSpr sprIcbir 0 (icInv c value m)
  else if regno = sprIcblr then modify (setSpr sprIcblr 0)
  else if regno = sprSr then do
    modify (setSpr sprSr (value ||| srFo))
    if has value srIee && !has prevVal srIee then picIntsEn
  else if regno = sprNpc then modify (mtsprNpc value)
  else if regno = sprPicsr then do
    if !c.picEdgeTrigger then modify (setSpr sprPicsr prevVal)
  else if regno = sprPicmr then do
    if c.picUseNmi then modify (setSpr sprPicmr (value ||| 3))
    if has (← get).sr srIee then picIntsEn
  else if regno = sprPmr then do
    if c.pmEnabled ≠ 0 && has value pmrSume then stop .simDone
  else modify (mtsprDefault c regno value)

def mfspr (c : Config δ) (regno : SprNo) (m : Machine δ) : Word :=
  if regno = sprNpc then if c.strictNpc && m.npcNotValid then 0 else m.pc
  else if regno = sprTtcr then sprReadTtcr m
  else if regno = sprFpcsr then if c.hardfloat then m.sprs regno else 0
  else
    match gprLink regno with
    | some i => m.reg i
    | none => m.sprs regno

/-! ### The instructions that reach further -/

def lMtspr (c : Config δ) (opd : Operands δ) : Sim δ Unit := do
  let regno : SprNo := ((← opd.param 0) ||| (← opd.param 2)).setWidth 16
  let value ← opd.param 1
  if regno = sprFpcsr ∨ has (← get).sr srSm then mtspr c regno value else stop .simDone

def lMfspr (c : Config δ) (opd : Operands δ) : Sim δ Unit := do
  let regno : SprNo := ((← opd.param 1) ||| (← opd.param 2)).setWidth 16
  let m ← get
  if regno = sprFpcsr ∨ has m.sr srSm ∨ has m.sr srSumra then opd.setParam0 (mfspr c regno m)
  else do
    opd.setParam0 0
    stop .simDone

def lRfe (c : Config δ) : Sim δ Unit := do
  modify fun m => { m with pcnext := m.sprs sprEpcrBase }
  mtspr c sprSr ((← get).sprs sprEsrBase)

def lLwa (c : Config δ) (opd : Operands δ) : Sim δ Unit := do
  runP c opd (sbufOp c .sbufLoad)
  let memaddr ← opd.param 1
  let val ← runP c opd (evalMem c .word memaddr)
  modify fun m => { m with loadlockActive := true }
  let addr ← runP c opd (dmmuTranslate c (← opd.param 1) false)
  modify fun m => { m with loadlockAddr := addr }
  let m ← get
  if m.exceptPending || m.breakpoint then pure () else opd.setParam0 val

/-- The store of `l_swa`, when the reservation still stands. -/
def storeConditional (c : Config δ) (opd : Operands δ) : Sim δ Unit := do
  let memaddr ← opd.param 0
  let value ← opd.param 1
  runP c opd (setMem c .word memaddr value)
  runP c opd (sbufOp c .sbufEnd)

def lSwa (c : Config δ) (opd : Operands δ) : Sim δ Unit := do
  runP c opd (sbufOp c .sbufBegin)
  let addr ← runP c opd (dmmuTranslate c (← opd.param 0) false)
  let m ← get
  let success := m.loadlockAddr = addr && m.loadlockActive
  cond success (storeConditional c opd) (pure ())
  modify (setFlag .f success)
  modify fun m => { m with loadlockActive := false }

def Insn.exec (c : Config δ) (opd : Operands δ) : Insn → Sim δ Unit
  | .plain body => runP c opd body
  | .mtspr => lMtspr c opd
  | .mfspr => lMfspr c opd
  | .rfe => lRfe c
  | .lwa => lLwa c opd
  | .swa => lSwa c opd

/-! ### Operands -/

def regFile (m : Machine δ) (regno : Word) : Word :=
  if low : regno.toNat < 32 then m.reg ⟨regno.toNat, low⟩ else 0

def evalsimReg (regno : Word) : Sim δ Word := do
  if regno.toNat < 32 then pure (regFile (← get) regno) else stop .simDone

def setsimReg (regno value : Word) : Sim δ Unit :=
  if low : regno.toNat < 32 then modify (setReg ⟨regno.toNat, low⟩ (if regno = 0 then 0 else value))
  else stop .simDone

/-- The operands as `eval_operand` and `set_operand` find them at each use. -/
def simpleOperands (insn : Word) (opds : List InsnOp) : Operands δ :=
  { param := fun n => do
      match Decode.operandAt n opds with
      | none => stop .exit
      | some here =>
        match here.head?, Decode.evalOperand insn (regFile (← get)) opds n with
        | some opd, some value =>
          if opd.has Decode.optypeDis then
            match Decode.evalOperandVal insn (Decode.behindOperand here) with
            | some base => if base.toNat < 32 then pure value else stop .simDone
            | none => stop .crash
          else if opd.has Decode.optypeReg then evalsimReg value
          else pure value
        | _, _ => stop .crash
    regParam0 :=
      match Decode.evalOperandVal insn opds with
      | some regno => pure regno
      | none => stop .crash
    setParam0 := fun value =>
      match opds.head?, Decode.evalOperandVal insn opds with
      | some opd, some regno => if opd.has Decode.optypeReg then setsimReg regno value else stop .exit
      | _, _ => stop .crash }

/-- The operands as the generated text defines them: the variables hold the values, or the numbers of
the registers. An access past the registers, and a macro that is not defined, end the model. -/
def complexOperands (opds : List InsnOp) (vars : List Word) : Operands δ :=
  let stmts := Decode.genEvalOperands opds
  { param := fun n => do
      match vars[n]? with
      | none => stop .crash
      | some v =>
        if stmts.any (fun s => s = .defineParam n true true ∨ s = .defineParam n true false) then
          if v.toNat < 32 then pure (regFile (← get) v) else stop .crash
        else pure v
    regParam0 :=
      match vars[0]? with
      | some a => if GenStmt.defineSetParam0 ∈ stmts then pure a else stop .crash
      | none => stop .crash
    setParam0 := fun value =>
      match vars[0]? with
      | some a =>
        if GenStmt.defineSetParam0 ∈ stmts then
          if low : a.toNat < 32 then modify (setReg ⟨a.toNat, low⟩ value) else stop .crash
        else stop .crash
      | none => stop .crash }

/-! ### Decode and execute -/

/-- The function of an entry of the table. -/
def Config.insnAt (c : Config δ) (index : Nat) : Option Insn :=
  (c.opcodes[index]?).bind fun op => (insnset c).lookup op.functionName

def lInvalidSim : Sim δ Unit := modify fun m => exceptHandle .illegal m.insnAddr m

/-- `decode_execute` of the simple executor. The entries without a function are never linked. -/
def simpleExecute (c : Config δ) (fuel : Nat) (insn : Word) : Sim δ Unit :=
  match Decode.insnDecode c.build fuel insn with
  | none => stop .crash
  | some index =>
    if index < 0 then lInvalidSim
    else
      match c.insnAt index.toNat, c.opStart[index.toNat]? with
      | some i, some opds => i.exec c (simpleOperands insn opds)
      | none, some _ => lInvalidSim
      | _, none => stop .crash

/-- The block that `output_call` writes for an entry. -/
def runEntry (c : Config δ) (insn : Word) (index : Nat) (opds : List InsnOp) (text : Bool) : Sim δ Unit := do
  let vars := Decode.operandVars insn (regFile (← get)) opds
  if text then
    match c.insnAt index with
    | some i => i.exec c (complexOperands opds vars)
    | none => stop .crash
  if Decode.writeToReg opds then modify (setReg 0 0)

/-- Runs the generated text, or goes to the label of `target` first: whether a `break` was met. -/
def runCode (c : Config δ) (insn : Word) : Code → Option Nat → Sim δ Bool
  | .done, _ => pure false
  | .case v rest, some target => if target = v then runCode c insn rest none else runCode c insn rest (some target)
  | .case _ rest, none => runCode c insn rest none
  | .brk rest, some target => runCode c insn rest (some target)
  | .brk _, none => pure true
  | .illegal rest, some target => runCode c insn rest (some target)
  | .illegal rest, none => do
    modify fun m => exceptHandle .illegal m.pc m
    runCode c insn rest none
  | .switch _ _ _ rest, some target => runCode c insn rest (some target)
  | .switch shift mask body rest, none => do
    let _ ← runCode c insn body (some ((insn.toNat >>> shift) &&& mask))
    runCode c insn rest none
  | .check _ _ _ _ rest, some target => runCode c insn rest (some target)
  | .check mask value yes no rest, none => do
    let _ ← if insn &&& mask = value then runCode c insn yes none else runCode c insn no none
    runCode c insn rest none
  | .entry _ _ _ rest, some target => runCode c insn rest (some target)
  | .entry index opds text rest, none => do
    runEntry c insn index opds text
    runCode c insn rest none
  | .invalid _ rest, some target => runCode c insn rest (some target)
  | .invalid text rest, none => do
    if text then lInvalidSim
    runCode c insn rest none

def Config.generator (c : Config δ) : Decode.Generator :=
  Decode.generator c.opcodes c.build c.opStart ((insnset c).map Prod.fst)

def complexExecute (c : Config δ) (fuel : Nat) (insn : Word) : Sim δ Unit :=
  match Decode.generate c.generator fuel with
  | none => stop .crash
  | some code => do
    let _ ← runCode c insn code none
    pure ()

/-- The automaton is no deeper than an instruction has bits. -/
def decodeFuel : Nat := Decode.coverFuel + 1

def decodeExecute (c : Config δ) : Sim δ Unit := do
  let insn := (← get).insn
  match c.executor with
  | .simple => simpleExecute c decodeFuel insn
  | .complex => complexExecute c decodeFuel insn

def trap (m : Machine δ) : Machine δ := exceptHandle .trap (m.sprs sprEearBase) m

def decodeExecuteWrapper (c : Config δ) : Sim δ Unit := do
  modify fun m => { m with breakpoint := false }
  decodeExecute c
  modify fun m => if m.breakpoint then trap m else m

/-! ### The clock -/

def fetchInsn (c : Config δ) : Sim δ Unit := do
  modify fun m => { m with breakpoint := false, insnAddr := m.pc }
  let insn ← evalInsn c (← get).pc
  modify fun m => { m with insn }

/-- `fetch`: whether a breakpoint of the command line is set at the address. -/
def fetch (c : Config δ) : Sim δ Bool := do
  let m ← get
  if m.breakpoints.isEmpty then do
    fetchInsn c
    pure false
  else do
    let phys ← runP c noOperands (peekIntoItlb c m.pc)
    if m.breakpoints.contains phys && !m.breakJustHit then do
      modify fun m => { m with breakJustHit := true }
      pure true
    else do
      modify fun m => { m with breakJustHit := false }
      fetchInsn c
      pure false

def updatePc (m : Machine δ) : Machine δ :=
  { setSpr sprPpc m.pc m with
    delayInsn := m.nextDelayInsn
    pc := m.pcnext
    pcnext := if m.nextDelayInsn then m.pcDelay else m.pcnext + 4 }

/-- What `cpu_clock` does behind the fetch. -/
def execute (c : Config δ) : Sim δ Unit := do
  let m ← get
  if m.exceptPending then set { updatePc m with exceptPending := false }
  else if m.breakpoint then set { updatePc (trap m) with exceptPending := false }
  else do
    decodeExecuteWrapper c
    modify updatePc

def cpuClock (c : Config δ) : Sim δ Bool := do
  modify fun m => { m with exceptPending := false, nextDelayInsn := false }
  if ← fetch c then pure true
  else do
    execute c
    pure false

def resetVector (m : Machine δ) : Word := if has m.sr srEph then 0xf0000000 else 0

def cpuReset (m : Machine δ) : Machine δ :=
  let m := { m with
    cycles := 0
    reg := fun _ => 0
    insnAddr := 0
    insn := 0
    sbuf := { m.sbuf with head := 0, tail := 0, count := 0, prevCycles := 0 }
    pc := resetVector m
    pcnext := resetVector m + 4 }
  let m := updatePc (exceptHandle .reset 0 m)
  { m with exceptPending := false, pc := resetVector m + Exception.reset.vector }

/-! ### The main loop -/

def runJob (c : Config δ) : Job → Sim δ Unit
  | .guard => fun m =>
    match Sched.schedGuard Job.guard m.scheduler with
    | none => .error .crash
    | some s => .ok ((), { m with scheduler := s })
  | .tickRaiseExcept => tickRaiseExcept
  | .tickRestart => tickRestart
  | .tickOneShot => tickOneShot
  | .picRepInt => picRepInt
  | .dev n => do
    let m ← get
    let answer := c.devJob n m.dev
    set { m with dev := answer.1 }
    devEvents c answer.2

def doScheduler (c : Config δ) (fuel : Nat) : Sim δ Unit :=
  Sched.doScheduler (stop .crash) (stop .outOfFuel) (do pure (← get).scheduler)
    (fun s => modify fun m => { m with scheduler := s }) (runJob c) fuel

/-- An iteration of `exec_main` for a processor that is not stalled. -/
def execMainStep (c : Config δ) (fuel : Nat) : Sim δ Unit := do
  let timeStart := (← get).cycles
  modify fun m => { m with memCycles := 0 }
  -- `config.pm.enabled` is a flag, and and-ed with the bits of the register
  if c.pmEnabled = 0 || !has (c.pmEnabled &&& (← get).sprs sprPmr) (pmrDme ||| pmrSme) then
    let _ ← cpuClock c
  modify fun m =>
    if c.debugEnabled && has (m.sprs sprDmr1) dmr1St then setStallState true m else m
  -- `mem_cycles` is an `int`
  modify fun m => { m with cycles := m.cycles + Sched.int32 m.memCycles }
  modify fun m => { m with scheduler := Sched.advance m.scheduler (m.cycles - timeStart) }
  match (← get).scheduler.headTime with
  | none => stop .crash
  | some time => if time ≤ 0 then doScheduler c fuel

end Or1ksim.Cpu
