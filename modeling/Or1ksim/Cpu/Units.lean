import Or1ksim.Cpu.Machine

/-!
# The units around the core

Exception entry (`except.c`), the debug unit, the performance counters, the interrupt controller, the
tick timer, and the accesses of `abstract.c` to the memory areas.
-/

namespace Or1ksim.Cpu

variable {δ : Type}

/-! ### Exceptions -/

def setStallState (state : Bool) (m : Machine δ) : Machine δ :=
  if state then { m with stalled := true }
  else { m with stalled := false, npcNotValid := false, halted := false }

/-- Whether the debug unit takes the exception, and the state with `DRR` and the stall updated. -/
def debugIgnoreException (e : Exception) (m : Machine δ) : Bool × Machine δ :=
  let result := m.sprs sprDsr &&& e.dsr
  (result ≠ 0, setStallState (result ≠ 0) (setSpr sprDrr (m.sprs sprDrr ||| result) m))

/-- The table of `except_handle`: what `EPCR` is loaded with. -/
def exceptEpcr (e : Exception) (ea pc : Word) (delayInsn : Bool) : Option Word :=
  let back : Word := if delayInsn then 4 else 0
  match e with
  | .reset => none
  | .itlbmiss | .ipf => some (ea - back)
  | .buserr | .dpf | .align | .illegal | .dtlbmiss | .range | .trap => some (pc - back)
  | .fpe | .syscall => some (pc + 4 - back)
  | .tick | .int => some (pc - back)

/-- `SR` on entry of an exception. -/
def exceptSr (sr : Word) : Word := ((sr &&& ~~~srOve) ||| srSm) &&& ~~~(srIee ||| srTee) &&& ~~~srDme &&& ~~~srIme

/-- What `except_handle` does when the debug unit leaves the exception to the core. -/
def enterException (e : Exception) (ea : Word) (m : Machine δ) : Machine δ :=
  let vector := e.vector + if has m.sr srEph then 0xf0000000 else 0
  let after := setSpr sprSr (exceptSr m.sr) (setSpr sprEsrBase m.sr (setSpr sprEearBase ea m))
  let after := match exceptEpcr e ea m.pc m.delayInsn with
    | none => after
    | some epcr => setSpr sprEpcrBase epcr after
  let now := e = .tick ∨ e = .int
  { after with
    exceptPending := true
    pc := if now then vector else m.pc
    pcnext := if now then vector + 4 else vector
    delayInsn := false
    entries := ⟨e, ea, m.sprs, m.pc, m.delayInsn⟩ :: m.entries }

def exceptHandle (e : Exception) (ea : Word) (m : Machine δ) : Machine δ :=
  let ignored := debugIgnoreException e { m with loadlockActive := false }
  if ignored.1 then ignored.2 else enterException e ea ignored.2

/-! ### Performance counters -/

def pcuCounts (event : Word) (m : Machine δ) (i : Nat) : Bool :=
  let pcmr := m.sprs (sprPcmr i)
  has event pcmr && if has m.sr srSm then has pcmr pcmrCism else has pcmr pcmrCium

def pcuCountEvent (event : Word) (m : Machine δ) : Machine δ :=
  (List.range 8).foldl
    (fun m i => if pcuCounts event m i then setSpr (sprPccr i) (m.sprs (sprPccr i) + 1) m else m) m

/-! ### Watchpoints -/

inductive DebugAction where
  | instructionFetch | loadAddress | storeAddress | loadData | storeData
  deriving DecidableEq, Repr

/-- The field `CT` of a `DCR` selects the action. -/
def compareTo (dcr : Word) (action : DebugAction) : Bool :=
  match (dcr &&& dcrCt).toNat with
  | 0x20 => action = .instructionFetch
  | 0x40 => action = .loadAddress
  | 0x60 => action = .storeAddress
  | 0x80 => action = .loadData
  | 0xa0 => action = .storeData
  | 0xc0 => action = .loadAddress ∨ action = .storeAddress
  | 0xe0 => action = .loadData ∨ action = .storeData
  | _ => false

/-- The field `CC` of a `DCR` selects the comparison, and `SC` makes it one of `long` values, which a
host with 64 bits never sees negative. The masked comparison keeps the low byte of its result. -/
def compareCondition (long64 : Bool) (dcr udata dvr : Word) : Bool :=
  let less : Word → Word → Bool := fun x y => if has dcr dcrSc && !long64 then x.slt y else x.ult y
  match (dcr &&& dcrCc).toNat with
  | 0x0 => has (udata &&& dvr) 0xff
  | 0x2 => udata = dvr
  | 0x4 => less udata dvr
  | 0x6 => !less dvr udata
  | 0x8 => less dvr udata
  | 0xa => !less udata dvr
  | 0xc => udata ≠ dvr
  | _ => false

/-- The matchpoints, `mp` in the source. -/
def matchpoint (long64 : Bool) (m : Machine δ) (action : DebugAction) (udata : Word) (i : Nat) : Bool :=
  let dcr := m.sprs (sprDcr i)
  has dcr dcrDp && compareTo dcr action && compareCondition long64 dcr udata (m.sprs (sprDvr i))

/-- The chaining of a watchpoint to the one before it, selected by two bits of `DMR1`. -/
def chain (dmr1 : Word) (i : Nat) (mp before : Bool) : Bool :=
  match ((dmr1 >>> (2 * i)) &&& 3).toNat with
  | 0 => mp
  | 1 => mp && before
  | 2 => mp || before
  | _ => false

/-- Watchpoints `0` to `7`. The first chains with an external one, which is not supported. -/
def watchpoint (dmr1 : Word) (mp : Nat → Bool) : Nat → Bool
  | 0 => (dmr1 &&& 3 = 0) && mp 0
  | i + 1 => chain dmr1 (i + 1) (mp (i + 1)) (watchpoint dmr1 mp i)

/-- The watchpoints that add to a counter: those assigned to it. -/
def countFor (dmr2 : Word) (wp : Nat → Bool) (counter : Bool) : Nat :=
  ((List.range 8).filter fun i => wp i && (dmr2.getLsbD (dmr2AwtcOff + i) == counter)).length

/-- A counter is a `short int`, and or-ed into its register with its sign. -/
def countDwcr (dwcr : Word) (n : Nat) : Word :=
  (dwcr &&& ~~~dwcrCount) ||| ((dwcr.setWidth 16 + BitVec.ofNat 16 n).signExtend 32)

def dwcrMatched (dwcr : Word) : Bool := dwcr &&& dwcrCount = dwcr >>> dwcrMatchOff

def countWatchpoints (wp : Nat → Bool) (m : Machine δ) : Machine δ :=
  let dmr2 := m.sprs sprDmr2
  let enabled0 := has dmr2 dmr2Wce0
  let enabled1 := has dmr2 dmr2Wce1
  if enabled0 || enabled1 then
    setSpr sprDwcr1 (countDwcr (m.sprs sprDwcr1) (if enabled1 then countFor dmr2 wp true else 0))
      (setSpr sprDwcr0 (countDwcr (m.sprs sprDwcr0) (if enabled0 then countFor dmr2 wp false else 0)) m)
  else m

def calculateWatchpoints (c : Config δ) (action : DebugAction) (udata : Word) (m : Machine δ) : Bool × Machine δ :=
  let mp := matchpoint c.long64 m action udata
  if (List.range 8).any mp then
    let dmr1 := m.sprs sprDmr1
    let dmr2 := m.sprs sprDmr2
    let wp := watchpoint dmr1 mp
    let m := countWatchpoints wp m
    let wp8 := chain dmr1 8 (dwcrMatched (m.sprs sprDwcr0)) (wp 7)
    let wp9 := chain dmr1 9 (dwcrMatched (m.sprs sprDwcr1)) wp8
    let hit := (List.range 10).filter fun i =>
      dmr2.getLsbD (dmr2WgbOff + i) && if i = 9 then wp9 else if i = 8 then wp8 else wp i
    (hit ≠ [], setSpr sprDmr2 (hit.foldl (fun d i => d ||| (1 : Word) <<< (dmr2WbsOff + i)) dmr2) m)
  else (false, m)

/-- `*breakpoint += check_debug_unit (…)`. -/
def checkDebugUnit (c : Config δ) (action : DebugAction) (udata : Word) (m : Machine δ) : Machine δ :=
  if c.debugEnabled && !m.inReset && has (m.sprs sprDmr2) (dmr2Wgb ||| dmr2Awtc) then
    let watched := calculateWatchpoints c action udata m
    { watched.2 with breakpoint := m.breakpoint || watched.1 }
  else m

/-! ### Scheduling -/

def schedAdd (job : Job) (time : Int) : Sim δ Unit := fun m =>
  match Sched.schedAdd m.scheduler job (Sched.int32 time) with
  | none => .error .crash
  | some s => .ok ((), { m with scheduler := s })

def schedFindRemove (job : Job) : Sim δ Unit :=
  modify fun m => { m with scheduler := Sched.schedFindRemove m.scheduler job }

def schedNextInsn (job : Job) : Sim δ Unit := fun m =>
  match Sched.schedNextInsn m.scheduler job with
  | none => .error .crash
  | some s => .ok ((), { m with scheduler := s })

/-! ### The interrupt controller -/

def picRepInt : Sim δ Unit :=
  modify fun m => if m.sprs sprPicsr ≠ 0 then exceptHandle .int (m.sprs sprEearBase) m else m

def picIntsEn : Sim δ Unit := do
  let m ← get
  if has (m.sprs sprPicmr) (m.sprs sprPicsr) then schedAdd .picRepInt 0

def lineMask (line : Fin 32) : Word := (1 : Word) <<< line.val

/-- An interrupt ends the sleep and doze modes. -/
def wake (m : Machine δ) : Machine δ := setSpr sprPmr (m.sprs sprPmr &&& ~~~(pmrDme ||| pmrSme)) m

def reportInterrupt (c : Config δ) (line : Fin 32) : Sim δ Unit := do
  modify wake
  let m ← get
  if !c.picEnabled then
    if has m.sr srIee then set (exceptHandle .int (m.sprs sprEearBase) m)
  else if has (m.sprs sprPicsr) (lineMask line) then pure ()
  else
    set (setSpr sprPicsr (m.sprs sprPicsr ||| lineMask line) m)
    if has (m.sprs sprPicmr) (lineMask line) && has m.sr srIee then schedAdd .picRepInt 0

def clearInterrupt (line : Fin 32) : Sim δ Unit :=
  modify fun m => setSpr sprPicsr (m.sprs sprPicsr &&& ~~~lineMask line) m

/-! ### The tick timer -/

def tickRaiseExcept : Sim δ Unit := do
  modify fun m => setSpr sprTtmr (m.sprs sprTtmr ||| ttmrIp) m
  schedNextInsn .tickRaiseExcept
  modify fun m => if has m.sr srTee then exceptHandle .tick (m.sprs sprEearBase) m else m

def tickRestart : Sim δ Unit := do
  modify fun m => setSpr sprTtcr 0 { m with cycleCountAtTickStart := m.cycles }
  let m ← get
  schedAdd .tickRestart (m.sprs sprTtmr &&& ttmrTp).toNat

def tickOneShot : Sim δ Unit :=
  modify fun m => setSpr sprTtcr (m.sprs sprTtmr &&& ttmrTp) { m with tickCounting := false }

def sprReadTtcr (m : Machine δ) : Word :=
  if m.tickCounting then BitVec.ofInt 32 (m.cycles - m.cycleCountAtTickStart) else m.sprs sprTtcr

/-- The cycles until the counter next meets the period, both in the bits of `TTMR[TP]`. -/
def cyclesUntilExcept (matchTtmr matchTtcr : Word) : Word :=
  if matchTtcr ≤ matchTtmr then matchTtmr - matchTtcr else matchTtmr + (0x0fffffff - matchTtcr) + 1

def schedTimerJob (prevTtmr : Word) : Sim δ Unit := do
  let m ← get
  let ttmr := m.sprs sprTtmr
  let cycles := cyclesUntilExcept (ttmr &&& ttmrTp) (sprReadTtcr m &&& ttmrTp)
  let raise := has ttmr ttmrIe && !has ttmr ttmrIp
  if has prevTtmr ttmrIe && !has ttmr ttmrIp then schedFindRemove .tickRaiseExcept
  if prevTtmr &&& ttmrM = ttmrRt then schedFindRemove .tickRestart
  else if prevTtmr &&& ttmrM = ttmrSr then schedFindRemove .tickOneShot
  if ttmr &&& ttmrM = 0 then
    if cycles = 0 && raise then schedAdd .tickRaiseExcept 0
  else if ttmr &&& ttmrM = ttmrRt then
    schedAdd .tickRestart cycles.toNat
    if raise then schedAdd .tickRaiseExcept cycles.toNat
  else if ttmr &&& ttmrM = ttmrSr then
    if m.tickCounting then
      schedAdd .tickOneShot cycles.toNat
      if raise then schedAdd .tickRaiseExcept cycles.toNat
  else
    if raise then schedAdd .tickRaiseExcept cycles.toNat

def sprWriteTtcr (value : Word) : Sim δ Unit := do
  modify fun m => { m with cycleCountAtTickStart := m.cycles - value.toNat }
  schedTimerJob ((← get).sprs sprTtmr)

def sprWriteTtmr (prevVal : Word) : Sim δ Unit := do
  let value := (← get).sprs sprTtmr
  modify fun m => setSpr sprTtmr (m.sprs sprTtmr &&& ~~~ttmrIp) m
  modify fun m =>
    if m.tickCounting then setSpr sprTtcr (BitVec.ofInt 32 (m.cycles - m.cycleCountAtTickStart)) m else m
  modify fun m =>
    { m with cycleCountAtTickStart := m.cycles - (m.sprs sprTtcr).toNat, tickCounting := has value ttmrM }
  schedTimerJob prevVal

/-! ### Memory areas -/

def Area.covers (a : Area δ) (d : δ) (addr : Word) : Bool :=
  addr &&& a.addrMask d = a.addrCompare d &&& a.addrMask d

def Config.covers (c : Config δ) (d : δ) (addr : Word) (i : Nat) : Bool :=
  (c.areas[i]?).any fun a => a.covers d addr

/-- The area that `verify_memoryarea` finds when `curArea` is cached. -/
def Config.lookup (c : Config δ) (d : δ) (curArea : Option Nat) (addr : Word) : Option Nat :=
  if c.mcArea.any (c.covers d addr) then c.mcArea
  else if curArea.any (c.covers d addr) then curArea
  else c.areas.findIdx? fun a => a.covers d addr && a.valid d

def verifyMemoryarea (c : Config δ) (addr : Word) (m : Machine δ) : Machine δ :=
  { m with curArea := c.lookup m.dev m.curArea addr }

def devEvent (c : Config δ) : DevEvent → Sim δ Unit
  | .reportInterrupt line => reportInterrupt c line
  | .clearInterrupt line => clearInterrupt line
  | .schedAdd job time => schedAdd (.dev job) time.val
  | .schedFindRemove job => schedFindRemove (.dev job)
  | .verifyMemoryarea addr => modify (verifyMemoryarea c addr)
  | .simDone => stop .simDone

def devEvents (c : Config δ) : List DevEvent → Sim δ Unit
  | [] => pure ()
  | e :: es => do
    devEvent c e
    devEvents c es

/-- The area under `cur_area`. -/
def Config.area (c : Config δ) (m : Machine δ) : Option (Area δ) := m.curArea.bind (c.areas[·]?)

/-- `evalsim_mem32`, `16` and `8`: the value read, and whether `cur_area` is set afterwards. -/
def evalsimMem (c : Config δ) (w : Width) (memaddr vaddr : Word) : Sim δ (BitVec w.bits × Bool) := do
  modify (verifyMemoryarea c memaddr)
  let m ← get
  match c.area m with
  | none =>
    set (exceptHandle .buserr vaddr m)
    pure (0, m.curArea.isSome)
  | some mem =>
    let m := { m with memCycles := m.memCycles + mem.delayr m.dev }
    match mem.readfunc w with
    | none =>
      set (exceptHandle .buserr m.curVadd m)
      pure (0, m.curArea.isSome)
    | some readfunc =>
      let answer := readfunc (memaddr &&& mem.sizeMask m.dev) m.dev
      set { m with dev := answer.2.1 }
      devEvents c answer.2.2
      pure (answer.1, (← get).curArea.isSome)

/-- `setsim_mem32`, `16` and `8`: whether `cur_area` is set afterwards. -/
def setsimMem (c : Config δ) (w : Width) (memaddr vaddr : Word) (value : BitVec w.bits) : Sim δ Bool := do
  modify (verifyMemoryarea c memaddr)
  let m ← get
  match c.area m with
  | none =>
    set (exceptHandle .buserr vaddr m)
    pure m.curArea.isSome
  | some mem =>
    let m := { m with curVadd := vaddr, memCycles := m.memCycles + mem.delayw m.dev }
    match mem.writefunc w with
    | none =>
      set (exceptHandle .buserr m.curVadd m)
      pure m.curArea.isSome
    | some writefunc =>
      let answer := writefunc (memaddr &&& mem.sizeMask m.dev) value m.dev
      set { m with dev := answer.1 }
      devEvents c answer.2
      pure (← get).curArea.isSome

end Or1ksim.Cpu
