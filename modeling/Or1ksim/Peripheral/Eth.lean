import Or1ksim.Lib.Runs
import Or1ksim.Peripheral.Fields
import Or1ksim.Peripheral.Served

/-!
# The Ethernet controller

`peripheral/eth.c`, built with its TAP interface: the registers, the buffer descriptors, the interrupt, and the
two controllers that the scheduler wakes.
-/

namespace Or1ksim.Eth

open Peripheral (Effect Bus ULong testFlag setFlag clearFlag clearFlags getField setField)

abbrev Byte := BitVec 8
abbrev Word := BitVec 32

/-! ### Constants -/

def bdBase : Nat := 0x400
def bdCount : Nat := 0x100
def bdSpace : Nat := 4 * bdCount
def maxPl : Nat := 0x10000
def rtxReschedPeriod : Nat := 2000

def moderRst : Nat := 11
def moderPro : Nat := 5
def moderTxen : Nat := 1
def moderRxen : Nat := 0

/-- The bits of `INT_SOURCE` and of `INT_MASK`. -/
def intBusy : Nat := 4
def intRxe : Nat := 3
def intRxb : Nat := 2
def intTxe : Nat := 1
def intTxb : Nat := 0

def bdLengthOffset : Nat := 16
def bdLengthWidth : Nat := 16
def bdReady : Nat := 15
def bdIrq : Nat := 14
def bdWrap : Nat := 13

def txBdUnderrun : Nat := 8
def txBdRetryOffset : Nat := 4
def txBdRetryWidth : Nat := 4
def txBdRetransmit : Nat := 3
def txBdCollision : Nat := 2
def txBdDefer : Nat := 1
def txBdNoCarrier : Nat := 0

def rxBdMiss : Nat := 7
def rxBdUverrun : Nat := 6
def rxBdInvalid : Nat := 5
def rxBdDribble : Nat := 4
def rxBdToobig : Nat := 3
def rxBdTooshort : Nat := 2
def rxBdCollision : Nat := 0

/-! ### State -/

/-- The jobs of the controller, and those of the rest of the simulator. -/
inductive Job where
  | rxClock | txClock
  | other (n : Nat)
  deriving DecidableEq, Repr

inductive RtxType where
  | file | tap | unknown
  deriving DecidableEq, Repr

/-- What an attempt to read a packet gives. A read of the TAP interface can fail after it was ready. -/
inductive ReadResult where
  | packet (bytes : List Byte)
  | nothing
  | failed
  | readError
  deriving DecidableEq, Repr

/-- What a poll of the TAP interface gives. -/
inductive Poll where
  | failed
  | busy
  | ready (read : ReadResult)
  deriving DecidableEq, Repr

/-- `struct eth_device` without its configuration, and what it has asked for since an access or a job began. -/
structure Dev where
  moder : ULong
  intSource : ULong
  intMask : ULong
  ipgt : ULong
  ipgr1 : ULong
  ipgr2 : ULong
  packetlen : ULong
  collconf : ULong
  txBdNum : ULong
  controlmoder : ULong
  miimoder : ULong
  miicommand : ULong
  miiaddress : ULong
  miitxData : ULong
  miirxData : ULong
  miistatus : ULong
  hash0 : ULong
  hash1 : ULong
  bdRam : Nat → ULong
  macAddress : Nat → Byte
  intLineStat : Bool
  txBdIndex : ULong
  rxBdIndex : ULong
  effects : List (Effect Job)
  /-- What the polls of the TAP interface are going to give, for each call that empties it. -/
  polls : List (List Poll)
  /-- The packets that have been handed out, and what has been stored in memory. -/
  sent : List (List Byte)
  stored : List (Word × Word)
  deriving Inhabited

structure Config where
  baseaddr : Word
  rtxType : RtxType
  dummyCrc : Bool
  phyAddr : ULong

def Dev.emit (e : Effect Job) (d : Dev) : Dev := { d with effects := d.effects ++ [e] }

/-! ### Registers -/

def moder : Nat := 4 * 0x00
def intSource : Nat := 4 * 0x01
def intMask : Nat := 4 * 0x02
def txBdNum : Nat := 4 * 0x08
def miicommand : Nat := 4 * 0x0b

/-- A byte at its place in a word. -/
def at8 (b : Byte) (n : Nat) : Word := b.setWidth 32 <<< n

def read32 (addr : Nat) (d : Dev) : Word :=
  match addr with
  | 0x00 => d.moder.setWidth 32
  | 0x04 => d.intSource.setWidth 32
  | 0x08 => d.intMask.setWidth 32
  | 0x0c => d.ipgt.setWidth 32
  | 0x10 => d.ipgr1.setWidth 32
  | 0x14 => d.ipgr2.setWidth 32
  | 0x18 => d.packetlen.setWidth 32
  | 0x1c => d.collconf.setWidth 32
  | 0x20 => d.txBdNum.setWidth 32
  | 0x24 => d.controlmoder.setWidth 32
  | 0x28 => d.miimoder.setWidth 32
  | 0x2c => d.miicommand.setWidth 32
  | 0x30 => d.miiaddress.setWidth 32
  | 0x34 => d.miitxData.setWidth 32
  | 0x38 => d.miirxData.setWidth 32
  | 0x3c => d.miistatus.setWidth 32
  | 0x40 => at8 (d.macAddress 2) 24 ||| at8 (d.macAddress 3) 16 ||| at8 (d.macAddress 4) 8 ||| at8 (d.macAddress 5) 0
  | 0x44 => at8 (d.macAddress 0) 8 ||| at8 (d.macAddress 1) 0
  | 0x48 => d.hash0.setWidth 32
  | 0x4c => d.hash1.setWidth 32
  | _ => if bdBase ≤ addr ∧ addr < bdBase + bdSpace then (d.bdRam ((addr - bdBase) / 4)).setWidth 32 else 0

/-- The registers of the PHY. -/
def phyRegister (phyAddr : ULong) (n : Nat) : ULong :=
  match n with
  | 0x00 => 0x0100
  | 0x01 => 0x0004 ||| 0x0020 ||| 0x0800 ||| 0x1000 ||| 0x2000 ||| 0x4000
  | 0x02 => 0x22
  | 0x03 => 0x1613
  | 0x04 => 0x0100 ||| 0x0040 ||| 0x0001
  | 0x05 => (0x0040 ||| 0x0100) ||| (0x0080 ||| 0x0100 ||| 0x0200)
  | 0x19 => phyAddr
  | 0x06 | 0x09 | 0x0a | 0x0f | 0x12 | 0x13 | 0x14 | 0x15 | 0x16 | 0x17 | 0x18 | 0x1a | 0x1b | 0x1c => 0
  | _ => 0xffff

/-- `eth_miim_trans`: only the command that reads the PHY does something. -/
def miimTrans (c : Config) (d : Dev) : Dev :=
  if d.miicommand = 1 <<< 1 then
    if d.miiaddress &&& 0x1f = c.phyAddr then { d with miirxData := phyRegister c.phyAddr ((d.miiaddress >>> 8) &&& 0x1f).toNat }
    else { d with miirxData := 0xffff }
  else d

/-- An interrupt is raised, unless one is active. -/
def raiseInterrupt (d : Dev) : Dev := if d.intLineStat then d else { d with intLineStat := true }.emit .reportInterrupt

/-- `eth_read_packet`: a length that is not positive stands for no packet. -/
def readPacket (c : Config) (r : ReadResult) (d : Dev) : Int × List Byte × Dev :=
  match c.rtxType, r with
  | .file, .packet bytes | .tap, .packet bytes => (bytes.length, bytes, d)
  | .file, .nothing | .tap, .nothing => (0, [], d)
  | .tap, .readError =>
    let d := { d with intSource := setFlag d.intSource intRxe }
    (-1, [], if testFlag d.intMask intRxe && !d.intLineStat then raiseInterrupt d else d)
  | _, _ => (-1, [], d)

def ignoreTapPacketsFrom (c : Config) : List Poll → Bool → Dev → Bool × Dev
  | [], result, d => (result, d)
  | .failed :: _, result, d => (result, d)
  | .busy :: polls, result, d => ignoreTapPacketsFrom c polls result d
  | .ready r :: polls, result, d =>
    let (nread, _, d) := readPacket c r d
    if nread < 0 then (result, d) else ignoreTapPacketsFrom c polls (result || nread > 0) d

def ignoreTapPackets (c : Config) (d : Dev) : Bool × Dev :=
  ignoreTapPacketsFrom c (d.polls.headD []) false { d with polls := d.polls.tail }

def reset (c : Config) (d : Dev) : Dev :=
  if c.baseaddr = 0 then d
  else { d with
    moder := 0x0000a000, intSource := 0, intMask := 0
    ipgt := 0x00000012, ipgr1 := 0x0000000c, ipgr2 := 0x00000012
    packetlen := 0x003c0600, collconf := 0x000f003f, txBdNum := 0x00000040
    controlmoder := 0, miimoder := 0x00000064, miicommand := 0, miiaddress := 0, miitxData := 0, miirxData := 0, miistatus := 0
    hash0 := 0, hash1 := 0
    bdRam := fun _ => 0
    txBdIndex := 0, rxBdIndex := 0x00000040 * 2
    intLineStat := false }

def switchRx (c : Config) (value : Word) (d : Dev) : Dev :=
  if !testFlag d.moder moderRxen && testFlag value moderRxen then
    let d := if c.rtxType = .tap then (ignoreTapPackets c d).2 else d
    { d with rxBdIndex := d.txBdNum * 2 }.emit (.schedAdd .rxClock 1)
  else if !testFlag value moderRxen && testFlag d.moder moderRxen then d.emit (.schedFindRemove .rxClock)
  else d

def switchTx (value : Word) (d : Dev) : Dev :=
  if !testFlag d.moder moderTxen && testFlag value moderTxen then { d with txBdIndex := 0 }.emit (.schedAdd .txClock 1)
  else if !testFlag value moderTxen && testFlag d.moder moderTxen then d.emit (.schedFindRemove .txClock)
  else d

def writeModer (c : Config) (value : Word) (d : Dev) : Dev :=
  let d := switchTx value (switchRx c value d)
  let d := if testFlag value moderRst then reset c d else d
  { d with moder := value.setWidth 64 }

def clearLine (d : Dev) : Dev := { d with intLineStat := false }.emit .clearInterrupt

def writeIntSource (value : Word) (d : Dev) : Dev :=
  let d := { d with intSource := d.intSource &&& (~~~value).setWidth 64 }
  if d.intSource &&& d.intMask = 0 && d.intLineStat then clearLine d else d

def writeIntMask (value : Word) (d : Dev) : Dev :=
  let d := { d with intMask := value.setWidth 64 }
  if d.intSource &&& d.intMask ≠ 0 && !d.intLineStat then d
  else if d.intLineStat then clearLine d
  else d

def writeTxBdNum (value : Word) (d : Dev) : Dev :=
  let d := { d with txBdNum := (value &&& 0xff).setWidth 64 }
  { d with rxBdIndex := d.txBdNum * 2 }

def macBytes (macAddress : Nat → Byte) (value : Word) (places : List (Nat × Nat)) : Nat → Byte :=
  places.foldl (fun mac place => Function.update mac place.1 (value.extractLsb' place.2 8)) macAddress

def write32 (c : Config) (addr : Nat) (value : Word) (d : Dev) : Dev :=
  match addr with
  | 0x00 => writeModer c value d
  | 0x04 => writeIntSource value d
  | 0x08 => writeIntMask value d
  | 0x0c => { d with ipgt := value.setWidth 64 }
  | 0x10 => { d with ipgr1 := value.setWidth 64 }
  | 0x14 => { d with ipgr2 := value.setWidth 64 }
  | 0x18 => { d with packetlen := value.setWidth 64 }
  | 0x1c => { d with collconf := value.setWidth 64 }
  | 0x20 => writeTxBdNum value d
  | 0x24 => { d with controlmoder := value.setWidth 64 }
  | 0x28 => { d with miimoder := value.setWidth 64 }
  | 0x2c => miimTrans c { d with miicommand := value.setWidth 64 }
  | 0x30 => { d with miiaddress := value.setWidth 64 }
  | 0x34 => { d with miitxData := value.setWidth 64 }
  | 0x38 => d
  | 0x3c => d
  | 0x40 => { d with macAddress := macBytes d.macAddress value [(5, 0), (4, 8), (3, 16), (2, 24)] }
  | 0x44 => { d with macAddress := macBytes d.macAddress value [(1, 0), (0, 8)] }
  | 0x48 => { d with hash0 := value.setWidth 64 }
  | 0x4c => { d with hash1 := value.setWidth 64 }
  | _ =>
    if bdBase ≤ addr ∧ addr < bdBase + bdSpace then { d with bdRam := Function.update d.bdRam ((addr - bdBase) / 4) (value.setWidth 64) }
    else d

/-! ### Transfers -/

/-- What an act finds outside: the packet to receive, whether a packet can be sent, the memory, and the polls. -/
structure Outside where
  read : ReadResult
  sends : Bool
  mem : Word → Word
  polls : List (List Poll)

/-- The place of an address among the registers of the controller itself, which a transfer can reach too. -/
def ownRegister (c : Config) (addr : Word) : Option Nat :=
  if addr &&& 0xfffff000 = c.baseaddr &&& 0xfffff000 then some (addr &&& 0xfff).toNat else none

/-- `eval_direct32`. -/
def evalDirect32 (c : Config) (mem : Word → Word) (d : Dev) (addr : Word) : Word :=
  if addr &&& 3 ≠ 0 then 0
  else match ownRegister c addr with
    | some offset => read32 offset d
    | none => mem addr

/-- `set_direct32`. -/
def setDirect32 (c : Config) (d : Dev) (place : Word × Word) : Dev :=
  if place.1 &&& 3 ≠ 0 then d
  else match ownRegister c place.1 with
    | some offset => write32 c offset place.2 d
    | none => { d with stored := d.stored ++ [place] }

/-- The addresses of the words of a buffer. -/
def wordPlaces (bdAddr : ULong) (length : Nat) : List Word :=
  (List.range ((length + 3) / 4)).map fun i => (bdAddr + BitVec.ofNat 64 (4 * i)).setWidth 32

def wordBytes (w : Word) : List Byte := [w.extractLsb' 24 8, w.extractLsb' 16 8, w.extractLsb' 8 8, w.extractLsb' 0 8]

/-- The words of a packet. What follows its end in the local buffer is any value, here 0. -/
def packetWords (bytes : List Byte) : List Word :=
  (List.range ((bytes.length + 3) / 4)).map fun i =>
    at8 (bytes.getD (4 * i) 0) 24 ||| at8 (bytes.getD (4 * i + 1) 0) 16 ||| at8 (bytes.getD (4 * i + 2) 0) 8 ||| at8
      (bytes.getD (4 * i + 3) 0) 0

/-- A word of `bd_ram`, which has no others. -/
def bd (d : Dev) (index : ULong) : Option ULong := if index.toNat < bdCount then some (d.bdRam index.toNat) else none

def setBd (d : Dev) (index value : ULong) : Option Dev :=
  if index.toNat < bdCount then some { d with bdRam := Function.update d.bdRam index.toNat value } else none

/-! ### The transmitter -/

/-- The flags of a descriptor whose packet has been sent, or has failed. -/
def sentInfo (bdInfo : ULong) (success : Bool) : ULong :=
  let bdInfo := clearFlags bdInfo [txBdDefer, txBdCollision, txBdRetransmit, txBdUnderrun, txBdNoCarrier]
  let bdInfo := setField bdInfo txBdRetryOffset txBdRetryWidth 0
  if success then clearFlag bdInfo bdReady else clearFlag (clearFlag bdInfo bdReady) txBdCollision

def advanceTx (bdInfo : ULong) (d : Dev) : Dev :=
  if testFlag bdInfo bdWrap || d.txBdIndex ≥ (d.txBdNum - 1) * 2 then { d with txBdIndex := 0 }
    else { d with txBdIndex := d.txBdIndex + 2 }

def flushBd (c : Config) (o : Outside) (d : Dev) : Option Dev := do
  let bdInfo ← bd d d.txBdIndex
  let bdAddr ← bd d (d.txBdIndex + 1)
  let length := (getField bdInfo bdLengthOffset bdLengthWidth).toNat
  let packet := ((wordPlaces bdAddr length).flatMap fun addr => wordBytes (evalDirect32 c o.mem d addr)).take length
  let success := c.rtxType ≠ .unknown && o.sends
  let bdInfo := sentInfo bdInfo success
  let flag := if success then intTxb else intTxe
  let d := { d with sent := if success then d.sent ++ [packet] else d.sent, intSource := setFlag d.intSource flag }
  let d ← setBd d d.txBdIndex bdInfo
  let d := if testFlag d.intMask flag && testFlag bdInfo bdIrq then raiseInterrupt d else d
  pure (advanceTx bdInfo d)

/-- The transmitter with no interrupt active. -/
def transmit (c : Config) (o : Outside) (d : Dev) : Option Dev := do
  let bdInfo ← bd d d.txBdIndex
  if testFlag bdInfo bdReady then flushBd c o d else pure d

def controllerTxClock (c : Config) (o : Outside) (d : Dev) : Option Dev :=
  (if d.intLineStat then some d else transmit c o d).map (Dev.emit (.schedAdd .txClock rtxReschedPeriod))

/-! ### The receiver -/

/-- The flags of a descriptor that is filled with a packet. -/
def filledInfo (c : Config) (bdInfo : ULong) (length : Nat) : ULong :=
  let bdInfo := clearFlags bdInfo [rxBdMiss, rxBdInvalid, rxBdDribble, rxBdUverrun, rxBdCollision, rxBdToobig, rxBdTooshort]
  clearFlag (setField bdInfo bdLengthOffset bdLengthWidth (BitVec.ofNat 64 (length + if c.dummyCrc then 4 else 0))) bdReady

/-- The destination of a packet is the controller, or everyone. -/
def forUs (d : Dev) (bytes : List Byte) : Bool :=
  testFlag d.moder moderPro || (List.range 6).all (fun i => bytes.getD i 0 = d.macAddress i) || (List.range 6).all fun i =>
    bytes.getD i 0 = 0xff

def advanceRx (bdInfo : ULong) (d : Dev) : Dev :=
  if testFlag bdInfo bdWrap || d.rxBdIndex.toNat ≥ bdCount then { d with rxBdIndex := d.txBdNum * 2 }
    else { d with rxBdIndex := d.rxBdIndex + 2 }

/-- A packet goes to memory word by word. -/
def transfer (c : Config) (bdAddr : ULong) (bytes : List Byte) (d : Dev) : Dev :=
  ((wordPlaces bdAddr bytes.length).zip (packetWords bytes)).foldl (setDirect32 c) d

/-- What `eth_fill_bd` does when the packet is in memory. -/
def filled (bdInfo : ULong) (d : Dev) : Option Dev := do
  let d ← setBd { d with intSource := setFlag d.intSource intRxb } d.rxBdIndex bdInfo
  let d := advanceRx bdInfo d
  pure (if testFlag d.intMask intRxb && testFlag bdInfo bdIrq then raiseInterrupt d else d)

/-- `eth_fill_bd`. A packet that is longer than the local buffer is undefined. -/
def fillBd (c : Config) (o : Outside) (d : Dev) : Option Dev := do
  let bdInfo ← bd d d.rxBdIndex
  let bdAddr ← bd d (d.rxBdIndex + 1)
  let (length, bytes, d) := readPacket c o.read d
  if length ≤ 0 then pure d
  else if maxPl < bytes.length then none
  else if !forUs d bytes then pure d
  else filled (filledInfo c bdInfo bytes.length) (transfer c bdAddr bytes d)

/-- The source empties the interface for a file, and says that it does so for TAP. -/
def ignoreBusy (c : Config) (d : Dev) : Dev :=
  if testFlag d.moder moderRxen && c.rtxType = .file then
    let (ignored, d) := ignoreTapPackets c d
    if ignored then
      let d := { d with intSource := setFlag d.intSource intBusy }
      if testFlag d.intMask intBusy then raiseInterrupt d else d
    else d
  else d

/-- The receiver with no interrupt active. -/
def receive (c : Config) (o : Outside) (d : Dev) : Option Dev := do
  let bdInfo ← bd d d.rxBdIndex
  if testFlag bdInfo bdReady then fillBd c o d else pure (ignoreBusy c d)

def controllerRxClock (c : Config) (o : Outside) (d : Dev) : Option Dev :=
  (if d.intLineStat then some d else receive c o d).map (Dev.emit (.schedAdd .rxClock rtxReschedPeriod))

def runJob (c : Config) (o : Outside) : Job → Dev → Option Dev
  | .rxClock => controllerRxClock c o
  | .txClock => controllerTxClock c o
  | .other _ => some

/-! ### The controller and the scheduler -/

abbrev System := Peripheral.System Dev Job

/-- A call begins. -/
def Dev.entered (polls : List (List Poll)) (d : Dev) : Dev := { d with effects := [], polls }

/-- What happens to the controller: writes of its registers, the clock, the jobs that are due, and the jobs that others add. -/
inductive Act where
  | write (addr : Nat) (value : Word) (polls : List (List Poll))
  | advance (n : Nat)
  | job (o : Outside)
  | other (n : Nat) (time : Int)

def step (c : Config) (s : System) : Act → Option System
  | .write addr value polls => s.serve Dev.effects fun d => some (write32 c addr value (d.entered polls))
  | .advance n => some (s.advance n)
  | .job o => s.runDue Dev.effects fun job d => runJob c o job (d.entered o.polls)
  | .other n time => s.add (.other n) time

/-- Before the reset the interrupt has not been reported. -/
structure Fresh (d : Dev) (b : Bus Job) : Prop where
  line : b.line = false
  intLineStat : d.intLineStat = false

/-- The states of the runs from a reset whose steps are allowed. -/
inductive Run (allowed : System → Act → Prop) (c : Config) : System → Prop where
  | reset {d : Dev} {b : Bus Job} {s : System} (fresh : Fresh d b)
      (ran : (⟨d, b⟩ : System).serve Dev.effects (fun d => some (reset c (d.entered []))) = some s) :
      Run allowed c s
  | step {s s' : System} (act : Act) (before : Run allowed c s) (allows : allowed s act) (ran : step c s act = some s') :
  Run allowed c s'

/-! ### Runs on given inputs -/

/-- Some steps in a row. -/
def steps (c : Config) (s : System) : List Act → Option System
  | [] => some s
  | act :: acts => (step c s act).bind fun s => steps c s acts

theorem Run.steps {c : Config} {s s' : System} (before : Run (fun _ _ => True) c s) {acts : List Act} (ran : steps c s acts = some s') :
    Run (fun _ _ => True) c s' := by
  induction acts generalizing s with
  | nil =>
    cases ran
    exact before
  | cons act acts ih =>
    obtain ⟨mid, first, rest⟩ := Option.bind_eq_some_iff.mp ran
    exact ih (before.step act trivial first) rest

theorem Run.guarded {allowed : System → Act → Prop} [∀ s act, Decidable (allowed s act)] {c : Config} {s s' : System}
    (before : Run allowed c s) {acts : List Act} (ran : Runs.guarded (Eth.step c) allowed s acts = some s') : Run allowed c s' :=
  Runs.guarded_preserves (fun before allows ran => before.step _ allows ran) before ran

/-- A controller of which nothing else is known, at the start of the simulator. -/
def poweredOn (c : Config) : Option System :=
  (Sched.schedInit (.other 0)).bind fun scheduler =>
    (⟨{ (default : Dev) with intLineStat := false }, scheduler, false⟩ : System).serve Dev.effects fun d => some (reset c (d.entered []))

theorem poweredOn_run {c : Config} {s : System} (on : poweredOn c = some s) (allowed : System → Act → Prop) : Run allowed c s := by
  obtain ⟨scheduler, started, ran⟩ := Option.bind_eq_some_iff.mp on
  exact .reset ⟨rfl, rfl⟩ ran

/-- A controller whose packets come from a file, and the outside when one can be sent. -/
def fileMac : Config := ⟨0x92000000, .file, false, 0⟩
def sending : Outside := ⟨.nothing, true, fun _ => 0, []⟩

end Or1ksim.Eth
