import Or1ksim.Lib.Runs
import Or1ksim.Peripheral.Fields
import Or1ksim.Peripheral.Served

/-!
# The DMA controller

`peripheral/dma.c`: the registers of the controller and of its channels, and the job of a channel, which moves one word.
-/

namespace Or1ksim.Dma

open Peripheral (Effect Bus ULong testFlag setFlag clearFlag assignFlag getField setField clearFlags)

abbrev Word := BitVec 32

/-! ### Constants -/

def numChannels : Nat := 31
def chBase : Nat := 0x20
def chSize : Nat := 0x20

def chEn : Nat := 0
def dstSel : Nat := 1
def srcSel : Nat := 2
def incDst : Nat := 3
def incSrc : Nat := 4
def mode : Nat := 5
def ars : Nat := 6
def useEd : Nat := 7
def szWb : Nat := 8
def stop : Nat := 9
def busy : Nat := 10
def done : Nat := 11
def err : Nat := 12
def ineErr : Nat := 17
def ineDone : Nat := 18
def intErr : Nat := 20
def intDone : Nat := 21
def intChunkDone : Nat := 22

def chCsrWriteMask : ULong := 0x000fe3ff

def totSzOffset : Nat := 0
def totSzWidth : Nat := 12
def chkSzOffset : Nat := 16
def chkSzWidth : Nat := 9

def descEol : Nat := 20
def descIncSrc : Nat := 19
def descIncDst : Nat := 18
def descSrcSel : Nat := 17
def descDstSel : Nat := 16

/-! ### State -/

inductive Job where
  | channelClock (channel : Nat)
  | other (n : Nat)
  deriving DecidableEq, Repr

/-- `struct dma_channel`. -/
structure Channel where
  referenced : Bool
  loadNextDescriptorWhenDone : Bool
  currentDescriptor : ULong
  source : Word
  destination : Word
  sourceMask : Word
  destinationMask : Word
  chunkSize : ULong
  totalSize : ULong
  wordsTransferred : ULong
  csr : ULong
  sz : ULong
  a0 : ULong
  am0 : ULong
  a1 : ULong
  am1 : ULong
  desc : ULong
  swptr : ULong
  dmaReqI : Bool
  dmaAckO : Bool
  dmaNdI : Bool
  deriving Inhabited

/-- `struct dma_controller` without its configuration, and what it has asked for since an access or a job began. -/
structure Dev where
  csr : ULong
  intMskA : ULong
  intMskB : ULong
  intSrcA : ULong
  intSrcB : ULong
  ch : Nat → Channel
  effects : List (Effect Job)
  /-- What has been stored outside the controller since then, the last word first. -/
  stored : List (Word × Word)
  deriving Inhabited

structure Config where
  baseaddr : Word

def Dev.emit (e : Effect Job) (d : Dev) : Dev := { d with effects := d.effects ++ [e] }

def Dev.setCh (k : Nat) (channel : Channel) (d : Dev) : Dev := { d with ch := Function.update d.ch k channel }

def Dev.setCsr (k : Nat) (value : ULong) (d : Dev) : Dev := d.setCh k { d.ch k with csr := value }

def channelMask (k : Nat) : ULong := 1 <<< k

def reset (d : Dev) : Dev :=
  { d with
    csr := 0, intMskA := 0, intMskB := 0, intSrcA := 0, intSrcB := 0
    ch := fun _ => {
      referenced := false, loadNextDescriptorWhenDone := false, currentDescriptor := 0
      source := 0, destination := 0, sourceMask := 0, destinationMask := 0, chunkSize := 0, totalSize := 0, wordsTransferred := 0
      csr := 0, sz := 0, a0 := 0, am0 := 0xfffffffc, a1 := 0, am1 := 0xfffffffc, desc := 0, swptr := 0
      dmaReqI := false, dmaAckO := false, dmaNdI := false } }

/-! ### Registers -/

def readChCsr (k : Nat) (d : Dev) : ULong × Dev :=
  ((d.ch k).csr, d.setCsr k (clearFlags (d.ch k).csr [intChunkDone, intDone, intErr, err]))

def readIntSrcA (d : Dev) : ULong × Dev :=
  (d.intSrcA, { if d.intSrcA ≠ 0 then d.emit .clearInterrupt else d with intSrcA := 0 })

def readChannel (k offset : Nat) (d : Dev) : ULong × Dev :=
  match offset with
  | 0x00 => readChCsr k d
  | 0x04 => ((d.ch k).sz, d)
  | 0x08 => ((d.ch k).a0, d)
  | 0x0c => ((d.ch k).am0, d)
  | 0x10 => ((d.ch k).a1, d)
  | 0x14 => ((d.ch k).am1, d)
  | 0x18 => ((d.ch k).desc, d)
  | 0x1c => ((d.ch k).swptr, d)
  | _ => (0, d)

def read32 (addr : Nat) (d : Dev) : Word × Dev :=
  let (value, d) :=
    if addr < chBase then
      match addr with
      | 0x00 => (d.csr, d)
      | 0x04 => (d.intMskA, d)
      | 0x08 => (d.intMskB, d)
      | 0x0c => readIntSrcA d
      | 0x10 => (d.intSrcB, d)
      | _ => (0, d)
    else readChannel ((addr - chBase) / chSize) ((addr - chBase) % chSize) d
  (value.setWidth 32, d)

def writeChCsr (k : Nat) (value : ULong) (d : Dev) : Dev :=
  let d :=
    if !testFlag (d.ch k).csr chEn && testFlag value chEn then d.emit (.schedAdd (.channelClock k) 1)
    else if !testFlag value chEn then d.emit (.schedFindRemove (.channelClock k))
    else d
  d.setCsr k (((d.ch k).csr &&& ~~~chCsrWriteMask) ||| (value &&& chCsrWriteMask))

def writeChannel (k offset : Nat) (value : ULong) (d : Dev) : Dev :=
  let d := d.setCh k { d.ch k with referenced := true }
  match offset with
  | 0x00 => writeChCsr k value d
  | 0x04 => d.setCh k { d.ch k with sz := value }
  | 0x08 => d.setCh k { d.ch k with a0 := value }
  | 0x0c => d.setCh k { d.ch k with am0 := value }
  | 0x10 => d.setCh k { d.ch k with a1 := value }
  | 0x14 => d.setCh k { d.ch k with am1 := value }
  | 0x18 => d.setCh k { d.ch k with desc := value }
  | 0x1c => d.setCh k { d.ch k with swptr := value }
  | _ => d

def write32 (addr : Nat) (value : Word) (d : Dev) : Dev :=
  if addr < chBase then
    match addr with
    | 0x04 => { d with intMskA := value.setWidth 64 }
    | 0x08 => { d with intMskB := value.setWidth 64 }
    | 0x0c => { d with intSrcA := value.setWidth 64 }
    | 0x10 => { d with intSrcB := value.setWidth 64 }
    | _ => d
  else writeChannel ((addr - chBase) / chSize) ((addr - chBase) % chSize) (value.setWidth 64) d

/-! ### Memory -/

/-- The place of an address among the registers of the controller itself, which a channel can reach too. -/
def ownRegister (c : Config) (addr : Word) : Option Nat :=
  if addr &&& 0xfffffc00 = c.baseaddr &&& 0xfffffc00 then some (addr &&& 0x3ff).toNat else none

/-- What stands in a memory in which some words have been stored. -/
def seen (mem : Word → Word) (stored : List (Word × Word)) (addr : Word) : Word := (stored.lookup addr).getD (mem addr)

/-- `eval_direct32`. -/
def evalDirect32 (c : Config) (mem : Word → Word) (addr : Word) (d : Dev) : Word × Dev :=
  if addr &&& 3 ≠ 0 then (0, d)
  else match ownRegister c addr with
    | some offset => read32 offset d
    | none => (seen mem d.stored addr, d)

/-- `set_direct32`. -/
def setDirect32 (c : Config) (addr value : Word) (d : Dev) : Dev :=
  if addr &&& 3 ≠ 0 then d
  else match ownRegister c addr with
    | some offset => write32 offset value d
    | none => { d with stored := (addr, value) :: d.stored }

/-! ### Transfers -/

def maskedIncrease (value mask : Word) : Word := (value &&& ~~~mask) ||| ((value + 4) &&& mask)

/-- `CHANNEL_ND_I`. -/
def channelNdI (channel : Channel) : Bool := testFlag channel.csr mode && testFlag channel.csr useEd && channel.dmaNdI

/-- A word of a descriptor goes to the channel. -/
def fetch (c : Config) (mem : Word → Word) (k : Nat) (addr : ULong) (store : ULong → Channel → Channel) (d : Dev) : Dev :=
  let (value, d) := evalDirect32 c mem (addr.setWidth 32) d
  d.setCh k (store (value.setWidth 64) (d.ch k))

/-- The flags of a descriptor go to the CSR. -/
def assignFlags (csr descCsr : ULong) : ULong :=
  let csr := assignFlag csr incSrc (testFlag descCsr descIncSrc)
  let csr := assignFlag csr incDst (testFlag descCsr descIncDst)
  let csr := assignFlag csr srcSel (testFlag descCsr descSrcSel)
  assignFlag csr dstSel (testFlag descCsr descDstSel)

def loadDescCsr (descCsr : ULong) (channel : Channel) : Channel :=
  { channel with
    loadNextDescriptorWhenDone := !testFlag descCsr descEol
    csr := assignFlags channel.csr descCsr
    sz := setField channel.sz totSzOffset totSzWidth (getField descCsr totSzOffset totSzWidth) }

def loadDescriptor (c : Config) (mem : Word → Word) (k : Nat) (d : Dev) : Dev :=
  let desc := (d.ch k).desc
  let d := fetch c mem k desc loadDescCsr d
  let d := fetch c mem k (desc + 4) (fun a0 channel => { channel with a0 }) d
  let d := fetch c mem k (desc + 8) (fun a1 channel => { channel with a1 }) d
  fetch c mem k (desc + 12) (fun next channel => { channel with currentDescriptor := desc, desc := next }) d

def initTransfer (k : Nat) (d : Dev) : Dev :=
  let channel := d.ch k
  let totalSize := getField channel.sz totSzOffset totSzWidth
  let chunkSize := getField channel.sz chkSzOffset chkSzWidth
  d.setCh k { channel with
    source := channel.a0.setWidth 32
    destination := channel.a1.setWidth 32
    sourceMask := if testFlag channel.csr incSrc then channel.am0.setWidth 32 else 0
    destinationMask := if testFlag channel.csr incDst then channel.am1.setWidth 32 else 0
    totalSize
    chunkSize := if chunkSize = 0 ∨ chunkSize > totalSize then totalSize else chunkSize
    wordsTransferred := 0 }

/-- An interrupt of a channel, where it is enabled. -/
def interrupt (k enable flag : Nat) (d : Dev) : Dev :=
  if testFlag (d.ch k).csr enable && d.intMskA &&& channelMask k ≠ 0 then
    { d.setCsr k (setFlag (d.ch k).csr flag) with intSrcA := channelMask k }.emit .reportInterrupt
  else d

def channelTerminateTransfer (c : Config) (mem : Word → Word) (k : Nat) (generateInterrupt : Bool) (d : Dev) : Dev :=
  if (d.ch k).loadNextDescriptorWhenDone then (initTransfer k (loadDescriptor c mem k d)).emit (.schedAdd (.channelClock k) 1)
  else if testFlag (d.ch k).csr ars then initTransfer k d
  else
    let channel := d.ch k
    let sz :=
      if testFlag channel.csr szWb && testFlag channel.csr useEd then
        setField channel.sz totSzOffset totSzWidth (channel.totalSize - channel.wordsTransferred)
      else channel.sz
    let csr := clearFlag (clearFlag (setFlag (clearFlag channel.csr chEn) done) err) busy
    let d := d.setCh k { channel with sz, csr }
    if generateInterrupt then interrupt k ineDone intDone d else d

/-- The first clock of a transfer. -/
def beginTransfer (c : Config) (mem : Word → Word) (k : Nat) (d : Dev) : Dev :=
  let d := d.setCsr k (setFlag (clearFlag (clearFlag (d.ch k).csr done) err) busy)
  let d := if testFlag (d.ch k).csr useEd then loadDescriptor c mem k d
    else d.setCh k { d.ch k with loadNextDescriptorWhenDone := false }
  initTransfer k d

/-- A channel when its word has been moved. -/
def advance (channel : Channel) : Channel :=
  let wordsTransferred := channel.wordsTransferred + 1
  { channel with
    source := maskedIncrease channel.source channel.sourceMask
    destination := maskedIncrease channel.destination channel.destinationMask
    wordsTransferred
    dmaAckO := wordsTransferred % channel.chunkSize = 0 }

/-- One word is moved. A chunk of no words is a division by zero. -/
def moveWord (c : Config) (mem : Word → Word) (k : Nat) (d : Dev) : Option Dev :=
  let (value, d) := evalDirect32 c mem (d.ch k).source d
  let d := setDirect32 c (d.ch k).destination value d
  if (d.ch k).chunkSize = 0 then none else some (d.setCh k (advance (d.ch k)))

/-- What follows a word. -/
def wordMoved (c : Config) (mem : Word → Word) (k : Nat) (d : Dev) : Dev :=
  if channelNdI (d.ch k) then channelTerminateTransfer c mem k false d
  else if (d.ch k).wordsTransferred ≥ (d.ch k).totalSize then channelTerminateTransfer c mem k true d
  else d.emit (.schedAdd (.channelClock k) 1)

def channelClock (c : Config) (mem : Word → Word) (k : Nat) (d : Dev) : Option Dev :=
  if testFlag (d.ch k).csr stop then
    some (interrupt k ineErr intErr (d.setCsr k (setFlag (clearFlag (clearFlag (d.ch k).csr chEn) busy) err)))
  else if testFlag (d.ch k).csr mode && !(d.ch k).dmaReqI then some (d.emit (.schedAdd (.channelClock k) 1))
  else if testFlag (d.ch k).csr busy then (moveWord c mem k d).map (wordMoved c mem k)
  else
    let d := beginTransfer c mem k d
    if channelNdI (d.ch k) then some (channelTerminateTransfer c mem k false d) else (moveWord c mem k d).map (wordMoved c mem k)

def setDmaReqI (k : Nat) (d : Dev) : Dev := d.setCh k { d.ch k with dmaReqI := true }
def clearDmaReqI (k : Nat) (d : Dev) : Dev := d.setCh k { d.ch k with dmaReqI := false }
def setDmaNdI (k : Nat) (d : Dev) : Dev := d.setCh k { d.ch k with dmaNdI := true }
def clearDmaNdI (k : Nat) (d : Dev) : Dev := d.setCh k { d.ch k with dmaNdI := false }

def runJob (c : Config) (mem : Word → Word) : Job → Dev → Option Dev
  | .channelClock k => channelClock c mem k
  | .other _ => some

/-! ### The controller and the scheduler -/

abbrev System := Peripheral.System Dev Job

/-- A call begins. -/
def Dev.entered (d : Dev) : Dev := { d with effects := [], stored := [] }

/-- An access of a register, or a signal of a peripheral that a channel serves. -/
inductive Call where
  | read (addr : Nat)
  | write (addr : Nat) (value : Word)
  | setDmaReqI (k : Nat)
  | clearDmaReqI (k : Nat)
  | setDmaNdI (k : Nat)
  | clearDmaNdI (k : Nat)
  deriving DecidableEq, Repr

def Call.run : Call → Dev → Dev
  | .read addr, d => (read32 addr d).2
  | .write addr value, d => write32 addr value d
  | .setDmaReqI k, d => Dma.setDmaReqI k d
  | .clearDmaReqI k, d => Dma.clearDmaReqI k d
  | .setDmaNdI k, d => Dma.setDmaNdI k d
  | .clearDmaNdI k, d => Dma.clearDmaNdI k d

/-- What happens to the controller: calls, the clock, the jobs that are due with the memory that they find, and the jobs that
others add. -/
inductive Act where
  | call (call : Call)
  | advance (n : Nat)
  | job (mem : Word → Word)
  | other (n : Nat) (time : Int)

def step (c : Config) (s : System) : Act → Option System
  | .call call => s.serve Dev.effects fun d => some (call.run d.entered)
  | .advance n => some (s.advance n)
  | .job mem => s.runDue Dev.effects fun job d => runJob c mem job d.entered
  | .other n time => s.add (.other n) time

/-- Before the reset no job of a channel is queued. -/
def Fresh (b : Bus Job) : Prop := ∀ k, Peripheral.queued (.channelClock k) b.scheduler = 0

/-- The states of the runs from a reset whose steps are allowed. -/
inductive Run (allowed : System → Act → Prop) (c : Config) : System → Prop where
  | reset {d : Dev} {b : Bus Job} {s : System} (fresh : Fresh b)
      (ran : (⟨d, b⟩ : System).serve Dev.effects (fun d => some (reset d.entered)) = some s) : Run allowed c s
  | step {s s' : System} (act : Act) (before : Run allowed c s) (allows : allowed s act) (ran : step c s act = some s') :
  Run allowed c s'

/-! ### Runs on given inputs -/

/-- Some steps in a row. -/
def steps (c : Config) (s : System) : List Act → Option System
  | [] => some s
  | act :: acts => (step c s act).bind fun s => steps c s acts

theorem Run.steps {c : Config} {s s' : System} (before : Run (fun _ _ => True) c s) {acts : List Act} (ran : steps c s acts = some s') :
    Run (fun _ _ => True) c s' := by
  induction acts generalizing s with
  | nil =>
    cases ran
    exact before
  | cons act acts ih =>
    obtain ⟨mid, first, rest⟩ := Option.bind_eq_some_iff.mp ran
    exact ih (before.step act trivial first) rest

theorem Run.guarded {allowed : System → Act → Prop} [∀ s act, Decidable (allowed s act)] {c : Config} {s s' : System}
    (before : Run allowed c s) {acts : List Act} (ran : Runs.guarded (Dma.step c) allowed s acts = some s') : Run allowed c s' :=
  Runs.guarded_preserves (fun before allows ran => before.step _ allows ran) before ran

/-- A controller of which nothing is known, at the start of the simulator. -/
def poweredOn : Option System :=
  (Sched.schedInit (.other 0)).bind fun scheduler => (⟨default, scheduler, false⟩ : System).serve Dev.effects fun d =>
    some (reset d.entered)

theorem poweredOn_run {c : Config} {s : System} (on : poweredOn = some s) (allowed : System → Act → Prop) : Run allowed c s := by
  obtain ⟨scheduler, started, ran⟩ := Option.bind_eq_some_iff.mp on
  refine .reset (fun k => ?_) ran
  cases started
  exact List.count_eq_zero.mpr fun inside => absurd (List.mem_singleton.mp inside) nofun

end Or1ksim.Dma
