import Or1ksim.Cpu.Units

/-!
# Accesses of the core

The programs of an instruction are made of the operations below: what they may read is a `View` of
the machine, and what they may write is one operation each. The MMUs, the data cache and the
architectural accesses of `abstract.c` are programs over them.
-/

namespace Or1ksim.Cpu

open Programs (Prog)

/-! ### Operations -/

/-- The state that an instruction reads directly. -/
structure View where
  sr : Word
  upr : Word
  cpucfgr : Word
  aecr : Word
  aesr : Word
  maclo : Word
  machi : Word
  fpcsr : Word
  eear : Word
  pc : Word
  insnAddr : Word
  exceptPending : Bool
  breakpoint : Bool
  dataCi : Bool
  dc : Nat → Nat → DcWay

inductive Flag where
  | f | cy | ov
  deriving DecidableEq, Repr

def Flag.bit : Flag → Word
  | .f => srF
  | .cy => srCy
  | .ov => srOv

/-- The special purpose registers that instructions write directly, besides the flags. -/
inductive OpenSpr where
  | aesr | fpcsr | maclo | machi
  deriving DecidableEq, Repr

def OpenSpr.regno : OpenSpr → SprNo
  | .aesr => sprAesr
  | .fpcsr => sprFpcsr
  | .maclo => sprMaclo
  | .machi => sprMachi

inductive Side where
  | data | insn
  deriving DecidableEq, Repr

inductive Op : Type where
  | view
  | param (n : Nat)
  | regParam0
  | setParam0 (value : Word)
  | setLink (value : Word)
  | setFlag (flag : Flag) (value : Bool)
  | setSpr (r : OpenSpr) (value : Word)
  | exceptHandle (e : Exception) (ea : Word)
  | setPcnext (value : Word)
  | setDelay (target : Word)
  | tlb (side : Side) (set : Fin 128) (way : Fin 4)
  | touchTlb (side : Side) (set : Fin 128) (way : Fin 4)
  | setDataCi (value : Bool)
  | setInsnCi (value : Bool)
  | addMemCycles (n : Int)
  | pcuCountEvent (event : Word)
  | checkDebugUnit (action : DebugAction) (udata : Word)
  | verifyMemoryarea (addr : Word)
  | evalsimMem (w : Width) (memaddr vaddr : Word)
  | setsimMem (w : Width) (memaddr vaddr : Word) (value : BitVec w.bits)
  | setDc (update : (Nat → Nat → DcWay) → Nat → Nat → DcWay)
  | storeLoadlock (physMemaddr : Word)
  | sbufLoad
  | sbufBegin
  | sbufEnd
  | getTicks
  | setReg11 (value : Word)
  | random
  | halt
  | simDone

def Op.Resp : Op → Type
  | .view => View
  | .param _ => Word
  | .regParam0 => Word
  | .tlb _ _ _ => Word × Word
  | .evalsimMem w _ _ => BitVec w.bits × Bool
  | .setsimMem _ _ _ _ => Bool
  | .random => Word
  | _ => Unit

abbrev P := Prog Op Op.Resp

def act (o : Op) : P o.Resp := Programs.perform o

variable {δ : Type}

/-! ### The MMUs -/

theorem Mmu.nsets_le (mmu : Mmu) : mmu.nsets ≤ 128 := Nat.pow_le_pow_right (by decide) (by omega : mmu.nsetsLog2.val ≤ 7)

def Mmu.set (mmu : Mmu) (virtaddr : Word) : Fin 128 :=
  ⟨((virtaddr &&& mmu.pageMask) >>> mmu.pagesizeLog2.val).toNat &&& (mmu.nsets - 1), by
    have masked := Nat.and_le_right (n := ((virtaddr &&& mmu.pageMask) >>> mmu.pagesizeLog2.val).toNat)
      (m := mmu.nsets - 1)
    have := mmu.nsets_le
    have := Nat.two_pow_pos mmu.nsetsLog2.val
    unfold Mmu.nsets at *
    omega⟩

def Mmu.ways (mmu : Mmu) : List (Fin 4) := (List.finRange 4).take mmu.nways

/-- The number of a match register; its translate register is 128 further. -/
def tlbmr (side : Side) (set : Fin 128) (way : Fin 4) : SprNo :=
  (match side with
    | .data => sprDtlbmrBase
    | .insn => sprItlbmrBase) + BitVec.ofNat 16 (set.val + 256 * way.val)

/-- The loop of `dmmu_find_tlbmr` and `immu_find_tlbmr`: the way that matches, and its translate
register. -/
def findTlbmr (side : Side) (mmu : Mmu) (virtaddr : Word) : List (Fin 4) → P (Option (Fin 4 × Word))
  | [] => pure none
  | way :: ways => do
    let entry ← act (.tlb side (mmu.set virtaddr) way)
    if entry.1 &&& mmu.vpnMask = virtaddr &&& mmu.vpnMask ∧ has entry.1 tlbmrV then pure (some (way, entry.2))
    else findTlbmr side mmu virtaddr ways

/-- The physical address of a hit. -/
def Mmu.physical (mmu : Mmu) (tlbtr virtaddr : Word) : Word :=
  (tlbtr &&& tlbtrPpn) ||| (virtaddr &&& mmu.pageOffsetMask)

def dtlbPermits (sr tlbtr : Word) (write : Bool) : Bool :=
  if has sr srSm then has tlbtr (if write then dtlbtrSwe else dtlbtrSre)
  else has tlbtr (if write then dtlbtrUwe else dtlbtrUre)

def itlbPermits (sr tlbtr : Word) : Bool := has tlbtr (if has sr srSm then itlbtrSxe else itlbtrUxe)

def dmmuTranslate (c : Config δ) (virtaddr : Word) (write : Bool) : P Word := do
  let v ← act .view
  if !has v.sr srDme || !has v.upr uprDmp then
    act (.setDataCi (0x80000000 ≤ virtaddr))
    pure virtaddr
  else
    match ← findTlbmr .data c.dmmu virtaddr c.dmmu.ways with
    | some (way, tlbtr) =>
      act (.touchTlb .data (c.dmmu.set virtaddr) way)
      act (.setDataCi (has tlbtr tlbtrCi))
      act (.addMemCycles c.dmmu.hitdelay)
      if !dtlbPermits v.sr tlbtr write then act (.exceptHandle .dpf virtaddr)
      pure (c.dmmu.physical tlbtr virtaddr)
    | none =>
      act (.addMemCycles c.dmmu.missdelay)
      act (.exceptHandle .dtlbmiss virtaddr)
      if c.pcuEnabled then act (.pcuCountEvent pcmrDtlbm)
      pure 0

/-- `peek_into_dtlb` with `through_dc`. -/
def peekIntoDtlb (c : Config δ) (virtaddr : Word) (write : Bool) : P Word := do
  let v ← act .view
  if !has v.sr srDme || !has v.upr uprDmp then
    act (.setDataCi (0x80000000 ≤ virtaddr))
    pure virtaddr
  else
    match ← findTlbmr .data c.dmmu virtaddr c.dmmu.ways with
    | some (_, tlbtr) =>
      if dtlbPermits v.sr tlbtr write then
        act (.setDataCi (has tlbtr tlbtrCi))
        pure (c.dmmu.physical tlbtr virtaddr)
      else pure 0
    | none => pure 0

def immuTranslate (c : Config δ) (virtaddr : Word) : P Word := do
  let v ← act .view
  if !has v.sr srIme || !has v.upr uprImp then
    act (.setInsnCi (0x80000000 ≤ virtaddr))
    pure virtaddr
  else
    match ← findTlbmr .insn c.immu virtaddr c.immu.ways with
    | some (way, tlbtr) =>
      act (.touchTlb .insn (c.immu.set virtaddr) way)
      act (.setInsnCi (has tlbtr tlbtrCi))
      act (.addMemCycles c.immu.hitdelay)
      if !itlbPermits v.sr tlbtr then act (.exceptHandle .ipf virtaddr)
      pure (c.immu.physical tlbtr virtaddr)
    | none =>
      act (.addMemCycles c.immu.missdelay)
      act (.exceptHandle .itlbmiss virtaddr)
      if c.pcuEnabled then act (.pcuCountEvent pcmrItlbm)
      pure 0

def peekIntoItlb (c : Config δ) (virtaddr : Word) : P Word := do
  let v ← act .view
  if !has v.sr srIme || !has v.upr uprImp then pure virtaddr
  else
    match ← findTlbmr .insn c.immu virtaddr c.immu.ways with
    | some (_, tlbtr) => pure (if itlbPermits v.sr tlbtr then c.immu.physical tlbtr virtaddr else 0)
    | none => pure 0

/-! ### The data cache -/

abbrev Dc := Nat → Nat → DcWay

def Dc.setWay (dc : Dc) (set way : Nat) (value : DcWay) : Dc :=
  fun s w => if s = set ∧ w = way then value else dc s w

/-- Changes the ways of a set. -/
def Dc.mapSet (dc : Dc) (set nways : Nat) (f : Nat → DcWay → DcWay) : Dc :=
  fun s w => if s = set ∧ w < nways then f w (dc s w) else dc s w

namespace DcConfig

def set (d : DcConfig) (dataaddr : Word) : Nat := dataaddr.toNat / d.blocksize % d.nsets

def tagaddr (d : DcConfig) (dataaddr : Word) : Word := BitVec.ofNat 32 (dataaddr.toNat / d.blocksize / d.nsets)

/-- The word of a line that holds an address. -/
def index (d : DcConfig) (dataaddr : Word) : Nat := dataaddr.toNat % d.blocksize / 4

/-- The scan for a matching way; the last one wins. -/
def findWay (d : DcConfig) (dc : Dc) (dataaddr : Word) : Option Nat :=
  (List.range d.nways).foldl
    (fun way i => if (dc (d.set dataaddr) i).tagaddr = d.tagaddr dataaddr then some i else way) none

/-- The replacement of `dc_simulate_read`: the least recently used way. -/
def minwayRead (d : DcConfig) (dc : Dc) (set : Nat) : Nat :=
  ((List.range d.nways).foldl
    (fun min i => if (dc set i).lru < min.2 then (i, (dc set i).lru) else min) (0, d.ustates - 1)).1

/-- The replacement of `dc_simulate_write`, which does not keep the minimum. -/
def minwayWrite (d : DcConfig) (dc : Dc) (set : Nat) : Nat :=
  (List.range d.nways).foldl (fun min i => if (dc set i).lru < d.ustates - 1 then i else min) 0

/-- The usage states after a hit. -/
def hit (d : DcConfig) (set way : Nat) (dc : Dc) : Dc :=
  dc.mapSet set d.nways fun i w =>
    if i = way then { w with lru := d.ustates - 1 }
    else if w.lru > (dc set way).lru then { w with lru := w.lru - 1 } else w

/-- The tag and the usage states after a refill. -/
def refilled (d : DcConfig) (set way : Nat) (tagaddr : Word) (dc : Dc) : Dc :=
  dc.mapSet set d.nways fun i w =>
    if i = way then { w with tagaddr, lru := d.ustates - 1 }
    else if w.lru ≠ 0 then { w with lru := w.lru - 1 } else w

end DcConfig

def Dc.setLine (set way index : Nat) (value : Word) (dc : Dc) : Dc :=
  dc.setWay set way { dc set way with line := fun k => if k = index then value else (dc set way).line k }

/-- Makes a way empty. -/
def Dc.clear (set way : Nat) (dc : Dc) : Dc := dc.setWay set way { dc set way with tagaddr := -1, lru := 0 }

/-- The address of a word of the line that is read `i` bytes into a refill. -/
def DcConfig.refillAddr (d : DcConfig) (dataaddr : Word) (i : Nat) : Word :=
  (dataaddr &&& ~~~(BitVec.ofNat 32 d.blocksize - 1)) +
    (((dataaddr &&& ~~~3) + BitVec.ofNat 32 i) &&& (BitVec.ofNat 32 d.blocksize - 1))

/-- The refill of a line, `more` words from `i` bytes on: whether it came to its end. -/
def dcRefill (c : Config δ) (dataaddr : Word) (way : Nat) : Nat → Nat → P Bool
  | 0, _ => pure true
  | more + 1, i => do
    let got ← act (.evalsimMem .word (c.dc.refillAddr dataaddr i) 0)
    act (.setDc (Dc.setLine (c.dc.set dataaddr) way (c.dc.index (dataaddr + BitVec.ofNat 32 i)) got.1))
    if got.2 then dcRefill c dataaddr way more (i + 4)
    else
      act (.setDc (Dc.clear (c.dc.set dataaddr) way))
      pure false

/-- The part of a word that an access of a width reads. -/
def Width.select (w : Width) (dataaddr line : Word) : BitVec w.bits :=
  match w with
  | .word => line
  | .half => (line >>> (if has dataaddr 2 then 0 else 16)).setWidth 16
  | .byte => (line >>> (8 * (3 - (dataaddr &&& 3).toNat))).setWidth 8

/-- A word with the part that an access of a width writes replaced. -/
def Width.merge (w : Width) (dataaddr line : Word) (data : BitVec w.bits) : Word :=
  match w with
  | .word => data
  | .half =>
    (line &&& ((0xffff : Word) <<< (if has dataaddr 2 then 16 else 0))) |||
      (data.setWidth 32 <<< (if has dataaddr 2 then 0 else 16))
  | .byte =>
    (line &&& ~~~((0xff : Word) <<< (8 * (3 - (dataaddr &&& 3).toNat)))) |||
      (data.setWidth 32 <<< (8 * (3 - (dataaddr &&& 3).toNat)))

def dcActive (v : View) : Bool := has v.upr uprDcp && has v.sr srDce && !v.dataCi

def dcSimulateRead (c : Config δ) (w : Width) (dataaddr virtAddr : Word) : P (BitVec w.bits) := do
  let v ← act .view
  if !dcActive v then
    let got ← act (.evalsimMem w dataaddr virtAddr)
    pure got.1
  else
    let set := c.dc.set dataaddr
    match c.dc.findWay v.dc dataaddr with
    | some way =>
      act (.setDc (c.dc.hit set way))
      act (.addMemCycles c.dc.loadHitdelay)
      pure (w.select dataaddr ((v.dc set way).line (c.dc.index dataaddr)))
    | none =>
      let way := c.dc.minwayRead v.dc set
      if ← dcRefill c dataaddr way (c.dc.blocksize / 4) 0 then
        act (.setDc (c.dc.refilled set way (c.dc.tagaddr dataaddr)))
        act (.addMemCycles c.dc.loadMissdelay)
        if c.pcuEnabled then act (.pcuCountEvent pcmrDcm)
        let after ← act .view
        pure (w.select dataaddr ((after.dc set way).line (c.dc.index dataaddr)))
      else pure 0

def dcSimulateWrite (c : Config δ) (w : Width) (dataaddr virtAddr : Word) (data : BitVec w.bits) : P Unit := do
  let mapped ← act (.setsimMem w dataaddr virtAddr data)
  let v ← act .view
  if !dcActive v || !mapped then pure ()
  else
    let set := c.dc.set dataaddr
    match c.dc.findWay v.dc dataaddr with
    | some way =>
      act (.setDc (c.dc.hit set way))
      act (.addMemCycles c.dc.storeHitdelay)
      let index := c.dc.index dataaddr
      act (.setDc (Dc.setLine set way index (w.merge dataaddr ((v.dc set way).line index) data)))
    | none =>
      let way := c.dc.minwayWrite v.dc set
      if ← dcRefill c dataaddr way (c.dc.blocksize / 4) 0 then
        act (.setDc (c.dc.refilled set way (c.dc.tagaddr dataaddr)))
        act (.addMemCycles c.dc.storeMissdelay)
        if c.pcuEnabled then act (.pcuCountEvent pcmrDcm)

def dcInv (c : Config δ) (dataaddr : Word) : P Unit := do
  let v ← act .view
  let set := c.dc.set dataaddr
  if !has v.upr uprDcp then pure ()
  else if !has v.sr srDce then
    act (.setDc fun dc => Dc.mapSet dc set c.dc.nways fun _ w => { w with tagaddr := -1, lru := 0 })
  else
    match c.dc.findWay v.dc dataaddr with
    | some way => act (.setDc (Dc.clear set way))
    | none => pure ()

/-! ### Architectural accesses -/

/-- The address bits that a naturally aligned access has clear. -/
def Width.alignMask : Width → Word
  | .word => 3
  | .half => 1
  | .byte => 0

/-- `eval_mem32`, `16` and `8`. -/
def evalMem (c : Config δ) (w : Width) (memaddr : Word) : P (BitVec w.bits) := do
  if has memaddr w.alignMask then
    act (.exceptHandle .align memaddr)
    pure 0
  else
    let physMemaddr ← dmmuTranslate c memaddr false
    let v ← act .view
    if v.exceptPending then pure 0
    else
      if c.pcuEnabled then act (.pcuCountEvent pcmrLa)
      if c.debugEnabled then act (.checkDebugUnit .loadAddress memaddr)
      let temp ←
        if c.dc.enabled then dcSimulateRead c w physMemaddr memaddr
        else do
          let got ← act (.evalsimMem w physMemaddr memaddr)
          pure got.1
      if c.debugEnabled then act (.checkDebugUnit .loadData (temp.setWidth 32))
      pure temp

/-- `set_mem32`, `16` and `8`. -/
def setMem (c : Config δ) (w : Width) (memaddr : Word) (value : BitVec w.bits) : P Unit := do
  if has memaddr w.alignMask then act (.exceptHandle .align memaddr)
  else
    let physMemaddr ← dmmuTranslate c memaddr true
    act (.storeLoadlock physMemaddr)
    let v ← act .view
    if v.exceptPending then pure ()
    else
      if c.pcuEnabled then act (.pcuCountEvent pcmrSa)
      if c.debugEnabled then
        act (.checkDebugUnit .storeAddress memaddr)
        act (.checkDebugUnit .storeData (value.setWidth 32))
      if c.dc.enabled then dcSimulateWrite c w physMemaddr memaddr value
      else
        let _ ← act (.setsimMem w physMemaddr memaddr value)
        pure ()

/-! ### The store buffer -/

def maxSbufLen : Nat := 256

/-- Takes the stores that are done from the buffer: at most `count` of them, with `delta` cycles. -/
def Sbuf.drain : Nat → Int → Sbuf → Sbuf × Int
  | 0, delta, b => (b, delta)
  | count + 1, delta, b =>
    if b.count ≠ 0 ∧ b.buf b.tail ≤ delta then
      drain count (delta - b.buf b.tail) { b with tail := (b.tail + 1) % maxSbufLen, count := b.count - 1 }
    else (b, delta)

/-- The head of `sbuf_store` and `sbuf_load`: what happened since the buffer was last looked at. -/
def Sbuf.elapse (cycles : Int) (b : Sbuf) : Sbuf :=
  let delta := Sched.int32 (cycles - b.prevCycles)
  let drained := drain b.count delta { b with prevCycles := Sched.int32 cycles }
  if drained.1.count ≠ 0 then
    { drained.1 with
      buf := fun k => if k = drained.1.tail then drained.1.buf k - drained.2 else drained.1.buf k }
  else drained.1

/-- Waits for the oldest store: the cycles that takes. -/
def Sbuf.takeOut (b : Sbuf) : Sbuf × Int :=
  ({ b with
      prevCycles := Sched.int32 (b.prevCycles + b.buf b.tail)
      tail := (b.tail + 1) % maxSbufLen
      count := b.count - 1 }, b.buf b.tail)

def Sbuf.store (sbufLen : Nat) (cycles cyc : Int) (b : Sbuf) : Sbuf × Int :=
  let b := b.elapse cycles
  let out := if sbufLen ≤ b.count then b.takeOut else (b, 0)
  ({ out.1 with
      buf := fun k => if k = out.1.head then cyc else out.1.buf k
      head := (out.1.head + 1) % maxSbufLen
      count := out.1.count + 1 }, out.2)

/-- Waits for `count` stores. -/
def Sbuf.flush : Nat → Sbuf → Int → Sbuf × Int
  | 0, b, wait => (b, wait)
  | count + 1, b, wait => flush count b.takeOut.1 (wait + b.takeOut.2)

def Sbuf.load (cycles : Int) (b : Sbuf) : Sbuf × Int :=
  let b := b.elapse cycles
  flush b.count b 0

/-! ### What the operations do -/

/-- The operands of the instruction that runs. -/
structure Operands (δ : Type) where
  param : Nat → Sim δ Word
  regParam0 : Sim δ Word
  setParam0 : Word → Sim δ Unit

def Machine.view (m : Machine δ) : View :=
  { sr := m.sr
    upr := m.sprs sprUpr
    cpucfgr := m.sprs sprCpucfgr
    aecr := m.sprs sprAecr
    aesr := m.sprs sprAesr
    maclo := m.sprs sprMaclo
    machi := m.sprs sprMachi
    fpcsr := m.sprs sprFpcsr
    eear := m.sprs sprEearBase
    pc := m.pc
    insnAddr := m.insnAddr
    exceptPending := m.exceptPending
    breakpoint := m.breakpoint
    dataCi := m.dataCi
    dc := m.dc }

def setFlag (flag : Flag) (value : Bool) (m : Machine δ) : Machine δ :=
  setSpr sprSr (if value then m.sr ||| flag.bit else m.sr &&& ~~~flag.bit) m

/-- The usage field of a match register, counted down. -/
def decrementLru (tlbmr : Word) : Word :=
  if has tlbmr tlbmrLru then (tlbmr &&& ~~~tlbmrLru) ||| ((tlbmr &&& tlbmrLru) - 0x40) else tlbmr

def touchTlb (mmu : Mmu) (side : Side) (set : Fin 128) (way : Fin 4) (m : Machine δ) : Machine δ :=
  let aged := mmu.ways.foldl
    (fun m i => setSpr (tlbmr side set i) (decrementLru (m.sprs (tlbmr side set i))) m) m
  setSpr (tlbmr side set way) (aged.sprs (tlbmr side set way) ||| mmu.lruReload) aged

def Config.mmu (c : Config δ) : Side → Mmu
  | .data => c.dmmu
  | .insn => c.immu

def linkRegno : Fin 32 := 9

def Op.sem (c : Config δ) (opd : Operands δ) : (o : Op) → Sim δ o.Resp
  | .view => do pure (← get).view
  | .param n => opd.param n
  | .regParam0 => opd.regParam0
  | .setParam0 value => opd.setParam0 value
  | .setLink value => modify (setReg linkRegno value)
  | .setFlag flag value => modify (Cpu.setFlag flag value)
  | .setSpr r value => modify (Cpu.setSpr r.regno value)
  | .exceptHandle e ea => modify (Cpu.exceptHandle e ea)
  | .setPcnext value => modify fun m => { m with pcnext := value }
  | .setDelay target => modify fun m => { m with pcDelay := target, nextDelayInsn := true }
  | .tlb side set way => do
    let m ← get
    pure (m.sprs (tlbmr side set way), m.sprs (tlbmr side set way + 128))
  | .touchTlb side set way => modify (Cpu.touchTlb (c.mmu side) side set way)
  | .setDataCi value => modify fun m => { m with dataCi := value }
  | .setInsnCi value => modify fun m => { m with insnCi := value }
  | .addMemCycles n => modify fun m => { m with memCycles := m.memCycles + n }
  | .pcuCountEvent event => modify (Cpu.pcuCountEvent event)
  | .checkDebugUnit action udata => modify (Cpu.checkDebugUnit c action udata)
  | .verifyMemoryarea addr => modify (Cpu.verifyMemoryarea c addr)
  | .evalsimMem w memaddr vaddr => Cpu.evalsimMem c w memaddr vaddr
  | .setsimMem w memaddr vaddr value => Cpu.setsimMem c w memaddr vaddr value
  | .setDc update => modify fun m => { m with dc := update m.dc }
  | .storeLoadlock physMemaddr =>
    modify fun m => if physMemaddr &&& ~~~3 = m.loadlockAddr then { m with loadlockActive := false } else m
  | .sbufLoad =>
    modify fun m =>
      let loaded := m.sbuf.load m.cycles
      { m with sbuf := loaded.1, memCycles := m.memCycles + loaded.2 }
  | .sbufBegin => modify fun m => { m with oldCyc := m.memCycles }
  | .sbufEnd =>
    modify fun m =>
      let stored := m.sbuf.store c.sbufLen m.cycles (m.memCycles - m.oldCyc)
      { m with sbuf := stored.1, memCycles := m.oldCyc + stored.2 }
  | .getTicks =>
    modify fun m => setReg 12 (BitVec.ofInt 32 (m.cycles / 2 ^ 32)) (setReg 11 (BitVec.ofInt 32 m.cycles) m)
  | .setReg11 value => modify (setReg 11 value)
  | .random => do
    let m ← get
    set { m with randomCalls := m.randomCalls + 1 }
    pure (c.random m.randomCalls)
  | .halt => modify fun m => setStallState true { m with halted := true }
  | .simDone => stop .simDone

end Or1ksim.Cpu
