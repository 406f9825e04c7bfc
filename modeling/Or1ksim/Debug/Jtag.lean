import Or1ksim.Lib.Serial
import Or1ksim.Cpu.Step

/-!
# The JTAG interface

`debug/jtag.c`: the registers that a host shifts in and gets back in the same buffer. The buffer is
taken to be as long as the accesses to it need. Messages are left out.
-/

namespace Or1ksim.Debug

open Serial (Buffer)
open Cpu (Word Width Config Machine Sim DevEvent SprNo has setSpr)

/-! ### State -/

/-- `enum jtag_mod_id`. -/
inductive ModId where
  | undefined | wishbone | cpu0 | cpu1
  deriving DecidableEq, Repr

/-- `enum jtag_acc_type`, without the undefined one, which is never stored. -/
inductive AccType where
  | write8 | write16 | write32 | read8 | read16 | read32
  deriving DecidableEq, Repr

def AccType.ofCode (code : BitVec 8) : Option AccType :=
  match code.toNat with
  | 0 => some .write8
  | 1 => some .write16
  | 2 => some .write32
  | 4 => some .read8
  | 5 => some .read16
  | 6 => some .read32
  | _ => none

def AccType.code : AccType → BitVec 8
  | .write8 => 0
  | .write16 => 1
  | .write32 => 2
  | .read8 => 4
  | .read16 => 5
  | .read32 => 6

def jiDebug : BitVec 4 := 0x8

abbrev Status := BitVec 8

def jsOk : Status := 0x0
def jsCrcInError : Status := 0x1
def jsModuleMissing : Status := 0x2
def jsWishboneError : Status := 0x4
def jsOverUnderrun : Status := 0x8

def jcmdGoCommand : BitVec 64 := 0x0
def jcmdReadCommand : BitVec 64 := 0x1
def jcmdWriteCommand : BitVec 64 := 0x2
def jcmdReadControl : BitVec 64 := 0x3
def jcmdWriteControl : BitVec 64 := 0x4

def jcbReset : Nat := 51
def jcbStall : Nat := 50

def maxSprs : Nat := 0x10000

/-- `runtime.debug`. No instruction is `JI_UNDEFINED`. -/
structure DebugState where
  instr : Option (BitVec 4)
  modId : ModId
  writeDefinedP : Bool
  accType : AccType
  addr : Nat
  size : Fin (2 ^ 16 + 1)
  deriving DecidableEq, Repr

/-- Sizes are written as literals. -/
instance (priority := 2000) neZero_sizes : NeZero (2 ^ 16 + 1) := ⟨by decide⟩

/-- As the program starts. -/
def DebugState.start : DebugState := ⟨none, .undefined, false, .write8, 0, 0⟩

/-- What the interface reaches besides the core: the functions that load a program into an area, where
these are not its `writefunc8`, and the reset hooks of the devices. -/
structure DebugConfig (δ : Type) where
  cpu : Config δ
  writeprog8 : Nat → Option (Word → BitVec 8 → δ → δ × List DevEvent)
  resetHooks : δ → δ × List DevEvent
  /-- The job that looks for a control-C. -/
  checkInt : Nat
  or32BigEndian : Bool

variable {δ : Type}

/-- The values of an `unsigned long`. -/
def DebugConfig.ulong (u : DebugConfig δ) : Nat := if u.cpu.long64 then 2 ^ 64 else 2 ^ 32

def oraddr (addr : Nat) : Word := BitVec.ofNat 32 addr

/-! ### Bits -/

def crc32Poly : Word := 0x04c11db7

def crc32 (value : BitVec 64) : Nat → Word → Word
  | 0, crcIn => crcIn
  | i + 1, crcIn =>
    let d : Word := if value.getLsbD i then 0xfffffff else 0
    let t : Word := if crcIn.getLsbD 31 then 0xfffffff else 0
    crc32 value i ((crcIn <<< 1) ^^^ ((d ^^^ t) &&& crc32Poly))

def reverseBits (val : BitVec 64) (numBits : Nat) : BitVec 64 :=
  let val := ((val &&& 0xaaaaaaaaaaaaaaaa) >>> 1) ||| ((val &&& 0x5555555555555555) <<< 1)
  let val := ((val &&& 0xcccccccccccccccc) >>> 2) ||| ((val &&& 0x3333333333333333) <<< 2)
  let val := ((val &&& 0xf0f0f0f0f0f0f0f0) >>> 4) ||| ((val &&& 0x0f0f0f0f0f0f0f0f) <<< 4)
  let val := ((val &&& 0xff00ff00ff00ff00) >>> 8) ||| ((val &&& 0x00ff00ff00ff00ff) <<< 8)
  let val := ((val &&& 0xffff0000ffff0000) >>> 16) ||| ((val &&& 0x0000ffff0000ffff) <<< 16)
  let val := (val >>> 32) ||| (val <<< 32)
  val >>> (64 - numBits)

def reverseByte (byte : BitVec 8) : BitVec 8 :=
  let byte := ((byte &&& 0xaa) >>> 1) ||| ((byte &&& 0x55) <<< 1)
  let byte := ((byte &&& 0xcc) >>> 2) ||| ((byte &&& 0x33) <<< 2)
  (byte >>> 4) ||| (byte <<< 4)

/-- A value of 32 bits that starts at bit 5 of a byte, as it is put together before it is reversed. -/
def gather5 (jreg : Buffer) (i : Nat) : Word :=
  ((jreg i &&& 0xe0).setWidth 32 >>> 5) ||| ((jreg (i + 1)).setWidth 32 <<< 3) ||| ((jreg (i + 2)).setWidth 32 <<< 11) |||
    ((jreg (i + 3)).setWidth 32 <<< 19) ||| ((jreg (i + 4) &&& 0x1f).setWidth 32 <<< 27)

/-- One that starts at bit 1. -/
def gather1 (jreg : Buffer) (i : Nat) : Word :=
  ((jreg i &&& 0xfe).setWidth 32 >>> 1) ||| ((jreg (i + 1)).setWidth 32 <<< 7) ||| ((jreg (i + 2)).setWidth 32 <<< 15) |||
    ((jreg (i + 3)).setWidth 32 <<< 23) ||| ((jreg (i + 4) &&& 0x01).setWidth 32 <<< 31)

def reverse32 (val : Word) : Word := (reverseBits (val.setWidth 64) 32).setWidth 32

/-- The four bits behind the first one. -/
def code4 (jreg : Buffer) : BitVec 8 := (reverseBits (((jreg 0 >>> 1) &&& 0xf).setWidth 64) 4).setWidth 8

/-! ### The response -/

/-- `memset (jreg, 0, n)`. -/
def clearBytes (n : Nat) (jreg : Buffer) : Buffer := fun k => if k < n then 0 else jreg k

def constructResponse (jreg : Buffer) (status : Status) (crcIn : Word) (ignBits zeroBits : Nat) : Buffer :=
  let crcOut := crc32 (status.setWidth 64) 4 crcIn
  let statusR := (reverseBits (status.setWidth 64) 4).setWidth 8
  let crcOutR := reverse32 crcOut
  let zeroBytes := zeroBits / 8
  let zeroOff := zeroBits % 8
  let jreg := clearBytes zeroBytes jreg
  let jreg := jreg.put zeroBytes ((jreg zeroBytes >>> zeroOff) <<< zeroOff)
  let skipBytes := (ignBits + zeroBits) % 2 ^ 32 / 8
  let bitOff := (ignBits + zeroBits) % 2 ^ 32 % 8
  let crcByte : Nat → BitVec 8 := fun n => (crcOutR >>> n).setWidth 8
  if bitOff ≤ 4 then
    let jreg := jreg.put skipBytes
      (jreg skipBytes ||| ((statusR &&& 0xf) <<< bitOff) ||| (crcOutR <<< (4 + bitOff)).setWidth 8)
    let jreg := jreg.put (skipBytes + 1) (crcByte (4 - bitOff))
    let jreg := jreg.put (skipBytes + 2) (crcByte (12 - bitOff))
    let jreg := jreg.put (skipBytes + 3) (crcByte (20 - bitOff))
    jreg.put (skipBytes + 4) (crcByte (28 - bitOff))
  else
    let jreg := jreg.put skipBytes (jreg skipBytes ||| (statusR <<< bitOff))
    let jreg := jreg.put (skipBytes + 1) ((statusR >>> (8 - bitOff)) ||| (crcOutR <<< (bitOff - 4)).setWidth 8)
    let jreg := jreg.put (skipBytes + 2) (crcByte (12 - bitOff))
    let jreg := jreg.put (skipBytes + 3) (crcByte (20 - bitOff))
    let jreg := jreg.put (skipBytes + 4) (crcByte (28 - bitOff))
    jreg.put (skipBytes + 5) (crcByte (36 - bitOff))

/-! ### SELECT_MODULE -/

def selectModule (d : DebugState) (jreg : Buffer) (numBits : Nat) : DebugState × Buffer :=
  if 36 + 32 + 4 + 1 ≠ numBits then (d, jreg)
  else
    let modId := code4 jreg
    let crcIn := reverse32 (gather5 jreg 0)
    let crcComputed := crc32 (modId.setWidth 64) 4 (crc32 1 1 0xffffffff)
    let done : DebugState × Status :=
      if crcComputed = crcIn then
        match modId.toNat with
        | 0 => ({ d with modId := .wishbone }, jsOk)
        | 1 => ({ d with modId := .cpu0 }, jsOk)
        | 2 => ({ d with modId := .cpu1 }, jsOk)
        | _ => ({ d with modId := .undefined }, jsModuleMissing)
      else (d, jsCrcInError)
    (done.1, constructResponse jreg done.2 0xffffffff 0 37)

/-! ### GO_COMMAND for read -/

/-- `eval_direct8`, with neither cache nor translation. An area without the callback reads as zero. -/
def evalDirect8 (u : DebugConfig δ) (memaddr : Word) : Sim δ (BitVec 8) := do
  modify (Cpu.verifyMemoryarea u.cpu memaddr)
  let m ← get
  match u.cpu.area m with
  | none => pure 0
  | some mem =>
    match mem.readfunc .byte with
    | none => pure 0
    | some readfunc =>
      let answer := readfunc (memaddr &&& mem.sizeMask m.dev) m.dev
      set { m with dev := answer.2.1 }
      Cpu.devEvents u.cpu answer.2.2
      pure answer.1

/-- The bits of the data that a byte overwrites, cleared. -/
def clearByte (jreg : Buffer) (i : Nat) : Buffer :=
  let jreg := jreg.put (4 + i) ((jreg (4 + i) <<< 3) >>> 3)
  jreg.put (4 + i + 1) ((jreg (4 + i + 1) >>> 5) <<< 5)

def storeByte (jreg : Buffer) (i : Nat) (byte : BitVec 8) : Buffer :=
  let jreg := clearByte jreg i
  let jreg := jreg.put (4 + i) (jreg (4 + i) ||| (byte <<< 5))
  jreg.put (4 + i + 1) (jreg (4 + i + 1) ||| (byte >>> 3))

/-- A byte of `wishbone_read`, and the status. -/
def wishboneByte (u : DebugConfig δ) (d : DebugState) (i : Nat) (status : Status) : Sim δ (BitVec 8 × Status) :=
  if i < d.size then do
    modify (Cpu.verifyMemoryarea u.cpu (oraddr (d.addr + i)))
    if (u.cpu.area (← get)).isNone then pure (0, status ||| jsWishboneError)
    else do
      let byte ← evalDirect8 u (oraddr (d.addr + i))
      pure (byte, status)
  else pure (0, status)

/-- The loop of `wishbone_read`, `more` bytes from `i` on. -/
def wishboneReadLoop (u : DebugConfig δ) (d : DebugState) :
    Nat → Nat → Buffer → Word → Status → Sim δ (Buffer × Word × Status)
  | 0, _, jreg, crcOut, status => pure (jreg, crcOut, status)
  | more + 1, i, jreg, crcOut, status => do
    let got ← wishboneByte u d i status
    wishboneReadLoop u d more (i + 1) (storeByte jreg i (reverseByte got.1)) (crc32 (got.1.setWidth 64) 8 crcOut) got.2

/-- The state, the register, its CRC and the status. -/
def wishboneRead (u : DebugConfig δ) (d : DebugState) (jreg : Buffer) (jregBytes : Nat) (status : Status) :
    Sim δ (DebugState × Buffer × Word × Status) := do
  let (jreg, crcOut, status) ← wishboneReadLoop u d jregBytes 0 jreg 0xffffffff status
  let d := if status = jsOk then { d with addr := (d.addr + d.size) % u.ulong } else d
  pure (d, jreg, crcOut, status)

/-- A byte of a special purpose register. -/
def sprByte (u : DebugConfig δ) (spr : Word) (i : Nat) : BitVec 8 :=
  if i < 4 then
    if u.or32BigEndian then (spr >>> (8 * i)).setWidth 8 else (spr >>> (24 - 8 * i)).setWidth 8
  else 0

def sprReadLoop (u : DebugConfig δ) (spr : Word) : Nat → Nat → Buffer → Word → Buffer × Word
  | 0, _, jreg, crcOut => (jreg, crcOut)
  | more + 1, i, jreg, crcOut =>
    let byte := sprByte u spr i
    sprReadLoop u spr more (i + 1) (storeByte jreg i (reverseByte byte)) (crc32 (byte.setWidth 64) 8 crcOut)

def sprRead (u : DebugConfig δ) (d : DebugState) (jreg : Buffer) (jregBytes : Nat) (status : Status) :
    Sim δ (DebugState × Buffer × Word × Status) := do
  let spr := Cpu.mfspr u.cpu (BitVec.ofNat 16 d.addr) (← get)
  let done := sprReadLoop u spr jregBytes 0 jreg 0xffffffff
  let d := if status = jsOk then { d with addr := (d.addr + 1) % u.ulong } else d
  pure (d, done.1, done.2, status)

def nullRead : Nat → Nat → Buffer → Word → Buffer × Word
  | 0, _, jreg, crcOut => (jreg, crcOut)
  | more + 1, i, jreg, crcOut => nullRead more (i + 1) (clearByte jreg i) (crc32 0 8 crcOut)

/-- The bytes that a GO_COMMAND carries, and whether the length is that of the WRITE_COMMAND. -/
def goBytes (u : DebugConfig δ) (d : DebugState) (numBits : Nat) : Nat × Status :=
  let regBits := 36 + 8 * d.size.val + 32 + 4 + 1
  if regBits = numBits then (d.size, jsOk)
  else ((d.size.val * 8 + numBits + (u.ulong - regBits)) % u.ulong / 8, jsOverUnderrun)

/-- The read for the module, with the state, the register, its CRC and the status. -/
def moduleRead (u : DebugConfig δ) (d : DebugState) (jreg : Buffer) (jregBytes : Nat) (status : Status) :
    Sim δ (DebugState × Buffer × Word × Status) :=
  match d.modId with
  | .wishbone => wishboneRead u d jreg jregBytes status
  | .cpu0 => sprRead u d jreg jregBytes status
  | _ =>
    let done := nullRead jregBytes 0 jreg 0xffffffff
    pure (d, done.1, done.2, status)

def checkedRead (u : DebugConfig δ) (d : DebugState) (jreg : Buffer) (jregBytes : Nat) (status : Status) :
    Sim δ (DebugState × Buffer × Word × Status) :=
  let crcIn := reverse32 (gather5 jreg 0)
  let crcComputed := crc32 jcmdGoCommand 4 (crc32 0 1 0xffffffff)
  if crcComputed = crcIn then moduleRead u d jreg jregBytes status else pure (d, jreg, 0, status ||| jsCrcInError)

def goCommandRead (u : DebugConfig δ) (d : DebugState) (jreg : Buffer) (numBits : Nat) : Sim δ (DebugState × Buffer) := do
  let jregBytes := (goBytes u d numBits).1
  let (d, jreg, crcOut, status) ← checkedRead u d jreg jregBytes (goBytes u d numBits).2
  pure (d, constructResponse jreg status crcOut (8 * jregBytes % 2 ^ 32) 37)

/-! ### GO_COMMAND for write -/

/-- `set_program8`. -/
def setProgram8 (u : DebugConfig δ) (memaddr : Word) (value : BitVec 8) : Sim δ Unit := do
  modify (Cpu.verifyMemoryarea u.cpu memaddr)
  let m ← get
  match u.cpu.area m with
  | none => pure ()
  | some mem =>
    match m.curArea.bind u.writeprog8, mem.writefunc .byte with
    | some writeprog8, _ =>
      let answer := writeprog8 (memaddr &&& mem.sizeMask m.dev) value m.dev
      set { m with dev := answer.1 }
      Cpu.devEvents u.cpu answer.2
    | none, some writefunc =>
      let answer := writefunc (memaddr &&& mem.sizeMask m.dev) value m.dev
      set { m with dev := answer.1 }
      Cpu.devEvents u.cpu answer.2
    | none, none => set (Cpu.exceptHandle .buserr m.curVadd m)

/-- A byte of the data of a GO_COMMAND for write. -/
def dataByte (jreg : Buffer) (i : Nat) : BitVec 8 := reverseByte ((jreg i >>> 5) ||| (jreg (i + 1) <<< 3))

def wishboneWriteLoop (u : DebugConfig δ) (d : DebugState) (jreg : Buffer) : Nat → Nat → Status → Sim δ Status
  | 0, _, status => pure status
  | more + 1, i, status => do
    let status ←
      if i < d.size then do
        modify (Cpu.verifyMemoryarea u.cpu (oraddr (d.addr + i)))
        if (u.cpu.area (← get)).isNone then pure (status ||| jsWishboneError)
        else do
          setProgram8 u (oraddr (d.addr + i)) (dataByte jreg i)
          pure status
      else pure status
    wishboneWriteLoop u d jreg more (i + 1) status

def wishboneWrite (u : DebugConfig δ) (d : DebugState) (jreg : Buffer) (jregBytes : Nat) (status : Status) :
    Sim δ (DebugState × Status) := do
  let status ← wishboneWriteLoop u d jreg jregBytes 0 status
  let d := if status = jsOk then { d with addr := (d.addr + d.size) % u.ulong } else d
  pure (d, status)

def sprWriteLoop (u : DebugConfig δ) (jreg : Buffer) : Nat → Nat → Word → Word
  | 0, _, spr => spr
  | more + 1, i, spr =>
    let byte : Word := (dataByte jreg i).setWidth 32
    sprWriteLoop u jreg more (i + 1)
      (if i < 4 then spr ||| (byte <<< if u.or32BigEndian then 8 * i else 24 - 8 * i) else spr)

def sprWrite (u : DebugConfig δ) (d : DebugState) (jreg : Buffer) (jregBytes : Nat) (status : Status) :
    Sim δ (DebugState × Status) := do
  Cpu.mtspr u.cpu (BitVec.ofNat 16 d.addr) (sprWriteLoop u jreg jregBytes 0 0)
  let d := if status = jsOk then { d with addr := (d.addr + 1) % u.ulong } else d
  pure (d, status)

/-- The CRC of the data of a GO_COMMAND for write. -/
def dataCrc (jreg : Buffer) : Nat → Nat → Word → Word
  | 0, _, crcComputed => crcComputed
  | more + 1, i, crcComputed =>
    let byte := reverseBits ((((jreg i &&& 0xe0) >>> 5) ||| ((jreg (i + 1) &&& 0x1f) <<< 3)).setWidth 64) 8
    dataCrc jreg more (i + 1) (crc32 byte 8 crcComputed)

/-- The write for the module, with the state and the status. -/
def moduleWrite (u : DebugConfig δ) (d : DebugState) (jreg : Buffer) (realSize : Nat) (status : Status) : Sim δ (DebugState × Status) :=
  match d.modId with
  | .wishbone => wishboneWrite u d jreg realSize status
  | .cpu0 => sprWrite u d jreg realSize status
  | _ => pure (d, status)

def checkedWrite (u : DebugConfig δ) (d : DebugState) (jreg : Buffer) (realSize : Nat) (status : Status) : Sim δ (DebugState × Status) :=
  let crcIn := reverse32 (gather5 jreg realSize)
  let crcComputed := dataCrc jreg realSize 0 (crc32 jcmdGoCommand 4 (crc32 0 1 0xffffffff))
  if crcComputed = crcIn then moduleWrite u d jreg realSize status else pure (d, status ||| jsCrcInError)

def goCommandWrite (u : DebugConfig δ) (d : DebugState) (jreg : Buffer) (numBits : Nat) : Sim δ (DebugState × Buffer) := do
  let realSize := (goBytes u d numBits).1
  let (d, status) ← checkedWrite u d jreg realSize (goBytes u d numBits).2
  pure (d, constructResponse jreg status 0xffffffff 0 ((37 + 8 * realSize) % 2 ^ 32))

def goCommand (u : DebugConfig δ) (d : DebugState) (jreg : Buffer) (numBits : Nat) : Sim δ (DebugState × Buffer) :=
  if !d.writeDefinedP then pure (d, clearBytes ((numBits + 7) / 8) jreg)
  else
    match d.accType with
    | .write8 | .write16 | .write32 => goCommandWrite u d jreg numBits
    | .read8 | .read16 | .read32 => goCommandRead u d jreg numBits

/-! ### READ_COMMAND -/

/-- The fields of READ_COMMAND, OR-ed into the register. -/
def putCommand (jreg : Buffer) (accType : BitVec 8) (addr : Word) (len : BitVec 16) : Buffer :=
  let accType : BitVec 8 := (reverseBits (accType.setWidth 64) 4).setWidth 8
  let addr : Word := reverse32 addr
  let len : BitVec 16 := (reverseBits (len.setWidth 64) 16).setWidth 16
  let jreg := jreg.put 4 (jreg 4 ||| ((accType <<< 5) &&& 0xe0))
  let jreg := jreg.put 5 (jreg 5 ||| ((accType >>> 3) &&& 0x01))
  let jreg := jreg.put 5 (jreg 5 ||| ((addr <<< 1).setWidth 8 &&& 0xfe))
  let jreg := jreg.put 6 (jreg 6 ||| (addr >>> 7).setWidth 8)
  let jreg := jreg.put 7 (jreg 7 ||| (addr >>> 15).setWidth 8)
  let jreg := jreg.put 8 (jreg 8 ||| (addr >>> 23).setWidth 8)
  let jreg := jreg.put 9 (jreg 9 ||| ((addr >>> 31).setWidth 8 &&& 0x01))
  let jreg := jreg.put 9 (jreg 9 ||| ((len <<< 1).setWidth 8 &&& 0xfe))
  let jreg := jreg.put 10 (jreg 10 ||| (len >>> 7).setWidth 8)
  jreg.put 11 (jreg 11 ||| ((len >>> 15).setWidth 8 &&& 0x01))

def readCommand (d : DebugState) (jreg : Buffer) (numBits : Nat) : DebugState × Buffer :=
  if 88 + 32 + 4 + 1 ≠ numBits then (d, jreg)
  else
    let crcIn := reverse32 (gather5 jreg 0)
    let crcComputed := crc32 jcmdReadCommand 4 (crc32 0 1 0xffffffff)
    if crcComputed = crcIn then
      let accType : BitVec 8 := if d.writeDefinedP then d.accType.code else 0
      let addr : Word := if d.writeDefinedP then oraddr d.addr else 0
      let len : BitVec 16 := if d.writeDefinedP then BitVec.ofNat 16 d.size - 1 else 0
      let crcOut := crc32 (len.setWidth 64) 16 (crc32 (addr.setWidth 64) 32 (crc32 (accType.setWidth 64) 4 0xffffffff))
      (d, constructResponse (putCommand jreg accType addr len) jsOk crcOut 52 37)
    else (d, constructResponse jreg jsCrcInError 0xffffffff 52 37)

/-! ### WRITE_COMMAND -/

def AccType.accessBytes : AccType → Nat
  | .write8 | .read8 => 1
  | .write16 | .read16 => 2
  | .write32 | .read32 => 4

def validateWbFields (accType : AccType) (addr size : Nat) : Bool :=
  addr % accType.accessBytes = 0 ∧ size % accType.accessBytes = 0

/-- An address that is too large is only warned about. -/
def validateSprFields (accType : AccType) (size : Nat) : Bool :=
  (accType = .write32 ∨ accType = .read32) ∧ size = 4

/-- What a WRITE_COMMAND with a good CRC stores. -/
def defineWrite (d : DebugState) (accType : Option AccType) (addr : Word) (len : BitVec 16) : DebugState :=
  let dataSize : Fin (2 ^ 16 + 1) := ⟨len.toNat + 1, by omega⟩
  match d.modId, accType with
  | .wishbone, some accType =>
    if validateWbFields accType addr.toNat dataSize then
      { d with writeDefinedP := true, accType, addr := addr.toNat, size := dataSize }
    else { d with writeDefinedP := false }
  | .cpu0, some accType =>
    if validateSprFields accType dataSize then
      { d with writeDefinedP := true, accType, addr := addr.toNat % maxSprs, size := dataSize }
    else { d with writeDefinedP := false }
  | _, _ => { d with writeDefinedP := false }

def accTypeField (jreg : Buffer) : BitVec 8 :=
  (reverseBits ((((jreg 0 &&& 0xe0) >>> 5) ||| ((jreg 1 &&& 0x01) <<< 3)).setWidth 64) 4).setWidth 8

def lenField (jreg : Buffer) : BitVec 16 :=
  let len : Word := ((jreg 5 &&& 0xfe).setWidth 32 >>> 1) ||| ((jreg 6).setWidth 32 <<< 7) ||| ((jreg 7 &&& 0x01).setWidth 32 <<< 15)
  (reverseBits (len.setWidth 64) 16).setWidth 16

def writeCommand (d : DebugState) (jreg : Buffer) (numBits : Nat) : DebugState × Buffer :=
  if 36 + 32 + 16 + 32 + 4 + 4 + 1 ≠ numBits then ({ d with writeDefinedP := false }, jreg)
  else
    let accType := accTypeField jreg
    let addr := reverse32 (gather1 jreg 1)
    let len := lenField jreg
    let crcIn := reverse32 (gather1 jreg 7)
    let crcComputed := crc32 jcmdWriteCommand 4 (crc32 0 1 0xffffffff)
    let crcComputed := crc32 (accType.setWidth 64) 4 crcComputed
    let crcComputed := crc32 (addr.setWidth 64) 32 crcComputed
    let crcComputed := crc32 (len.setWidth 64) 16 crcComputed
    let done : DebugState × Status :=
      if crcComputed = crcIn then (defineWrite d (AccType.ofCode accType) addr len, jsOk)
      else ({ d with writeDefinedP := false }, jsCrcInError)
    (done.1, constructResponse jreg done.2 0xffffffff 0 89)

/-! ### READ_CONTROL and WRITE_CONTROL -/

/-- The data of READ_CONTROL, OR-ed into the register. -/
def putControl (jreg : Buffer) (data : BitVec 64) : Buffer :=
  let data := reverseBits data 52
  let jreg := jreg.put 4 (jreg 4 ||| ((data <<< 5).setWidth 8 &&& 0xf8))
  let jreg := jreg.put 5 (jreg 5 ||| ((data >>> 3).setWidth 8 &&& 0x07))
  let jreg := jreg.put 6 (jreg 6 ||| (data >>> 11).setWidth 8)
  let jreg := jreg.put 7 (jreg 7 ||| (data >>> 19).setWidth 8)
  let jreg := jreg.put 8 (jreg 8 ||| (data >>> 27).setWidth 8)
  let jreg := jreg.put 9 (jreg 9 ||| (data >>> 35).setWidth 8)
  let jreg := jreg.put 10 (jreg 10 ||| (data >>> 43).setWidth 8)
  jreg.put 11 (jreg 11 ||| ((data >>> 51).setWidth 8 &&& 0x01))

def controlData (d : DebugState) (m : Machine δ) : BitVec 64 :=
  if d.modId = .cpu0 then (if m.stalled then 1 else 0) <<< jcbStall else 0

def readControl (d : DebugState) (jreg : Buffer) (numBits : Nat) (m : Machine δ) : DebugState × Buffer :=
  if 88 + 32 + 4 + 1 ≠ numBits then (d, jreg)
  else
    let crcIn := reverse32 (gather5 jreg 0)
    let crcComputed := crc32 jcmdReadControl 4 (crc32 0 1 0xffffffff)
    if crcComputed = crcIn then
      let crcOut := crc32 (controlData d m) 52 0xffffffff
      (d, constructResponse (putControl jreg (controlData d m)) jsOk crcOut 52 37)
    else (d, constructResponse jreg jsCrcInError 0xffffffff 52 37)

/-- `tick_reset`, `pm_reset`, `pic_reset` and `du_reset`. -/
def unitsReset (c : Config δ) (m : Machine δ) : Machine δ :=
  let m := { setSpr Cpu.sprTtmr 0 (setSpr Cpu.sprTtcr 0 m) with tickCounting := false }
  let m := setSpr Cpu.sprPmr 0 m
  let m := setSpr Cpu.sprPicsr 0 (setSpr Cpu.sprPicmr (if c.picUseNmi then 3 else 0) m)
  Cpu.setStallState false m

def simReset (u : DebugConfig δ) : Sim δ Unit := do
  let m ← get
  match Sched.schedReset .guard m.scheduler with
  | none => Cpu.stop .crash
  | some scheduler =>
    let hooks := u.resetHooks m.dev
    set { m with scheduler, dev := hooks.1 }
    Cpu.devEvents u.cpu hooks.2
    modify (unitsReset u.cpu)
    Cpu.schedAdd (.dev u.checkInt) 1
    modify fun m => Cpu.cpuReset { m with memCycles := 0 }

/-- The data of WRITE_CONTROL. -/
def gatherControl (jreg : Buffer) : BitVec 64 :=
  ((jreg 0 &&& 0xe0).setWidth 64 >>> 5) ||| ((jreg 1).setWidth 64 <<< 3) ||| ((jreg 2).setWidth 64 <<< 11) |||
    ((jreg 3).setWidth 64 <<< 19) ||| ((jreg 4).setWidth 64 <<< 27) ||| ((jreg 5).setWidth 64 <<< 35) |||
    ((jreg 6).setWidth 64 <<< 43) ||| ((jreg 7 &&& 0x01).setWidth 64 <<< 51)

def applyControl (u : DebugConfig δ) (d : DebugState) (data : BitVec 64) : Sim δ Unit :=
  if d.modId = .cpu0 then
    if data.getLsbD jcbReset then simReset u else modify (Cpu.setStallState (data.getLsbD jcbStall))
  else pure ()

def writeControl (u : DebugConfig δ) (d : DebugState) (jreg : Buffer) (numBits : Nat) : Sim δ (DebugState × Buffer) :=
  if 36 + 32 + 52 + 4 + 1 ≠ numBits then pure (d, jreg)
  else do
    let data := reverseBits (gatherControl jreg) 52
    let crcIn := reverse32 (gather1 jreg 7)
    let crcComputed := crc32 data 52 (crc32 jcmdWriteControl 4 (crc32 0 1 0xffffffff))
    if crcComputed = crcIn then
      applyControl u d data
      pure (d, constructResponse jreg jsOk 0xffffffff 0 89)
    else pure (d, constructResponse jreg jsCrcInError 0xffffffff 0 89)

/-! ### The interface -/

def jtagReset (d : DebugState) : DebugState := { d with instr := none }

def jtagShiftIr (d : DebugState) (jreg : Buffer) (numBits : Nat) : DebugState :=
  if 4 ≠ numBits then d else { d with instr := some ((reverseBits ((jreg 0 &&& 0xf).setWidth 64) 4).setWidth 4) }

def jtagShiftDr (u : DebugConfig δ) (d : DebugState) (jreg : Buffer) (numBits : Nat) : Sim δ (DebugState × Buffer) :=
  if d.instr ≠ some jiDebug then pure (d, jreg)
  else if jreg 0 &&& 0x1 = 1 then pure (selectModule d jreg numBits)
  else
    match (code4 jreg).toNat with
    | 0 => goCommand u d jreg numBits
    | 1 => pure (readCommand d jreg numBits)
    | 2 => pure (writeCommand d jreg numBits)
    | 3 => do pure (readControl d jreg numBits (← get))
    | 4 => writeControl u d jreg numBits
    | _ => pure (d, jreg)

end Or1ksim.Debug
