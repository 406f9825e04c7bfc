import Mathlib

/-!
# The flash memory

`state_machine_process` of `peripheral/cfi_flash.c`: what the accesses to the flash return, and what they do
to its state and its array. Writes of 32 bits are not implemented there.
-/

namespace Or1ksim.CfiFlash

open Function (update)

abbrev Byte := BitVec 8
abbrev Half := BitVec 16
abbrev Word := BitVec 32

def flashOffsetCfi : Nat := 0x55
def flashCmdCfi : Half := 0x98
def flashCmdReadId : Half := 0x90

def amdCmdReset : Half := 0xf0
def amdCmdWrite : Half := 0xa0
def amdCmdEraseStart : Half := 0x80
def amdCmdEraseChip : Half := 0x10
def amdCmdEraseSector : Half := 0x30
def amdCmdUnlockStart : Half := 0xaa
def amdCmdUnlockAck : Half := 0x55

def addrUnlock1 : Nat := 0x555
def addrUnlock2 : Nat := 0x2aa

def sectorSize : Nat := 64 * 1024

inductive Xfer where
  | read8 | read16 | read32 | write8 | write16
  deriving DecidableEq, Repr

/-- The states of `enum cfi_state` that the machine enters. -/
inductive CfiState where
  | unknown | read | unlockStart | getCommand | readId | eraseStart | eraseAck | erase | doWrite | cfiQuery
  deriving DecidableEq, Repr

/-- The state and the array. -/
structure Flash where
  state : CfiState
  mem : Nat → Byte

/-- The order of bytes on the host, and the tables. -/
structure Config where
  bigEndian : Bool
  cfiTable : List Half
  autoselectArray : List Half

/-- Two bytes as the host reads them. -/
def hostHalf (c : Config) (a b : Byte) : Half := if c.bigEndian then a ++ b else b ++ a

def memHalf (c : Config) (mem : Nat → Byte) (i : Nat) : Half := hostHalf c (mem (2 * i)) (mem (2 * i + 1))

def memWord (c : Config) (mem : Nat → Byte) (i : Nat) : Word :=
  if c.bigEndian then memHalf c mem (2 * i) ++ memHalf c mem (2 * i + 1) else memHalf c mem (2 * i + 1) ++ memHalf c mem (2 * i)

def hostBytes (c : Config) (v : Half) : Byte × Byte :=
  if c.bigEndian then (v.extractLsb' 8 8, v.extractLsb' 0 8) else (v.extractLsb' 0 8, v.extractLsb' 8 8)

def storeHalf (c : Config) (i : Nat) (v : Half) (mem : Nat → Byte) : Nat → Byte :=
  update (update mem (2 * i) (hostBytes c v).1) (2 * i + 1) (hostBytes c v).2

/-- A byte of a table. -/
def tableByte (c : Config) (table : List Half) (i : Nat) : Option Byte :=
  (table[i / 2]?).map fun v => if i % 2 = 0 then (hostBytes c v).1 else (hostBytes c v).2

def byteIndex (c : Config) (addr : Nat) : Nat := if c.bigEndian then addr else addr / 4 * 4 + (3 - addr % 4)

def halfIndex (c : Config) (addr : Nat) : Nat := if c.bigEndian then addr / 2 else (addr ^^^ 2) / 2

/-- `memset` of a sector. -/
def eraseSector (start : Nat) (mem : Nat → Byte) : Nat → Byte :=
  fun i => if start ≤ i ∧ i < start + sectorSize then 0xff else mem i

/-- What a read of the array returns. -/
def arrayData (c : Config) (mem : Nat → Byte) (xfer : Xfer) (addr : Nat) : Word :=
  match xfer with
  | .read8 => (mem (byteIndex c addr)).setWidth 32
  | .read16 => (memHalf c mem (halfIndex c addr)).setWidth 32
  | .read32 => memWord c mem (addr / 4)
  | _ => 0

/-- The case of `GET_COMMAND`. -/
def getCommand (xfer : Xfer) (addr : Nat) (dataIn : Half) (f : Flash) : Flash :=
  if xfer ≠ .write16 then f
  else if addr / 2 = addrUnlock1 ∧ dataIn = flashCmdReadId then { f with state := .readId }
  else if addr / 2 = addrUnlock1 ∧ dataIn = amdCmdEraseStart then { f with state := .eraseStart }
  else if addr / 2 = addrUnlock1 ∧ dataIn = amdCmdWrite then { f with state := .doWrite }
  else f

/-- `state_machine_process`. There is no value for a read beyond a table. -/
def stateMachineProcess (c : Config) (xfer : Xfer) (addr : Nat) (dataIn : Half) (f : Flash) : Option Word × Flash :=
  match f.state with
  | .unknown => (some 0, if xfer = .write16 ∧ dataIn = amdCmdReset then { f with state := .read } else f)
  | .read =>
    if xfer = .write16 ∧ addr / 2 = flashOffsetCfi ∧ dataIn = flashCmdCfi then (some 0, { f with state := .cfiQuery })
    else if xfer = .write16 ∧ addr / 2 = addrUnlock1 ∧ dataIn = amdCmdUnlockStart then (some 0, { f with state := .unlockStart })
    else (some (arrayData c f.mem xfer addr), f)
  | .cfiQuery =>
    if xfer = .write16 ∧ dataIn = amdCmdReset then (some 0, { f with state := .read })
    else if xfer = .read16 then (if addr / 2 < 0x10 then none else (c.cfiTable[addr / 2 - 0x10]?).map (·.setWidth 32), f)
    else if xfer = .read8 then (if addr / 2 * 2 < 0x20 then none
      else (tableByte c c.cfiTable (addr / 2 * 2 - 0x20)).map (·.setWidth 32), f)
    else (some 0, f)
  | .unlockStart =>
    if xfer ≠ .write16 then (some 0, f)
    else if addr / 2 = addrUnlock2 ∧ dataIn = amdCmdUnlockAck then (some 0, { f with state := .getCommand })
    -- the source falls through to the next case
    else (some 0, getCommand xfer addr dataIn f)
  | .getCommand => (some 0, getCommand xfer addr dataIn f)
  | .doWrite =>
    (some 0, if xfer ≠ .write16 then f else { state := .read, mem := storeHalf c (halfIndex c addr) dataIn f.mem })
  | .eraseStart =>
    (some 0, if xfer = .write16 ∧ addr / 2 = addrUnlock1 ∧ dataIn = amdCmdUnlockStart then { f with state := .eraseAck } else f)
  | .eraseAck =>
    (some 0, if xfer = .write16 ∧ addr / 2 = addrUnlock2 ∧ dataIn = amdCmdUnlockAck then { f with state := .erase } else f)
  | .erase =>
    if xfer ≠ .write16 then (some 0, f)
    else if addr / 2 = addrUnlock1 ∧ dataIn = amdCmdEraseChip then (some 0, { f with state := .read })
    else if dataIn = amdCmdEraseSector then (some 0, { state := .read, mem := eraseSector (addr / 2) f.mem })
    else (some 0, f)
  | .readId =>
    if xfer = .write16 ∧ dataIn = amdCmdReset then (some 0, { f with state := .read })
    else if xfer = .read16 then ((c.autoselectArray[addr / 2]?).map (·.setWidth 32), f)
    else if xfer = .read8 then ((tableByte c c.autoselectArray (addr / 2)).map (·.setWidth 32), f)
    else (some 0, f)

/-- `mem_reset`, with the array as the file has filled it. -/
def memReset (mem : Nat → Byte) : Flash := ⟨.read, mem⟩

end Or1ksim.CfiFlash
