import Mathlib

/-!
# ATA devices

A disk is a file on the host. Its data port moves half-words between the guest and a buffer of one sector; the last one of a
sector calls what the command has left for that.
-/

namespace Or1ksim.Ata

abbrev Byte := BitVec 8
abbrev Half := BitVec 16
abbrev Word := BitVec 32

/-! ### Registers -/

def srBsy : Byte := 0x80
def srDrdy : Byte := 0x40
def srDsc : Byte := 0x10
def srDrq : Byte := 0x08
def srErr : Byte := 0x01
def dcrRst : Byte := 0x04
def dcrIen : Byte := 0x02
def dhrLba : Byte := 0x40
def dhrDev : Byte := 0x10
def dhrH : Byte := 0x0f
def errIdnf : Byte := 0x10
def errAbt : Byte := 0x04

def has (r flag : Byte) : Bool := r &&& flag ≠ 0

def bytesPerSector : Nat := 512

inductive Command where
  | deviceReset | executeDeviceDiagnostics | identifyDevice | initializeDeviceParameters | readSectors | readNativeMaxAddress
  | writeSectors
  | setFeatures | unknown
  deriving DecidableEq

def Command.of (c : Byte) : Command :=
  if c = 0x08 then .deviceReset else if c = 0x90 then .executeDeviceDiagnostics else if c = 0xec then .identifyDevice
  else if c = 0x91 then .initializeDeviceParameters else if c = 0x20 then .readSectors else if c = 0xf8 then .readNativeMaxAddress
  else if c = 0x30 then .writeSectors else if c = 0xef then .setFeatures else .unknown

/-- The registers by their address; what is read and what is written there may differ. -/
inductive Reg where
  | dataPort | errorFeatures | sectorCount | sectorNumber | cylinderLow | cylinderHigh | deviceHead | statusCommand
  | altStatusControl | other
  deriving DecidableEq

def Reg.of (adr : Nat) : Reg :=
  if adr = 0x40 then .dataPort else if adr = 0x44 then .errorFeatures else if adr = 0x48 then .sectorCount
    else if adr = 0x4c then .sectorNumber
  else if adr = 0x50 then .cylinderLow else if adr = 0x54 then .cylinderHigh else if adr = 0x58 then .deviceHead
  else if adr = 0x5c then .statusCommand else if adr = 0x78 then .altStatusControl else .other

/-! ### The state -/

inductive State where
  | idle | swRst | hwRst
  deriving DecidableEq

/-- What is called when the buffer has been transferred. -/
inductive EndTransfer where
  | readSect | writeSect
  deriving DecidableEq

/-- The settings of a device; it is connected when its file could be opened. -/
structure Conf where
  connected : Bool
  size : Word
  packet : Bool
  heads : Word
  sectors : Word
  deriving DecidableEq

/-- `size_sect`, as it is set when the file has been opened. -/
def Conf.sizeSect (c : Conf) : Word := c.size / BitVec.ofNat 32 bytesPerSector

/-- A file, and where a sector has been asked for or written. -/
structure Stream where
  length : Nat
  image : Nat → Byte
  touched : List Nat

structure Device where
  conf : Conf
  stream : Stream
  dev : Byte := 0
  dbuf : Nat → Byte := fun _ => 0
  dbufPtr : Nat := 0
  dbufCnt : Half := 0
  state : State := .idle
  headsPerCylinder : Word := 0
  sectorsPerTrack : Word := 0
  lba : Word := 0
  nrSect : Nat := 0
  endTFunc : Option EndTransfer := none
  command : Byte := 0
  cylinderLow : Byte := 0
  cylinderHigh : Byte := 0
  deviceControl : Byte := 0
  deviceHead : Byte := 0
  error : Byte := 0
  features : Byte := 0
  sectorCount : Byte := 0
  sectorNumber : Byte := 0
  status : Byte := 0
  dataportI : Half := 0
  intrq : Bool := false
  pdiagi : Bool := false
  pdiago : Bool := false
  daspi : Bool := false
  daspo : Bool := false
  scheduled : List Nat := []

/-- The byte order of the host, and what IDENTIFY DEVICE puts into the buffer of a device. -/
structure Host where
  bigEndian : Bool
  identity : Device → Nat → Byte

/-! ### The buffer -/

def bswap16 (x : Half) : Half := x.extractLsb' 0 8 ++ x.extractLsb' 8 8

/-- `LE16`, on every host. -/
def le16 (x : Half) : Half := bswap16 x

def Host.half (h : Host) (first second : Byte) : Half := if h.bigEndian then first ++ second else second ++ first

/-- The half-word of the data port for two bytes of the buffer. -/
def Host.dataWord (h : Host) (first second : Byte) : Half := le16 (h.half first second)

def Host.storeHalf (h : Host) (x : Half) (dbuf : Nat → Byte) (p : Nat) : Nat → Byte :=
  let first := if h.bigEndian then x.extractLsb' 8 8 else x.extractLsb' 0 8
  let second := if h.bigEndian then x.extractLsb' 0 8 else x.extractLsb' 8 8
  Function.update (Function.update dbuf (2 * p) first) (2 * p + 1) second

/-- `fread` of a sector, as far as there is one. -/
def Stream.fread (s : Stream) (position : Nat) (dbuf : Nat → Byte) : Nat → Byte :=
  fun k => if k < bytesPerSector ∧ position + k < s.length then s.image (position + k) else dbuf k

/-- `fwrite` of a sector; what is left out before it is filled with zeros. -/
def Stream.fwrite (s : Stream) (position : Nat) (dbuf : Nat → Byte) : Stream :=
  { length := max s.length (position + bytesPerSector)
    image := fun k => if position ≤ k ∧ k < position + bytesPerSector then dbuf (k - position) else if k < s.length then s.image k else 0
    touched := s.touched ++ [position] }

/-! ### Addresses -/

def ataSetSect (d : Device) (sect : Word) : Device :=
  let head := d.deviceHead &&& ~~~dhrH
  if has head dhrLba then
    { d with
      sectorNumber := (sect &&& 0xff).setWidth 8
      cylinderLow := ((sect >>> 8) &&& 0xff).setWidth 8
      cylinderHigh := ((sect >>> 16) &&& 0xff).setWidth 8
      deviceHead := head ||| ((sect >>> 24) &&& 0xf).setWidth 8 }
  else
    let cyl : Half := (sect / (d.conf.heads * d.conf.sectors)).setWidth 16
    let rest : Half := (sect % (d.conf.heads * d.conf.sectors)).setWidth 16
    { d with
      cylinderLow := (cyl &&& 0xff).setWidth 8
      cylinderHigh := ((cyl >>> 8) &&& 0xff).setWidth 8
      sectorNumber := (rest.setWidth 32 % d.conf.sectors + 1).setWidth 8
      deviceHead := head ||| ((rest.setWidth 32 / d.conf.sectors) &&& 0xf).setWidth 8 }

def ataCalcLba (d : Device) : Word :=
  if has d.deviceHead dhrLba then
    (d.deviceHead &&& dhrH).setWidth 32 <<< 24 ||| d.cylinderHigh.setWidth 32 <<< 16 ||| d.cylinderLow.setWidth 32 <<< 8 |||
      d.sectorNumber.setWidth 32
  else
    ((d.cylinderHigh.setWidth 32 <<< 16 ||| d.cylinderLow.setWidth 32) * d.headsPerCylinder + (d.deviceHead &&& dhrH).setWidth 32) *
      d.sectorsPerTrack +
      d.sectorNumber.setWidth 32 - 1

/-! ### Sectors -/

def ataReadSect (d : Device) : Device :=
  if d.nrSect = 0 then d
  else
    { d with
      stream := { d.stream with touched := d.stream.touched ++ [d.lba.toNat] }
      dbuf := d.stream.fread d.lba.toNat d.dbuf
      status := srDrdy ||| srDrq
      dbufCnt := BitVec.ofNat 16 (bytesPerSector / 2)
      dbufPtr := 0
      lba := d.lba + BitVec.ofNat 32 bytesPerSector
      nrSect := d.nrSect - 1
      scheduled := d.scheduled ++ [400000] }

def ataWriteSect (d : Device) : Device :=
  if d.nrSect = 0 then { d with status := srDrdy }
  else
    { d with
      stream := d.stream.fwrite d.lba.toNat d.dbuf
      status := if d.nrSect - 1 = 0 then srDrdy ||| srDsc ||| srBsy else srDrdy ||| srDrq ||| srDsc ||| srBsy
      dbufCnt := BitVec.ofNat 16 (bytesPerSector / 2)
      dbufPtr := 0
      lba := d.lba + BitVec.ofNat 32 bytesPerSector
      nrSect := d.nrSect - 1
      scheduled := d.scheduled ++ [40000] }

def endTransfer (d : Device) : Device :=
  match d.endTFunc with
  | none => d
  | some .readSect => ataReadSect d
  | some .writeSect => ataWriteSect d

/-- The buffer has been moved on by one half-word. -/
def advance (d : Device) : Device :=
  let d := { d with dbufPtr := d.dbufPtr + 1, dbufCnt := d.dbufCnt - 1 }
  if d.dbufCnt = 0 then endTransfer { d with status := d.status &&& ~~~srDrq } else d

def dataRead (h : Host) (d : Device) : Half × Device :=
  if has d.status srDrq then (h.dataWord (d.dbuf (2 * d.dbufPtr)) (d.dbuf (2 * d.dbufPtr + 1)), advance d) else (0, d)

def dataWrite (h : Host) (value : Half) (d : Device) : Device :=
  if has d.status srDrq then { advance { d with dbuf := h.storeHalf (le16 value) d.dbuf d.dbufPtr } with dataportI := value } else d

/-! ### Commands -/

def ataSetDeviceSignature (packet : Bool) (d : Device) : Device :=
  { d with
    sectorCount := 0x01
    sectorNumber := 0x01
    cylinderLow := if packet then 0x14 else 0x00
    cylinderHigh := if packet then 0xeb else 0x00
    deviceHead := if packet then d.deviceHead else 0x00 }

def ataExecuteDeviceDiagnosticsCmd (d : Device) : Device :=
  let d := { d with deviceControl := d.deviceControl &&& ~~~dcrRst, error := 0x01 }
  { ataSetDeviceSignature d.conf.packet d with
    status := if d.conf.packet then d.status &&& 0xf8 else d.status &&& 0x82
    deviceHead := if d.conf.packet ∧ Command.of d.command = .deviceReset then d.deviceHead &&& dhrLba else 0x00
    pdiago := true }

/-- A device with packets answers with its signature. -/
def abortPacket (status : Byte) (d : Device) : Device := { ataSetDeviceSignature true d with status, error := errAbt }

def ataIdentifyDeviceCmd (h : Host) (d : Device) : Device :=
  let d := { d with dbufCnt := 256, dbufPtr := 0, endTFunc := none }
  if d.conf.packet then abortPacket srErr d else { d with dbuf := h.identity d, status := srDrdy ||| srDrq }

def ataInitializeDeviceParametersCmd (d : Device) : Device :=
  { d with
    sectorsPerTrack := d.sectorCount.setWidth 32
    headsPerCylinder := (d.deviceHead &&& dhrH).setWidth 32
    status := srBsy ||| srDrdy }

def sectorCountOf (d : Device) : Nat := if d.sectorCount = 0 then 256 else d.sectorCount.toNat

def ataReadSectorsCmd (d : Device) : Device :=
  if d.conf.packet then abortPacket (srErr ||| srDrdy) d
  else if d.conf.sizeSect ≤ ataCalcLba d then { d with status := srDrdy ||| srErr, error := errIdnf }
  else
    ataReadSect
      { d with lba := ataCalcLba d * BitVec.ofNat 32 bytesPerSector, nrSect := sectorCountOf d, endTFunc := some .readSect }

def ataReadNativeMaxAddr (d : Device) : Device := { ataSetSect d (d.conf.size <<< 11) with status := srDrdy ||| srBsy }

def ataWriteSectors (d : Device) : Device :=
  if d.conf.packet then abortPacket (srErr ||| srDrdy) d
  else if d.conf.sizeSect ≤ ataCalcLba d then { d with status := srDrdy ||| srErr, error := errIdnf }
  else
    { d with
      lba := ataCalcLba d * BitVec.ofNat 32 bytesPerSector
      nrSect := sectorCountOf d
      dbufCnt := BitVec.ofNat 16 (bytesPerSector / 2)
      dbufPtr := 0
      status := srBsy ||| srDrdy ||| srDrq
      endTFunc := some .writeSect }

def ataSetFeatures (d : Device) : Device :=
  if d.features = 0x03 then { d with status := srDsc ||| srDrdy ||| srBsy }
  else { d with error := errAbt, status := srErr ||| srBsy ||| srDrdy }

def schedAdd (delay : Nat) (d : Device) : Device := { d with scheduled := d.scheduled ++ [delay] }

def ataDeviceExecuteCmd (h : Host) (d : Device) : Device :=
  match Command.of d.command with
  | .deviceReset => schedAdd 4000000 (ataExecuteDeviceDiagnosticsCmd d)
  | .executeDeviceDiagnostics => schedAdd 4000000 (ataExecuteDeviceDiagnosticsCmd d)
  | .identifyDevice => ataIdentifyDeviceCmd h d
  | .initializeDeviceParameters => schedAdd 400000 (ataInitializeDeviceParametersCmd d)
  | .readSectors => ataReadSectorsCmd d
  | .readNativeMaxAddress => schedAdd 40000 (ataReadNativeMaxAddr d)
  | .writeSectors => schedAdd 40000 (ataWriteSectors d)
  | .setFeatures => schedAdd 4000 (ataSetFeatures d)
  | .unknown => schedAdd 40000 { d with error := errAbt, status := srErr ||| srBsy ||| srDrdy }

/-- The device that the device/head register selects. -/
def Device.selected (d : Device) : Bool := d.deviceHead &&& dhrDev = d.dev

/-- A job that ends a command; the host's interrupt follows `intrq`. -/
def ataCmdComplete (d : Device) : Device :=
  let d := { d with status := d.status &&& ~~~srBsy }
  if has d.deviceControl dcrIen || !d.selected || d.intrq then d else { d with intrq := true }

/-! ### Resets -/

/-- A reset has ended. -/
def leaveReset (d : Device) : Device :=
  let d := ataExecuteDeviceDiagnosticsCmd d
  let status := d.status &&& ~~~srBsy
  { d with status := if d.conf.packet then status else status ||| srDrdy, state := .idle }

def ataDeviceHwReset (resetSignal daspo pdiagi daspi : Bool) (d : Device) : Device :=
  if d.state = .hwRst then
    if resetSignal then d
    else leaveReset { d with sectorsPerTrack := d.conf.sectors, headsPerCylinder := d.conf.heads, pdiagi, daspi }
  else if resetSignal then { d with intrq := false, pdiago := false, daspo, status := d.status ||| srBsy, state := .hwRst }
  else d

def ataDeviceDoControlRegister (d : Device) : Device :=
  if has d.deviceControl dcrRst then
    if d.state = .idle then { d with pdiago := false, intrq := false, status := d.status ||| srBsy, state := .swRst } else d
  else if d.state = .swRst then leaveReset d
  else d

def ataDeviceDoCommandRegister (h : Host) (d : Device) : Device :=
  if d.selected || Command.of d.command = .executeDeviceDiagnostics then ataDeviceExecuteCmd h d else d

/-! ### Accesses -/

def ataDeviceRead (h : Host) (r : Reg) (d : Device) : Half × Device :=
  match r with
  | .altStatusControl => (if d.selected then d.status.setWidth 16 else 0, d)
  | .cylinderHigh => (d.cylinderHigh.setWidth 16, d)
  | .cylinderLow => (d.cylinderLow.setWidth 16, d)
  | .dataPort => dataRead h d
  | .deviceHead => (d.deviceHead.setWidth 16, d)
  | .errorFeatures => (d.error.setWidth 16, d)
  | .sectorCount => (d.sectorCount.setWidth 16, d)
  | .sectorNumber => (d.sectorNumber.setWidth 16, d)
  | .statusCommand => if d.selected then (d.status.setWidth 16, { d with intrq := false }) else (0, d)
  | .other => (0, d)

def ataDeviceWrite (h : Host) (r : Reg) (value : Half) (d : Device) : Device :=
  match r with
  | .statusCommand => ataDeviceDoCommandRegister h { d with command := value.setWidth 8 }
  | .cylinderHigh => { d with cylinderHigh := value.setWidth 8 }
  | .cylinderLow => { d with cylinderLow := value.setWidth 8 }
  | .dataPort => dataWrite h value d
  | .altStatusControl => ataDeviceDoControlRegister { d with deviceControl := value.setWidth 8 }
  | .deviceHead => { d with deviceHead := value.setWidth 8 }
  | .errorFeatures => { d with features := value.setWidth 8 }
  | .sectorCount => { d with sectorCount := value.setWidth 8 }
  | .sectorNumber => { d with sectorNumber := value.setWidth 8 }
  | .other => d

end Or1ksim.Ata
