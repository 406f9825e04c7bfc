import Or1ksim.Ata.Transfer

/-!
# Transfers between other accesses

The words of a transfer go through the data port of the pair; the status may be read and jobs may run at any time.
-/

namespace Or1ksim.Ata

/-- An access that takes no part in a transfer and does not disturb it. -/
def Access.quiet : Access → Bool
  | .read .statusCommand => true
  | .read .altStatusControl => true
  | .complete _ => true
  | _ => false

/-- A word for the data port. -/
def Access.word? : Access → Option Half
  | .write .dataPort value => some value
  | _ => none

def written (l : List Access) : List Half := l.filterMap Access.word?

/-- What the data port gives. -/
def Devices.taken (h : Host) : Devices → List Access → List Half
  | _, [] => []
  | s, a :: l =>
    if a = .read .dataPort then (ataDevicesRead h .dataPort s).1 :: (s.after h a).taken h l else (s.after h a).taken h l

/-! ### Which device answers -/

/-- What selects a device is the same. -/
structure Steady (d d' : Device) : Prop where
  conf : d'.conf = d.conf
  deviceHead : d'.deviceHead = d.deviceHead

section
variable {h : Host} {d : Device} {s : Devices}

theorem Steady.refl (d : Device) : Steady d d := ⟨rfl, rfl⟩

theorem SameTransfer.refl (d : Device) : SameTransfer d d := ⟨rfl, rfl, rfl, rfl, rfl, rfl, rfl, rfl, rfl⟩

variable {origin : Stream} {sector n j : Nat} {second : Bool}

/-- A device that asks for data has between one word and a sector left, to the end of its buffer. -/
def Device.Buffered (d : Device) : Prop :=
  has d.status srDrq → (1 ≤ d.dbufCnt.toNat ∧ d.dbufCnt.toNat ≤ 256) ∧ d.dbufPtr + d.dbufCnt.toNat = 256

theorem Device.Sound.words (sound : d.Sound) : d.Buffered := by
  intro asks
  obtain ⟨sum, some⟩ := sound.buffered asks
  exact ⟨⟨some, by omega⟩, sum⟩

end

section
variable {l : List Access}

end

def littleHost : Host := ⟨false, fun _ _ => 0⟩

/-- A disk of four sectors, with the registers at the last two of them. -/
def second : Devices :=
  (ataDevicesInit { connected := true, size := 0, packet := false, heads := 1, sectors := 4 }
    { connected := false, size := 0, packet := false, heads := 1, sectors := 2 }
    (some { length := 2048, image := fun k => BitVec.ofNat 8 k, touched := [] }) none true).run littleHost
    [.write .deviceHead 0x40, .write .sectorCount 2, .write .sectorNumber 2]

def counted : List Half := (List.range 512).map (BitVec.ofNat 16)

end Or1ksim.Ata
