import Or1ksim.Ata.Device

/-!
# A pair of devices

Both devices see what is written; the one that is selected answers. A device that asks for data has the words for it in its
buffer, whatever is read, written and reset.
-/

namespace Or1ksim.Ata

structure Devices where
  device0 : Device
  device1 : Device

/-! ### Start -/

/-- `ata_device_init`; a device without its file is not connected. -/
def ataDeviceInit (c : Conf) (file : Option Stream) (dev : Byte) : Device :=
  match file with
  | none => { conf := { c with connected := false }, stream := { length := 0, image := fun _ => 0, touched := [] }, dev }
  | some f => { conf := { c with connected := true, size := BitVec.ofNat 32 f.length }, stream := f, dev }

/-- The second device is device 1 when the first one has a type, connected or not. -/
def ataDevicesInit (c0 c1 : Conf) (file0 file1 : Option Stream) (typed0 : Bool) : Devices :=
  { device0 := ataDeviceInit c0 file0 0
    device1 := ataDeviceInit c1 file1 (if typed0 then dhrDev else 0) }

/-! ### Accesses -/

/-- The second device answers. -/
def Devices.current (s : Devices) : Bool :=
  if s.device0.conf.connected && s.device1.conf.connected then has s.device1.deviceHead dhrDev else s.device1.conf.connected

def Devices.device (s : Devices) (second : Bool) : Device := if second then s.device1 else s.device0

def Devices.set (s : Devices) (second : Bool) (d : Device) : Devices :=
  { device0 := if second then s.device0 else d, device1 := if second then d else s.device1 }

def ataDevicesRead (h : Host) (r : Reg) (s : Devices) : Half × Devices :=
  if s.device0.conf.connected || s.device1.conf.connected then
    let answer := ataDeviceRead h r (s.device s.current)
    (answer.1, s.set s.current answer.2)
  else (0, s)

def ataDevicesWrite (h : Host) (r : Reg) (value : Half) (s : Devices) : Devices :=
  { device0 := if s.device0.conf.connected then ataDeviceWrite h r value s.device0 else s.device0
    device1 := if s.device1.conf.connected then ataDeviceWrite h r value s.device1 else s.device1 }

def ataDevicesHwReset (signal : Bool) (s : Devices) : Devices :=
  if s.device0.conf.connected && s.device1.conf.connected then
    let device1 := ataDeviceHwReset signal true false false s.device1
    { device0 := ataDeviceHwReset signal false device1.pdiago device1.daspo s.device0, device1 }
  else
    { device0 := if s.device0.conf.connected then ataDeviceHwReset signal false false false s.device0 else s.device0
      device1 := if s.device1.conf.connected && !s.device0.conf.connected then ataDeviceHwReset signal false false false s.device1
        else s.device1 }

/-- What happens to the devices; a job may run whenever the scheduler likes. -/
inductive Access where
  | read (r : Reg)
  | write (r : Reg) (value : Half)
  | hwReset (signal : Bool)
  | complete (second : Bool)
  deriving DecidableEq

def Devices.after (h : Host) (s : Devices) : Access → Devices
  | .read r => (ataDevicesRead h r s).2
  | .write r value => ataDevicesWrite h r value s
  | .hwReset signal => ataDevicesHwReset signal s
  | .complete second => s.set second (ataCmdComplete (s.device second))

def Devices.run (h : Host) (s : Devices) (l : List Access) : Devices := l.foldl (Devices.after h) s

/-- The states that the accesses lead to. -/
def Reachable (h : Host) (s : Devices) : Prop :=
  ∃ c0 c1 file0 file1 typed0 l, s = (ataDevicesInit c0 c1 file0 file1 typed0).run h l

/-! ### Flags -/

section
variable {r mask flag : Byte}

theorem has_or_other (apart : mask &&& flag = 0#8) : has (r ||| mask) flag = has r flag := by
  unfold has
  rw [BitVec.and_or_distrib_right, apart, BitVec.or_zero]

theorem has_and_within (within : mask &&& flag = flag) : has (r &&& mask) flag = has r flag := by
  unfold has
  rw [BitVec.and_assoc, within]

theorem has_and_apart (apart : mask &&& flag = 0#8) : has (r &&& mask) flag = false := by
  unfold has
  rw [BitVec.and_assoc, apart, BitVec.and_zero]
  rfl

end

/-! ### Words in the buffer -/

/-- A device that asks for data has room for it in the buffer, and the file is as long as the disk. -/
structure Device.Sound (d : Device) : Prop where
  buffered : has d.status srDrq → d.dbufPtr + d.dbufCnt.toNat = 256 ∧ 1 ≤ d.dbufCnt.toNat
  covered : d.conf.connected → d.conf.size.toNat ≤ d.stream.length

/-- What a step does to a device that was sound. -/
structure SoundStep (d d' : Device) : Prop where
  sound : d.Sound → d'.Sound
  conf : d'.conf = d.conf

namespace SoundStep

variable {d d' d'' : Device}

theorem refl (d : Device) : SoundStep d d := ⟨id, rfl⟩

theorem trans (first : SoundStep d d') (second : SoundStep d' d'') : SoundStep d d'' :=
  ⟨second.sound ∘ first.sound, second.conf.trans first.conf⟩

/-- The buffer is left alone and no data is asked for that was not. -/
theorem of_frame (conf : d'.conf = d.conf) (stream : d'.stream = d.stream) (ptr : d'.dbufPtr = d.dbufPtr) (cnt : d'.dbufCnt = d.dbufCnt)
    (status : has d'.status srDrq → has d.status srDrq) : SoundStep d d' := by
  refine ⟨fun before => ⟨fun asks => ?_, fun connected => ?_⟩, conf⟩
  · rw [ptr, cnt]
    exact before.buffered (status asks)
  · rw [conf] at connected ⊢
    rw [stream]
    exact before.covered connected

/-- Nothing is asked for. -/
theorem of_quiet (status : Byte) (conf : d'.conf = d.conf) (stream : d'.stream = d.stream) (same : d'.status = status)
    (quiet : has status srDrq = false) : SoundStep d d' := by
  refine ⟨fun before => ⟨fun asks => ?_, fun connected => ?_⟩, conf⟩
  · rw [same, quiet] at asks
    exact absurd asks (by decide)
  · rw [conf] at connected ⊢
    rw [stream]
    exact before.covered connected

/-- The buffer starts again. -/
theorem of_restart (conf : d'.conf = d.conf) (stream : d.stream.length ≤ d'.stream.length) (ptr : d'.dbufPtr = 0)
    (cnt : d'.dbufCnt = 256) :
    SoundStep d d' := by
  refine ⟨fun before => ⟨fun _ => ?_, fun connected => ?_⟩, conf⟩
  · rw [ptr, cnt]
    decide
  · rw [conf] at connected ⊢
    exact Nat.le_trans (before.covered connected) stream

end SoundStep

section
variable {h : Host} {d : Device}

theorem ataReadSect_step : SoundStep d (ataReadSect d) := by
  unfold ataReadSect
  split_ifs
  · exact .refl d
  · exact .of_restart rfl (Nat.le_refl _) rfl rfl

theorem ataWriteSect_step : SoundStep d (ataWriteSect d) := by
  unfold ataWriteSect
  split_ifs with last
  · exact .of_quiet srDrdy rfl rfl rfl (by decide)
  · exact .of_restart rfl (Nat.le_max_left _ _) rfl rfl
  · exact .of_restart rfl (Nat.le_max_left _ _) rfl rfl

theorem endTransfer_step : SoundStep d (endTransfer d) := by
  unfold endTransfer
  split
  · exact .refl d
  · exact ataReadSect_step
  · exact ataWriteSect_step

theorem advance_step (asks : has d.status srDrq) : SoundStep d (advance d) := by
  unfold advance
  dsimp only
  split_ifs with last
  · have silent : has (d.status &&& ~~~srDrq) srDrq = false := has_and_apart rfl
    have quiet : SoundStep d { d with dbufPtr := d.dbufPtr + 1, dbufCnt := d.dbufCnt - 1, status := d.status &&& ~~~srDrq } :=
      .of_quiet _ rfl rfl rfl silent
    exact quiet.trans endTransfer_step
  · refine ⟨fun before => ⟨fun _ => ?_, before.covered⟩, rfl⟩
    obtain ⟨sum, some⟩ := before.buffered asks
    have lower : (d.dbufCnt - 1).toNat = d.dbufCnt.toNat - 1 := BitVec.toNat_sub_of_le some
    have positive : (d.dbufCnt - 1).toNat ≠ 0 := fun zero => last (BitVec.eq_of_toNat_eq zero)
    dsimp only
    omega

theorem dataRead_step : SoundStep d (dataRead h d).2 := by
  unfold dataRead
  split_ifs with asks
  · exact advance_step asks
  · exact .refl d

theorem dataWrite_step (value : Half) : SoundStep d (dataWrite h value d) := by
  unfold dataWrite
  split_ifs with asks
  · have stored : SoundStep d { d with dbuf := h.storeHalf (le16 value) d.dbuf d.dbufPtr } := .of_frame rfl rfl rfl rfl id
    exact (stored.trans (advance_step asks)).trans (.of_frame rfl rfl rfl rfl id)
  · exact .refl d

theorem diagnostics_step : SoundStep d (ataExecuteDeviceDiagnosticsCmd d) := by
  refine SoundStep.of_frame rfl rfl rfl rfl fun asks => ?_
  unfold ataExecuteDeviceDiagnosticsCmd at asks
  dsimp only at asks
  split_ifs at asks
  · rwa [has_and_within rfl] at asks
  · rw [has_and_apart rfl] at asks
    exact absurd asks (by decide)

theorem leaveReset_step : SoundStep d (leaveReset d) := by
  refine diagnostics_step.trans (.of_frame rfl rfl rfl rfl fun asks => ?_)
  unfold leaveReset at asks
  dsimp only at asks
  split_ifs at asks
  · rwa [has_and_within rfl] at asks
  · rwa [has_or_other rfl, has_and_within rfl] at asks

theorem hwReset_step (signal daspo pdiagi daspi : Bool) : SoundStep d (ataDeviceHwReset signal daspo pdiagi daspi d) := by
  unfold ataDeviceHwReset
  split_ifs
  · exact .refl d
  · have set : SoundStep d { d with sectorsPerTrack := d.conf.sectors, headsPerCylinder := d.conf.heads, pdiagi, daspi } :=
      .of_frame rfl rfl rfl rfl id
    exact set.trans leaveReset_step
  · refine .of_frame rfl rfl rfl rfl fun asks => ?_
    rwa [has_or_other rfl] at asks
  · exact .refl d

theorem controlRegister_step : SoundStep d (ataDeviceDoControlRegister d) := by
  unfold ataDeviceDoControlRegister
  split_ifs
  · refine .of_frame rfl rfl rfl rfl fun asks => ?_
    rwa [has_or_other rfl] at asks
  · exact .refl d
  · exact leaveReset_step
  · exact .refl d

theorem cmdComplete_step : SoundStep d (ataCmdComplete d) := by
  have ready : SoundStep d { d with status := d.status &&& ~~~srBsy } := by
    refine .of_frame rfl rfl rfl rfl fun asks => ?_
    rwa [has_and_within rfl] at asks
  unfold ataCmdComplete
  dsimp only
  split_ifs
  · exact ready
  · exact ready.trans (.of_frame rfl rfl rfl rfl id)

theorem readSectors_step : SoundStep d (ataReadSectorsCmd d) := by
  unfold ataReadSectorsCmd
  split_ifs
  · exact .of_quiet (srErr ||| srDrdy) rfl rfl rfl (by decide)
  · exact .of_quiet (srDrdy ||| srErr) rfl rfl rfl (by decide)
  · have set : SoundStep d { d with
        lba := ataCalcLba d * BitVec.ofNat 32 bytesPerSector, nrSect := sectorCountOf d, endTFunc := some .readSect } :=
      .of_frame rfl rfl rfl rfl id
    exact set.trans ataReadSect_step

theorem writeSectors_step : SoundStep d (ataWriteSectors d) := by
  unfold ataWriteSectors
  split_ifs
  · exact .of_quiet (srErr ||| srDrdy) rfl rfl rfl (by decide)
  · exact .of_quiet (srDrdy ||| srErr) rfl rfl rfl (by decide)
  · exact .of_restart rfl (Nat.le_refl _) rfl rfl

theorem identify_step : SoundStep d (ataIdentifyDeviceCmd h d) := by
  unfold ataIdentifyDeviceCmd
  dsimp only
  split_ifs
  · exact .of_restart rfl (Nat.le_refl _) rfl rfl
  · exact .of_restart rfl (Nat.le_refl _) rfl rfl

theorem nativeMax_step : SoundStep d (ataReadNativeMaxAddr d) := by
  unfold ataReadNativeMaxAddr ataSetSect
  dsimp only
  split_ifs
  · exact .of_quiet (srDrdy ||| srBsy) rfl rfl rfl (by decide)
  · exact .of_quiet (srDrdy ||| srBsy) rfl rfl rfl (by decide)

theorem setFeatures_step : SoundStep d (ataSetFeatures d) := by
  unfold ataSetFeatures
  split_ifs
  · exact .of_quiet (srDsc ||| srDrdy ||| srBsy) rfl rfl rfl (by decide)
  · exact .of_quiet (srErr ||| srBsy ||| srDrdy) rfl rfl rfl (by decide)

theorem schedAdd_step (delay : Nat) {d' : Device} (step : SoundStep d d') : SoundStep d (schedAdd delay d') :=
  step.trans (.of_frame rfl rfl rfl rfl id)

theorem executeCmd_step : SoundStep d (ataDeviceExecuteCmd h d) := by
  unfold ataDeviceExecuteCmd
  split
  case h_1 => exact schedAdd_step _ diagnostics_step
  case h_2 => exact schedAdd_step _ diagnostics_step
  case h_3 => exact identify_step
  case h_4 => exact schedAdd_step _ (.of_quiet (srBsy ||| srDrdy) rfl rfl rfl (by decide))
  case h_5 => exact readSectors_step
  case h_6 => exact schedAdd_step _ nativeMax_step
  case h_7 => exact schedAdd_step _ writeSectors_step
  case h_8 => exact schedAdd_step _ setFeatures_step
  case h_9 => exact .of_quiet (srErr ||| srBsy ||| srDrdy) rfl rfl rfl (by decide)

theorem deviceRead_step (r : Reg) : SoundStep d (ataDeviceRead h r d).2 := by
  cases r with
  | dataPort => exact dataRead_step
  | statusCommand =>
    unfold ataDeviceRead
    dsimp only
    split_ifs
    · exact .of_frame rfl rfl rfl rfl id
    · exact .refl d
  | _ => exact .refl d

theorem deviceWrite_step (r : Reg) (value : Half) : SoundStep d (ataDeviceWrite h r value d) := by
  cases r with
  | statusCommand =>
    have stored : SoundStep d { d with command := value.setWidth 8 } := .of_frame rfl rfl rfl rfl id
    unfold ataDeviceWrite ataDeviceDoCommandRegister
    dsimp only
    split_ifs
    · exact stored.trans executeCmd_step
    · exact stored
  | dataPort => exact dataWrite_step value
  | altStatusControl =>
    have stored : SoundStep d { d with deviceControl := value.setWidth 8 } := .of_frame rfl rfl rfl rfl id
    exact stored.trans controlRegister_step
  | _ => exact .of_frame rfl rfl rfl rfl id

end

/-! ### Both devices -/

/-- Both devices are sound. -/
def Devices.Sound (s : Devices) : Prop := s.device0.Sound ∧ s.device1.Sound

section
variable {h : Host} {s : Devices}

theorem Devices.Sound.device (sound : s.Sound) (second : Bool) : (s.device second).Sound := by
  cases second with
  | false => exact sound.1
  | true => exact sound.2

theorem Devices.Sound.set (sound : s.Sound) {second : Bool} {d : Device} (step : SoundStep (s.device second) d) :
    (s.set second d).Sound := by
  cases second with
  | false => exact ⟨step.sound sound.1, sound.2⟩
  | true => exact ⟨sound.1, step.sound sound.2⟩

theorem Devices.Sound.after (sound : s.Sound) (a : Access) : (s.after h a).Sound := by
  cases a with
  | read r =>
    unfold Devices.after ataDevicesRead
    dsimp only
    split_ifs
    · exact sound.set (deviceRead_step r)
    · exact sound
  | write r value =>
    unfold Devices.after ataDevicesWrite
    constructor
    · dsimp only
      split_ifs
      · exact (deviceWrite_step r value).sound sound.1
      · exact sound.1
    · dsimp only
      split_ifs
      · exact (deviceWrite_step r value).sound sound.2
      · exact sound.2
  | hwReset signal =>
    unfold Devices.after ataDevicesHwReset
    dsimp only
    split_ifs
    · exact ⟨(hwReset_step _ _ _ _).sound sound.1, (hwReset_step _ _ _ _).sound sound.2⟩
    · exact ⟨(hwReset_step _ _ _ _).sound sound.1, (hwReset_step _ _ _ _).sound sound.2⟩
    · exact ⟨(hwReset_step _ _ _ _).sound sound.1, sound.2⟩
    · exact ⟨sound.1, (hwReset_step _ _ _ _).sound sound.2⟩
    · exact sound
  | complete second => exact sound.set cmdComplete_step

theorem Devices.Sound.run (sound : s.Sound) (l : List Access) : (s.run h l).Sound := by
  induction l generalizing s with
  | nil => exact sound
  | cons a l ih => exact ih (sound.after a)

theorem ataDeviceInit_sound (c : Conf) (file : Option Stream) (dev : Byte) : (ataDeviceInit c file dev).Sound := by
  cases file with
  | none => exact ⟨fun asks => absurd asks (by show ¬has 0 srDrq; decide), fun connected => absurd connected (by show ¬false; decide)⟩
  | some f =>
    refine ⟨fun asks => absurd asks (by show ¬has 0 srDrq; decide), fun _ => ?_⟩
    show (BitVec.ofNat 32 f.length).toNat ≤ f.length
    rw [BitVec.toNat_ofNat]
    exact Nat.mod_le _ _

/-- Whatever is accessed, a device that asks for data has the words for it. -/
theorem Reachable.sound (reached : Reachable h s) : s.Sound := by
  obtain ⟨c0, c1, file0, file1, typed0, l, rfl⟩ := reached
  exact Devices.Sound.run ⟨ataDeviceInit_sound _ _ _, ataDeviceInit_sound _ _ _⟩ l

end

end Or1ksim.Ata
