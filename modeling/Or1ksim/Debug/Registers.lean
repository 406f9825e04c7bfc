import Or1ksim.Debug.JtagBits

/-!
# Registers of the debug interface

The formats that the comments of `jtag.c` draw. A request has the bits that its CRC covers, the CRC,
and bits that are ignored; the response to it has zeros where those were, then the data, the status
and the CRC of the two.
-/

namespace Or1ksim.Debug

open Serial (Buffer Shows msbFirst)
open Cpu (Word Machine Sim)

variable {δ : Type} {u : DebugConfig δ} {d : DebugState} {jreg : Buffer}

inductive Format where
  | selectModule | goRead | goWrite | readCommand | writeCommand | readControl | writeControl
  deriving DecidableEq, Repr

def AccType.isWrite : AccType → Bool
  | .write8 | .write16 | .write32 => true
  | .read8 | .read16 | .read32 => false

/-- A GO_COMMAND has a format only behind a WRITE_COMMAND. -/
def format (d : DebugState) (jreg : Buffer) : Option Format :=
  if jreg.bit 0 then some .selectModule
  else
    match (jreg.value 1 4).toNat with
    | 0 => if d.writeDefinedP then some (if d.accType.isWrite then .goWrite else .goRead) else none
    | 1 => some .readCommand
    | 2 => some .writeCommand
    | 3 => some .readControl
    | 4 => some .writeControl
    | _ => none

namespace Format

/-- How many bits the CRC of a request covers. -/
def covered (d : DebugState) : Format → Nat
  | selectModule | goRead | readCommand | readControl => 5
  | goWrite => 5 + 8 * d.size.val
  | writeCommand | writeControl => 57

/-- How many bits of data a response has. -/
def data (d : DebugState) : Format → Nat
  | selectModule | goWrite | writeCommand | writeControl => 0
  | goRead => 8 * d.size.val
  | readCommand | readControl => 52

def zeros (d : DebugState) (f : Format) : Nat := f.covered d + 32

/-- Where the status of the response is. -/
def statusOff (d : DebugState) (f : Format) : Nat := f.zeros d + f.data d

def length (d : DebugState) (f : Format) : Nat := f.statusOff d + 36

end Format

def CrcOk (jreg : Buffer) (covered : Nat) : Prop :=
  jreg.value covered 32 = Serial.crc crc32Poly 0xffffffff (jreg.bits 0 covered)

instance (jreg : Buffer) (covered : Nat) : Decidable (CrcOk jreg covered) := inferInstanceAs (Decidable (_ = _))

/-- A request with the CRC of the bits that it covers. -/
def request (covered : List Bool) : Buffer :=
  Buffer.ofBits (covered ++ msbFirst 32 (Serial.crc crc32Poly 0xffffffff covered))

/-! ### What the functions check -/

theorem crc5_eq (jreg : Buffer) (i : Nat) : reverse32 (gather5 jreg i) = jreg.value (8 * i + 5) 32 := (shows_crc5 jreg i).value.symm

theorem crc1_eq (jreg : Buffer) (i : Nat) : reverse32 (gather1 jreg i) = jreg.value (8 * i + 1) 32 := (shows_gather1 jreg i).value.symm

theorem crc32_field {off n w : Nat} {v : BitVec w} (shows : Shows jreg off n v) (fits : n ≤ 64) (seed : Word) :
    crc32 (v.setWidth 64) n seed = Serial.crc crc32Poly seed (jreg.bits off n) := by
  rw [crc32_setWidth v fits, shows.bits]

theorem crc32_extend {n m w : Nat} {v : BitVec w} (shows : Shows jreg n m v) (fits : m ≤ 64) (seed : Word) :
    crc32 (v.setWidth 64) m (Serial.crc crc32Poly seed (jreg.bits 0 n)) = Serial.crc crc32Poly seed (jreg.bits 0 (n + m)) := by
  rw [crc32_field shows fits, ← Serial.crc_append, Buffer.bits_add, Nat.zero_add]

theorem code4_value (jreg : Buffer) : (code4 jreg).toNat = (jreg.value 1 4).toNat := by
  have same : jreg.value 1 4 = (code4 jreg).setWidth 4 := ((shows_code4 jreg).setWidth (by decide)).value
  have small : (code4 jreg).toNat < 16 := by
    unfold code4
    rw [BitVec.toNat_setWidth]
    exact Nat.lt_of_le_of_lt (Nat.mod_le _ _) (reverseBits_toNat_lt _ (by decide))
  rw [same, BitVec.toNat_setWidth, Nat.mod_eq_of_lt small]

theorem bit_zero_eq (jreg : Buffer) : jreg 0 &&& 0x1 = 1 ↔ jreg.bit 0 = true := by
  have all : ∀ b : BitVec 8, b &&& 0x1 = 1 ↔ b.getLsbD 0 = true := by decide
  exact all (jreg 0)

theorem crc_head (first command : BitVec 64) (leads : jreg.bit 0 = first.getLsbD 0) (is : (code4 jreg).toNat = command.toNat) :
    crc32 command 4 (crc32 first 1 0xffffffff) = Serial.crc crc32Poly 0xffffffff (jreg.bits 0 5) := by
  have code : command = (code4 jreg).setWidth 64 := by
    apply BitVec.eq_of_toNat_eq
    rw [BitVec.toNat_setWidth, is, Nat.mod_eq_of_lt command.isLt]
  have start : Shows jreg 0 1 first := by
    intro k inside
    rw [show k = 0 by omega]
    exact leads
  have one := crc32_field start (by decide) 0xffffffff
  rw [BitVec.setWidth_eq] at one
  rw [one, code]
  exact crc32_extend (shows_code4 jreg) (by decide) _

theorem selectModule_crc (leads : jreg.bit 0 = true) :
    (crc32 ((code4 jreg).setWidth 64) 4 (crc32 1 1 0xffffffff) = reverse32 (gather5 jreg 0)) ↔ CrcOk jreg 5 := by
  unfold CrcOk
  rw [crc5_eq, crc_head 1 _ leads (by rw [BitVec.toNat_setWidth]; omega)]
  exact eq_comm

/-- The CRC of a request that it covers only the command of. -/
theorem command_crc (command : BitVec 64) (leads : jreg.bit 0 = false) (is : (code4 jreg).toNat = command.toNat) :
    (crc32 command 4 (crc32 0 1 0xffffffff) = reverse32 (gather5 jreg 0)) ↔ CrcOk jreg 5 := by
  unfold CrcOk
  rw [crc5_eq, crc_head 0 command leads is]
  exact eq_comm

theorem goWrite_crc (leads : jreg.bit 0 = false) (is : (code4 jreg).toNat = 0) (size : Nat) :
    (dataCrc jreg size 0 (crc32 jcmdGoCommand 4 (crc32 0 1 0xffffffff)) = reverse32 (gather5 jreg size)) ↔
      CrcOk jreg (5 + 8 * size) := by
  unfold CrcOk
  rw [crc5_eq, crc_head 0 jcmdGoCommand leads is, dataCrc_eq, ← Serial.crc_append, ← Buffer.bits_add, Nat.add_comm (8 * size) 5]
  exact eq_comm

theorem writeCommand_crc (leads : jreg.bit 0 = false) (is : (code4 jreg).toNat = 2) :
    (crc32 ((lenField jreg).setWidth 64) 16 (crc32 ((reverse32 (gather1 jreg 1)).setWidth 64) 32
      (crc32 ((accTypeField jreg).setWidth 64) 4 (crc32 jcmdWriteCommand 4 (crc32 0 1 0xffffffff)))) = reverse32 (gather1 jreg 7)) ↔
      CrcOk jreg 57 := by
  unfold CrcOk
  rw [crc1_eq jreg 7, crc_head 0 jcmdWriteCommand leads is, crc32_extend (shows_accType jreg) (by decide),
    crc32_extend (n := 9) (shows_gather1 jreg 1) (by decide), crc32_extend (shows_len jreg) (by decide)]
  exact eq_comm

theorem writeControl_crc (leads : jreg.bit 0 = false) (is : (code4 jreg).toNat = 4) :
    (crc32 (reverseBits (gatherControl jreg) 52) 52 (crc32 jcmdWriteControl 4 (crc32 0 1 0xffffffff)) = reverse32 (gather1 jreg 7)) ↔
      CrcOk jreg 57 := by
  unfold CrcOk
  have covers := crc32_extend (shows_control jreg) (by decide) 0xffffffff
  rw [BitVec.setWidth_eq] at covers
  rw [crc1_eq jreg 7, crc_head 0 jcmdWriteControl leads is, covers]
  exact eq_comm

/-! ### Which function takes a request -/

namespace Format

def handler (u : DebugConfig δ) (d : DebugState) (jreg : Buffer) (numBits : Nat) : Format → Sim δ (DebugState × Buffer)
  | selectModule => pure (Debug.selectModule d jreg numBits)
  | goRead => goCommandRead u d jreg numBits
  | goWrite => goCommandWrite u d jreg numBits
  | readCommand => pure (Debug.readCommand d jreg numBits)
  | writeCommand => pure (Debug.writeCommand d jreg numBits)
  | readControl => do pure (Debug.readControl d jreg numBits (← get))
  | writeControl => Debug.writeControl u d jreg numBits

def leads : Format → Bool
  | selectModule => true
  | _ => false

def command : Format → Nat
  | selectModule | goRead | goWrite => 0
  | readCommand => 1
  | writeCommand => 2
  | readControl => 3
  | writeControl => 4

end Format

theorem format_leads {f : Format} (is : format d jreg = some f) : jreg.bit 0 = f.leads := by
  unfold format at is
  split at is
  · next first =>
    cases is
    exact first
  · next other =>
    rw [Bool.not_eq_true] at other
    rw [other]
    split at is
    · split at is
      · cases is
        cases d.accType.isWrite <;> rfl
      · cases is
    all_goals cases is
    all_goals rfl

theorem format_command {f : Format} (is : format d jreg = some f) (other : f ≠ .selectModule) : (code4 jreg).toNat = f.command := by
  rw [code4_value]
  unfold format at is
  split at is
  · cases is
    exact absurd rfl other
  · split at is
    · next go =>
      split at is
      · cases is
        rw [go]
        cases d.accType.isWrite <;> rfl
      · cases is
    all_goals cases is
    all_goals assumption

theorem goCommand_handler {f : Format} (is : format d jreg = some f) (go : f = .goRead ∨ f = .goWrite) (numBits : Nat) :
    goCommand u d jreg numBits = f.handler u d jreg numBits := by
  have leads := format_leads is
  have command := format_command is (by rcases go with rfl | rfl <;> decide)
  rw [code4_value] at command
  unfold format at is
  rw [if_neg (by rcases go with rfl | rfl <;> simp [leads, Format.leads]), command] at is
  have which : d.writeDefinedP = true ∧ f = (if d.accType.isWrite then .goWrite else .goRead) := by
    rcases go with rfl | rfl
    all_goals
      simp only [Format.command] at is
      split at is
      · next defined => exact ⟨defined, (Option.some.inj is).symm⟩
      · cases is
  obtain ⟨defined, rfl⟩ := which
  unfold goCommand
  rw [defined]
  cases d.accType <;> rfl

/-- The dispatch of `jtag_shift_dr`. -/
theorem shiftDr_handler {f : Format} (debug : d.instr = some jiDebug) (is : format d jreg = some f) (numBits : Nat) :
    jtagShiftDr u d jreg numBits = f.handler u d jreg numBits := by
  have leads := format_leads is
  unfold jtagShiftDr
  rw [if_neg (by rw [debug]; exact fun differ => differ rfl), if_congr (bit_zero_eq jreg) rfl rfl]
  by_cases select : f = .selectModule
  · subst select
    exact if_pos leads
  · have command := format_command is select
    rw [if_neg (by rw [leads]; cases f <;> first | exact absurd rfl select | exact Bool.false_ne_true), command]
    cases f with
    | selectModule => exact absurd rfl select
    | goRead => exact goCommand_handler is (.inl rfl) numBits
    | goWrite => exact goCommand_handler is (.inr rfl) numBits
    | readCommand => rfl
    | writeCommand => rfl
    | readControl => rfl
    | writeControl => rfl

/-! ### A CRC that does not match -/

/-- The state that a request with a wrong CRC leaves. -/
def Format.rejected (d : DebugState) : Format → DebugState
  | .writeCommand => { d with writeDefinedP := false }
  | _ => d

/-- The CRC of the data that the status of a rejected request is appended to. -/
def Format.rejectedCrc : Format → Word
  | .goRead => 0
  | _ => 0xffffffff

theorem size_small (d : DebugState) : d.size.val ≤ 2 ^ 16 := Nat.le_of_lt_succ d.size.isLt

theorem goBytes_expected (d : DebugState) : goBytes u d (36 + 8 * d.size.val + 32 + 4 + 1) = (d.size.val, jsOk) := if_pos rfl

theorem handler_rejects {f : Format} (is : format d jreg = some f) (bad : ¬ CrcOk jreg (f.covered d)) :
    f.handler u d jreg (f.length d) =
      pure (f.rejected d, constructResponse jreg jsCrcInError f.rejectedCrc (f.data d) (f.zeros d)) := by
  have leads := format_leads is
  have command := format_command is
  have small := size_small d
  cases f with
  | selectModule =>
    show pure (Debug.selectModule d jreg 73) = _
    unfold Debug.selectModule
    rw [if_neg (by decide)]
    dsimp only
    rw [if_neg (mt (selectModule_crc leads).mp bad)]
    rfl
  | goRead =>
    have covers := command_crc jcmdGoCommand leads (command (by decide))
    show goCommandRead u d jreg (5 + 32 + 8 * d.size.val + 36) = _
    unfold goCommandRead
    rw [show 5 + 32 + 8 * d.size.val + 36 = 36 + 8 * d.size.val + 32 + 4 + 1 by omega, goBytes_expected]
    unfold checkedRead
    dsimp only
    rw [if_neg (mt covers.mp bad), Nat.mod_eq_of_lt (by omega)]
    rfl
  | goWrite =>
    have covers := goWrite_crc leads (command (by decide)) d.size.val
    show goCommandWrite u d jreg (5 + 8 * d.size.val + 32 + 0 + 36) = _
    unfold goCommandWrite
    rw [show 5 + 8 * d.size.val + 32 + 0 + 36 = 36 + 8 * d.size.val + 32 + 4 + 1 by omega, goBytes_expected]
    unfold checkedWrite
    dsimp only
    rw [if_neg (mt covers.mp bad), Nat.mod_eq_of_lt (by omega), show 37 + 8 * d.size.val = 5 + 8 * d.size.val + 32 by omega]
    rfl
  | readCommand =>
    have covers := command_crc jcmdReadCommand leads (command (by decide))
    show pure (Debug.readCommand d jreg 125) = _
    unfold Debug.readCommand
    rw [if_neg (by decide)]
    dsimp only
    rw [if_neg (mt covers.mp bad)]
    rfl
  | writeCommand =>
    show pure (Debug.writeCommand d jreg 125) = _
    unfold Debug.writeCommand
    rw [if_neg (by decide)]
    dsimp only
    rw [if_neg (mt (writeCommand_crc leads (command (by decide))).mp bad)]
    rfl
  | readControl =>
    have covers := command_crc jcmdReadControl leads (command (by decide))
    have all (m : Machine δ) : Debug.readControl d jreg 125 m = (d, constructResponse jreg jsCrcInError 0xffffffff 52 37) := by
      unfold Debug.readControl
      rw [if_neg (by decide)]
      dsimp only
      rw [if_neg (mt covers.mp bad)]
    show (do pure (Debug.readControl d jreg 125 (← get)) : Sim δ (DebugState × Buffer)) = _
    simp only [all]
    rfl
  | writeControl =>
    show Debug.writeControl u d jreg 125 = _
    unfold Debug.writeControl
    rw [if_neg (by decide)]
    dsimp only
    rw [if_neg (mt (writeControl_crc leads (command (by decide))).mp bad)]
    rfl

theorem zeros_small (d : DebugState) (f : Format) : f.data d + f.zeros d < 2 ^ 32 := by
  have small := size_small d
  cases f <;> simp only [Format.zeros, Format.covered, Format.data] <;> omega

/-- The status has the bit of the error, whatever else was in the register. -/
theorem crc_error_status (d : DebugState) (f : Format) (jreg : Buffer) (crcIn : Word) :
    (constructResponse jreg jsCrcInError crcIn (f.data d) (f.zeros d)).bit (f.statusOff d + 3) = true := by
  have off : f.statusOff d = f.data d + f.zeros d := Nat.add_comm _ _
  rw [bit_constructResponse _ _ _ (zeros_small d f) (by omega), if_neg (by omega),
    show f.statusOff d + 3 - (f.data d + f.zeros d) = 3 by omega]
  rfl

/-- A request whose CRC does not match is without effect on the machine and the state, except that a
WRITE_COMMAND is no longer defined, and the response says so. -/
theorem crc_error_no_effect {f : Format} {numBits : Nat} (m : Machine δ) (debug : d.instr = some jiDebug)
    (is : format d jreg = some f) (expected : numBits = f.length d) (bad : ¬ CrcOk jreg (f.covered d)) :
    ∃ out : Buffer,
      jtagShiftDr u d jreg numBits m =
        .ok ((if f = .writeCommand then { d with writeDefinedP := false } else d, out), m) ∧
      (out.value (f.statusOff d) 4).setWidth 8 &&& jsCrcInError ≠ 0 := by
  subst expected
  rw [shiftDr_handler debug is, handler_rejects is bad]
  refine ⟨constructResponse jreg jsCrcInError f.rejectedCrc (f.data d) (f.zeros d), ?_, fun none => ?_⟩
  · cases f <;> rfl
  · have low := congrArg (fun v => BitVec.getLsbD v 0) none
    rw [BitVec.getLsbD_and, BitVec.getLsbD_setWidth, Buffer.getLsbD_value _ _ _ (by decide), crc_error_status] at low
    exact absurd low (by decide)

/-- A memory of one word for every address, without hooks. -/
def plainDebug : DebugConfig (Word → Word) :=
  { cpu := Cpu.Config.bare [] [.words], writeprog8 := fun _ => none, resetHooks := fun dev => (dev, []), checkInt := 0,
    or32BigEndian := false }

theorem crc_error_no_effect_select : ∃ out : Buffer,
    jtagShiftDr plainDebug { DebugState.start with instr := some jiDebug } (fun i => if i = 0 then 1 else 0) 73
        (Cpu.Machine.bare (fun _ => 0) 0 0x2000) =
      .ok (({ DebugState.start with instr := some jiDebug }, out), Cpu.Machine.bare (fun _ => 0) 0 0x2000) ∧
      (out.value 37 4).setWidth 8 &&& jsCrcInError ≠ 0 :=
  crc_error_no_effect (f := .selectModule) _ rfl rfl rfl (by decide +kernel)

end Or1ksim.Debug
