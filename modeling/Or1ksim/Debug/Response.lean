import Or1ksim.Debug.StoredFields

/-!
# Responses

What a request with a matching CRC is answered with, without the register: the data and the status.
The register that `jtag_shift_dr` returns is the one with these, except where it still has bits of
the request.
-/

namespace Or1ksim.Debug

open Serial (Buffer Shows msbFirst length_msbFirst getD_msbFirst)
open Cpu (Word Machine Sim)

variable {δ : Type} {u : DebugConfig δ} {d d' : DebugState} {jreg : Buffer}

/-! ### Answers -/

structure Reply where
  data : List Bool
  status : Status

def dataBits (bytes : List (BitVec 8)) : List Bool := bytes.flatMap (msbFirst 8)

/-- The bytes that `wishbone_read` puts in the register. -/
def readBytes (u : DebugConfig δ) (d : DebugState) : Nat → Nat → Status → Sim δ (List (BitVec 8) × Status)
  | 0, _, status => pure ([], status)
  | more + 1, i, status => do
    let got ← wishboneByte u d i status
    let rest ← readBytes u d more (i + 1) got.2
    pure (got.1 :: rest.1, rest.2)

def moduleBytes (u : DebugConfig δ) (d : DebugState) : Sim δ (DebugState × List (BitVec 8) × Status) :=
  match d.modId with
  | .wishbone => do
    let got ← readBytes u d d.size.val 0 jsOk
    pure (if got.2 = jsOk then { d with addr := (d.addr + d.size) % u.ulong } else d, got)
  | .cpu0 => do
    let spr := Cpu.mfspr u.cpu (BitVec.ofNat 16 d.addr) (← get)
    pure ({ d with addr := (d.addr + 1) % u.ulong }, (List.range d.size.val).map (sprByte u spr), jsOk)
  | _ => pure (d, List.replicate d.size.val 0, jsOk)

def commandReply (d : DebugState) : List Bool :=
  if d.writeDefinedP then commandBits d.accType.code (oraddr d.addr) (BitVec.ofNat 16 d.size - 1) else commandBits 0 0 0

def respond (u : DebugConfig δ) (d : DebugState) (jreg : Buffer) : Format → Sim δ (DebugState × Reply)
  | .selectModule =>
    let code := (jreg.value 1 4).toNat
    pure ({ d with modId := .ofCode code }, ⟨[], if code ≤ 2 then jsOk else jsModuleMissing⟩)
  | .goRead => do
    let got ← moduleBytes u d
    pure (got.1, ⟨dataBits got.2.1, got.2.2⟩)
  | .goWrite => do
    let got ← moduleWrite u d jreg d.size.val jsOk
    pure (got.1, ⟨[], got.2⟩)
  | .readCommand => pure (d, ⟨commandReply d, jsOk⟩)
  | .writeCommand => pure (defineWrite d (AccType.ofCode (accTypeField jreg)) (reverse32 (gather1 jreg 1)) (lenField jreg), ⟨[], jsOk⟩)
  | .readControl => do pure (d, ⟨msbFirst 52 (controlData d (← get)), jsOk⟩)
  | .writeControl => do
    applyControl u d (reverseBits (gatherControl jreg) 52)
    pure (d, ⟨[], jsOk⟩)

/-! ### The register -/

/-- How the data gets into the register. -/
def Format.fill (jreg : Buffer) (data : List Bool) : Format → Buffer
  | .goRead => jreg.overlay 37 data
  | .readCommand | .readControl => jreg.merge 37 data
  | .selectModule | .goWrite | .writeCommand | .writeControl => jreg

def Format.encode (d : DebugState) (jreg : Buffer) (reply : Reply) (f : Format) : Buffer :=
  constructResponse (f.fill jreg reply.data) reply.status (Serial.crc crc32Poly 0xffffffff reply.data) (f.data d) (f.zeros d)

theorem crc_byte (byte : BitVec 8) (bytes : List (BitVec 8)) (seed : Word) :
    Serial.crc crc32Poly (crc32 (byte.setWidth 64) 8 seed) (dataBits bytes) = Serial.crc crc32Poly seed (dataBits (byte :: bytes)) := by
  rw [crc32_setWidth byte (by decide), ← Serial.crc_append]
  rfl

theorem overlay_byte (jreg : Buffer) (i : Nat) (byte : BitVec 8) (bytes : List (BitVec 8)) :
    (storeByte jreg i (reverseByte byte)).overlay (37 + 8 * (i + 1)) (dataBits bytes) =
      jreg.overlay (37 + 8 * i) (dataBits (byte :: bytes)) := by
  have joined := Buffer.overlay_append jreg (37 + 8 * i) (msbFirst 8 byte) (dataBits bytes)
  rw [length_msbFirst] at joined
  rw [storeByte_overlay, show 37 + 8 * (i + 1) = 37 + 8 * i + 8 by omega, joined]
  rfl

theorem wishboneReadLoop_eq (more i : Nat) (jreg : Buffer) (seed : Word) (status : Status) :
    wishboneReadLoop u d more i jreg seed status = readBytes u d more i status >>= fun got =>
      pure (jreg.overlay (37 + 8 * i) (dataBits got.1), Serial.crc crc32Poly seed (dataBits got.1), got.2) := by
  induction more generalizing i jreg seed status with
  | zero =>
    show pure _ = pure _
    rw [show dataBits [] = [] from rfl, Buffer.overlay_nil]
    rfl
  | succ more ih =>
    rw [wishboneReadLoop, readBytes]
    simp only [ih, bind_assoc, pure_bind, crc_byte, overlay_byte]

theorem sprReadLoop_eq (spr : Word) (more i : Nat) (jreg : Buffer) (seed : Word) :
    sprReadLoop u spr more i jreg seed =
      (jreg.overlay (37 + 8 * i) (dataBits ((List.range' i more).map (sprByte u spr))),
        Serial.crc crc32Poly seed (dataBits ((List.range' i more).map (sprByte u spr)))) := by
  induction more generalizing i jreg seed with
  | zero => exact Prod.ext (Buffer.overlay_nil _ _).symm rfl
  | succ more ih =>
    rw [sprReadLoop, ih, overlay_byte, crc_byte]
    rfl

theorem nullRead_eq (more i : Nat) (jreg : Buffer) (seed : Word) :
    nullRead more i jreg seed =
      (jreg.overlay (37 + 8 * i) (dataBits (List.replicate more 0)), Serial.crc crc32Poly seed (dataBits (List.replicate more 0))) := by
  induction more generalizing i jreg seed with
  | zero => exact Prod.ext (Buffer.overlay_nil _ _).symm rfl
  | succ more ih =>
    have cleared : clearByte jreg i = storeByte jreg i (reverseByte 0) := by rw [clearByte_overlay, storeByte_overlay]
    rw [nullRead, ih, cleared, overlay_byte]
    exact Prod.ext rfl (crc_byte 0 _ seed)

theorem moduleRead_eq (d : DebugState) (jreg : Buffer) :
    moduleRead u d jreg d.size.val jsOk = moduleBytes u d >>= fun got =>
      pure (got.1, jreg.overlay 37 (dataBits got.2.1), Serial.crc crc32Poly 0xffffffff (dataBits got.2.1), got.2.2) := by
  cases module : d.modId with
  | wishbone =>
    simp only [moduleRead, moduleBytes, module, wishboneRead, wishboneReadLoop_eq, bind_assoc, pure_bind]
  | cpu0 =>
    simp only [moduleRead, moduleBytes, module, sprRead, sprReadLoop_eq, bind_assoc, pure_bind, List.range_eq_range', if_true]
  | cpu1 | undefined =>
    simp only [moduleRead, moduleBytes, module, nullRead_eq, pure_bind]

theorem selectModule_accepts (is : format d jreg = some .selectModule) (good : CrcOk jreg 5) :
    (pure (selectModule d jreg 73) : Sim δ (DebugState × Buffer)) =
      respond u d jreg .selectModule >>= fun got => pure (got.1, Format.selectModule.encode d jreg got.2) := by
  have crc := (selectModule_crc (format_leads is)).mpr good
  show _ = pure _
  unfold selectModule
  rw [if_neg (by decide)]
  dsimp only
  rw [if_pos crc, ← code4_value]
  generalize (code4 jreg).toNat = code
  match code with
  | 0 => rfl
  | 1 => rfl
  | 2 => rfl
  | n + 3 =>
    rw [if_neg (by omega)]
    rfl

theorem goRead_accepts (is : format d jreg = some .goRead) (good : CrcOk jreg 5) :
    goCommandRead u d jreg (Format.goRead.length d) =
      respond u d jreg .goRead >>= fun got => pure (got.1, Format.goRead.encode d jreg got.2) := by
  have small := size_small d
  have crc := (command_crc jcmdGoCommand (format_leads is) (format_command is (by decide))).mpr good
  have length : Format.goRead.length d = 36 + 8 * d.size.val + 32 + 4 + 1 := by
    show 5 + 32 + 8 * d.size.val + 36 = _
    omega
  unfold goCommandRead
  rw [length, goBytes_expected]
  unfold checkedRead
  dsimp only
  rw [if_pos crc, moduleRead_eq, Nat.mod_eq_of_lt (by omega)]
  unfold respond
  simp only [bind_assoc, pure_bind]
  rfl

theorem goWrite_accepts (is : format d jreg = some .goWrite) (good : CrcOk jreg (5 + 8 * d.size.val)) :
    goCommandWrite u d jreg (Format.goWrite.length d) =
      respond u d jreg .goWrite >>= fun got => pure (got.1, Format.goWrite.encode d jreg got.2) := by
  have small := size_small d
  have crc := (goWrite_crc (format_leads is) (format_command is (by decide)) d.size.val).mpr good
  have length : Format.goWrite.length d = 36 + 8 * d.size.val + 32 + 4 + 1 := by
    show 5 + 8 * d.size.val + 32 + 0 + 36 = _
    omega
  unfold goCommandWrite
  rw [length, goBytes_expected]
  unfold checkedWrite
  dsimp only
  rw [if_pos crc, Nat.mod_eq_of_lt (by omega), show 37 + 8 * d.size.val = 5 + 8 * d.size.val + 32 by omega]
  unfold respond
  simp only [bind_assoc, pure_bind]
  rfl

theorem readCommand_accepts (is : format d jreg = some .readCommand) (good : CrcOk jreg 5) :
    (pure (readCommand d jreg 125) : Sim δ (DebugState × Buffer)) =
      respond u d jreg .readCommand >>= fun got => pure (got.1, Format.readCommand.encode d jreg got.2) := by
  have crc := (command_crc jcmdReadCommand (format_leads is) (format_command is (by decide))).mpr good
  have fields (accType : BitVec 8) (addr : Word) (len : BitVec 16) :
      crc32 (len.setWidth 64) 16 (crc32 (addr.setWidth 64) 32 (crc32 (accType.setWidth 64) 4 0xffffffff)) =
        Serial.crc crc32Poly 0xffffffff (commandBits accType addr len) := by
    unfold commandBits
    rw [Serial.crc_append, Serial.crc_append, crc32_setWidth _ (by decide), crc32_setWidth _ (by decide), crc32_setWidth _ (by decide)]
  show _ = pure _
  unfold readCommand
  rw [if_neg (by decide)]
  dsimp only
  rw [if_pos crc, fields, putCommand_merge]
  unfold Format.encode commandReply
  cases d.writeDefinedP <;> rfl

theorem writeCommand_accepts (is : format d jreg = some .writeCommand) (good : CrcOk jreg 57) :
    (pure (writeCommand d jreg 125) : Sim δ (DebugState × Buffer)) =
      respond u d jreg .writeCommand >>= fun got => pure (got.1, Format.writeCommand.encode d jreg got.2) := by
  have crc := (writeCommand_crc (format_leads is) (format_command is (by decide))).mpr good
  show _ = pure _
  unfold writeCommand
  rw [if_neg (by decide)]
  dsimp only
  rw [if_pos crc]
  rfl

theorem controlData_unused (d : DebugState) (m : Machine δ) (i : Nat) (above : 41 ≤ i) (below : i ≤ 45) :
    (controlData d m).getLsbD i = false := by
  unfold controlData
  split
  · split
    · have all : ∀ i < 46, ((1 : BitVec 64) <<< jcbStall).getLsbD i = false := by decide
      exact all i (by omega)
    · simp
  · simp

theorem readControl_accepts (is : format d jreg = some .readControl) (good : CrcOk jreg 5) :
    (do pure (readControl d jreg 125 (← get)) : Sim δ (DebugState × Buffer)) =
      respond u d jreg .readControl >>= fun got => pure (got.1, Format.readControl.encode d jreg got.2) := by
  have crc := (command_crc jcmdReadControl (format_leads is) (format_command is (by decide))).mpr good
  have all (m : Machine δ) : readControl d jreg 125 m = (d, Format.readControl.encode d jreg ⟨msbFirst 52 (controlData d m), jsOk⟩) := by
    unfold readControl
    rw [if_neg (by decide)]
    dsimp only
    rw [if_pos crc, crc32_eq, putControl_merge _ _ (controlData_unused d m)]
    rfl
  unfold respond
  simp only [all, bind_assoc, pure_bind]

theorem writeControl_accepts (is : format d jreg = some .writeControl) (good : CrcOk jreg 57) :
    writeControl u d jreg 125 =
      respond u d jreg .writeControl >>= fun got => pure (got.1, Format.writeControl.encode d jreg got.2) := by
  have crc := (writeControl_crc (format_leads is) (format_command is (by decide))).mpr good
  unfold writeControl
  rw [if_neg (by decide)]
  dsimp only
  rw [if_pos crc]
  unfold respond
  simp only [bind_assoc, pure_bind]
  rfl

/-- A request with a matching CRC gets the register with its answer. -/
theorem handler_accepts {f : Format} (is : format d jreg = some f) (good : CrcOk jreg (f.covered d)) :
    f.handler u d jreg (f.length d) = respond u d jreg f >>= fun got => pure (got.1, f.encode d jreg got.2) := by
  cases f with
  | selectModule => exact selectModule_accepts is good
  | goRead => exact goRead_accepts is good
  | goWrite => exact goWrite_accepts is good
  | readCommand => exact readCommand_accepts is good
  | writeCommand => exact writeCommand_accepts is good
  | readControl => exact readControl_accepts is good
  | writeControl => exact writeControl_accepts is good

/-! ### The documented layout -/

/-- A response as it is drawn: zeros, data, the status, and the CRC of the data and the status. -/
def responseBits (zeros : Nat) (data : List Bool) (status : Status) : List Bool :=
  List.replicate zeros false ++ data ++ msbFirst 4 status ++
    msbFirst 32 (Serial.crc crc32Poly 0xffffffff (data ++ msbFirst 4 status))

theorem length_responseBits (zeros : Nat) (data : List Bool) (status : Status) :
    (responseBits zeros data status).length = zeros + data.length + 36 := by
  unfold responseBits
  simp only [List.length_append, List.length_replicate, length_msbFirst]

theorem responseBits_zero {zeros k : Nat} (data : List Bool) (status : Status) (inside : k < zeros) :
    (responseBits zeros data status).getD k false = false := by
  unfold responseBits
  rw [List.append_assoc, List.append_assoc, List.getD_append _ _ _ _ (by rwa [List.length_replicate]), List.getD_replicate _ inside]

theorem responseBits_data {zeros k : Nat} {data : List Bool} (status : Status) (behind : zeros ≤ k) (inside : k < zeros + data.length) :
    (responseBits zeros data status).getD k false = data.getD (k - zeros) false := by
  unfold responseBits
  rw [List.append_assoc, List.append_assoc, List.getD_append_right _ _ _ _ (by rwa [List.length_replicate]), List.length_replicate,
    List.getD_append _ _ _ _ (by omega)]

theorem responseBits_end {zeros k : Nat} {data : List Bool} (status : Status) (behind : zeros + data.length ≤ k)
    (inside : k < zeros + data.length + 36) :
    (responseBits zeros data status).getD k false =
      responseBit status (Serial.crc crc32Poly 0xffffffff data) (k - (zeros + data.length)) := by
  unfold responseBits responseBit
  rw [crc32_setWidth _ (by decide), ← Serial.crc_append]
  by_cases first : k - (zeros + data.length) < 4
  · rw [if_pos first, List.getD_append _ _ _ _ (by simp; omega), List.getD_append_right _ _ _ _ (by simp; omega), List.length_append,
      List.length_replicate, getD_msbFirst _ first]
  · rw [if_neg first, List.getD_append_right _ _ _ _ (by simp; omega), List.length_append, List.length_append, List.length_replicate,
      length_msbFirst, getD_msbFirst _ (by omega), show 32 - 1 - (k - (zeros + data.length + 4)) =
        35 - (k - (zeros + data.length)) by omega]

/-- Where a response is OR-ed into what the request left in the register. -/
def Format.ored (d : DebugState) (k : Nat) (f : Format) : Bool :=
  ((f = .readCommand ∨ f = .readControl) && f.zeros d ≤ k && k < f.statusOff d) || (f.statusOff d ≤ k && k / 8 = f.statusOff d / 8)

theorem ored_zeros {f : Format} {k : Nat} (before : k < f.zeros d) : f.ored d k = false := by
  have off : f.zeros d ≤ f.statusOff d := Nat.le_add_right _ _
  unfold Format.ored
  simp [show ¬ f.zeros d ≤ k by omega, show ¬ f.statusOff d ≤ k by omega]

theorem ored_data {f : Format} {k : Nat} (behind : f.zeros d ≤ k) (inside : k < f.statusOff d) :
    f.ored d k = decide (f = .readCommand ∨ f = .readControl) := by
  unfold Format.ored
  simp [behind, inside, show ¬ f.statusOff d ≤ k by omega]

theorem ored_end {f : Format} {k : Nat} (behind : f.statusOff d ≤ k) : f.ored d k = decide (k / 8 = f.statusOff d / 8) := by
  unfold Format.ored
  simp [behind, show ¬ k < f.statusOff d by omega]

theorem bit_fill {f : Format} (jreg : Buffer) {data : List Bool} (length : data.length = f.data d) {k : Nat} (behind : f.zeros d ≤ k) :
    (f.fill jreg data).bit k =
      if k < f.statusOff d then data.getD (k - f.zeros d) false || (f.ored d k && jreg.bit k) else jreg.bit k := by
  have off : f.statusOff d = f.zeros d + data.length := by rw [length]; rfl
  have default (outside : ¬ k < f.statusOff d) : data.getD (k - f.zeros d) false = false := List.getD_eq_default _ _ (by omega)
  cases f with
  | selectModule | goWrite | writeCommand | writeControl =>
    rw [if_neg (by rw [off, length]; exact Nat.not_lt.mpr behind)]
    rfl
  | goRead =>
    refine (Buffer.bit_overlay jreg 37 data k).trans ?_
    split
    · next field =>
      have inside : k < Format.goRead.statusOff d := by rw [off]; exact field.2
      rw [if_pos inside, ored_data behind inside, decide_eq_false (by decide), Bool.false_and, Bool.or_false]
      rfl
    · next field => rw [if_neg fun inside => field ⟨behind, by rw [off] at inside; exact inside⟩]
  | readCommand | readControl =>
    refine (Buffer.bit_merge jreg 37 data k).trans ?_
    rw [decide_eq_true (show 37 ≤ k from behind), Bool.true_and]
    split
    · next inside =>
      rw [ored_data behind inside]
      exact Bool.or_comm _ _
    · next outside =>
      refine (congrArg (jreg.bit k || ·) (default outside)).trans ?_
      exact Bool.or_false _

theorem bit_encode {f : Format} (jreg : Buffer) {reply : Reply} (length : reply.data.length = f.data d) {k : Nat}
    (inside : k < f.length d) :
    (f.encode d jreg reply).bit k =
      ((responseBits (f.zeros d) reply.data reply.status).getD k false || (f.ored d k && jreg.bit k)) := by
  have off : f.statusOff d = f.zeros d + reply.data.length := by rw [length]; rfl
  have swap : f.data d + f.zeros d = f.statusOff d := Nat.add_comm _ _
  have all : f.length d = f.statusOff d + 36 := rfl
  unfold Format.encode
  rw [bit_constructResponse _ _ _ (zeros_small d f) (by omega), swap]
  by_cases front : k < f.zeros d
  · rw [if_pos (by omega), decide_eq_false (by omega), responseBits_zero _ _ front, ored_zeros front]
    rfl
  · rw [bit_fill jreg length (by omega)]
    by_cases data : k < f.statusOff d
    · rw [if_pos data, if_pos data, decide_eq_true (by omega), Bool.true_and, responseBits_data _ (by omega) (by omega)]
    · rw [if_neg data, if_neg data, responseBits_end _ (by omega) (by omega), ored_end (by omega), off]

/-- The register is the documented one if the request has no bit where only zeros are OR-ed in. -/
theorem encode_documented_iff {f : Format} (jreg : Buffer) {reply : Reply} (length : reply.data.length = f.data d) :
    (f.encode d jreg reply).bits 0 (f.length d) = responseBits (f.zeros d) reply.data reply.status ↔
      ∀ k < f.length d, f.ored d k = true → jreg.bit k = true →
        (responseBits (f.zeros d) reply.data reply.status).getD k false = true := by
  have all : f.length d = (responseBits (f.zeros d) reply.data reply.status).length := by
    rw [length_responseBits, length]
    rfl
  have bits := fun k (inside : k < f.length d) => bit_encode jreg length inside
  rw [all] at bits ⊢
  rw [Buffer.bits_eq_iff]
  generalize responseBits (f.zeros d) reply.data reply.status = documented at *
  refine forall₂_congr fun k inside => ?_
  rw [Nat.zero_add, bits k inside]
  cases documented.getD k false <;> cases f.ored d k <;> cases jreg.bit k <;> decide

/-! ### Lengths -/

theorem length_dataBits (bytes : List (BitVec 8)) : (dataBits bytes).length = 8 * bytes.length := by
  induction bytes with
  | nil => rfl
  | cons byte bytes ih =>
    show (msbFirst 8 byte ++ dataBits bytes).length = _
    rw [List.length_append, length_msbFirst, ih, List.length_cons]
    omega

theorem length_commandBits (accType : BitVec 8) (addr : Word) (len : BitVec 16) : (commandBits accType addr len).length = 52 := by
  unfold commandBits
  simp only [List.length_append, length_msbFirst]

theorem readBytes_length {more i : Nat} {status status' : Status} {bytes : List (BitVec 8)} {m m' : Machine δ}
    (ran : readBytes u d more i status m = .ok ((bytes, status'), m')) : bytes.length = more := by
  induction more generalizing i status bytes m with
  | zero =>
    cases ran
    rfl
  | succ more ih =>
    unfold readBytes at ran
    obtain ⟨got, _, _, ran⟩ := Programs.bind_ok ran
    obtain ⟨rest, _, read, ran⟩ := Programs.bind_ok ran
    cases ran
    rw [List.length_cons, ih read]

theorem moduleBytes_length {bytes : List (BitVec 8)} {status : Status} {m m' : Machine δ}
    (ran : moduleBytes u d m = .ok ((d', bytes, status), m')) : bytes.length = d.size.val := by
  cases module : d.modId with
  | wishbone =>
    simp only [moduleBytes, module] at ran
    obtain ⟨got, _, read, ran⟩ := Programs.bind_ok ran
    cases ran
    exact readBytes_length read
  | cpu0 =>
    simp only [moduleBytes, module, Programs.get_bind] at ran
    cases ran
    rw [List.length_map, List.length_range]
  | cpu1 | undefined =>
    simp only [moduleBytes, module] at ran
    cases ran
    exact List.length_replicate

theorem respond_length {f : Format} {reply : Reply} {m m' : Machine δ} (ran : respond u d jreg f m = .ok ((d', reply), m')) :
    reply.data.length = f.data d := by
  unfold respond at ran
  cases f with
  | selectModule | writeCommand =>
    cases ran
    rfl
  | goRead =>
    obtain ⟨got, _, read, ran⟩ := Programs.bind_ok ran
    cases ran
    rw [length_dataBits, moduleBytes_length read]
    rfl
  | goWrite | writeControl =>
    obtain ⟨got, _, _, ran⟩ := Programs.bind_ok ran
    cases ran
    rfl
  | readCommand =>
    cases ran
    show (commandReply d).length = 52
    unfold commandReply
    split <;> exact length_commandBits _ _ _
  | readControl =>
    obtain ⟨_, _, _, ran⟩ := Programs.bind_ok ran
    cases ran
    exact length_msbFirst _ _

/-! ### A CRC that does not match -/

/-- What the request has behind its CRC is left in the register, and the CRC of the response is not that
of these bits. -/
def Format.EchoVerifies (d : DebugState) (jreg : Buffer) : Format → Prop
  | .goRead =>
    (∀ i < 3, jreg.bit (37 + 8 * d.size.val + i) = false) ∧ Serial.crc crc32Poly 0xffffffff (jreg.bits 37 (8 * d.size.val)) = 0
  | .readCommand | .readControl =>
    (∀ i < 3, jreg.bit (89 + i) = false) ∧
      Serial.crc crc32Poly 0xffffffff (msbFirst 4 jsCrcInError) ||| ((jreg.value 93 3).setWidth 32 <<< 29) =
        Serial.crc crc32Poly 0xffffffff (jreg.bits 37 52 ++ msbFirst 4 jsCrcInError)
  | f => ∀ k < f.length d, f.ored d k = true → jreg.bit k = true → (responseBits (f.zeros d) [] jsCrcInError).getD k false = true

/-- The register of a rejected request, with some data. -/
theorem rejected_documented_iff (d : DebugState) (jreg : Buffer) (seed : Word) (f : Format) :
    (∃ data : List Bool, data.length = f.data d ∧
      (constructResponse jreg jsCrcInError seed (f.data d) (f.zeros d)).bits 0 (f.length d) =
        responseBits (f.zeros d) data jsCrcInError) ↔
    ∀ i < 36, (responseBit jsCrcInError seed i || (decide ((f.statusOff d + i) / 8 = f.statusOff d / 8) && jreg.bit
      (f.statusOff d + i))) =
      responseBit jsCrcInError (Serial.crc crc32Poly 0xffffffff (jreg.bits (f.zeros d) (f.data d))) i := by
  have swap : f.data d + f.zeros d = f.statusOff d := Nat.add_comm _ _
  have all : f.length d = f.statusOff d + 36 := rfl
  have off : f.statusOff d = f.zeros d + f.data d := rfl
  have bits := fun k (inside : k < f.length d) => bit_constructResponse jreg jsCrcInError seed (zeros_small d f) (k := k) (by omega)
  rw [swap] at bits
  generalize constructResponse jreg jsCrcInError seed (f.data d) (f.zeros d) = out at *
  have documented (data : List Bool) (length : data.length = f.data d) :
      out.bits 0 (f.length d) = responseBits (f.zeros d) data jsCrcInError ↔
        ∀ k < f.length d, out.bit k = (responseBits (f.zeros d) data jsCrcInError).getD k false := by
    have same := Buffer.bits_eq_iff out 0 (responseBits (f.zeros d) data jsCrcInError)
    rw [length_responseBits, length] at same
    simp only [Nat.zero_add] at same
    exact same
  constructor
  · rintro ⟨data, length, same⟩ i inside
    rw [documented data length] at same
    have echo : jreg.bits (f.zeros d) data.length = data := by
      rw [Buffer.bits_eq_iff]
      intro k small
      have here := same (f.zeros d + k) (by omega)
      rw [bits _ (by omega), if_pos (by omega), decide_eq_true (by omega), Bool.true_and, responseBits_data _ (by omega) (by omega),
        Nat.add_sub_cancel_left] at here
      exact here
    have here := same (f.statusOff d + i) (by omega)
    rw [bits _ (by omega), if_neg (by omega), responseBits_end _ (by omega) (by omega), Nat.add_sub_cancel_left,
      show f.statusOff d + i - (f.zeros d + data.length) = i by omega] at here
    rw [← length, echo]
    exact here
  · intro same
    have length := jreg.bits_length (f.zeros d) (f.data d)
    refine ⟨jreg.bits (f.zeros d) (f.data d), length, (documented _ length).mpr fun k inside => ?_⟩
    rw [bits k inside]
    by_cases front : k < f.zeros d
    · rw [if_pos (by omega), decide_eq_false (by omega), responseBits_zero _ _ front]
      rfl
    · by_cases data : k < f.statusOff d
      · rw [if_pos data, decide_eq_true (by omega), Bool.true_and, responseBits_data _ (by omega) (by omega),
          Buffer.getD_bits _ _ (by omega), show f.zeros d + (k - f.zeros d) = k by omega]
      · have here := same (k - f.statusOff d) (by omega)
        rw [show f.statusOff d + (k - f.statusOff d) = k by omega] at here
        rw [if_neg data, responseBits_end _ (by omega) (by omega), here, length, off]

theorem forall_end (p : Nat → Prop) : (∀ i < 36, p i) ↔ (∀ i < 4, p i) ∧ ∀ i < 32, p (35 - i) := by
  constructor
  · intro all
    exact ⟨fun i inside => all i (by omega), fun i inside => all (35 - i) (by omega)⟩
  · rintro ⟨status, crc⟩ i inside
    by_cases first : i < 4
    · exact status i first
    · have here := crc (35 - i) (by omega)
      rwa [show 35 - (35 - i) = i by omega] at here

theorem responseBit_status (seed : Word) {i : Nat} (inside : i < 4) : responseBit jsCrcInError seed i = decide (i = 3) := by
  unfold responseBit
  rw [if_pos inside]
  revert i
  decide

theorem responseBit_crc (status : Status) (seed : Word) {i : Nat} (inside : i < 32) :
    responseBit status seed (35 - i) = (Serial.crc crc32Poly seed (msbFirst 4 status)).getLsbD i := by
  unfold responseBit
  rw [if_neg (by omega), crc32_setWidth _ (by decide), show 35 - (35 - i) = i by omega]

theorem goRead_echo_iff (d : DebugState) (jreg : Buffer) :
    (∀ i < 36, (responseBit jsCrcInError 0 i ||
        (decide ((Format.goRead.statusOff d + i) / 8 = Format.goRead.statusOff d / 8) && jreg.bit (Format.goRead.statusOff d + i))) =
      responseBit jsCrcInError (Serial.crc crc32Poly 0xffffffff (jreg.bits 37 (8 * d.size.val))) i) ↔
        Format.goRead.EchoVerifies d jreg := by
  have off : Format.goRead.statusOff d = 37 + 8 * d.size.val := rfl
  rw [forall_end, off]
  refine and_congr ⟨fun same i inside => ?_, fun same i inside => ?_⟩ ⟨fun same => ?_, fun same i inside => ?_⟩
  · have here := same i (by omega)
    rw [responseBit_status _ (by omega), responseBit_status _ (by omega), decide_eq_false (by omega), decide_eq_true (by omega)] at here
    exact here
  · rw [responseBit_status _ inside, responseBit_status _ inside]
    by_cases last : i < 3
    · rw [same i last, Bool.and_false, Bool.or_false]
    · rw [decide_eq_true (by omega : i = 3)]
      rfl
  · have equal : Serial.crc crc32Poly 0 (msbFirst 4 jsCrcInError) =
        Serial.crc crc32Poly (Serial.crc crc32Poly 0xffffffff (jreg.bits 37 (8 * d.size.val))) (msbFirst 4 jsCrcInError) := by
      apply BitVec.eq_of_getLsbD_eq
      intro i inside
      have here := same i inside
      rw [responseBit_crc _ _ inside, responseBit_crc _ _ inside, decide_eq_false (by omega), Bool.false_and, Bool.or_false] at here
      exact here
    exact (Serial.crc_injective crc32Poly_odd _ equal).symm
  · rw [same, decide_eq_false (by omega), Bool.false_and, Bool.or_false]

theorem getLsbD_crcTop (jreg : Buffer) {i : Nat} (inside : i < 32) :
    ((jreg.value 93 3).setWidth 32 <<< 29).getLsbD i = (decide (29 ≤ i) && jreg.bit (89 + (35 - i))) := by
  rw [BitVec.getLsbD_shiftLeft, BitVec.getLsbD_setWidth]
  by_cases top : 29 ≤ i
  · rw [Buffer.getLsbD_value _ _ _ (by omega), show 93 + (3 - 1 - (i - 29)) = 89 + (35 - i) by omega]
    simp [inside, top, show i - 29 < 32 by omega]
  · simp [top]

theorem read_echo_iff {f : Format} (read : f = .readCommand ∨ f = .readControl) (d : DebugState) (jreg : Buffer) :
    (∀ i < 36, (responseBit jsCrcInError 0xffffffff i ||
        (decide ((f.statusOff d + i) / 8 = f.statusOff d / 8) && jreg.bit (f.statusOff d + i))) =
      responseBit jsCrcInError (Serial.crc crc32Poly 0xffffffff (jreg.bits 37 52)) i) ↔ f.EchoVerifies d jreg := by
  have off : f.statusOff d = 89 := by rcases read with rfl | rfl <;> rfl
  have verifies : f.EchoVerifies d jreg = Format.readCommand.EchoVerifies d jreg := by rcases read with rfl | rfl <;> rfl
  rw [forall_end, off, verifies]
  refine and_congr ⟨fun same i inside => ?_, fun same i inside => ?_⟩ ⟨fun same => ?_, fun same i inside => ?_⟩
  · have here := same i (by omega)
    rw [responseBit_status _ (by omega), responseBit_status _ (by omega), decide_eq_false (by omega), decide_eq_true (by omega)] at here
    exact here
  · rw [responseBit_status _ inside, responseBit_status _ inside]
    by_cases last : i < 3
    · rw [same i last, Bool.and_false, Bool.or_false]
    · rw [decide_eq_true (by omega : i = 3)]
      rfl
  · apply BitVec.eq_of_getLsbD_eq
    intro i inside
    have here := same i inside
    rw [responseBit_crc _ _ inside, responseBit_crc _ _ inside, ← Serial.crc_append] at here
    rw [BitVec.getLsbD_or, getLsbD_crcTop _ inside, ← here]
    congr 3
    apply propext
    omega
  · rw [responseBit_crc _ _ inside, responseBit_crc _ _ inside, ← Serial.crc_append, ← same, BitVec.getLsbD_or, getLsbD_crcTop _ inside]
    congr 3
    apply propext
    omega

theorem echo_iff (d : DebugState) (jreg : Buffer) (f : Format) :
    (∃ data : List Bool, data.length = f.data d ∧
      (constructResponse jreg jsCrcInError f.rejectedCrc (f.data d) (f.zeros d)).bits 0 (f.length d) =
        responseBits (f.zeros d) data jsCrcInError) ↔ f.EchoVerifies d jreg := by
  have plain (empty : f.data d = 0) (seed : f.rejectedCrc = 0xffffffff) (filled : f.fill jreg [] = jreg) :
      (∃ data : List Bool, data.length = f.data d ∧
        (constructResponse jreg jsCrcInError f.rejectedCrc (f.data d) (f.zeros d)).bits 0 (f.length d) =
          responseBits (f.zeros d) data jsCrcInError) ↔
      ∀ k < f.length d, f.ored d k = true → jreg.bit k = true → (responseBits (f.zeros d) [] jsCrcInError).getD k false = true := by
    have same : (f.encode d jreg ⟨[], jsCrcInError⟩).bits 0 (f.length d) = responseBits (f.zeros d) [] jsCrcInError ↔ _ :=
      encode_documented_iff jreg empty.symm
    unfold Format.encode at same
    rw [← same, seed, filled]
    constructor
    · rintro ⟨data, length, is⟩
      rw [empty, List.length_eq_zero_iff] at length
      rw [length] at is
      exact is
    · exact fun is => ⟨[], empty.symm, is⟩
  cases f with
  | selectModule | goWrite | writeCommand | writeControl => exact plain rfl rfl rfl
  | goRead => exact (rejected_documented_iff d jreg 0 .goRead).trans (goRead_echo_iff d jreg)
  | readCommand => exact (rejected_documented_iff d jreg _ .readCommand).trans (read_echo_iff (.inl rfl) d jreg)
  | readControl => exact (rejected_documented_iff d jreg _ .readControl).trans (read_echo_iff (.inr rfl) d jreg)

/-! ### Every response -/

/-- The data that is read and the status. With a CRC that does not match nothing is read, and any data
will do. -/
def Answers (u : DebugConfig δ) (d : DebugState) (jreg : Buffer) (f : Format) (m : Machine δ) (reply : Reply) : Prop :=
  if CrcOk jreg (f.covered d) then ∃ d' m', respond u d jreg f m = .ok ((d', reply), m')
  else reply.data.length = f.data d ∧ reply.status = jsCrcInError

def Documented (u : DebugConfig δ) (d : DebugState) (jreg : Buffer) (f : Format) (m : Machine δ) (out : Buffer) : Prop :=
  ∃ reply, Answers u d jreg f m reply ∧ out.bits 0 (f.length d) = responseBits (f.zeros d) reply.data reply.status

/-- The request has no bit where the response is OR-ed into it and has a zero, and bits that stay in
place of data happen to have the CRC. -/
def Unmixed (u : DebugConfig δ) (d : DebugState) (jreg : Buffer) (f : Format) (m : Machine δ) : Prop :=
  if CrcOk jreg (f.covered d) then
    ∀ reply, Answers u d jreg f m reply → ∀ k < f.length d, f.ored d k = true → jreg.bit k = true →
      (responseBits (f.zeros d) reply.data reply.status).getD k false = true
  else f.EchoVerifies d jreg

theorem response_documented_iff {f : Format} {numBits : Nat} {m m' : Machine δ} {out : Buffer} (debug : d.instr = some jiDebug)
    (is : format d jreg = some f) (expected : numBits = f.length d) (ran : jtagShiftDr u d jreg numBits m = .ok ((d', out), m')) :
    Documented u d jreg f m out ↔ Unmixed u d jreg f m := by
  subst expected
  rw [shiftDr_handler debug is] at ran
  unfold Documented Unmixed Answers
  by_cases good : CrcOk jreg (f.covered d)
  · rw [handler_accepts is good] at ran
    obtain ⟨⟨d₁, reply⟩, m₁, answered, ended⟩ := Programs.bind_ok ran
    cases ended
    have only {reply' : Reply} (other : ∃ d' m', respond u d jreg f m = .ok ((d', reply'), m')) : reply' = reply := by
      obtain ⟨_, _, other⟩ := other
      rw [answered] at other
      cases other
      rfl
    have length := respond_length answered
    simp only [if_pos good]
    constructor
    · rintro ⟨reply', other, same⟩ reply'' other'
      rw [only other] at same
      rw [only other']
      exact (encode_documented_iff jreg length).mp same
    · intro unmixed
      exact ⟨reply, ⟨_, _, answered⟩, (encode_documented_iff jreg length).mpr (unmixed reply ⟨_, _, answered⟩)⟩
  · rw [handler_rejects is good] at ran
    cases ran
    simp only [if_neg good]
    rw [← echo_iff]
    constructor
    · rintro ⟨reply, ⟨length, status⟩, same⟩
      rw [status] at same
      exact ⟨reply.data, length, same⟩
    · rintro ⟨data, length, same⟩
      exact ⟨⟨data, jsCrcInError⟩, ⟨length, rfl⟩, same⟩

theorem Documented.answered {f : Format} {m : Machine δ} {out : Buffer} (documented : Documented u d jreg f m out)
    (good : CrcOk jreg (f.covered d)) :
    ∃ reply d' m', respond u d jreg f m = .ok ((d', reply), m') ∧
      out.bits 0 (f.length d) = responseBits (f.zeros d) reply.data reply.status := by
  obtain ⟨reply, answers, same⟩ := documented
  unfold Answers at answers
  rw [if_pos good] at answers
  obtain ⟨d', m', answered⟩ := answers
  exact ⟨reply, d', m', answered, same⟩

def debugging : DebugState := ⟨some jiDebug, .undefined, false, .write8, 0, 0⟩

theorem response_documented_select :
    Documented plainDebug debugging selectWishbone .selectModule (Cpu.Machine.bare (fun _ => 0) 0 0x2000)
      (selectModule debugging selectWishbone 73).2 := by
  have is : format debugging selectWishbone = some .selectModule := by decide +kernel
  refine (response_documented_iff (u := plainDebug) (m := Cpu.Machine.bare (fun _ => 0) 0 0x2000) rfl is rfl
    (by rw [shiftDr_handler rfl is]; rfl)).mpr ?_
  have zeros : ∀ k < 73, Format.selectModule.ored debugging k = true → selectWishbone.bit k = false := by decide +kernel
  unfold Unmixed
  rw [if_pos (by decide +kernel)]
  intro reply _ k inside ored set
  rw [zeros k inside ored] at set
  cases set

/-- A request that selects the WishBone module, with a one behind its CRC. -/
def selectIgnored : Buffer := selectWishbone.merge 37 [true]

/-- The status has the bit of an overrun. -/
theorem ignored_bit_in_status : ¬ ∀ (u : DebugConfig (Word → Word)) (d : DebugState) (jreg : Buffer) (f : Format) (numBits : Nat)
    (m m' : Machine (Word → Word)) (d' : DebugState) (out : Buffer), d.instr = some jiDebug → format d jreg = some f →
    numBits = f.length d → jtagShiftDr u d jreg numBits m = .ok ((d', out), m') → Documented u d jreg f m out := by
  intro claim
  have is : format debugging selectIgnored = some .selectModule := by decide +kernel
  obtain ⟨reply, _, _, answered, same⟩ := (claim plainDebug debugging selectIgnored .selectModule 73
    (Cpu.Machine.bare (fun _ => 0) 0 0x2000) _ _ (selectModule debugging selectIgnored 73).2 rfl is rfl
    (by rw [shiftDr_handler rfl is]; rfl)).answered (by decide +kernel)
  have code : (selectIgnored.value 1 4).toNat = 0 := by decide +kernel
  have answer : (⟨[], jsOk⟩ : Reply) = reply := by
    have second := congrArg (fun r => r.1.2) (Except.ok.inj answered)
    dsimp only at second
    rw [code] at second
    exact second
  rw [← answer] at same
  have differs : (selectModule debugging selectIgnored 73).2.bits 0 73 ≠ responseBits 37 [] jsOk := by decide +kernel
  exact differs same

end Or1ksim.Debug
