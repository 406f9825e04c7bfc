import Or1ksim.Debug.Response

/-!
# Transfers of blocks

A WRITE_COMMAND followed by GO_COMMANDs, each of which takes one block at the address where the one
before it ended. What a module does with a block is its port; the runs are the same for all ports.
-/

namespace Or1ksim.Debug

open Serial (Buffer Shows msbFirst length_msbFirst getD_msbFirst)
open Cpu (Word Machine Sim)

variable {δ : Type} {u : DebugConfig δ} {d d' : DebugState} {jreg : Buffer}

/-! ### Requests -/

structure IsWriteCommand (jreg : Buffer) (accType : AccType) (addr : Word) (len : BitVec 16) : Prop where
  leads : jreg.bit 0 = false
  command : jreg.value 1 4 = 2
  access : jreg.value 5 4 = accType.code.setWidth 4
  address : jreg.value 9 32 = addr
  length : jreg.value 41 16 = len
  crc : CrcOk jreg 57

structure IsGo (jreg : Buffer) (covered : Nat) : Prop where
  leads : jreg.bit 0 = false
  command : jreg.value 1 4 = 0
  crc : CrcOk jreg covered

/-- The block that a GO_COMMAND for write carries. -/
def Carries (jreg : Buffer) (block : List (BitVec 8)) : Prop := jreg.bits 5 (8 * block.length) = dataBits block

theorem length_succ_lt (len : BitVec 16) : len.toNat + 1 < 2 ^ 16 + 1 := Nat.succ_lt_succ len.isLt

/-- The size that a length field stands for. -/
def sizeOf (len : BitVec 16) : Fin (2 ^ 16 + 1) := ⟨len.toNat + 1, length_succ_lt len⟩

theorem IsWriteCommand.format {accType : AccType} {addr : Word} {len : BitVec 16} (is : IsWriteCommand jreg accType addr len)
    (d : DebugState) : Debug.format d jreg = some .writeCommand := by
  unfold Debug.format
  rw [if_neg (by rw [is.leads]; exact Bool.false_ne_true), is.command]
  rfl

theorem IsGo.format {covered : Nat} (is : IsGo jreg covered) (defined : d.writeDefinedP = true) :
    Debug.format d jreg = some (if d.accType.isWrite then .goWrite else .goRead) := by
  unfold Debug.format
  rw [if_neg (by rw [is.leads]; exact Bool.false_ne_true), is.command]
  exact if_pos defined

theorem ofCode_accTypeField {accType : AccType} (shown : jreg.value 5 4 = accType.code.setWidth 4) :
    AccType.ofCode (accTypeField jreg) = some accType := by
  have same : jreg.value 5 4 = (accTypeField jreg).setWidth 4 := ((shows_accType jreg).setWidth (by decide)).value
  have small : (accTypeField jreg).toNat < 2 ^ 4 := by
    unfold accTypeField
    rw [BitVec.toNat_setWidth]
    exact Nat.lt_of_le_of_lt (Nat.mod_le _ _) (reverseBits_toNat_lt _ (by decide))
  have codes := congrArg BitVec.toNat (same.symm.trans shown)
  rw [BitVec.toNat_setWidth, BitVec.toNat_setWidth, Nat.mod_eq_of_lt small] at codes
  unfold AccType.ofCode
  rw [codes]
  cases accType <;> rfl

theorem shiftDr_writeCommand {accType : AccType} {addr : Word} {len : BitVec 16} (debug : d.instr = some jiDebug)
    (is : IsWriteCommand jreg accType addr len) (stored : DebugState) (defines : defineWrite d (some accType) addr len = stored) :
    jtagShiftDr u d jreg 125 = pure (stored, Format.writeCommand.encode d jreg ⟨[], jsOk⟩) := by
  have address : reverse32 (gather1 jreg 1) = addr := (shows_gather1 jreg 1).value.symm.trans is.address
  have length : lenField jreg = len := (shows_len jreg).value.symm.trans is.length
  have accepted := handler_accepts (u := u) (is.format d) is.crc
  rw [shiftDr_handler debug (is.format d)]
  refine accepted.trans ?_
  unfold respond
  rw [pure_bind, ofCode_accTypeField is.access, address, length, defines]

theorem shiftDr_goWrite (debug : d.instr = some jiDebug) (defined : d.writeDefinedP = true) (write : d.accType.isWrite = true)
    (is : IsGo jreg (5 + 8 * d.size.val)) :
    jtagShiftDr u d jreg (73 + 8 * d.size.val) = moduleWrite u d jreg d.size.val jsOk >>= fun got =>
      pure (got.1, Format.goWrite.encode d jreg ⟨[], got.2⟩) := by
  have formed : Debug.format d jreg = some .goWrite := by rw [is.format defined, write]; rfl
  have length : 73 + 8 * d.size.val = Format.goWrite.length d := by
    show _ = 5 + 8 * d.size.val + 32 + 0 + 36
    omega
  rw [shiftDr_handler debug formed, length, handler_accepts formed is.crc]
  unfold respond
  simp only [bind_assoc, pure_bind]

theorem shiftDr_goRead (debug : d.instr = some jiDebug) (defined : d.writeDefinedP = true) (read : d.accType.isWrite = false)
    (is : IsGo jreg 5) :
    jtagShiftDr u d jreg (73 + 8 * d.size.val) = moduleBytes u d >>= fun got =>
      pure (got.1, Format.goRead.encode d jreg ⟨dataBits got.2.1, got.2.2⟩) := by
  have formed : Debug.format d jreg = some .goRead := by rw [is.format defined, read]; rfl
  have length : 73 + 8 * d.size.val = Format.goRead.length d := by
    show _ = 5 + 32 + 8 * d.size.val + 36
    omega
  rw [shiftDr_handler debug formed, length, handler_accepts formed is.crc]
  unfold respond
  simp only [bind_assoc, pure_bind]

/-! ### What the host reads in a response -/

/-- The ignored bits of a request that get into the status of its response. -/
def Format.StatusClean (d : DebugState) (jreg : Buffer) (f : Format) : Prop :=
  ∀ i < 4, f.ored d (f.statusOff d + i) = true → jreg.bit (f.statusOff d + i) = false

theorem encode_status_iff {f : Format} (jreg : Buffer) {data : List Bool} (length : data.length = f.data d) :
    (f.encode d jreg ⟨data, jsOk⟩).value (f.statusOff d) 4 = 0 ↔ f.StatusClean d jreg := by
  have off : f.statusOff d = f.zeros d + data.length := by rw [length]; rfl
  have bits (i : Nat) (inside : i < 4) : (f.encode d jreg ⟨data, jsOk⟩).bit (f.statusOff d + i) =
      (f.ored d (f.statusOff d + i) && jreg.bit (f.statusOff d + i)) := by
    have none : responseBit jsOk (Serial.crc crc32Poly 0xffffffff data) i = false := by
      unfold responseBit
      rw [if_pos inside]
      exact BitVec.getLsbD_zero
    rw [bit_encode jreg length (show _ < f.statusOff d + 36 by omega)]
    dsimp only
    rw [responseBits_end _ (by omega) (by omega), show f.statusOff d + i - (f.zeros d + data.length) = i by omega, none, Bool.false_or]
  constructor
  · intro zero i inside ored
    have here := congrArg (fun v => BitVec.getLsbD v (3 - i)) zero
    rw [Buffer.getLsbD_value _ _ _ (by omega), show 4 - 1 - (3 - i) = i by omega, bits i inside, ored, Bool.true_and] at here
    exact here.trans BitVec.getLsbD_zero
  · intro clean
    apply BitVec.eq_of_getLsbD_eq
    intro i inside
    have none : (0 : BitVec 4).getLsbD i = false := BitVec.getLsbD_zero
    rw [Buffer.getLsbD_value _ _ _ inside, bits _ (by omega), none]
    cases ored : f.ored d (f.statusOff d + (4 - 1 - i)) with
    | false => rfl
    | true => rw [clean _ (by omega) ored, Bool.and_false]

theorem encode_data (jreg : Buffer) {data : List Bool} (length : data.length = Format.goRead.data d) (status : Status) :
    (Format.goRead.encode d jreg ⟨data, status⟩).bits 37 data.length = data := by
  have off : Format.goRead.statusOff d = 37 + data.length := by rw [length]; rfl
  rw [Buffer.bits_eq_iff]
  intro k inside
  rw [bit_encode jreg length (show _ < Format.goRead.statusOff d + 36 by omega)]
  dsimp only
  rw [responseBits_data _ (by show 37 ≤ _; omega) (by show _ < 37 + _; omega),
    ored_data (by show 37 ≤ _; omega) (by omega), decide_eq_false (by decide), Bool.false_and, Bool.or_false]
  show data.getD (37 + k - 37) false = _
  rw [Nat.add_sub_cancel_left]

/-! ### Runs -/

/-- Registers that are shifted one after the other. -/
def shifts (u : DebugConfig δ) : List (Buffer × Nat) → DebugState → Sim δ (DebugState × List Buffer)
  | [], d => pure (d, [])
  | request :: requests, d => do
    let first ← jtagShiftDr u d request.1 request.2
    let rest ← shifts u requests first.1
    pure (rest.1, first.2 :: rest.2)

theorem shifts_append (first second : List (Buffer × Nat)) (d : DebugState) :
    shifts u (first ++ second) d = shifts u first d >>= fun got => shifts u second got.1 >>= fun got' =>
      pure (got'.1, got.2 ++ got'.2) := by
  induction first generalizing d with
  | nil =>
    show shifts u second d = pure _ >>= _
    simp only [pure_bind, List.nil_append, Prod.mk.eta, bind_pure]
  | cons request requests ih =>
    rw [List.cons_append, shifts, shifts]
    simp only [ih, bind_assoc, pure_bind, List.cons_append]

/-- What a module does with the blocks at the addresses that a transfer passes. -/
structure Port (u : DebugConfig δ) (module : ModId) (size : Fin (2 ^ 16 + 1)) (addr : Nat → Nat) (n : Nat) where
  Ready : Machine δ → Prop
  block : Machine δ → Nat → List (BitVec 8)
  /-- What is not one of the blocks stays. -/
  Rest : Machine δ → Machine δ → Prop
  refl : ∀ m, Rest m m
  trans : ∀ {m₁ m₂ m₃}, Rest m₁ m₂ → Rest m₂ m₃ → Rest m₁ m₃
  length : ∀ m k, (block m k).length = size.val
  writes : ∀ {m : Machine δ} {d : DebugState} {jreg : Buffer} {k : Nat} {bytes : List (BitVec 8)}, k < n → Ready m →
    d.modId = module → d.size = size → d.addr = addr k → bytes.length = size.val → Carries jreg bytes →
    ∃ m', moduleWrite u d jreg d.size.val jsOk m = .ok (({ d with addr := addr (k + 1) }, jsOk), m') ∧ Ready m' ∧ Rest m m' ∧
      ∀ j < n, block m' j = if j = k then bytes else block m j
  reads : ∀ {m : Machine δ} {d : DebugState} {k : Nat}, k < n → Ready m → d.modId = module → d.size = size → d.addr = addr k →
    ∃ m', moduleBytes u d m = .ok (({ d with addr := addr (k + 1) }, block m k, jsOk), m') ∧ Ready m' ∧ Rest m m' ∧
      ∀ j < n, block m' j = block m j

section
variable {module : ModId} {size : Fin (2 ^ 16 + 1)} {addr : Nat → Nat} {n : Nat}

/-- A state that is ready for the block `k`. -/
structure At (d : DebugState) (module : ModId) (size : Fin (2 ^ 16 + 1)) (addr : Nat) : Prop where
  instr : d.instr = some jiDebug
  defined : d.writeDefinedP = true
  modId : d.modId = module
  size : d.size = size
  addr : d.addr = addr

/-- A GO_COMMAND for write of a block. -/
structure IsGoWrite (size : Fin (2 ^ 16 + 1)) (jreg : Buffer) (block : List (BitVec 8)) : Prop where
  go : IsGo jreg (5 + 8 * size.val)
  length : block.length = size.val
  carries : Carries jreg block

theorem writes_run (port : Port u module size addr n) {gos : List Buffer} {blocks : List (List (BitVec 8))}
    (each : List.Forall₂ (IsGoWrite size) gos blocks) (k : Nat) (inside : k + blocks.length ≤ n)
    (here : At d module size (addr k)) (write : d.accType.isWrite = true) {m : Machine δ} (ready : port.Ready m) :
    ∃ m', shifts u (gos.map fun jreg => (jreg, 73 + 8 * size.val)) d m =
        .ok (({ d with addr := addr (k + blocks.length) }, gos.map fun jreg => Format.goWrite.encode d jreg ⟨[], jsOk⟩), m') ∧
      port.Ready m' ∧ port.Rest m m' ∧
      ∀ j < n, port.block m' j = if k ≤ j ∧ j < k + blocks.length then blocks.getD (j - k) [] else port.block m j := by
  induction each generalizing k d m with
  | nil =>
    refine ⟨m, ?_, ready, port.refl m, fun j _ => ?_⟩
    · show Except.ok ((d, []), m) = _
      rw [List.length_nil, Nat.add_zero, ← here.addr]
      rfl
    · rw [if_neg (by rw [List.length_nil]; omega)]
  | @cons go block gos blocks first rest ih =>
    rw [List.length_cons] at inside ⊢
    obtain ⟨m₁, wrote, ready₁, rest₁, block₁⟩ :=
      port.writes (k := k) (by omega) ready here.modId here.size here.addr first.length first.carries
    obtain ⟨m', ran, ready', rest', block'⟩ := ih (d := { d with addr := addr (k + 1) }) (k + 1) (by omega)
      ⟨here.instr, here.defined, here.modId, here.size, rfl⟩ write ready₁
    refine ⟨m', ?_, ready', port.trans rest₁ rest', fun j small => ?_⟩
    · have shifted : jtagShiftDr u d go (73 + 8 * size.val) m =
          .ok (({ d with addr := addr (k + 1) }, Format.goWrite.encode d go ⟨[], jsOk⟩), m₁) := by
        rw [← here.size, shiftDr_goWrite here.instr here.defined write (by rw [here.size]; exact first.go)]
        exact Programs.bind_of_ok wrote
      rw [List.map_cons, shifts]
      refine (Programs.bind_of_ok shifted).trans ((Programs.bind_of_ok ran).trans ?_)
      rw [show k + 1 + blocks.length = k + (blocks.length + 1) by omega]
      rfl
    · rw [block' j small, block₁ j small]
      by_cases now : j = k
      · rw [if_neg (by omega), if_pos now, if_pos (by omega), now, Nat.sub_self]
        rfl
      · by_cases later : k + 1 ≤ j ∧ j < k + 1 + blocks.length
        · rw [if_pos later, if_pos (by omega), show j - k = j - (k + 1) + 1 by omega]
          rfl
        · rw [if_neg later, if_neg now, if_neg (by omega)]

theorem reads_run (port : Port u module size addr n) (gos : List Buffer) (each : ∀ jreg ∈ gos, IsGo jreg 5) (k : Nat)
    (inside : k + gos.length ≤ n) (here : At d module size (addr k)) (read : d.accType.isWrite = false) {m : Machine δ}
    (ready : port.Ready m) (blocks : List (List (BitVec 8))) (all : blocks.length = gos.length)
    (held : ∀ j < blocks.length, port.block m (k + j) = blocks.getD j []) :
    ∃ m', shifts u (gos.map fun jreg => (jreg, 73 + 8 * size.val)) d m =
        .ok (({ d with addr := addr (k + gos.length) },
          List.zipWith (fun jreg block => Format.goRead.encode d jreg ⟨dataBits block, jsOk⟩) gos blocks), m') ∧
      port.Ready m' ∧ port.Rest m m' ∧ ∀ j < n, port.block m' j = port.block m j := by
  induction gos generalizing k d m blocks with
  | nil =>
    refine ⟨m, ?_, ready, port.refl m, fun j _ => rfl⟩
    show Except.ok ((d, []), m) = _
    rw [List.length_nil, Nat.add_zero, ← here.addr]
    rfl
  | cons go gos ih =>
    rw [List.length_cons] at inside all ⊢
    obtain ⟨block, blocks, rfl⟩ : ∃ block rest, blocks = block :: rest := List.exists_cons_of_length_eq_add_one all
    rw [List.length_cons, Nat.add_right_cancel_iff] at all
    obtain ⟨m₁, got, ready₁, rest₁, block₁⟩ := port.reads (k := k) (by omega) ready here.modId here.size here.addr
    obtain ⟨m', ran, ready', rest', block'⟩ := ih (fun jreg member => each jreg (List.mem_cons_of_mem _ member))
      (d := { d with addr := addr (k + 1) }) (k + 1) (by omega) ⟨here.instr, here.defined, here.modId, here.size,
        rfl⟩ read ready₁ blocks all
      (fun j small => by
        rw [block₁ _ (by omega), show k + 1 + j = k + (j + 1) by omega, held (j + 1) (by rw [List.length_cons]; omega)]
        rfl)
    refine ⟨m', ?_, ready', port.trans rest₁ rest', fun j small => (block' j small).trans (block₁ j small)⟩
    have first : port.block m k = block := held 0 (by rw [List.length_cons]; omega)
    rw [first] at got
    have shifted : jtagShiftDr u d go (73 + 8 * size.val) m =
        .ok (({ d with addr := addr (k + 1) }, Format.goRead.encode d go ⟨dataBits block, jsOk⟩), m₁) := by
      rw [← here.size, shiftDr_goRead here.instr here.defined read (each go List.mem_cons_self)]
      exact Programs.bind_of_ok got
    rw [List.map_cons, shifts]
    refine (Programs.bind_of_ok shifted).trans ((Programs.bind_of_ok ran).trans ?_)
    rw [show k + 1 + gos.length = k + (gos.length + 1) by omega]
    rfl

end

/-! ### Blocks written and read back -/

/-- The registers with which a host writes blocks and reads them back. -/
structure Transfer where
  writeType : AccType
  readType : AccType
  addr : Word
  len : BitVec 16
  blocks : List (List (BitVec 8))
  writeDefine : Buffer
  writeGos : List Buffer
  readDefine : Buffer
  readGos : List Buffer

namespace Transfer

def size (t : Transfer) : Fin (2 ^ 16 + 1) := sizeOf t.len

/-- The commands are those that their fields say, with matching CRCs. -/
structure Formed (t : Transfer) : Prop where
  write : t.writeType.isWrite = true
  read : t.readType.isWrite = false
  writeDefine : IsWriteCommand t.writeDefine t.writeType t.addr t.len
  writeGos : List.Forall₂ (IsGoWrite t.size) t.writeGos t.blocks
  readDefine : IsWriteCommand t.readDefine t.readType t.addr t.len
  readGos : ∀ jreg ∈ t.readGos, IsGo jreg 5
  count : t.readGos.length = t.blocks.length

def requests (t : Transfer) : List (Buffer × Nat) :=
  ((t.writeDefine, 125) :: t.writeGos.map fun jreg => (jreg, 73 + 8 * t.size.val)) ++
    (t.readDefine, 125) :: t.readGos.map fun jreg => (jreg, 73 + 8 * t.size.val)

def responses (t : Transfer) (d : DebugState) : List Buffer :=
  (Format.writeCommand.encode d t.writeDefine ⟨[], jsOk⟩ ::
      t.writeGos.map fun jreg => Format.goWrite.encode { d with size := t.size } jreg ⟨[], jsOk⟩) ++
    Format.writeCommand.encode d t.readDefine ⟨[], jsOk⟩ ::
      List.zipWith (fun jreg block => Format.goRead.encode { d with size := t.size } jreg ⟨dataBits block, jsOk⟩) t.readGos t.blocks

theorem run {t : Transfer} (formed : t.Formed) {module : ModId} {addr : Nat → Nat} (port : Port u module t.size addr t.blocks.length)
    (debug : d.instr = some jiDebug) (selected : d.modId = module)
    (defines : ∀ d : DebugState, d.modId = module → ∀ accType, accType = t.writeType ∨ accType = t.readType →
      defineWrite d (some accType) t.addr t.len = { d with writeDefinedP := true, accType, addr := addr 0, size := t.size })
    {m : Machine δ} (ready : port.Ready m) :
    ∃ d' m', shifts u t.requests d m = .ok ((d', t.responses d), m') ∧ port.Rest m m' ∧
      ∀ k < t.blocks.length, port.block m' k = t.blocks.getD k [] := by
  let d₁ : DebugState := { d with writeDefinedP := true, accType := t.writeType, addr := addr 0, size := t.size }
  obtain ⟨m₁, wrote, ready₁, rest₁, block₁⟩ := writes_run port formed.writeGos 0 (by omega) (d := d₁)
    ⟨debug, rfl, selected, rfl, rfl⟩ formed.write ready
  let d₂ : DebugState := { d₁ with addr := addr (0 + t.blocks.length) }
  let d₃ : DebugState := { d₂ with accType := t.readType, addr := addr 0 }
  have held (k : Nat) (small : k < t.blocks.length) : port.block m₁ k = t.blocks.getD k [] := by
    rw [block₁ k small, if_pos (by omega), Nat.sub_zero]
  obtain ⟨m₂, got, _, rest₂, block₂⟩ := reads_run port t.readGos formed.readGos 0 (by rw [formed.count]; omega) (d := d₃)
    ⟨debug, rfl, selected, rfl, rfl⟩ formed.read ready₁ t.blocks formed.count.symm
    (fun j small => by rw [Nat.zero_add]; exact held j small)
  refine ⟨{ d₃ with addr := addr (0 + t.readGos.length) }, m₂, ?_, port.trans rest₁ rest₂,
    fun k small => (block₂ k small).trans (held k small)⟩
  have first := shiftDr_writeCommand (u := u) debug formed.writeDefine d₁ (defines d selected _ (.inl rfl))
  have second := shiftDr_writeCommand (u := u) (d := d₂) debug formed.readDefine d₃ (defines d₂ selected _ (.inr rfl))
  have writes : shifts u ((t.writeDefine, 125) :: t.writeGos.map fun jreg => (jreg, 73 + 8 * t.size.val)) d m =
      .ok ((d₂, Format.writeCommand.encode d t.writeDefine ⟨[], jsOk⟩ ::
        t.writeGos.map fun jreg => Format.goWrite.encode d₁ jreg ⟨[], jsOk⟩), m₁) := by
    rw [shifts]
    refine (Programs.bind_of_ok (congrFun first m)).trans ((Programs.bind_of_ok wrote).trans rfl)
  have reads : shifts u ((t.readDefine, 125) :: t.readGos.map fun jreg => (jreg, 73 + 8 * t.size.val)) d₂ m₁ =
      .ok (({ d₃ with addr := addr (0 + t.readGos.length) }, Format.writeCommand.encode d₂ t.readDefine ⟨[], jsOk⟩ ::
        List.zipWith (fun jreg block => Format.goRead.encode d₃ jreg ⟨dataBits block, jsOk⟩) t.readGos t.blocks), m₂) := by
    rw [shifts]
    refine (Programs.bind_of_ok (congrFun second m₁)).trans ((Programs.bind_of_ok got).trans rfl)
  unfold requests
  rw [shifts_append]
  exact (Programs.bind_of_ok writes).trans ((Programs.bind_of_ok reads).trans rfl)

/-- The status field of the response. -/
def StatusOk (request : Buffer × Nat) (out : Buffer) : Prop := (out.value (request.2 - 36) 4).setWidth 8 = jsOk

/-- The ignored bits in the byte where the status begins are zero under it. -/
def Clear (request : Buffer × Nat) : Prop :=
  ∀ i < 4, (request.2 - 36 + i) / 8 = (request.2 - 36) / 8 → request.1.bit (request.2 - 36 + i) = false

theorem statusOk_iff {f : Format} (d : DebugState) (jreg : Buffer) {data : List Bool} (length : data.length = f.data d) {numBits : Nat}
    (expected : numBits = f.length d) : StatusOk (jreg, numBits) (f.encode d jreg ⟨data, jsOk⟩) ↔ Clear (jreg, numBits) := by
  have off : numBits - 36 = f.statusOff d := by
    rw [expected]
    exact Nat.add_sub_cancel _ _
  have zero (v : BitVec 4) : v.setWidth 8 = jsOk ↔ v = 0 := by
    revert v
    decide
  unfold StatusOk Clear
  dsimp only
  rw [off, zero, encode_status_iff jreg length]
  refine forall₂_congr fun i inside => ?_
  rw [ored_end (by omega), decide_eq_true_iff]

theorem block_length {t : Transfer} (formed : t.Formed) {block : List (BitVec 8)} (member : block ∈ t.blocks) :
    block.length = t.size.val := by
  have each := formed.writeGos
  generalize t.writeGos = gos at each
  generalize t.blocks = blocks at each member
  induction each with
  | nil => cases member
  | cons first _ ih =>
    rcases List.mem_cons.mp member with rfl | later
    · exact first.length
    · exact ih later

theorem responses_status {t : Transfer} (formed : t.Formed) (d : DebugState) :
    List.Forall₂ (fun request out => StatusOk request out ↔ Clear request) t.requests (t.responses d) := by
  have defines (jreg : Buffer) : StatusOk (jreg, 125) (Format.writeCommand.encode d jreg ⟨[], jsOk⟩) ↔ Clear (jreg, 125) :=
    statusOk_iff d jreg rfl rfl
  have writes : List.Forall₂ (fun request out => StatusOk request out ↔ Clear request)
      (t.writeGos.map fun jreg => (jreg, 73 + 8 * t.size.val))
      (t.writeGos.map fun jreg => Format.goWrite.encode { d with size := t.size } jreg ⟨[], jsOk⟩) := by
    rw [List.forall₂_map_left_iff, List.forall₂_map_right_iff, List.forall₂_same]
    intro jreg _
    refine statusOk_iff _ jreg rfl ?_
    show _ = 5 + 8 * t.size.val + 32 + 0 + 36
    omega
  have reads : ∀ (gos : List Buffer) (blocks : List (List (BitVec 8))), gos.length = blocks.length →
    (∀ block ∈ blocks, block.length = t.size.val) →
      List.Forall₂ (fun request out => StatusOk request out ↔ Clear request) (gos.map fun jreg => (jreg, 73 + 8 * t.size.val))
        (List.zipWith (fun jreg block => Format.goRead.encode { d with size := t.size } jreg ⟨dataBits block, jsOk⟩) gos blocks) := by
    intro gos
    induction gos with
    | nil => exact fun _ _ _ => .nil
    | cons go gos ih =>
      intro blocks all each
      obtain ⟨block, blocks, rfl⟩ : ∃ block rest, blocks = block :: rest := List.exists_cons_of_length_eq_add_one all.symm
      refine .cons ?_ (ih blocks (by simpa using all) fun block member => each block (List.mem_cons_of_mem _ member))
      refine statusOk_iff _ go ?_ ?_
      · rw [length_dataBits, each block List.mem_cons_self]
        rfl
      · show _ = 5 + 32 + 8 * t.size.val + 36
        omega
  refine List.rel_append (R := fun request out => StatusOk request out ↔ Clear request) ?_ ?_
  · exact .cons (defines _) writes
  · exact .cons (defines _) (reads _ _ formed.count fun _ member => block_length formed member)

/-- What the host reads from the responses of the GO_COMMANDs for read. -/
def readBack (t : Transfer) (outs : List Buffer) : List (List Bool) :=
  (outs.drop (t.blocks.length + 2)).map fun out => out.bits 37 (8 * t.size.val)

theorem readBack_responses {t : Transfer} (formed : t.Formed) (d : DebugState) : t.readBack (t.responses d) = t.blocks.map dataBits := by
  have writes : t.writeGos.length = t.blocks.length := formed.writeGos.length_eq
  have behind : (t.responses d).drop (t.blocks.length + 2) =
      List.zipWith (fun jreg block => Format.goRead.encode { d with size := t.size } jreg ⟨dataBits block, jsOk⟩) t.readGos
        t.blocks := by
    unfold responses
    rw [List.drop_append, List.length_cons, List.length_map, writes, List.drop_of_length_le (by simp [writes]), show
      t.blocks.length + 2 - (t.blocks.length + 1) = 1 by omega]
    rfl
  unfold readBack
  rw [behind]
  have all := formed.count
  have each := fun block (member : block ∈ t.blocks) => block_length formed member
  generalize t.readGos = gos at all
  generalize t.blocks = blocks at all each
  induction gos generalizing blocks with
  | nil =>
    cases blocks with
    | nil => rfl
    | cons _ _ => cases all
  | cons go gos ih =>
    obtain ⟨block, blocks, rfl⟩ : ∃ block rest, blocks = block :: rest := List.exists_cons_of_length_eq_add_one all.symm
    rw [List.zipWith_cons_cons, List.map_cons, List.map_cons,
      ih _ (by simpa using all) fun block member => each block (List.mem_cons_of_mem _ member)]
    have length : (dataBits block).length = 8 * t.size.val := by rw [length_dataBits, each block List.mem_cons_self]
    rw [← length, encode_data go (d := { d with size := t.size }) length]

/-- The host gets its blocks back and every status is JS_OK. -/
def RoundTrips (u : DebugConfig δ) (d : DebugState) (m : Machine δ) (t : Transfer) (Stored : Machine δ → Prop) : Prop :=
  ∃ d' outs m', shifts u t.requests d m = .ok ((d', outs), m') ∧ Stored m' ∧ t.readBack outs = t.blocks.map dataBits ∧
    List.Forall₂ StatusOk t.requests outs

def Clean (t : Transfer) : Prop := ∀ request ∈ t.requests, Clear request

theorem forall₂_iff {α β : Type} {p : α → β → Prop} {q : α → Prop} {l : List α} {l' : List β}
    (each : List.Forall₂ (fun a b => p a b ↔ q a) l l') : List.Forall₂ p l l' ↔ ∀ a ∈ l, q a := by
  induction each with
  | nil => simp
  | cons first _ ih => rw [List.forall₂_cons, ih, first, List.forall_mem_cons]

theorem roundTrips_iff {t : Transfer} (formed : t.Formed) {Stored : Machine δ → Prop} {m m' : Machine δ}
    (ran : shifts u t.requests d m = .ok ((d', t.responses d), m')) (stored : Stored m') : t.RoundTrips u d m Stored ↔ t.Clean := by
  have statuses := forall₂_iff (responses_status formed d)
  constructor
  · rintro ⟨_, outs, _, ran', _, _, fine⟩
    rw [ran] at ran'
    cases ran'
    exact statuses.mp fine
  · intro clean
    exact ⟨d', t.responses d, m', ran, stored, readBack_responses formed d, statuses.mpr clean⟩

end Transfer

end Or1ksim.Debug
