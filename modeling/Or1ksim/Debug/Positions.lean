import Or1ksim.Debug.Registers
import Or1ksim.Lib.Access

/-!
# The positions of a register

The functions of `jtag.c` with the bytes of the register that they read and write. Their results are
those of the functions without, so that the bytes named are all that these depend on and change.
-/

namespace Or1ksim.Debug

open Serial (Buffer)
open Serial.Access (view edit act lift)
open Cpu (Word Machine Sim Stop)

variable {δ : Type}

namespace Traced

abbrev Shift (δ : Type) := Serial.Access (Machine δ) Stop

def responseBytes (ignBits zeroBits : Nat) : List Nat :=
  let skipBytes := (ignBits + zeroBits) % 2 ^ 32 / 8
  let bitOff := (ignBits + zeroBits) % 2 ^ 32 % 8
  List.range' 0 (zeroBits / 8 + 1) ++ List.range' skipBytes (if bitOff ≤ 4 then 5 else 6)

def constructResponse (status : Status) (crcIn : Word) (ignBits zeroBits : Nat) : Shift δ Unit :=
  edit (responseBytes ignBits zeroBits) fun jreg => Debug.constructResponse jreg status crcIn ignBits zeroBits

/-- Whether the CRC behind a command matches. -/
def commandCrc (command : BitVec 64) : Shift δ Bool :=
  view (List.range' 0 5) fun jreg => crc32 command 4 (crc32 0 1 0xffffffff) = reverse32 (gather5 jreg 0)

def selectDone (d : DebugState) (modId : BitVec 8) (crcIn : Word) : DebugState × Status :=
  if crc32 (modId.setWidth 64) 4 (crc32 1 1 0xffffffff) = crcIn then
    match modId.toNat with
    | 0 => ({ d with modId := .wishbone }, jsOk)
    | 1 => ({ d with modId := .cpu0 }, jsOk)
    | 2 => ({ d with modId := .cpu1 }, jsOk)
    | _ => ({ d with modId := .undefined }, jsModuleMissing)
  else (d, jsCrcInError)

def selectModule (d : DebugState) (numBits : Nat) : Shift δ DebugState :=
  if 36 + 32 + 4 + 1 ≠ numBits then pure d
  else do
    let modId ← view [0] code4
    let crcIn ← view (List.range' 0 5) fun jreg => reverse32 (gather5 jreg 0)
    let done := selectDone d modId crcIn
    constructResponse done.2 0xffffffff 0 37
    pure done.1

/-! ### GO_COMMAND for read -/

def wishboneReadLoop (u : DebugConfig δ) (d : DebugState) : Nat → Nat → Word → Status → Shift δ (Word × Status)
  | 0, _, crcOut, status => pure (crcOut, status)
  | more + 1, i, crcOut, status => do
    let got ← lift (wishboneByte u d i status)
    edit [4 + i, 4 + i + 1] fun jreg => storeByte jreg i (reverseByte got.1)
    wishboneReadLoop u d more (i + 1) (crc32 (got.1.setWidth 64) 8 crcOut) got.2

def wishboneRead (u : DebugConfig δ) (d : DebugState) (jregBytes : Nat) (status : Status) : Shift δ (DebugState × Word × Status) := do
  let got ← wishboneReadLoop u d jregBytes 0 0xffffffff status
  pure (if got.2 = jsOk then { d with addr := (d.addr + d.size) % u.ulong } else d, got)

/-- The bytes that hold the data of a GO_COMMAND. -/
def dataBytes (byteOff n : Nat) : List Nat := (List.range n).flatMap fun i => [byteOff + i, byteOff + i + 1]

def sprRead (u : DebugConfig δ) (d : DebugState) (jregBytes : Nat) (status : Status) : Shift δ (DebugState × Word × Status) := do
  let spr ← lift (do pure (Cpu.mfspr u.cpu (BitVec.ofNat 16 d.addr) (← get)))
  let crcOut ← act (dataBytes 4 jregBytes) fun jreg => (sprReadLoop u spr jregBytes 0 jreg 0xffffffff).swap
  pure (if status = jsOk then { d with addr := (d.addr + 1) % u.ulong } else d, crcOut, status)

def nullRead (jregBytes : Nat) : Shift δ Word :=
  act (dataBytes 4 jregBytes) fun jreg => (Debug.nullRead jregBytes 0 jreg 0xffffffff).swap

def moduleRead (u : DebugConfig δ) (d : DebugState) (jregBytes : Nat) (status : Status) : Shift δ (DebugState × Word × Status) :=
  match d.modId with
  | .wishbone => wishboneRead u d jregBytes status
  | .cpu0 => sprRead u d jregBytes status
  | _ => do
    let crcOut ← nullRead jregBytes
    pure (d, crcOut, status)

def checkedRead (u : DebugConfig δ) (d : DebugState) (jregBytes : Nat) (status : Status) : Shift δ (DebugState × Word × Status) := do
  let good ← commandCrc jcmdGoCommand
  if good then moduleRead u d jregBytes status else pure (d, 0, status ||| jsCrcInError)

def goCommandRead (u : DebugConfig δ) (d : DebugState) (numBits : Nat) : Shift δ DebugState := do
  let jregBytes := (goBytes u d numBits).1
  let got ← checkedRead u d jregBytes (goBytes u d numBits).2
  constructResponse got.2.2 got.2.1 (8 * jregBytes % 2 ^ 32) 37
  pure got.1

/-! ### GO_COMMAND for write -/

def wishboneWriteLoop (u : DebugConfig δ) (d : DebugState) : Nat → Nat → Status → Shift δ Status
  | 0, _, status => pure status
  | more + 1, i, status => do
    let status ←
      if i < d.size then do
        let missing ← lift (do
          modify (Cpu.verifyMemoryarea u.cpu (oraddr (d.addr + i)))
          pure (u.cpu.area (← get)).isNone)
        if missing then pure (status ||| jsWishboneError)
        else do
          let byte ← view [i, i + 1] fun jreg => dataByte jreg i
          lift (setProgram8 u (oraddr (d.addr + i)) byte)
          pure status
      else pure status
    wishboneWriteLoop u d more (i + 1) status

def wishboneWrite (u : DebugConfig δ) (d : DebugState) (jregBytes : Nat) (status : Status) : Shift δ (DebugState × Status) := do
  let status ← wishboneWriteLoop u d jregBytes 0 status
  pure (if status = jsOk then { d with addr := (d.addr + d.size) % u.ulong } else d, status)

def sprWrite (u : DebugConfig δ) (d : DebugState) (jregBytes : Nat) (status : Status) : Shift δ (DebugState × Status) := do
  let spr ← view (dataBytes 0 (min jregBytes 4)) fun jreg => sprWriteLoop u jreg jregBytes 0 0
  lift (Cpu.mtspr u.cpu (BitVec.ofNat 16 d.addr) spr)
  pure (if status = jsOk then { d with addr := (d.addr + 1) % u.ulong } else d, status)

def moduleWrite (u : DebugConfig δ) (d : DebugState) (realSize : Nat) (status : Status) : Shift δ (DebugState × Status) :=
  match d.modId with
  | .wishbone => wishboneWrite u d realSize status
  | .cpu0 => sprWrite u d realSize status
  | _ => pure (d, status)

def checkedWrite (u : DebugConfig δ) (d : DebugState) (realSize : Nat) (status : Status) : Shift δ (DebugState × Status) := do
  let crcIn ← view (List.range' realSize 5) fun jreg => reverse32 (gather5 jreg realSize)
  let crcComputed ← view (dataBytes 0 realSize) fun jreg =>
    dataCrc jreg realSize 0 (crc32 jcmdGoCommand 4 (crc32 0 1 0xffffffff))
  if crcComputed = crcIn then moduleWrite u d realSize status else pure (d, status ||| jsCrcInError)

def goCommandWrite (u : DebugConfig δ) (d : DebugState) (numBits : Nat) : Shift δ DebugState := do
  let realSize := (goBytes u d numBits).1
  let got ← checkedWrite u d realSize (goBytes u d numBits).2
  constructResponse got.2 0xffffffff 0 ((37 + 8 * realSize) % 2 ^ 32)
  pure got.1

def goCommand (u : DebugConfig δ) (d : DebugState) (numBits : Nat) : Shift δ DebugState :=
  if !d.writeDefinedP then do
    edit (List.range' 0 ((numBits + 7) / 8)) (clearBytes ((numBits + 7) / 8))
    pure d
  else
    match d.accType with
    | .write8 | .write16 | .write32 => goCommandWrite u d numBits
    | .read8 | .read16 | .read32 => goCommandRead u d numBits

/-! ### The other registers -/

def readCommand (d : DebugState) (numBits : Nat) : Shift δ DebugState :=
  if 88 + 32 + 4 + 1 ≠ numBits then pure d
  else do
    let good ← commandCrc jcmdReadCommand
    if good then do
      let accType : BitVec 8 := if d.writeDefinedP then d.accType.code else 0
      let addr : Word := if d.writeDefinedP then oraddr d.addr else 0
      let len : BitVec 16 := if d.writeDefinedP then BitVec.ofNat 16 d.size - 1 else 0
      let crcOut := crc32 (len.setWidth 64) 16 (crc32 (addr.setWidth 64) 32 (crc32 (accType.setWidth 64) 4 0xffffffff))
      edit (List.range' 4 8) fun jreg => putCommand jreg accType addr len
      constructResponse jsOk crcOut 52 37
      pure d
    else do
      constructResponse jsCrcInError 0xffffffff 52 37
      pure d

def writeDone (d : DebugState) (accType : BitVec 8) (addr : Word) (len : BitVec 16) (crcIn : Word) : DebugState × Status :=
  let crcComputed := crc32 jcmdWriteCommand 4 (crc32 0 1 0xffffffff)
  let crcComputed := crc32 (accType.setWidth 64) 4 crcComputed
  let crcComputed := crc32 (addr.setWidth 64) 32 crcComputed
  let crcComputed := crc32 (len.setWidth 64) 16 crcComputed
  if crcComputed = crcIn then (defineWrite d (AccType.ofCode accType) addr len, jsOk)
  else ({ d with writeDefinedP := false }, jsCrcInError)

def writeCommand (d : DebugState) (numBits : Nat) : Shift δ DebugState :=
  if 36 + 32 + 16 + 32 + 4 + 4 + 1 ≠ numBits then pure { d with writeDefinedP := false }
  else do
    let accType ← view [0, 1] accTypeField
    let addr ← view (List.range' 1 5) fun jreg => reverse32 (gather1 jreg 1)
    let len ← view [5, 6, 7] lenField
    let crcIn ← view (List.range' 7 5) fun jreg => reverse32 (gather1 jreg 7)
    let done := writeDone d accType addr len crcIn
    constructResponse done.2 0xffffffff 0 89
    pure done.1

def readControl (d : DebugState) (numBits : Nat) : Shift δ DebugState :=
  if 88 + 32 + 4 + 1 ≠ numBits then pure d
  else do
    let good ← commandCrc jcmdReadControl
    if good then do
      let m ← lift get
      edit (List.range' 4 8) fun jreg => putControl jreg (controlData d m)
      constructResponse jsOk (crc32 (controlData d m) 52 0xffffffff) 52 37
      pure d
    else do
      constructResponse jsCrcInError 0xffffffff 52 37
      pure d

def writeControl (u : DebugConfig δ) (d : DebugState) (numBits : Nat) : Shift δ DebugState :=
  if 36 + 32 + 52 + 4 + 1 ≠ numBits then pure d
  else do
    let data ← view (List.range' 0 8) fun jreg => reverseBits (gatherControl jreg) 52
    let crcIn ← view (List.range' 7 5) fun jreg => reverse32 (gather1 jreg 7)
    let crcComputed := crc32 data 52 (crc32 jcmdWriteControl 4 (crc32 0 1 0xffffffff))
    if crcComputed = crcIn then do
      lift (applyControl u d data)
      constructResponse jsOk 0xffffffff 0 89
      pure d
    else do
      constructResponse jsCrcInError 0xffffffff 0 89
      pure d

def jtagShiftDr (u : DebugConfig δ) (d : DebugState) (numBits : Nat) : Shift δ DebugState :=
  if d.instr ≠ some jiDebug then pure d
  else do
    let first ← view [0] fun jreg => jreg 0
    if first &&& 0x1 = 1 then selectModule d numBits
    else do
      let command ← view [0] code4
      match command.toNat with
      | 0 => goCommand u d numBits
      | 1 => readCommand d numBits
      | 2 => writeCommand d numBits
      | 3 => readControl d numBits
      | 4 => writeControl u d numBits
      | _ => pure d

/-! ### The bytes named are enough -/

open Serial.Access

theorem gather5_reads (i : Nat) : ReadsOnly (List.range' i 5) fun jreg => gather5 jreg i := by
  intro b b' agree
  have at' (k : Nat) (inside : k < 5) : b (i + k) = b' (i + k) := agree _ (List.mem_range'_1.mpr (by omega))
  show gather5 b i = gather5 b' i
  unfold gather5
  rw [at' 1 (by decide), at' 2 (by decide), at' 3 (by decide), at' 4 (by decide), show b i = b' i from at' 0 (by decide)]

theorem gather1_reads (i : Nat) : ReadsOnly (List.range' i 5) fun jreg => gather1 jreg i := by
  intro b b' agree
  have at' (k : Nat) (inside : k < 5) : b (i + k) = b' (i + k) := agree _ (List.mem_range'_1.mpr (by omega))
  show gather1 b i = gather1 b' i
  unfold gather1
  rw [at' 1 (by decide), at' 2 (by decide), at' 3 (by decide), at' 4 (by decide), show b i = b' i from at' 0 (by decide)]

theorem code4_reads : ReadsOnly [0] code4 := by
  intro b b' agree
  unfold code4
  rw [agree 0 (by decide)]

theorem dataByte_reads (i : Nat) : ReadsOnly [i, i + 1] fun jreg => dataByte jreg i := by
  intro b b' agree
  show dataByte b i = dataByte b' i
  unfold dataByte
  rw [agree i (by simp), agree (i + 1) (by simp)]

theorem gatherControl_reads : ReadsOnly (List.range' 0 8) gatherControl := by
  intro b b' agree
  unfold gatherControl
  rw [agree 0 (by decide), agree 1 (by decide), agree 2 (by decide), agree 3 (by decide), agree 4 (by decide), agree 5 (by decide),
    agree 6 (by decide), agree 7 (by decide)]

theorem accTypeField_reads : ReadsOnly [0, 1] accTypeField := by
  intro b b' agree
  unfold accTypeField
  rw [agree 0 (by decide), agree 1 (by decide)]

theorem lenField_reads : ReadsOnly [5, 6, 7] lenField := by
  intro b b' agree
  unfold lenField
  rw [agree 5 (by decide), agree 6 (by decide), agree 7 (by decide)]

theorem mem_dataBytes {byteOff n k : Nat} : k ∈ dataBytes byteOff n ↔ ∃ i < n, k = byteOff + i ∨ k = byteOff + i + 1 := by
  unfold dataBytes
  simp only [List.mem_flatMap, List.mem_range, List.mem_cons, List.not_mem_nil, or_false]

theorem dataCrc_reads {ks : List Nat} {b b' : Buffer} (agree : Agree ks b b') (more i : Nat) (seed : Word)
    (inside : ∀ j, i ≤ j → j < i + more → j ∈ ks ∧ j + 1 ∈ ks) : dataCrc b more i seed = dataCrc b' more i seed := by
  induction more generalizing i seed with
  | zero => rfl
  | succ more ih =>
    have here := inside i (Nat.le_refl i) (by omega)
    unfold dataCrc
    rw [agree i here.1, agree (i + 1) here.2]
    exact ih (i + 1) _ fun j above below => inside j (by omega) (by omega)

theorem sprWriteLoop_reads {u : DebugConfig δ} {ks : List Nat} {b b' : Buffer} (agree : Agree ks b b') (more i : Nat) (spr : Word)
    (inside : ∀ j, i ≤ j → j < i + more → j < 4 → j ∈ ks ∧ j + 1 ∈ ks) :
    sprWriteLoop u b more i spr = sprWriteLoop u b' more i spr := by
  induction more generalizing i spr with
  | zero => rfl
  | succ more ih =>
    have rest (spr : Word) := ih (i + 1) spr fun j above below => inside j (by omega) (by omega)
    unfold sprWriteLoop
    by_cases small : i < 4
    · have here := inside i (Nat.le_refl i) (by omega) small
      have same : dataByte b i = dataByte b' i := dataByte_reads i b b' fun k is => by
        rcases List.mem_pair.mp is with rfl | rfl
        · exact agree _ here.1
        · exact agree _ here.2
      rw [same]
      exact rest _
    · simp only [if_neg small]
      exact rest _

theorem byte_reads {ks : List Nat} {i : Nat} (inside : i ∈ ks) : ReadsOnly ks fun jreg : Buffer => jreg i :=
  fun _ _ agree => agree i inside

theorem clearBytes_keeps {ks : List Nat} {n : Nat} (inside : ∀ k < n, k ∈ ks) : KeepsTo ks (clearBytes n) where
  elsewhere b k outside := if_neg fun small => outside (inside k small)
  reads b b' agree k here := by
    show (if k < n then 0 else b k) = if k < n then 0 else b' k
    rw [agree k here]

theorem constructResponse_keeps (status : Status) (crcIn : Word) (ignBits zeroBits : Nat) :
    KeepsTo (responseBytes ignBits zeroBits) fun jreg => Debug.constructResponse jreg status crcIn ignBits zeroBits := by
  have zeros (k : Nat) (small : k ≤ zeroBits / 8) : k ∈ responseBytes ignBits zeroBits :=
    List.mem_append_left _ (List.mem_range'_1.mpr (by omega))
  have cleared := (clearBytes_keeps fun k small => zeros k (Nat.le_of_lt small)).update (zeros _ (Nat.le_refl _))
    fun byte => (byte >>> (zeroBits % 8)) <<< (zeroBits % 8)
  have answer (k : Nat) (small : k < if (ignBits + zeroBits) % 2 ^ 32 % 8 ≤ 4 then 5 else 6) :
      (ignBits + zeroBits) % 2 ^ 32 / 8 + k ∈ responseBytes ignBits zeroBits :=
    List.mem_append_right _ (List.mem_range'_1.mpr (by omega))
  unfold Debug.constructResponse
  by_cases low : (ignBits + zeroBits) % 2 ^ 32 % 8 ≤ 4
  · simp only [if_pos low] at answer ⊢
    exact ((((cleared.update (answer 0 (by decide)) fun byte => byte ||| _ ||| _).put (answer 1 (by decide)) _).put
      (answer 2 (by decide)) _).put (answer 3 (by decide)) _).put (answer 4 (by decide)) _
  · simp only [if_neg low] at answer ⊢
    exact (((((cleared.update (answer 0 (by decide)) fun byte => byte ||| _).put (answer 1 (by decide)) _).put
      (answer 2 (by decide)) _).put (answer 3 (by decide)) _).put (answer 4 (by decide)) _).put (answer 5 (by decide)) _

theorem clearByte_keeps (i : Nat) : KeepsTo [4 + i, 4 + i + 1] fun jreg => clearByte jreg i :=
  ((KeepsTo.id _).update (i := 4 + i) (by simp) fun byte => (byte <<< 3) >>> 3).update (i := 4 + i + 1) (by simp) fun byte =>
    (byte >>> 5) <<< 5

theorem storeByte_keeps (i : Nat) (byte : BitVec 8) : KeepsTo [4 + i, 4 + i + 1] fun jreg => storeByte jreg i byte :=
  ((clearByte_keeps i).update (i := 4 + i) (by simp) fun old => old ||| (byte <<< 5)).update (i := 4 + i + 1) (by simp)
    fun old => old ||| (byte >>> 3)

theorem pair_sub {byteOff n i : Nat} (inside : i < n) : ∀ k ∈ [byteOff + i, byteOff + i + 1], k ∈ dataBytes byteOff n := by
  intro k is
  exact mem_dataBytes.mpr ⟨i, inside, List.mem_pair.mp is⟩

theorem sprReadLoop_keeps (u : DebugConfig δ) (spr : Word) (n more i : Nat) (crcOut : Word) (fits : i + more = n) :
    KeepsTo (dataBytes 4 n) fun jreg => (sprReadLoop u spr more i jreg crcOut).1 := by
  induction more generalizing i crcOut with
  | zero => exact KeepsTo.id _
  | succ more ih => exact (ih (i + 1) _ (by omega)).comp ((storeByte_keeps i _).mono (pair_sub (by omega)))

theorem sprReadLoop_crc (u : DebugConfig δ) (spr : Word) (more i : Nat) (jreg jreg' : Buffer) (crcOut : Word) :
    (sprReadLoop u spr more i jreg crcOut).2 = (sprReadLoop u spr more i jreg' crcOut).2 := by
  induction more generalizing i jreg jreg' crcOut with
  | zero => rfl
  | succ more ih => exact ih (i + 1) _ _ _

theorem nullRead_keeps (n more i : Nat) (crcOut : Word) (fits : i + more = n) :
    KeepsTo (dataBytes 4 n) fun jreg => (Debug.nullRead more i jreg crcOut).1 := by
  induction more generalizing i crcOut with
  | zero => exact KeepsTo.id _
  | succ more ih => exact (ih (i + 1) _ (by omega)).comp ((clearByte_keeps i).mono (pair_sub (by omega)))

theorem nullRead_crc (more i : Nat) (jreg jreg' : Buffer) (crcOut : Word) :
    (Debug.nullRead more i jreg crcOut).2 = (Debug.nullRead more i jreg' crcOut).2 := by
  induction more generalizing i jreg jreg' crcOut with
  | zero => rfl
  | succ more ih => exact ih (i + 1) _ _ _

theorem putCommand_keeps (accType : BitVec 8) (addr : Word) (len : BitVec 16) :
    KeepsTo (List.range' 4 8) fun jreg => putCommand jreg accType addr len :=
  ((((((((((KeepsTo.id _).update (i := 4) (by decide) (· ||| _)).update (i := 5) (by decide) (· ||| _)).update
    (i := 5) (by decide) (· ||| _)).update (i := 6) (by decide) (· ||| _)).update (i := 7) (by decide) (· ||| _)).update
    (i := 8) (by decide) (· ||| _)).update
    (i := 9) (by decide) (· ||| _)).update (i := 9) (by decide) (· ||| _)).update (i := 10) (by decide) (· ||| _)).update
    (i := 11) (by decide) (· ||| _)

theorem putControl_keeps (data : BitVec 64) : KeepsTo (List.range' 4 8) fun jreg => putControl jreg data :=
  ((((((((KeepsTo.id _).update (i := 4) (by decide) (· ||| _)).update (i := 5) (by decide) (· ||| _)).update
    (i := 6) (by decide) (· ||| _)).update (i := 7) (by decide) (· ||| _)).update (i := 8) (by decide) (· ||| _)).update
    (i := 9) (by decide) (· ||| _)).update
    (i := 10) (by decide) (· ||| _)).update (i := 11) (by decide) (· ||| _)

/-! ### The same results -/

variable {u : DebugConfig δ} {d : DebugState}

theorem run_constructResponse (status : Status) (crcIn : Word) (ignBits zeroBits : Nat) (jreg : Buffer) :
    (constructResponse status crcIn ignBits zeroBits : Shift δ Unit).run jreg =
      pure ((), Debug.constructResponse jreg status crcIn ignBits zeroBits) :=
  run_edit (constructResponse_keeps status crcIn ignBits zeroBits) jreg

theorem run_commandCrc (command : BitVec 64) (jreg : Buffer) :
    (commandCrc command : Shift δ Bool).run jreg =
      pure (decide (crc32 command 4 (crc32 0 1 0xffffffff) = reverse32 (gather5 jreg 0)), jreg) :=
  run_view ((gather5_reads 0).map fun v => decide (crc32 command 4 (crc32 0 1 0xffffffff) = reverse32 v)) jreg

theorem run_selectModule (numBits : Nat) (jreg : Buffer) :
    (selectModule d numBits : Shift δ DebugState).run jreg = pure (Debug.selectModule d jreg numBits) := by
  unfold selectModule Debug.selectModule
  split
  · rfl
  · rw [run_bind, run_view code4_reads, pure_bind, run_bind, run_view ((gather5_reads 0).map reverse32), pure_bind, run_bind,
      run_constructResponse]
    rfl

theorem run_wishboneReadLoop (more i : Nat) (crcOut : Word) (status : Status) (jreg : Buffer) :
    (wishboneReadLoop u d more i crcOut status).run jreg =
      Debug.wishboneReadLoop u d more i jreg crcOut status >>= fun r => pure ((r.2.1, r.2.2), r.1) := by
  induction more generalizing i crcOut status jreg with
  | zero => rfl
  | succ more ih =>
    unfold wishboneReadLoop Debug.wishboneReadLoop
    simp only [run_bind, run_lift, run_edit (storeByte_keeps i _), ih, bind_assoc, pure_bind]

theorem run_wishboneRead (jregBytes : Nat) (status : Status) (jreg : Buffer) :
    (wishboneRead u d jregBytes status).run jreg =
      Debug.wishboneRead u d jreg jregBytes status >>= fun r => pure ((r.1, r.2.2.1, r.2.2.2), r.2.1) := by
  unfold wishboneRead Debug.wishboneRead
  simp only [run_bind, run_wishboneReadLoop, run_pure, bind_assoc, pure_bind]

theorem run_sprRead (jregBytes : Nat) (status : Status) (jreg : Buffer) :
    (sprRead u d jregBytes status).run jreg =
      Debug.sprRead u d jreg jregBytes status >>= fun r => pure ((r.1, r.2.2.1, r.2.2.2), r.2.1) := by
  have crc (spr : Word) : ReadsOnly (dataBytes 4 jregBytes) fun jreg => (sprReadLoop u spr jregBytes 0 jreg 0xffffffff).swap.1 :=
    fun b b' _ => sprReadLoop_crc u spr jregBytes 0 b b' _
  unfold sprRead Debug.sprRead
  simp only [run_bind, run_lift, run_act (crc _) (sprReadLoop_keeps u _ jregBytes jregBytes 0 _ (by omega)), run_pure,
    bind_assoc, pure_bind]
  rfl

theorem run_nullRead (jregBytes : Nat) (jreg : Buffer) :
    (nullRead jregBytes : Shift δ Word).run jreg = pure (Debug.nullRead jregBytes 0 jreg 0xffffffff).swap :=
  run_act (fun b b' _ => nullRead_crc jregBytes 0 b b' _) (nullRead_keeps jregBytes jregBytes 0 _ (by omega)) jreg

theorem run_moduleRead (jregBytes : Nat) (status : Status) (jreg : Buffer) :
    (moduleRead u d jregBytes status).run jreg =
      Debug.moduleRead u d jreg jregBytes status >>= fun r => pure ((r.1, r.2.2.1, r.2.2.2), r.2.1) := by
  unfold moduleRead Debug.moduleRead
  cases d.modId with
  | wishbone => exact run_wishboneRead jregBytes status jreg
  | cpu0 => exact run_sprRead jregBytes status jreg
  | cpu1 | undefined =>
    show (nullRead jregBytes >>= fun crcOut => pure (d, crcOut, status) : Shift δ _).run jreg = _
    rw [run_bind, run_nullRead]
    rfl

theorem run_checkedRead (jregBytes : Nat) (status : Status) (jreg : Buffer) :
    (checkedRead u d jregBytes status).run jreg =
      Debug.checkedRead u d jreg jregBytes status >>= fun r => pure ((r.1, r.2.2.1, r.2.2.2), r.2.1) := by
  unfold checkedRead Debug.checkedRead
  simp only [run_bind, run_commandCrc, pure_bind, decide_eq_true_eq]
  split
  · exact run_moduleRead jregBytes status jreg
  · rfl

theorem run_goCommandRead (numBits : Nat) (jreg : Buffer) :
    (goCommandRead u d numBits).run jreg = Debug.goCommandRead u d jreg numBits := by
  unfold goCommandRead Debug.goCommandRead
  simp only [run_bind, run_checkedRead, run_constructResponse, run_pure, bind_assoc, pure_bind]

theorem run_wishboneWriteLoop (more i : Nat) (status : Status) (jreg : Buffer) :
    (wishboneWriteLoop u d more i status).run jreg =
      Debug.wishboneWriteLoop u d jreg more i status >>= fun status => pure (status, jreg) := by
  induction more generalizing i status with
  | zero => rfl
  | succ more ih =>
    unfold wishboneWriteLoop Debug.wishboneWriteLoop
    split
    · simp only [run_bind, run_lift, bind_assoc, pure_bind]
      refine bind_congr fun _ => bind_congr fun m => ?_
      split
      · simp only [run_bind, run_pure, ih, pure_bind]
      · simp only [run_bind, run_pure, run_lift, run_view (dataByte_reads i), ih, bind_assoc, pure_bind]
    · simp only [run_bind, run_pure, ih, pure_bind]

theorem run_wishboneWrite (jregBytes : Nat) (status : Status) (jreg : Buffer) :
    (wishboneWrite u d jregBytes status).run jreg =
      Debug.wishboneWrite u d jreg jregBytes status >>= fun r => pure (r, jreg) := by
  unfold wishboneWrite Debug.wishboneWrite
  simp only [run_bind, run_wishboneWriteLoop, run_pure, bind_assoc, pure_bind]

theorem run_sprWrite (jregBytes : Nat) (status : Status) (jreg : Buffer) :
    (sprWrite u d jregBytes status).run jreg = Debug.sprWrite u d jreg jregBytes status >>= fun r => pure (r, jreg) := by
  have reads : ReadsOnly (dataBytes 0 (min jregBytes 4)) fun jreg => sprWriteLoop u jreg jregBytes 0 0 := by
    intro b b' agree
    refine sprWriteLoop_reads agree jregBytes 0 0 fun j _ below small => ?_
    exact ⟨mem_dataBytes.mpr ⟨j, by omega, by omega⟩, mem_dataBytes.mpr ⟨j, by omega, by omega⟩⟩
  unfold sprWrite Debug.sprWrite
  simp only [run_bind, run_view reads, run_lift, run_pure, bind_assoc, pure_bind]

theorem run_moduleWrite (realSize : Nat) (status : Status) (jreg : Buffer) :
    (moduleWrite u d realSize status).run jreg = Debug.moduleWrite u d jreg realSize status >>= fun r => pure (r, jreg) := by
  unfold moduleWrite Debug.moduleWrite
  cases d.modId with
  | wishbone => exact run_wishboneWrite realSize status jreg
  | cpu0 => exact run_sprWrite realSize status jreg
  | cpu1 | undefined => rfl

theorem run_checkedWrite (realSize : Nat) (status : Status) (jreg : Buffer) :
    (checkedWrite u d realSize status).run jreg = Debug.checkedWrite u d jreg realSize status >>= fun r => pure (r, jreg) := by
  have covers (seed : Word) : ReadsOnly (dataBytes 0 realSize) fun jreg => dataCrc jreg realSize 0 seed := by
    intro b b' agree
    refine dataCrc_reads agree realSize 0 seed fun j _ below => ?_
    exact ⟨mem_dataBytes.mpr ⟨j, by omega, by omega⟩, mem_dataBytes.mpr ⟨j, by omega, by omega⟩⟩
  unfold checkedWrite Debug.checkedWrite
  simp only [run_bind, run_view ((gather5_reads _).map reverse32), run_view (covers _), pure_bind]
  split
  · exact run_moduleWrite realSize status jreg
  · rfl

theorem run_goCommandWrite (numBits : Nat) (jreg : Buffer) :
    (goCommandWrite u d numBits).run jreg = Debug.goCommandWrite u d jreg numBits := by
  unfold goCommandWrite Debug.goCommandWrite
  simp only [run_bind, run_checkedWrite, run_constructResponse, run_pure, bind_assoc, pure_bind]

theorem run_goCommand (numBits : Nat) (jreg : Buffer) : (goCommand u d numBits).run jreg = Debug.goCommand u d jreg numBits := by
  have clears : KeepsTo (List.range' 0 ((numBits + 7) / 8)) (clearBytes ((numBits + 7) / 8)) :=
    clearBytes_keeps fun k small => List.mem_range'_1.mpr (by omega)
  unfold goCommand Debug.goCommand
  split
  · rw [run_bind, run_edit clears]
    rfl
  · cases d.accType with
    | write8 | write16 | write32 => exact run_goCommandWrite numBits jreg
    | read8 | read16 | read32 => exact run_goCommandRead numBits jreg

theorem run_readCommand (numBits : Nat) (jreg : Buffer) :
    (readCommand d numBits : Shift δ DebugState).run jreg = pure (Debug.readCommand d jreg numBits) := by
  unfold readCommand Debug.readCommand
  split
  · rfl
  · simp only [run_bind, run_commandCrc, pure_bind, decide_eq_true_eq]
    split
    · simp only [run_bind, run_edit (putCommand_keeps _ _ _), run_constructResponse, run_pure, pure_bind]
    · simp only [run_bind, run_constructResponse, run_pure, pure_bind]

theorem run_writeCommand (numBits : Nat) (jreg : Buffer) :
    (writeCommand d numBits : Shift δ DebugState).run jreg = pure (Debug.writeCommand d jreg numBits) := by
  unfold writeCommand Debug.writeCommand
  split
  · rfl
  · simp only [run_bind, run_view accTypeField_reads, run_view lenField_reads, run_view ((gather1_reads _).map reverse32),
      run_constructResponse, run_pure, pure_bind]
    rfl

theorem run_readControl (numBits : Nat) (jreg : Buffer) :
    (readControl d numBits : Shift δ DebugState).run jreg =
      get >>= fun m => pure (Debug.readControl d jreg numBits m) := by
  unfold readControl Debug.readControl
  split
  · rfl
  · simp only [run_bind, run_commandCrc, pure_bind, decide_eq_true_eq]
    split
    · simp only [run_bind, run_lift, run_edit (putControl_keeps _), run_constructResponse, run_pure, bind_assoc, pure_bind]
    · simp only [run_bind, run_constructResponse, run_pure, pure_bind]
      rfl

theorem run_writeControl (numBits : Nat) (jreg : Buffer) :
    (writeControl u d numBits).run jreg = Debug.writeControl u d jreg numBits := by
  unfold writeControl Debug.writeControl
  split
  · rfl
  · simp only [run_bind, run_view (gatherControl_reads.map fun data => reverseBits data 52),
      run_view ((gather1_reads _).map reverse32), pure_bind]
    split
    · simp only [run_bind, run_lift, run_constructResponse, run_pure, bind_assoc, pure_bind]
    · simp only [run_bind, run_constructResponse, run_pure, pure_bind]

/-- What a call returns and leaves is what it returns and leaves without the bytes. -/
theorem run_jtagShiftDr (numBits : Nat) (jreg : Buffer) : (jtagShiftDr u d numBits).run jreg = Debug.jtagShiftDr u d jreg numBits := by
  unfold jtagShiftDr Debug.jtagShiftDr
  split
  · rfl
  · rw [run_bind, run_view (byte_reads (by decide)), pure_bind]
    dsimp only
    split
    · exact run_selectModule numBits jreg
    · rw [run_bind, run_view code4_reads, pure_bind]
      generalize (code4 jreg).toNat = command
      match command with
      | 0 => exact run_goCommand numBits jreg
      | 1 => exact run_readCommand numBits jreg
      | 2 => exact run_writeCommand numBits jreg
      | 3 => exact run_readControl numBits jreg
      | 4 => exact run_writeControl numBits jreg
      | _ + 5 => rfl

/-! ### Where the bytes are -/

theorem mem_responseBytes {ignBits zeroBits k : Nat} :
    k ∈ responseBytes ignBits zeroBits ↔
      k ≤ zeroBits / 8 ∨ (ignBits + zeroBits) % 2 ^ 32 / 8 ≤ k ∧ k ≤ ((ignBits + zeroBits) % 2 ^ 32 + 35) / 8 := by
  unfold responseBytes
  simp only [List.mem_append, List.mem_range'_1]
  split <;> omega

theorem constructResponse_below {len : Nat} (status : Status) (crcIn : Word) {ignBits zeroBits : Nat} (zeros : zeroBits / 8 < len)
    (fits : ((ignBits + zeroBits) % 2 ^ 32 + 35) / 8 < len) :
    Below len (constructResponse status crcIn ignBits zeroBits : Shift δ Unit) := by
  intro jreg m k touched
  rcases mem_responseBytes.mp touched with small | ⟨_, small⟩ <;> omega

theorem span_below {len i n : Nat} (fits : i + n ≤ len) : ∀ k ∈ List.range' i n, k < len := by
  intro k inside
  have := List.mem_range'_1.mp inside
  omega

theorem dataBytes_below {len byteOff n : Nat} (fits : byteOff + n < len) : ∀ k ∈ dataBytes byteOff n, k < len := by
  intro k inside
  obtain ⟨i, small, is⟩ := mem_dataBytes.mp inside
  omega

theorem commandCrc_below {len : Nat} (fits : 5 ≤ len) (command : BitVec 64) : Below len (commandCrc command : Shift δ Bool) :=
  fun _ _ => span_below (by omega)

theorem selectModule_below (d : DebugState) (numBits : Nat) :
    Below ((numBits + 7) / 8) (selectModule d numBits : Shift δ DebugState) := by
  unfold selectModule
  split
  · exact .pure _ _
  · refine .bind (fun _ _ => ?_) fun _ => .bind (fun _ _ => span_below (by omega)) fun _ =>
      .bind (constructResponse_below _ _ (by omega) (by omega)) fun _ => .pure _ _
    intro k is
    rw [List.mem_singleton.mp is]
    omega

theorem readCommand_below (d : DebugState) (numBits : Nat) : Below ((numBits + 7) / 8) (readCommand d numBits : Shift δ DebugState) := by
  unfold readCommand
  split
  · exact .pure _ _
  · refine .bind (commandCrc_below (by omega) _) fun good => ?_
    have answer (status : Status) (crcIn : Word) :
        Below ((numBits + 7) / 8) (constructResponse status crcIn 52 37 : Shift δ Unit) :=
      constructResponse_below _ _ (by omega) (by omega)
    split
    · exact .bind (fun _ _ => span_below (by omega)) fun _ => .bind (answer _ _) fun _ => .pure _ _
    · exact .bind (answer _ _) fun _ => .pure _ _

theorem writeCommand_below (d : DebugState) (numBits : Nat) :
    Below ((numBits + 7) / 8) (writeCommand d numBits : Shift δ DebugState) := by
  unfold writeCommand
  split
  · exact .pure _ _
  · refine .bind (fun _ _ => ?_) fun _ => .bind (fun _ _ => span_below (by omega)) fun _ => .bind (fun _ _ => ?_) fun _ =>
      .bind (fun _ _ => span_below (by omega)) fun _ => .bind (constructResponse_below _ _ (by omega) (by omega)) fun _ => .pure _ _
    · exact span_below (i := 0) (n := 2) (by omega)
    · exact span_below (i := 5) (n := 3) (by omega)

theorem readControl_below (d : DebugState) (numBits : Nat) : Below ((numBits + 7) / 8) (readControl d numBits : Shift δ DebugState) := by
  unfold readControl
  split
  · exact .pure _ _
  · refine .bind (commandCrc_below (by omega) _) fun good => ?_
    have answer (status : Status) (crcIn : Word) :
        Below ((numBits + 7) / 8) (constructResponse status crcIn 52 37 : Shift δ Unit) :=
      constructResponse_below _ _ (by omega) (by omega)
    split
    · exact .bind (.lift _ _) fun _ => .bind (fun _ _ => span_below (by omega)) fun _ => .bind (answer _ _) fun _ => .pure _ _
    · exact .bind (answer _ _) fun _ => .pure _ _

theorem writeControl_below (u : DebugConfig δ) (d : DebugState) (numBits : Nat) :
    Below ((numBits + 7) / 8) (writeControl u d numBits) := by
  unfold writeControl
  split
  · exact .pure _ _
  · refine .bind (fun _ _ => span_below (by omega)) fun data => .bind (fun _ _ => span_below (by omega)) fun crcIn => ?_
    have answer (status : Status) : Below ((numBits + 7) / 8) (constructResponse status 0xffffffff 0 89 : Shift δ Unit) :=
      constructResponse_below _ _ (by omega) (by omega)
    dsimp only
    split
    · exact .bind (.lift _ _) fun _ => .bind (answer _) fun _ => .pure _ _
    · exact .bind (answer _) fun _ => .pure _ _

end Traced

end Or1ksim.Debug
