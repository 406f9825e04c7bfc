import Or1ksim.Lib.Burst
import Or1ksim.Debug.Registers

/-!
# Errors that the CRC of a request shows

The bits of a request reach `crc32` in pieces. It does not matter how they are cut, and no error within 32 bits in a row
of the covered bits and the CRC field keeps the CRC right.
-/

namespace Or1ksim.Debug

open Serial (Buffer Burst msbFirst length_msbFirst)
open Cpu (Word Machine)

/-- A value and the number of its bits that one call of `crc32` takes. -/
structure Piece where
  value : BitVec 64
  numBits : Nat
  fits : numBits ≤ 64

def Piece.bits (p : Piece) : List Bool := msbFirst p.numBits p.value

/-- One call of `crc32` for every piece, each with what the one before returned. -/
def crcOver (pieces : List Piece) (crcIn : Word) : Word :=
  pieces.foldl (fun crc p => crc32 p.value p.numBits crc) crcIn

theorem crcOver_eq (pieces : List Piece) (crcIn : Word) :
    crcOver pieces crcIn = Serial.crc crc32Poly crcIn (pieces.flatMap Piece.bits) := by
  induction pieces generalizing crcIn with
  | nil => rfl
  | cons p pieces ih =>
    rw [List.flatMap_cons, Serial.crc_append]
    show crcOver pieces (crc32 p.value p.numBits crcIn) = _
    rw [ih, crc32_eq]
    rfl

/-- The first `k` of `n` bits are the top of the value. -/
theorem msbFirst_split {w n k : Nat} (v : BitVec w) (inside : k ≤ n) :
    msbFirst n v = msbFirst k (v >>> (n - k)) ++ msbFirst (n - k) v := by
  apply List.ext_getElem
  · rw [List.length_append, length_msbFirst, length_msbFirst, length_msbFirst]
    omega
  · intro i inN inBoth
    rw [length_msbFirst] at inN
    rw [← List.getD_eq_getElem _ false, ← List.getD_eq_getElem _ false, Serial.getD_msbFirst _ inN]
    by_cases first : i < k
    · rw [List.getD_append _ _ _ _ (by rwa [length_msbFirst]), Serial.getD_msbFirst _ first, BitVec.getLsbD_ushiftRight]
      congr 1
      omega
    · rw [List.getD_append_right _ _ _ _ (by rw [length_msbFirst]; omega), length_msbFirst, Serial.getD_msbFirst _ (by omega)]
      congr 1
      omega

theorem crcOk_iff (jreg : Buffer) (n : Nat) : CrcOk jreg n ↔ Serial.crc crc32Poly 0xffffffff (jreg.bits 0 (n + 32)) = 0 := by
  rw [Buffer.bits_add, Nat.zero_add, (Serial.shows_value jreg n 32).bits, Serial.crc_field_iff crc32Poly_odd]
  exact Iff.rfl

theorem burst_not_crcOk {sent received : Buffer} {n : Nat} (good : CrcOk sent n) (burst : Burst 32 (n + 32) sent received) :
    ¬ CrcOk received n := by
  intro still
  apply Serial.crc_burst crc32Poly_odd 0xffffffff burst
  rw [(crcOk_iff received n).mp still, (crcOk_iff sent n).mp good]

/-- A register with the right CRC, a burst in the bits that are covered and the CRC field: however the covered bits are cut,
the CRC of them is not the one in the field, and a request that covers as many bits is answered with a CRC error. -/
theorem crc_detects_bursts :
    (∀ (sent received : Buffer) (n : Nat), CrcOk sent n → Burst 32 (n + 32) sent received →
      (∀ pieces : List Piece, pieces.flatMap Piece.bits = received.bits 0 n → crcOver pieces 0xffffffff ≠ received.value n 32) ∧
      ∀ {δ : Type} (u : DebugConfig δ) (d : DebugState) (m : Machine δ) (f : Format), d.instr = some jiDebug →
        format d received = some f → f.covered d = n →
        ∃ out, jtagShiftDr u d received (f.length d) m = .ok ((f.rejected d, out), m) ∧ out.bit (f.statusOff d + 3) = true) ∧
    (∀ (p : Piece) (pieces : List Piece) (crcIn : Word), pieces.flatMap Piece.bits = p.bits →
      crcOver pieces crcIn = crc32 p.value p.numBits crcIn) ∧
    ∀ (value : BitVec 64) (n k : Nat) (crcIn : Word), n ≤ 64 → k ≤ n →
      crc32 value (n - k) (crc32 (value >>> (n - k)) k crcIn) = crc32 value n crcIn := by
  refine ⟨fun sent received n good burst => ?_, fun p pieces crcIn same => ?_, fun value n k crcIn _ inside => ?_⟩
  · have bad := burst_not_crcOk good burst
    constructor
    · intro pieces same checks
      rw [crcOver_eq, same] at checks
      exact bad checks.symm
    · rintro δ u d m f debug is rfl
      refine ⟨constructResponse received jsCrcInError f.rejectedCrc (f.data d) (f.zeros d), ?_, crc_error_status d f received _⟩
      rw [shiftDr_handler debug is, handler_rejects is bad]
      rfl
  · rw [crcOver_eq, same, crc32_eq]
    rfl
  · rw [crc32_eq, crc32_eq, crc32_eq, ← Serial.crc_append, ← msbFirst_split value inside]

/-- A SELECT_MODULE in which the bits of the module are turned over. -/
theorem crc_detects_bursts_select :
    crcOver [⟨1, 1, by decide⟩, ⟨0xe, 4, by decide⟩] 0xffffffff ≠
        ((request [true, false, false, false, true]).overlay 1 [true, true, true, false]).value 5 32 ∧
      crcOver [⟨0xab, 8, by decide⟩, ⟨0xc, 4, by decide⟩] 0 = crc32 0xabc 12 0 ∧
      crc32 0xabc 4 (crc32 (0xabc >>> 4) 8 0) = crc32 0xabc 12 0 := by
  obtain ⟨detects, joins, splits⟩ := crc_detects_bursts
  refine ⟨?_, joins ⟨0xabc, 12, by decide⟩ _ 0 (by decide +kernel), splits 0xabc 12 8 0 (by decide) (by decide)⟩
  exact (detects (request [true, false, false, false, true]) _ 5 (by decide +kernel)
    ⟨⟨1, by decide, by decide +kernel⟩, 1, by decide +kernel⟩).1 _ (by decide +kernel)

end Or1ksim.Debug
