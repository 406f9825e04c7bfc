import Or1ksim.Debug.Jtag

/-!
# The bits of the registers

What the shifts and masks of `jtag.c` come to: where a register shows a value, and which bits of the
buffer a function writes.
-/

namespace Or1ksim.Debug

open Serial (Buffer Shows msbFirst length_msbFirst getD_msbFirst)
open Cpu (Word)

/-! ### CRCs and reversals -/

theorem crc32Poly_odd : crc32Poly.getLsbD 0 = true := by decide

theorem crc32_step (crc : Word) (bit : Bool) :
    (crc <<< 1) ^^^ (((if bit then 0xfffffff else 0 : Word) ^^^ if crc.getLsbD 31 then 0xfffffff else 0) &&& crc32Poly) =
      Serial.crcStep crc32Poly crc bit := by
  unfold Serial.crcStep
  rw [BitVec.msb_eq_getLsbD_last]
  have poly : 0xfffffff#32 &&& crc32Poly = crc32Poly := by decide
  cases bit <;> cases crc.getLsbD (32 - 1) <;> simp [poly]

theorem crc32_eq (value : BitVec 64) (n : Nat) (seed : Word) : crc32 value n seed = Serial.crc crc32Poly seed (msbFirst n value) := by
  induction n generalizing seed with
  | zero => rfl
  | succ n ih =>
    unfold msbFirst
    rw [crc32, crc32_step, ih, List.range_succ_eq_map, List.map_cons, List.map_map]
    show Serial.crc _ _ _ = Serial.crc _ (Serial.crcStep _ _ _) _
    congr 1
    apply List.map_congr_left
    intro k inside
    show value.getLsbD (n - 1 - k) = value.getLsbD (n + 1 - 1 - (k + 1))
    congr 1
    omega

theorem crc32_setWidth {n w : Nat} (v : BitVec w) (fits : n ≤ 64) (seed : Word) :
    crc32 (v.setWidth 64) n seed = Serial.crc crc32Poly seed (msbFirst n v) := by
  rw [crc32_eq]
  congr 1
  apply List.map_congr_left
  intro k inside
  have := List.mem_range.mp inside
  rw [BitVec.getLsbD_setWidth, decide_eq_true (by omega), Bool.true_and]

/-- The bit that a step of `reverse_bits` exchanges with another. -/
def partner (s i : Nat) : Nat := if i / s % 2 = 0 then i + s else i - s

theorem getLsbD_swap (v high low : BitVec 64) (s : Nat) {i : Nat} (inside : i < 64)
    (masks : if i / s % 2 = 0 then high.getLsbD (s + i) = true ∧ (i < s ∨ low.getLsbD (i - s) = false)
      else high.getLsbD (s + i) = false ∧ s ≤ i ∧ low.getLsbD (i - s) = true) :
    (((v &&& high) >>> s) ||| ((v &&& low) <<< s)).getLsbD i = v.getLsbD (partner s i) := by
  rw [BitVec.getLsbD_or, BitVec.getLsbD_ushiftRight, BitVec.getLsbD_and, BitVec.getLsbD_shiftLeft, BitVec.getLsbD_and]
  unfold partner
  split at masks
  · next even =>
    obtain ⟨taken, left⟩ := masks
    rw [if_pos even, taken, Bool.and_true, Nat.add_comm s i]
    rcases left with small | out
    · simp [small]
    · simp [out]
  · next odd =>
    obtain ⟨left, large, taken⟩ := masks
    rw [if_neg odd, left, taken]
    simp [inside, large]

theorem getLsbD_reverseBits_all (v : BitVec 64) {i : Nat} (inside : i < 64) : (reverseBits v 64).getLsbD i = v.getLsbD (63 - i) := by
  have halves (x : BitVec 64) {i : Nat} (inside : i < 64) : ((x >>> 32) ||| (x <<< 32)).getLsbD i = x.getLsbD (partner 32 i) := by
    rw [BitVec.getLsbD_or, BitVec.getLsbD_ushiftRight, BitVec.getLsbD_shiftLeft]
    unfold partner
    by_cases low : i < 32
    · rw [if_pos (by omega), Nat.add_comm 32 i]
      simp [low]
    · rw [if_neg (by omega), BitVec.getLsbD_of_ge x (32 + i) (by omega)]
      simp [inside, low]
  have inside16 : partner 32 i < 64 ∧ partner 16 (partner 32 i) < 64 ∧ partner 8 (partner 16 (partner 32 i)) < 64 ∧
      partner 4 (partner 8 (partner 16 (partner 32 i))) < 64 ∧ partner 2 (partner 4 (partner 8 (partner 16 (partner 32 i)))) < 64 ∧
      partner 1 (partner 2 (partner 4 (partner 8 (partner 16 (partner 32 i))))) = 63 - i := by
    revert i
    decide
  obtain ⟨in32, in16, in8, in4, in2, all⟩ := inside16
  unfold reverseBits
  dsimp only
  rw [Nat.sub_self, BitVec.ushiftRight_zero, halves _ inside,
    getLsbD_swap _ _ _ 16 in32 (by generalize partner 32 i = k at in32; revert k; decide),
    getLsbD_swap _ _ _ 8 in16 (by generalize partner 16 (partner 32 i) = k at in16; revert k; decide),
    getLsbD_swap _ _ _ 4 in8 (by generalize partner 8 _ = k at in8; revert k; decide),
    getLsbD_swap _ _ _ 2 in4 (by generalize partner 4 _ = k at in4; revert k; decide),
    getLsbD_swap _ _ _ 1 in2 (by generalize partner 2 _ = k at in2; revert k; decide), all]

theorem getLsbD_reverseBits (v : BitVec 64) {n : Nat} (fits : n ≤ 64) (i : Nat) :
    (reverseBits v n).getLsbD i = (decide (i < n) && v.getLsbD (n - 1 - i)) := by
  have shifted : reverseBits v n = reverseBits v 64 >>> (64 - n) := rfl
  rw [shifted, BitVec.getLsbD_ushiftRight]
  by_cases inside : i < n
  · rw [getLsbD_reverseBits_all v (by omega), decide_eq_true inside, Bool.true_and]
    congr 1
    omega
  · rw [BitVec.getLsbD_of_ge _ _ (by omega), decide_eq_false inside, Bool.false_and]

theorem reverseBits_toNat_lt (v : BitVec 64) {n : Nat} (fits : n ≤ 64) : (reverseBits v n).toNat < 2 ^ n := by
  have shifted : reverseBits v n = reverseBits v 64 >>> (64 - n) := rfl
  rw [shifted, BitVec.toNat_ushiftRight, Nat.shiftRight_eq_div_pow]
  apply Nat.div_lt_of_lt_mul
  rw [← Nat.pow_add, show 64 - n + n = 64 by omega]
  exact (reverseBits v 64).isLt

theorem getLsbD_reverse32 (v : Word) (i : Nat) : (reverse32 v).getLsbD i = (decide (i < 32) && v.getLsbD (31 - i)) := by
  unfold reverse32
  rw [BitVec.getLsbD_setWidth, getLsbD_reverseBits _ (by decide), BitVec.getLsbD_setWidth]
  by_cases inside : i < 32
  · simp only [inside, decide_true, Bool.true_and, show 32 - 1 - i < 64 by omega]
  · simp only [inside, decide_false, Bool.false_and]

theorem getLsbD_reverseByte (b : BitVec 8) {i : Nat} (inside : i < 8) : (reverseByte b).getLsbD i = b.getLsbD (7 - i) := by
  have all : ∀ b : BitVec 8, ∀ i < 8, (reverseByte b).getLsbD i = b.getLsbD (7 - i) := by decide +kernel
  exact all b i inside

/-! ### Fields of a request -/

theorem bit_eq (b : Buffer) (i : Nat) {j : Nat} (k : Nat) (inside : j < 8) (is : k = 8 * i + j) : b.bit k = (b i).getLsbD j := by
  subst is
  unfold Buffer.bit
  rw [show (8 * i + j) / 8 = i by omega, show (8 * i + j) % 8 = j by omega]

theorem getLsbD_drop {w : Nat} (b : Buffer) (q s : Nat) (v : BitVec 8) (fits : 8 ≤ w)
    (masked : ∀ j < 8, s ≤ j → v.getLsbD j = (b q).getLsbD j) (k : Nat) :
    (v.setWidth w >>> s).getLsbD k = (decide (s + k < 8) && b.bit (8 * q + s + k)) := by
  rw [BitVec.getLsbD_ushiftRight, BitVec.getLsbD_setWidth]
  by_cases inside : s + k < 8
  · rw [bit_eq b q (j := s + k) _ inside (by omega), masked _ inside (by omega)]
    simp [inside, show s + k < w by omega]
  · rw [BitVec.getLsbD_of_ge v _ (by omega), decide_eq_false inside]
    simp

theorem getLsbD_lift {w n : Nat} (fits : n ≤ w) (b : Buffer) (q s : Nat) (v : BitVec 8)
    (masked : ∀ j < 8, s + j < n → v.getLsbD j = (b q).getLsbD j) {k : Nat} (inside : k < n) :
    (v.setWidth w <<< s).getLsbD k = (decide (s ≤ k ∧ k < s + 8) && b.bit (8 * q + (k - s))) := by
  rw [BitVec.getLsbD_shiftLeft, BitVec.getLsbD_setWidth]
  by_cases here : s ≤ k ∧ k < s + 8
  · rw [bit_eq b q (j := k - s) _ (by omega) rfl, masked _ (by omega) (by omega)]
    simp [here, show k < w by omega, show k - s < w by omega]
  · rw [decide_eq_false here, Bool.false_and]
    by_cases low : k < s
    · simp [low]
    · rw [BitVec.getLsbD_of_ge v (k - s) (by omega)]
      simp

theorem getLsbD_mask (v m : BitVec 8) {j : Nat} (set : m.getLsbD j = true) : (v &&& m).getLsbD j = v.getLsbD j := by
  rw [BitVec.getLsbD_and, set, Bool.and_true]

theorem getLsbD_gather5 (jreg : Buffer) (i : Nat) {k : Nat} (inside : k < 32) :
    (gather5 jreg i).getLsbD k = jreg.bit (8 * i + 5 + k) := by
  have high : ∀ j < 8, 5 ≤ j → (0xe0 : BitVec 8).getLsbD j = true := by decide
  have low : ∀ j < 8, 27 + j < 32 → (0x1f : BitVec 8).getLsbD j = true := by decide
  unfold gather5
  simp only [BitVec.getLsbD_or]
  rw [getLsbD_drop jreg i 5 _ (by decide) fun j small large => getLsbD_mask _ _ (high j small large),
    getLsbD_lift (Nat.le_refl _) jreg (i + 1) 3 _ (fun _ _ _ => rfl) inside,
      getLsbD_lift (Nat.le_refl _) jreg (i + 2) 11 _ (fun _ _ _ => rfl) inside,
    getLsbD_lift (Nat.le_refl _) jreg (i + 3) 19 _ (fun _ _ _ => rfl) inside,
    getLsbD_lift (Nat.le_refl _) jreg (i + 4) 27 _ (fun j small large => getLsbD_mask _ _ (low j small large)) inside]
  grind

theorem getLsbD_gather1 (jreg : Buffer) (i : Nat) {k : Nat} (inside : k < 32) :
    (gather1 jreg i).getLsbD k = jreg.bit (8 * i + 1 + k) := by
  have high : ∀ j < 8, 1 ≤ j → (0xfe : BitVec 8).getLsbD j = true := by decide
  have low : ∀ j < 8, 31 + j < 32 → (0x01 : BitVec 8).getLsbD j = true := by decide
  unfold gather1
  simp only [BitVec.getLsbD_or]
  rw [getLsbD_drop jreg i 1 _ (by decide) fun j small large => getLsbD_mask _ _ (high j small large),
    getLsbD_lift (Nat.le_refl _) jreg (i + 1) 7 _ (fun _ _ _ => rfl) inside,
      getLsbD_lift (Nat.le_refl _) jreg (i + 2) 15 _ (fun _ _ _ => rfl) inside,
    getLsbD_lift (Nat.le_refl _) jreg (i + 3) 23 _ (fun _ _ _ => rfl) inside,
    getLsbD_lift (Nat.le_refl _) jreg (i + 4) 31 _ (fun j small large => getLsbD_mask _ _ (low j small large)) inside]
  grind

theorem getLsbD_gatherControl (jreg : Buffer) {k : Nat} (inside : k < 52) : (gatherControl jreg).getLsbD k = jreg.bit (5 + k) := by
  have high : ∀ j < 8, 5 ≤ j → (0xe0 : BitVec 8).getLsbD j = true := by decide
  have low : ∀ j < 8, 51 + j < 52 → (0x01 : BitVec 8).getLsbD j = true := by decide
  have byte (q s : Nat) := getLsbD_lift (w := 64) (by decide) jreg q s (jreg q) (fun _ _ _ => rfl) inside
  unfold gatherControl
  simp only [BitVec.getLsbD_or]
  rw [getLsbD_drop jreg 0 5 _ (by decide) fun j small large => getLsbD_mask _ _ (high j small large), byte 1 3, byte 2 11, byte 3 19,
    byte 4 27, byte 5 35, byte 6 43,
    getLsbD_lift (by decide) jreg 7 51 _ (fun j small large => getLsbD_mask _ _ (low j small large)) inside]
  grind

/-- A field that is reversed shows in the register where it was taken from. -/
theorem shows_reverse32 {jreg : Buffer} {off : Nat} {v : Word} (taken : ∀ k < 32, v.getLsbD k = jreg.bit (off + k)) :
    Shows jreg off 32 (reverse32 v) := by
  intro k inside
  rw [getLsbD_reverse32, decide_eq_true (by omega), Bool.true_and, show 31 - (32 - 1 - k) = k by omega, taken k inside]

theorem shows_reverseBits {jreg : Buffer} {off n : Nat} {v : BitVec 64} (fits : n ≤ 64)
    (taken : ∀ k < n, v.getLsbD k = jreg.bit (off + k)) : Shows jreg off n (reverseBits v n) := by
  intro k inside
  rw [getLsbD_reverseBits _ fits, show n - 1 - (n - 1 - k) = k by omega, taken k inside, decide_eq_true (by omega), Bool.true_and]

theorem shows_code4 (jreg : Buffer) : Shows jreg 1 4 (code4 jreg) := by
  refine Shows.setWidth (shows_reverseBits (by decide) fun k inside => ?_) (by decide)
  have mask : ∀ j < 4, (0xf : BitVec 8).getLsbD j = true := by decide
  rw [bit_eq jreg 0 (j := 1 + k) _ (by omega) (by omega), BitVec.getLsbD_setWidth, BitVec.getLsbD_and, mask k inside,
    BitVec.getLsbD_ushiftRight]
  simp [show k < 64 by omega]

theorem shows_crc5 (jreg : Buffer) (i : Nat) : Shows jreg (8 * i + 5) 32 (reverse32 (gather5 jreg i)) :=
  shows_reverse32 fun _ inside => getLsbD_gather5 jreg i inside

theorem shows_gather1 (jreg : Buffer) (i : Nat) : Shows jreg (8 * i + 1) 32 (reverse32 (gather1 jreg i)) :=
  shows_reverse32 fun _ inside => getLsbD_gather1 jreg i inside

theorem shows_control (jreg : Buffer) : Shows jreg 5 52 (reverseBits (gatherControl jreg) 52) :=
  shows_reverseBits (by decide) fun _ inside => getLsbD_gatherControl jreg inside

theorem getLsbD_byte5 (jreg : Buffer) (i : Nat) {k : Nat} (inside : k < 8) (high low : BitVec 8)
    (upper : ∀ j < 8, 5 ≤ j → high.getLsbD j = (jreg i).getLsbD j) (lower : ∀ j < 5, low.getLsbD j = (jreg (i + 1)).getLsbD j) :
    ((high >>> 5) ||| (low <<< 3)).getLsbD k = jreg.bit (8 * i + 5 + k) := by
  have dropped := getLsbD_drop jreg i 5 high (Nat.le_refl 8) upper k
  have lifted := getLsbD_lift (Nat.le_refl 8) jreg (i + 1) 3 low (fun j _ small => lower j (by omega)) inside
  rw [BitVec.setWidth_eq] at dropped lifted
  rw [BitVec.getLsbD_or, dropped, lifted]
  grind

theorem shows_accType (jreg : Buffer) : Shows jreg 5 4 (accTypeField jreg) := by
  have high : ∀ j < 8, 5 ≤ j → (0xe0 : BitVec 8).getLsbD j = true := by decide
  refine Shows.setWidth (shows_reverseBits (by decide) fun k inside => ?_) (by decide)
  have dropped := getLsbD_drop jreg 0 5 _ (Nat.le_refl 8) (fun j small large => getLsbD_mask (jreg 0) _ (high j small large)) k
  have lifted := getLsbD_lift (n := 4) (w := 8) (by decide) jreg 1 3 (jreg 1 &&& 0x01)
    (fun j _ small => getLsbD_mask _ _ (by rw [show j = 0 by omega]; rfl)) inside
  rw [BitVec.setWidth_eq] at dropped lifted
  rw [BitVec.getLsbD_setWidth, BitVec.getLsbD_or, dropped, lifted]
  grind

theorem shows_len (jreg : Buffer) : Shows jreg 41 16 (lenField jreg) := by
  have high : ∀ j < 8, 1 ≤ j → (0xfe : BitVec 8).getLsbD j = true := by decide
  refine Shows.setWidth (shows_reverseBits (by decide) fun k inside => ?_) (by decide)
  rw [BitVec.getLsbD_setWidth, BitVec.getLsbD_or, BitVec.getLsbD_or,
    getLsbD_drop jreg 5 1 _ (by decide) fun j small large => getLsbD_mask _ _ (high j small large),
    getLsbD_lift (n := 16) (by decide) jreg 6 7 _ (fun _ _ _ => rfl) inside,
    getLsbD_lift (n := 16) (by decide) jreg 7 15 _
      (fun j _ small => getLsbD_mask _ _ (by rw [show j = 0 by omega]; rfl)) inside]
  grind

theorem shows_dataByte (jreg : Buffer) (i : Nat) : Shows jreg (8 * i + 5) 8 (dataByte jreg i) := by
  intro k inside
  unfold dataByte
  rw [getLsbD_reverseByte _ (by omega), show 7 - (8 - 1 - k) = k by omega,
    getLsbD_byte5 jreg i inside _ _ (fun _ _ _ => rfl) fun _ _ => rfl]

theorem dataCrc_eq (jreg : Buffer) (more i : Nat) (seed : Word) :
    dataCrc jreg more i seed = Serial.crc crc32Poly seed (jreg.bits (8 * i + 5) (8 * more)) := by
  induction more generalizing i seed with
  | zero => rfl
  | succ more ih =>
    have high : ∀ j < 8, 5 ≤ j → (0xe0 : BitVec 8).getLsbD j = true := by decide
    have low : ∀ j < 5, (0x1f : BitVec 8).getLsbD j = true := by decide
    have byte : Shows jreg (8 * i + 5) 8
        (reverseBits ((((jreg i &&& 0xe0) >>> 5) ||| ((jreg (i + 1) &&& 0x1f) <<< 3)).setWidth 64) 8) := by
      refine shows_reverseBits (by decide) fun k inside => ?_
      rw [BitVec.getLsbD_setWidth, decide_eq_true (by omega), Bool.true_and]
      exact getLsbD_byte5 jreg i inside _ _ (fun j small large => getLsbD_mask _ _ (high j small large))
        fun j small => getLsbD_mask _ _ (low j small)
    rw [dataCrc, ih, crc32_eq, ← byte.bits, ← Serial.crc_append, show 8 * (more + 1) = 8 + 8 * more by omega, Buffer.bits_add,
      show 8 * (i + 1) + 5 = 8 * i + 5 + 8 by omega]

/-! ### The response -/

/-- The bits that `construct_response` adds: the status, and the CRC behind it. -/
def responseBit (status : Status) (crcIn : Word) (i : Nat) : Bool :=
  if i < 4 then status.getLsbD (3 - i) else (crc32 (status.setWidth 64) 4 crcIn).getLsbD (35 - i)

theorem getLsbD_statusR (status : Status) (x : Nat) :
    ((reverseBits (status.setWidth 64) 4).setWidth 8).getLsbD x = (decide (x < 4) && status.getLsbD (3 - x)) := by
  rw [BitVec.getLsbD_setWidth, getLsbD_reverseBits _ (by decide), BitVec.getLsbD_setWidth]
  by_cases inside : x < 4
  · simp [inside, show x < 8 by omega, show 3 - x < 64 by omega]
  · simp [inside]

theorem getLsbD_clearLow (v : BitVec 8) (s : Nat) {j : Nat} (inside : j < 8) :
    ((v >>> s) <<< s).getLsbD j = (decide (s ≤ j) && v.getLsbD j) := by
  rw [BitVec.getLsbD_shiftLeft, BitVec.getLsbD_ushiftRight]
  by_cases low : s ≤ j
  · simp [inside, low, show s + (j - s) = j by omega]
  · simp [low]

theorem bit_clearFront (jreg : Buffer) (zeros k : Nat) :
    ((clearBytes (zeros / 8) jreg).put (zeros / 8) ((clearBytes (zeros / 8) jreg (zeros / 8) >>> (zeros % 8)) <<< (zeros % 8))).bit k =
      (decide (zeros ≤ k) && jreg.bit k) := by
  rw [Buffer.bit_put]
  split
  · next here =>
    rw [getLsbD_clearLow _ _ (Nat.mod_lt k (by decide)), show clearBytes (zeros / 8) jreg (zeros / 8) =
      jreg (zeros / 8) from if_neg (by omega)]
    unfold Buffer.bit
    rw [here]
    congr 2
    apply propext
    omega
  · next other =>
    unfold Buffer.bit clearBytes
    split
    · next before => simp [show ¬ zeros ≤ k by omega]
    · next behind => simp [show zeros ≤ k by omega]

theorem getLsbD_low8 (v : Word) (s : Nat) {j : Nat} (inside : j < 8) : ((v >>> s).setWidth 8).getLsbD j = v.getLsbD (s + j) := by
  rw [BitVec.getLsbD_setWidth, BitVec.getLsbD_ushiftRight, decide_eq_true inside, Bool.true_and]

theorem getLsbD_high8 (v : Word) (s : Nat) {j : Nat} (inside : j < 8) :
    ((v <<< s).setWidth 8).getLsbD j = (decide (s ≤ j) && v.getLsbD (j - s)) := by
  rw [BitVec.getLsbD_setWidth, BitVec.getLsbD_shiftLeft, decide_eq_true inside, Bool.true_and]
  by_cases low : s ≤ j
  · simp [low, show j < 32 by omega]
  · simp [low]

theorem bit_constructResponse (jreg : Buffer) (status : Status) (crcIn : Word) {ign zeros : Nat} (fits : ign + zeros < 2 ^ 32) {k : Nat}
    (inside : k < ign + zeros + 36) :
    (constructResponse jreg status crcIn ign zeros).bit k =
      if k < ign + zeros then decide (zeros ≤ k) && jreg.bit k
      else responseBit status crcIn (k - (ign + zeros)) || (decide (k / 8 = (ign + zeros) / 8) && jreg.bit k) := by
  unfold constructResponse responseBit
  dsimp only
  rw [Nat.mod_eq_of_lt fits]
  have bits := bit_clearFront jreg zeros k
  generalize (clearBytes (zeros / 8) jreg).put (zeros / 8) ((clearBytes (zeros / 8) jreg (zeros / 8) >>> (zeros % 8)) <<< (zeros % 8)) =
    front at bits ⊢
  generalize crc32 (status.setWidth 64) 4 crcIn = crcOut
  have j8 := Nat.mod_lt k (show 0 < 8 by decide)
  have own : front.bit k = (front (k / 8)).getLsbD (k % 8) := rfl
  have mask (x : Nat) : (0xf : BitVec 8).getLsbD x = decide (x < 4) := by
    by_cases small : x < 8
    · revert x
      decide
    · rw [BitVec.getLsbD_of_ge _ _ (by omega), decide_eq_false (by omega)]
  split
  · next small =>
    simp only [Buffer.bit_put]
    split
    · next at4 =>
      rw [getLsbD_low8 _ _ j8, getLsbD_reverse32]
      grind
    · split
      · next at3 =>
        rw [getLsbD_low8 _ _ j8, getLsbD_reverse32]
        grind
      · split
        · next at2 =>
          rw [getLsbD_low8 _ _ j8, getLsbD_reverse32]
          grind
        · split
          · next at1 =>
            rw [getLsbD_low8 _ _ j8, getLsbD_reverse32]
            grind
          · split
            · next at0 =>
              rw [BitVec.getLsbD_or, BitVec.getLsbD_or, getLsbD_high8 _ _ j8, getLsbD_reverse32, BitVec.getLsbD_shiftLeft,
                BitVec.getLsbD_and, getLsbD_statusR, mask,
                ← at0, ← own, bits]
              grind
            · grind
  · next large =>
    simp only [Buffer.bit_put]
    split
    · next at4 =>
      rw [getLsbD_low8 _ _ j8, getLsbD_reverse32]
      grind
    · split
      · next at3 =>
        rw [getLsbD_low8 _ _ j8, getLsbD_reverse32]
        grind
      · split
        · next at2 =>
          rw [getLsbD_low8 _ _ j8, getLsbD_reverse32]
          grind
        · split
          · next at1 =>
            rw [getLsbD_low8 _ _ j8, getLsbD_reverse32]
            grind
          · split
            · next at0 =>
              rw [BitVec.getLsbD_or, getLsbD_high8 _ _ j8, getLsbD_reverse32, BitVec.getLsbD_ushiftRight, getLsbD_statusR]
              grind
            · split
              · next here =>
                rw [BitVec.getLsbD_or, BitVec.getLsbD_shiftLeft, getLsbD_statusR, ← here, ← own, bits]
                grind
              · grind

/-! ### Data -/

theorem storeByte_eq (jreg : Buffer) (i : Nat) (b : BitVec 8) :
    storeByte jreg i b = (jreg.put (4 + i) (((jreg (4 + i) <<< 3) >>> 3) ||| (b <<< 5))).put (4 + i + 1)
      (((jreg (4 + i + 1) >>> 5) <<< 5) ||| (b >>> 3)) := by
  funext k
  unfold storeByte clearByte Buffer.put
  grind

theorem storeByte_overlay (jreg : Buffer) (i : Nat) (byte : BitVec 8) :
    storeByte jreg i (reverseByte byte) = jreg.overlay (37 + 8 * i) (msbFirst 8 byte) := by
  apply Buffer.ext_bit
  intro k
  have j8 := Nat.mod_lt k (show 0 < 8 by decide)
  have own : jreg.bit k = (jreg (k / 8)).getLsbD (k % 8) := rfl
  rw [storeByte_eq, Buffer.bit_overlay, Buffer.bit_put, Buffer.bit_put, length_msbFirst]
  by_cases low : k / 8 = 4 + i + 1
  · rw [if_pos low, BitVec.getLsbD_or, getLsbD_clearLow _ _ j8, BitVec.getLsbD_ushiftRight]
    by_cases inside : k % 8 < 5
    · rw [if_pos (by omega), getD_msbFirst _ (by omega), getLsbD_reverseByte _ (by omega), decide_eq_false (by omega)]
      grind
    · rw [if_neg (by omega), decide_eq_true (by omega), BitVec.getLsbD_of_ge _ (3 + k % 8) (by omega), ← low, own]
      simp
  · rw [if_neg low]
    by_cases high : k / 8 = 4 + i
    · rw [if_pos high, BitVec.getLsbD_or, BitVec.getLsbD_ushiftRight, BitVec.getLsbD_shiftLeft, BitVec.getLsbD_shiftLeft]
      by_cases inside : 5 ≤ k % 8
      · rw [if_pos (by omega), getD_msbFirst _ (by omega), getLsbD_reverseByte _ (by omega)]
        grind
      · rw [if_neg (by omega), own, ← high]
        grind
    · rw [if_neg high, if_neg (by omega)]

theorem clearByte_overlay (jreg : Buffer) (i : Nat) : clearByte jreg i = jreg.overlay (37 + 8 * i) (msbFirst 8 (0 : BitVec 8)) := by
  have stored : storeByte jreg i (reverseByte 0) = clearByte jreg i := by
    funext k
    show storeByte jreg i 0 k = _
    unfold storeByte clearByte Buffer.put
    grind
  rw [← stored, storeByte_overlay]

/-- The fields of READ_COMMAND. -/
def commandBits (accType : BitVec 8) (addr : Word) (len : BitVec 16) : List Bool :=
  msbFirst 4 accType ++ msbFirst 32 addr ++ msbFirst 16 len

theorem getD_commandBits (accType : BitVec 8) (addr : Word) (len : BitVec 16) (x : Nat) :
    (commandBits accType addr len).getD x false =
      if x < 4 then accType.getLsbD (3 - x) else if x < 36 then addr.getLsbD (35 - x) else decide (x < 52) && len.getLsbD (51 - x) := by
  unfold commandBits
  split
  · rw [List.append_assoc, List.getD_append _ _ _ _ (by simpa), getD_msbFirst _ (by assumption)]
  · split
    · rw [List.append_assoc, List.getD_append_right _ _ _ _ (by simp; omega), List.getD_append _ _ _ _ (by simp; omega),
        length_msbFirst, getD_msbFirst _ (by omega)]
      congr 1
      omega
    · rw [List.getD_append_right _ _ _ _ (by simp; omega), List.length_append, length_msbFirst, length_msbFirst]
      by_cases inside : x < 52
      · rw [getD_msbFirst _ (by omega), decide_eq_true inside, Bool.true_and]
        congr 1
        omega
      · rw [List.getD_eq_default _ _ (by simp; omega), decide_eq_false inside, Bool.false_and]

theorem getLsbD_reverse16 (v : BitVec 16) (x : Nat) :
    ((reverseBits (v.setWidth 64) 16).setWidth 16).getLsbD x = (decide (x < 16) && v.getLsbD (15 - x)) := by
  rw [BitVec.getLsbD_setWidth, getLsbD_reverseBits _ (by decide), BitVec.getLsbD_setWidth]
  grind

theorem bit_put_or (b : Buffer) (i : Nat) (value : BitVec 8) (k : Nat) :
    (b.put i (b i ||| value)).bit k = (b.bit k || (decide (k / 8 = i) && value.getLsbD (k % 8))) := by
  rw [Buffer.bit_put]
  split
  · next here =>
    unfold Buffer.bit
    rw [BitVec.getLsbD_or, decide_eq_true here, here, Bool.true_and]
  · next other => rw [decide_eq_false other, Bool.false_and, Bool.or_false]

theorem putCommand_merge (jreg : Buffer) (accType : BitVec 8) (addr : Word) (len : BitVec 16) :
    putCommand jreg accType addr len = jreg.merge 37 (commandBits accType addr len) := by
  apply Buffer.ext_bit
  intro k
  have j8 := Nat.mod_lt k (show 0 < 8 by decide)
  have mfe : ∀ j < 8, (0xfe : BitVec 8).getLsbD j = decide (1 ≤ j) := by decide
  have me0 : ∀ j < 8, (0xe0 : BitVec 8).getLsbD j = decide (5 ≤ j) := by decide
  have m01 : ∀ j < 8, (0x01 : BitVec 8).getLsbD j = decide (j < 1) := by decide
  have access := getLsbD_statusR accType
  have address := getLsbD_reverse32 addr
  have length := getLsbD_reverse16 len
  rw [Buffer.bit_merge, getD_commandBits]
  unfold putCommand
  dsimp only
  generalize (reverseBits (accType.setWidth 64) 4).setWidth 8 = accR at *
  generalize reverse32 addr = addrR at *
  generalize (reverseBits (len.setWidth 64) 16).setWidth 16 = lenR at *
  simp only [bit_put_or, BitVec.getLsbD_and, mfe _ j8, me0 _ j8, m01 _ j8, BitVec.getLsbD_setWidth, BitVec.getLsbD_ushiftRight,
    BitVec.getLsbD_shiftLeft, access, address, length]
  clear mfe me0 m01 access address length
  by_cases inside : 4 ≤ k / 8 ∧ k / 8 ≤ 11
  · have byte : k / 8 = 4 ∨ k / 8 = 5 ∨ k / 8 = 6 ∨ k / 8 = 7 ∨ k / 8 = 8 ∨ k / 8 = 9 ∨ k / 8 = 10 ∨ k / 8 = 11 := by omega
    rcases byte with here | here | here | here | here | here | here | here
    all_goals
      simp only [here, Nat.reduceEqDiff, decide_true, decide_false, Bool.false_and, Bool.true_and, Bool.or_false]
      grind
  · have other (q : Nat) (out : 4 ≤ q ∧ q ≤ 11) : decide (k / 8 = q) = false := decide_eq_false (by omega)
    simp only [other 4 (by decide), other 5 (by decide), other 6 (by decide), other 7 (by decide), other 8 (by decide),
      other 9 (by decide),
      other 10 (by decide), other 11 (by decide), Bool.false_and, Bool.or_false]
    grind

/-- The mask of the second byte leaves out five bits, which are no control bits. -/
theorem putControl_merge (jreg : Buffer) (data : BitVec 64) (unused : ∀ i, 41 ≤ i → i ≤ 45 → data.getLsbD i = false) :
    putControl jreg data = jreg.merge 37 (msbFirst 52 data) := by
  apply Buffer.ext_bit
  intro k
  have j8 := Nat.mod_lt k (show 0 < 8 by decide)
  have mf8 : ∀ j < 8, (0xf8 : BitVec 8).getLsbD j = decide (3 ≤ j) := by decide
  have m07 : ∀ j < 8, (0x07 : BitVec 8).getLsbD j = decide (j < 3) := by decide
  have m01 : ∀ j < 8, (0x01 : BitVec 8).getLsbD j = decide (j < 1) := by decide
  have field : (msbFirst 52 data).getD (k - 37) false = (decide (k - 37 < 52) && data.getLsbD (51 - (k - 37))) := by
    by_cases inside : k - 37 < 52
    · rw [getD_msbFirst _ inside, decide_eq_true inside, Bool.true_and]
    · rw [List.getD_eq_default _ _ (by simp; omega), decide_eq_false inside, Bool.false_and]
  have reversed := getLsbD_reverseBits data (show 52 ≤ 64 by decide)
  rw [Buffer.bit_merge, field]
  unfold putControl
  dsimp only
  generalize reverseBits data 52 = dataR at *
  simp only [bit_put_or, BitVec.getLsbD_and, mf8 _ j8, m07 _ j8, m01 _ j8, BitVec.getLsbD_setWidth, BitVec.getLsbD_ushiftRight,
    BitVec.getLsbD_shiftLeft, reversed]
  clear mf8 m07 m01 reversed field
  by_cases inside : 4 ≤ k / 8 ∧ k / 8 ≤ 11
  · have byte : k / 8 = 4 ∨ k / 8 = 5 ∨ k / 8 = 6 ∨ k / 8 = 7 ∨ k / 8 = 8 ∨ k / 8 = 9 ∨ k / 8 = 10 ∨ k / 8 = 11 := by omega
    rcases byte with here | here | here | here | here | here | here | here
    all_goals
      simp only [here, Nat.reduceEqDiff, decide_true, decide_false, Bool.false_and, Bool.true_and, Bool.or_false]
      grind
  · have other (q : Nat) (out : 4 ≤ q ∧ q ≤ 11) : decide (k / 8 = q) = false := decide_eq_false (by omega)
    simp only [other 4 (by decide), other 5 (by decide), other 6 (by decide), other 7 (by decide), other 8 (by decide),
      other 9 (by decide),
      other 10 (by decide), other 11 (by decide), Bool.false_and, Bool.or_false]
    grind

end Or1ksim.Debug
