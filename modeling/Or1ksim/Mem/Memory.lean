import Or1ksim.Mem.Lookup
import Or1ksim.Cpu.Memory

/-!
# Memories

`peripheral/memory.c`: a memory is a block of bytes of the host, and words are kept in the order of
the host. The accesses of a guest see an array of bytes in the order of the guest, whatever the host.
-/

namespace Or1ksim.Mem

open Cpu (Word Width has)

theorem bits_eq (w : Width) : w.bits = 8 * w.bytes := by
  cases w <;> rfl

/-! ### Aligned addresses -/

/-- The test of `eval_mem` and `set_mem`. -/
def IsAligned (w : Width) (addr : Word) : Prop := has addr w.alignMask = false

instance (w : Width) (addr : Word) : Decidable (IsAligned w addr) := inferInstanceAs (Decidable (_ = _))

theorem isAligned_iff (w : Width) (addr : Word) : IsAligned w addr ↔ addr.toNat % w.bytes = 0 := by
  obtain ⟨k, small, mask, bytes⟩ : ∃ k ≤ 32, w.alignMask = Aligned.low 32 k ∧ w.bytes = 2 ^ k := by
    cases w with
    | byte => exact ⟨0, by decide, rfl, rfl⟩
    | half => exact ⟨1, by decide, rfl, rfl⟩
    | word => exact ⟨2, by decide, rfl, rfl⟩
  unfold IsAligned has
  rw [mask, bytes, ← Bool.not_eq_true, decide_eq_true_iff, not_not, ← BitVec.toNat_inj, Aligned.and_low addr small]
  rfl

/-- The word that holds an address. -/
def wordAddr (addr : Word) : Word := addr &&& ~~~3

theorem wordAddr_toNat (addr : Word) : (wordAddr addr).toNat = addr.toNat / 4 * 4 := Aligned.and_not_low (k := 2) addr

theorem and_three_toNat (addr : Word) : (addr &&& 3).toNat = addr.toNat % 4 := Aligned.and_low (k := 2) addr (by decide)

/-- The size of the storage that `memory_sec_end` allocates: up to the next word. -/
def storageSize (size : Word) : Word := if size &&& 3 ≠ 0 then (size &&& ~~~3) + 4 else size

theorem storageSize_words (size : Word) : (storageSize size).toNat % 4 = 0 := by
  unfold storageSize
  have up := wordAddr_toNat size
  have rest := and_three_toNat size
  split
  · show (wordAddr size + 4).toNat % 4 = 0
    rw [BitVec.toNat_add, up, show (4 : Word).toNat = 4 from rfl]
    omega
  · next whole =>
    rw [not_not] at whole
    rw [whole] at rest
    exact rest.symm

/-! ### Bytes in the order of the guest -/

abbrev Bytes := Nat → BitVec 8

/-- The word that starts at a byte. -/
def bigWord (f : Bytes) (n : Nat) : Word := f n ++ f (n + 1) ++ f (n + 2) ++ f (n + 3)

/-- The value that starts at a byte. -/
def bigRead (f : Bytes) (n : Nat) : (w : Width) → BitVec w.bits
  | .byte => f n
  | .half => f n ++ f (n + 1)
  | .word => bigWord f n

def bigWrite (f : Bytes) (n : Nat) (w : Width) (value : BitVec w.bits) : Bytes := fun k =>
  if n ≤ k ∧ k < n + w.bytes then value.extractLsb' (8 * (w.bytes - 1 - (k - n))) 8 else f k

theorem getLsbD_bigWord (f : Bytes) (n : Nat) {i : Nat} (inside : i < 32) :
    (bigWord f n).getLsbD i = (f (n + (3 - i / 8))).getLsbD (i % 8) := by
  simp only [bigWord, BitVec.getLsbD_append]
  rcases (by omega : i / 8 = 0 ∨ i / 8 = 1 ∨ i / 8 = 2 ∨ i / 8 = 3) with byte | byte | byte | byte
  · rw [if_pos (by omega), byte, show i % 8 = i by omega]
  · rw [if_neg (by omega), if_pos (by omega), byte, show i % 8 = i - 8 by omega]
  · rw [if_neg (by omega), if_neg (by omega), if_pos (by omega), byte, show i % 8 = i - 8 - 8 by omega]
  · rw [if_neg (by omega), if_neg (by omega), if_neg (by omega), byte, Nat.sub_self, Nat.add_zero,
      show i % 8 = i - 8 - 8 - 8 by omega]

theorem getLsbD_bigRead (f : Bytes) (n : Nat) (w : Width) {i : Nat} (inside : i < w.bits) :
    (bigRead f n w).getLsbD i = (f (n + (w.bytes - 1 - i / 8))).getLsbD (i % 8) := by
  cases w with
  | byte =>
    have small : i < 8 := inside
    show (f n).getLsbD i = (f (n + (0 - i / 8))).getLsbD (i % 8)
    rw [Nat.zero_sub, Nat.add_zero, Nat.mod_eq_of_lt small]
  | half =>
    have small : i < 16 := inside
    show (f n ++ f (n + 1)).getLsbD i = (f (n + (1 - i / 8))).getLsbD (i % 8)
    rw [BitVec.getLsbD_append]
    split
    · next low => rw [Nat.div_eq_of_lt low, Nat.mod_eq_of_lt low]
    · next high => rw [show 1 - i / 8 = 0 by omega, Nat.add_zero, show i % 8 = i - 8 by omega]
  | word => exact getLsbD_bigWord f n inside

theorem getLsbD_bigWrite (f : Bytes) (n : Nat) (w : Width) (value : BitVec w.bits) (k i : Nat) (inside : i < 8) :
    (bigWrite f n w value k).getLsbD i =
      if n ≤ k ∧ k < n + w.bytes then value.getLsbD (8 * (w.bytes - 1 - (k - n)) + i) else (f k).getLsbD i := by
  unfold bigWrite
  split
  · rw [BitVec.getLsbD_extractLsb', decide_eq_true inside, Bool.true_and]
  · rfl

/-- The place of an access in its word, counted in bits from the low end. -/
def bitLane (w : Width) (addr : Word) : Nat := 8 * (4 - w.bytes - addr.toNat % 4)

theorem has_two_iff {addr : Word} : has addr 2 = true ↔ 2 ≤ addr.toNat % 4 := by
  have bit : has addr 2 = addr.getLsbD 1 := by
    unfold has
    rw [show (2 : Word) = BitVec.twoPow 32 1 from rfl, BitVec.and_twoPow]
    cases addr.getLsbD 1 <;> decide
  rw [bit, BitVec.getLsbD, Nat.testBit_eq_decide_div_mod_eq, decide_eq_true_iff]
  omega

theorem half_shift {addr : Word} (aligned : addr.toNat % 2 = 0) :
    (if has addr 2 then 0 else 16) = bitLane .half addr := by
  unfold bitLane
  split
  · next upper =>
    have := has_two_iff.mp upper
    simp only [Width.bytes]
    omega
  · next lower =>
    have : ¬ 2 ≤ addr.toNat % 4 := fun h => lower (has_two_iff.mpr h)
    simp only [Width.bytes]
    omega

theorem byte_shift (addr : Word) : 8 * (3 - (addr &&& 3).toNat) = bitLane .byte addr := by
  rw [and_three_toNat]
  rfl

theorem bitLane_word (addr : Word) : bitLane .word addr = 0 := by
  unfold bitLane
  simp [Width.bytes]

theorem getLsbD_select {w : Width} {addr : Word} (aligned : IsAligned w addr) (line : Word) {i : Nat}
    (inside : i < w.bits) : (w.select addr line).getLsbD i = line.getLsbD (bitLane w addr + i) := by
  have aligned := (isAligned_iff w addr).mp aligned
  cases w with
  | word =>
    rw [bitLane_word, Nat.zero_add]
    rfl
  | half =>
    have small : i < 16 := inside
    show ((line >>> (if has addr 2 then 0 else 16)).setWidth 16).getLsbD i = _
    rw [half_shift aligned, BitVec.getLsbD_setWidth, BitVec.getLsbD_ushiftRight, decide_eq_true small, Bool.true_and]
  | byte =>
    have small : i < 8 := inside
    show ((line >>> (8 * (3 - (addr &&& 3).toNat))).setWidth 8).getLsbD i = _
    rw [byte_shift, BitVec.getLsbD_setWidth, BitVec.getLsbD_ushiftRight, decide_eq_true small, Bool.true_and]

theorem getLsbD_merge {w : Width} {addr : Word} (aligned : IsAligned w addr) (line : Word) (data : BitVec w.bits)
    {i : Nat} (inside : i < 32) :
    (w.merge addr line data).getLsbD i =
      if bitLane w addr ≤ i ∧ i < bitLane w addr + w.bits then data.getLsbD (i - bitLane w addr) else line.getLsbD i := by
  have aligned := (isAligned_iff w addr).mp aligned
  cases w with
  | word =>
    rw [bitLane_word, if_pos ⟨Nat.zero_le _, by rw [Nat.zero_add]; exact inside⟩]
    rfl
  | half =>
    have bits : (0xffff : Word) = Aligned.low 32 16 := rfl
    have other : (if has addr 2 then 16 else 0) = 16 - bitLane .half addr := by
      rw [← half_shift aligned]
      split <;> rfl
    have place : bitLane .half addr = 0 ∨ bitLane .half addr = 16 := by
      rw [← half_shift aligned]
      split <;> simp
    simp only [Width.merge, half_shift aligned, other, bits, BitVec.getLsbD_or, BitVec.getLsbD_and,
      BitVec.getLsbD_shiftLeft, Aligned.getLsbD_low, BitVec.getLsbD_setWidth]
    rcases place with place | place <;> rw [place] <;> simp only [Width.bits] <;> grind
  | byte =>
    have bits : (0xff : Word) = Aligned.low 32 8 := rfl
    have place : bitLane .byte addr ≤ 24 := by
      unfold bitLane
      simp only [Width.bytes]
      omega
    simp only [Width.merge, byte_shift, bits, BitVec.getLsbD_or, BitVec.getLsbD_and, BitVec.getLsbD_not,
      BitVec.getLsbD_shiftLeft, Aligned.getLsbD_low, BitVec.getLsbD_setWidth]
    generalize bitLane .byte addr = lane at place ⊢
    simp only [Width.bits]
    grind

theorem select_bigWord (f : Bytes) {w : Width} {addr : Word} (aligned : IsAligned w addr) {n : Nat}
    (lane : n % 4 = addr.toNat % 4) : w.select addr (bigWord f (n / 4 * 4)) = bigRead f n w := by
  apply BitVec.eq_of_getLsbD_eq
  intro i inside
  have place := (isAligned_iff w addr).mp aligned
  have inWord : bitLane w addr + i < 32 ∧ n / 4 * 4 + (3 - (bitLane w addr + i) / 8) = n + (w.bytes - 1 - i / 8) := by
    rw [bits_eq] at inside
    unfold bitLane
    cases w <;> simp only [Width.bytes] at * <;> omega
  rw [getLsbD_select aligned _ inside, getLsbD_bigWord f _ inWord.1, getLsbD_bigRead f n w inside, inWord.2,
    show (bitLane w addr + i) % 8 = i % 8 by unfold bitLane; omega]

theorem bigWord_bigWrite (f : Bytes) {w : Width} {addr : Word} (aligned : IsAligned w addr) (value : BitVec w.bits)
    {n : Nat} (lane : n % 4 = addr.toNat % 4) :
    bigWord (bigWrite f n w value) (n / 4 * 4) = w.merge addr (bigWord f (n / 4 * 4)) value := by
  apply BitVec.eq_of_getLsbD_eq
  intro i inside
  have place := (isAligned_iff w addr).mp aligned
  rw [getLsbD_merge aligned _ _ inside, getLsbD_bigWord _ _ inside, getLsbD_bigWord _ _ inside,
    getLsbD_bigWrite _ _ _ _ _ _ (Nat.mod_lt _ (by decide))]
  have here : (n ≤ n / 4 * 4 + (3 - i / 8) ∧ n / 4 * 4 + (3 - i / 8) < n + w.bytes) ↔
      (bitLane w addr ≤ i ∧ i < bitLane w addr + w.bits) := by
    rw [bits_eq]
    unfold bitLane
    cases w <;> simp only [Width.bytes] at * <;> omega
  by_cases within : bitLane w addr ≤ i ∧ i < bitLane w addr + w.bits
  · rw [if_pos (here.mpr within), if_pos within]
    congr 1
    rw [bits_eq] at within
    unfold bitLane at *
    cases w <;> simp only [Width.bytes] at * <;> omega
  · rw [if_neg (fun inWrite => within (here.mp inWrite)), if_neg within]

theorem bigWord_bigWrite_other (f : Bytes) {w : Width} {addr : Word} (aligned : IsAligned w addr)
    (value : BitVec w.bits) {n m : Nat} (lane : n % 4 = addr.toNat % 4) (start : m % 4 = 0) (other : m ≠ n / 4 * 4) :
    bigWord (bigWrite f n w value) m = bigWord f m := by
  apply BitVec.eq_of_getLsbD_eq
  intro i inside
  have place := (isAligned_iff w addr).mp aligned
  rw [getLsbD_bigWord _ _ inside, getLsbD_bigWord _ _ inside, getLsbD_bigWrite _ _ _ _ _ _ (Nat.mod_lt _ (by decide))]
  refine if_neg fun inWrite => ?_
  cases w <;> simp only [Width.bytes] at * <;> omega

/-! ### Bytes in the order of the host -/

/-- The order of the bytes of the host, `WORDS_BIGENDIAN` or not. -/
inductive Endian where
  | big | little
  deriving DecidableEq, Repr

namespace Endian

/-- A load of the host. -/
def load (e : Endian) (mem : Bytes) (n : Nat) (w : Width) : BitVec w.bits :=
  match e, w with
  | .big, w => bigRead mem n w
  | .little, .byte => mem n
  | .little, .half => mem (n + 1) ++ mem n
  | .little, .word => mem (n + 3) ++ mem (n + 2) ++ mem (n + 1) ++ mem n

def store (e : Endian) (mem : Bytes) (n : Nat) (w : Width) (value : BitVec w.bits) : Bytes := fun k =>
  if n ≤ k ∧ k < n + w.bytes then
    value.extractLsb' (8 * match e with | .big => w.bytes - 1 - (k - n) | .little => k - n) 8
  else mem k

/-- Where the accesses of `simmem` go: bytes and half words are exchanged in their word. -/
def lane (e : Endian) (w : Width) (addr : Word) : Nat :=
  match e, w with
  | .big, _ => addr.toNat
  | .little, .byte => (addr ^^^ 3).toNat
  | .little, .half => (addr ^^^ 2).toNat
  | .little, .word => addr.toNat

end Endian

/-- `simmem_read32`, `16` and `8`. -/
def simmemRead (e : Endian) (w : Width) (addr : Word) (mem : Bytes) : BitVec w.bits := e.load mem (e.lane w addr) w

/-- `simmem_write32`, `16` and `8`. -/
def simmemWrite (e : Endian) (w : Width) (addr : Word) (value : BitVec w.bits) (mem : Bytes) : Bytes :=
  e.store mem (e.lane w addr) w value

/-- The bytes in the order of the guest. -/
def cells (e : Endian) (mem : Bytes) : Bytes := fun n =>
  match e with
  | .big => mem n
  | .little => mem (n / 4 * 4 + (3 - n % 4))

theorem xor_toNat (addr : Word) {k : Nat} (small : k < 4) :
    (addr ^^^ BitVec.ofNat 32 k).toNat = addr.toNat / 4 * 4 + (addr.toNat % 4 ^^^ k) := by
  rw [BitVec.toNat_xor, BitVec.toNat_ofNat, Nat.mod_eq_of_lt (by omega)]
  have high : (addr.toNat ^^^ k) / 2 ^ 2 = addr.toNat / 2 ^ 2 := by
    rw [Nat.xor_div_two_pow, Nat.div_eq_of_lt (show k < 2 ^ 2 from small), Nat.xor_zero]
  have low : (addr.toNat ^^^ k) % 2 ^ 2 = (addr.toNat % 2 ^ 2) ^^^ k := by
    rw [Nat.xor_mod_two_pow, Nat.mod_eq_of_lt (show k < 2 ^ 2 from small)]
  have whole := Nat.div_add_mod (addr.toNat ^^^ k) (2 ^ 2)
  rw [high, low] at whole
  simp only [show (2 : Nat) ^ 2 = 4 from rfl] at whole
  omega

theorem lane_little {w : Width} {addr : Word} (aligned : IsAligned w addr) :
    Endian.little.lane w addr = addr.toNat / 4 * 4 + (4 - w.bytes - addr.toNat % 4) := by
  have place := (isAligned_iff w addr).mp aligned
  have small := Nat.mod_lt addr.toNat (show 4 > 0 by decide)
  cases w with
  | byte =>
    refine (xor_toNat addr (show 3 < 4 by decide)).trans ?_
    simp only [Width.bytes] at *
    generalize addr.toNat % 4 = r at *
    interval_cases r <;> rfl
  | half =>
    refine (xor_toNat addr (show 2 < 4 by decide)).trans ?_
    simp only [Width.bytes] at *
    rcases (by omega : addr.toNat % 4 = 0 ∨ addr.toNat % 4 = 2) with r | r <;> rw [r]
    · rfl
    · rfl
  | word =>
    show addr.toNat = _
    simp only [Width.bytes] at *
    omega

theorem getLsbD_load_little (mem : Bytes) (n : Nat) (w : Width) {i : Nat} (inside : i < w.bits) :
    (Endian.little.load mem n w).getLsbD i = (mem (n + i / 8)).getLsbD (i % 8) := by
  -- the bytes of the guest at the mirrored places
  have mirror : Endian.little.load mem n w = bigRead (fun k => mem (n + (w.bytes - 1 - k))) 0 w := by
    cases w <;> rfl
  rw [mirror, getLsbD_bigRead _ _ _ inside]
  congr 3
  rw [bits_eq] at inside
  omega

/-- A word of one memory, stored to another, carries its bytes over. -/
theorem store_load_word (e : Endian) (mem mem' : Bytes) (n k : Nat) :
    e.store mem n .word (e.load mem' n .word) k = if n ≤ k ∧ k < n + 4 then mem' k else mem k := by
  unfold Endian.store
  by_cases inside : n ≤ k ∧ k < n + 4
  · refine Eq.trans (if_pos inside) (Eq.trans ?_ (if_pos inside).symm)
    apply BitVec.eq_of_getLsbD_eq
    intro i small
    rw [BitVec.getLsbD_extractLsb', decide_eq_true small, Bool.true_and]
    cases e with
    | big =>
      show (bigWord mem' n).getLsbD (8 * (3 - (k - n)) + i) = _
      rw [getLsbD_bigWord mem' n (by omega), show n + (3 - (8 * (3 - (k - n)) + i) / 8) = k by omega,
        show (8 * (3 - (k - n)) + i) % 8 = i by omega]
    | little =>
      show (Endian.little.load mem' n .word).getLsbD (8 * (k - n) + i) = _
      rw [getLsbD_load_little mem' n .word (show 8 * (k - n) + i < 32 by omega), show n + (8 * (k - n) + i) / 8 = k by omega,
        show (8 * (k - n) + i) % 8 = i by omega]
  · exact Eq.trans (if_neg inside) (if_neg inside).symm

/-- An aligned load of the host is a load of the guest. -/
theorem simmemRead_eq (e : Endian) {w : Width} {addr : Word} (aligned : IsAligned w addr) (mem : Bytes) :
    simmemRead e w addr mem = bigRead (cells e mem) addr.toNat w := by
  have place := (isAligned_iff w addr).mp aligned
  cases e with
  | big => rfl
  | little =>
    apply BitVec.eq_of_getLsbD_eq
    intro i inside
    rw [simmemRead, getLsbD_load_little _ _ _ inside, getLsbD_bigRead _ _ _ inside, lane_little aligned]
    unfold cells
    dsimp only
    congr 2
    rw [bits_eq] at inside
    cases w <;> simp only [Width.bytes] at * <;> omega

/-- An aligned store of the host is a store of the guest. -/
theorem cells_simmemWrite (e : Endian) {w : Width} {addr : Word} (aligned : IsAligned w addr) (value : BitVec w.bits)
    (mem : Bytes) : cells e (simmemWrite e w addr value mem) = bigWrite (cells e mem) addr.toNat w value := by
  have place := (isAligned_iff w addr).mp aligned
  cases e with
  | big => rfl
  | little =>
    funext k
    unfold cells simmemWrite Endian.store bigWrite
    rw [lane_little aligned]
    dsimp only
    have here : (addr.toNat / 4 * 4 + (4 - w.bytes - addr.toNat % 4) ≤ k / 4 * 4 + (3 - k % 4) ∧
        k / 4 * 4 + (3 - k % 4) < addr.toNat / 4 * 4 + (4 - w.bytes - addr.toNat % 4) + w.bytes) ↔
        addr.toNat ≤ k ∧ k < addr.toNat + w.bytes := by
      cases w <;> simp only [Width.bytes] at * <;> omega
    by_cases within : addr.toNat ≤ k ∧ k < addr.toNat + w.bytes
    · rw [if_pos (here.mpr within), if_pos within]
      congr 2
      cases w <;> simp only [Width.bytes] at * <;> omega
    · rw [if_neg (fun h => within (here.mp h)), if_neg within]

theorem aligned_byte (addr : Word) : IsAligned .byte addr := (isAligned_iff .byte addr).mpr (Nat.mod_one _)

theorem bigWrite_byte (f : Bytes) (n : Nat) (value : BitVec 8) (k : Nat) :
    bigWrite f n .byte value k = if k = n then value else f k := by
  by_cases same : k = n
  · have whole : value.extractLsb' 0 8 = value := BitVec.extractLsb'_eq_self
    refine ((if_pos ⟨Nat.le_of_eq same.symm, Nat.lt_succ_of_le (Nat.le_of_eq same)⟩ : bigWrite f n .byte value k = _).trans ?_).trans
      (if_pos same).symm
    rw [same, Nat.sub_self]
    exact whole
  · exact (if_neg fun both => same (Nat.le_antisymm (Nat.le_of_lt_succ both.2) both.1) : bigWrite f n .byte value k = f k).trans
      (if_neg same).symm

end Or1ksim.Mem
