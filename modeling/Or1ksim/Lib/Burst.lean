import Or1ksim.Lib.Serial

/-!
# Burst errors

A cyclic redundancy check is linear, and a bit string that is not longer than the check changes it. An error within one
burst of that length is therefore seen, wherever in the message and the check it lies.
-/

namespace Serial

variable {w : Nat} {poly : BitVec w}

/-! ### Linearity -/

theorem crcStep_xor (a b : BitVec w) (d e : Bool) :
    crcStep poly (a ^^^ b) (d ^^ e) = crcStep poly a d ^^^ crcStep poly b e := by
  have feedback : (if (d ^^ e) != (a ^^^ b).msb then poly else 0) =
      (if d != a.msb then poly else 0) ^^^ (if e != b.msb then poly else 0) := by
    rw [BitVec.msb_xor]
    cases d <;> cases e <;> cases a.msb <;> cases b.msb <;> simp
  unfold crcStep
  rw [feedback, BitVec.shiftLeft_xor_distrib]
  ac_rfl

theorem crc_xor (a b : BitVec w) {x y : List Bool} (same : x.length = y.length) :
    crc poly (a ^^^ b) (x.zipWith Bool.xor y) = crc poly a x ^^^ crc poly b y := by
  induction x generalizing y a b with
  | nil =>
    rw [List.length_nil, eq_comm, List.length_eq_zero_iff] at same
    rw [same]
    rfl
  | cons d x ih =>
    cases y with
    | nil => exact absurd same (Nat.succ_ne_zero _)
    | cons e y =>
      rw [List.zipWith_cons_cons]
      show crc poly (crcStep poly (a ^^^ b) (d ^^ e)) _ = crc poly (crcStep poly a d) x ^^^ crc poly (crcStep poly b e) y
      rw [crcStep_xor]
      exact ih _ _ (Nat.succ.inj same)

/-! ### Short strings -/

/-- The bit that leaves at the top comes back at the bottom. -/
theorem crcStep_low (odd : poly.getLsbD 0 = true) (a : BitVec w) (d : Bool) : (crcStep poly a d).getLsbD 0 = (d ^^ a.msb) := by
  unfold crcStep
  rw [BitVec.getLsbD_xor]
  cases d <;> cases a.msb <;> simp [odd]

theorem crcStep_msb (a : BitVec w) : crcStep poly a a.msb = a <<< 1 := by
  unfold crcStep
  rw [bne_self_eq_false, if_neg Bool.false_ne_true, BitVec.ofNat_eq_ofNat, BitVec.xor_zero]

/-- A string that is not longer than the check takes it to zero only bit by bit. -/
theorem crc_eq_zero_iff (odd : poly.getLsbD 0 = true) (a : BitVec w) {x : List Bool} (short : x.length ≤ w) :
    crc poly a x = 0 ↔ ∀ i < w, a.getMsbD i = x.getD i false := by
  induction x generalizing a with
  | nil =>
    rw [crc_nil]
    constructor
    · rintro rfl i inside
      rw [List.getD_nil]
      exact BitVec.getMsbD_zero
    · intro all
      apply BitVec.eq_of_getMsbD_eq
      intro i inside
      rw [all i inside, List.getD_nil]
      exact BitVec.getMsbD_zero.symm
  | cons d x ih =>
    rw [List.length_cons] at short
    have shifted (i : Nat) : (a <<< 1).getMsbD i = a.getMsbD (i + 1) := by
      rw [BitVec.getMsbD_shiftLeft]
    show crc poly (crcStep poly a d) x = 0 ↔ _
    rw [ih _ (by omega)]
    constructor
    · intro all
      -- the last bit of the check is free, so the step fed nothing back
      have last := all (w - 1) (by omega)
      rw [List.getD_eq_default _ _ (by omega), BitVec.getMsbD, decide_eq_true (by omega), Bool.true_and, Nat.sub_self,
        crcStep_low odd, bne_eq_false_iff_eq] at last
      subst last
      intro i inside
      cases i with
      | zero => exact BitVec.msb_eq_getMsbD_zero a |>.symm
      | succ i =>
        have here := all i (by omega)
        rw [crcStep_msb, shifted] at here
        rw [here]
        rfl
    · intro all
      have top := all 0 (by omega)
      rw [← BitVec.msb_eq_getMsbD_zero, List.getD_cons_zero] at top
      subst top
      intro i inside
      rw [crcStep_msb, shifted]
      by_cases last : i + 1 < w
      · rw [all (i + 1) last]
        rfl
      · rw [BitVec.getMsbD_of_ge _ _ (by omega), List.getD_eq_default _ _ (by omega)]

theorem crc_short_injective (odd : poly.getLsbD 0 = true) (seed : BitVec w) {x y : List Bool} (same : x.length = y.length)
    (short : x.length ≤ w) (checks : crc poly seed x = crc poly seed y) : x = y := by
  have length : (x.zipWith Bool.xor y).length = x.length := by
    rw [List.length_zipWith, ← same, Nat.min_self]
  have zero : crc poly 0 (x.zipWith Bool.xor y) = 0 := by
    have linear : crc poly (seed ^^^ seed) (x.zipWith Bool.xor y) = crc poly seed x ^^^ crc poly seed y := crc_xor seed seed same
    rwa [checks, BitVec.xor_self, BitVec.xor_self] at linear
  have all := (crc_eq_zero_iff odd 0 (by omega)).mp zero
  apply List.ext_getElem same
  intro i inside inside'
  have here := all i (by omega)
  rw [List.getD_eq_getElem _ _ (by omega), List.getElem_zipWith] at here
  exact (bne_eq_false_iff_eq.mp (here.symm.trans BitVec.getMsbD_zero))

/-- A message is followed by its check exactly if the check over both is zero. -/
theorem crc_field_iff (odd : poly.getLsbD 0 = true) (seed c : BitVec w) (x : List Bool) :
    crc poly seed (x ++ msbFirst w c) = 0 ↔ c = crc poly seed x := by
  rw [crc_append, crc_eq_zero_iff odd _ (by rw [length_msbFirst])]
  constructor
  · intro all
    apply BitVec.eq_of_getMsbD_eq
    intro i inside
    rw [all i inside, getD_msbFirst _ inside, BitVec.getMsbD, decide_eq_true inside, Bool.true_and]
  · rintro rfl i inside
    rw [getD_msbFirst _ inside, BitVec.getMsbD, decide_eq_true inside, Bool.true_and]

/-! ### Bursts -/

/-- Two registers differ, and only within `w` bits in a row of the first `n`. -/
structure Burst (w n : Nat) (b b' : Buffer) : Prop where
  differ : ∃ k < n, b'.bit k ≠ b.bit k
  within : ∃ p, ∀ k < n, b'.bit k ≠ b.bit k → p ≤ k ∧ k < p + w

/-- What is shifted before a burst, in it and behind it. -/
theorem bits_around (b : Buffer) {n p m : Nat} (inside : p + m ≤ n) :
    b.bits 0 n = b.bits 0 p ++ b.bits p m ++ b.bits (p + m) (n - (p + m)) := by
  conv_lhs => rw [← Nat.add_sub_cancel' inside]
  rw [Buffer.bits_add, Buffer.bits_add, Nat.zero_add, Nat.zero_add]

theorem crc_burst (odd : poly.getLsbD 0 = true) (seed : BitVec w) {n : Nat} {b b' : Buffer} (burst : Burst w n b b') :
    crc poly seed (b'.bits 0 n) ≠ crc poly seed (b.bits 0 n) := by
  intro checks
  obtain ⟨⟨k, inside, differ⟩, p, within⟩ := burst
  have here := within k inside differ
  obtain ⟨m, short, fits, reaches⟩ : ∃ m ≤ w, p + m ≤ n ∧ (m = w ∨ p + m = n) := by
    rcases Nat.le_total w (n - p) with full | cut
    · exact ⟨w, Nat.le_refl w, by omega, .inl rfl⟩
    · exact ⟨n - p, cut, by omega, .inr (by omega)⟩
  have agree (off m : Nat) (inside : off + m ≤ n) (outside : ∀ i < m, off + i < p ∨ p + w ≤ off + i) : b'.bits off m = b.bits off m := by
    refine Buffer.bits_congr fun i below => ?_
    by_contra differ
    have := within (off + i) (by omega) differ
    have := outside i below
    omega
  rw [bits_around b fits, bits_around b' fits, agree 0 p (by omega) (by omega),
    agree (p + m) (n - (p + m)) (by omega) (by omega)] at checks
  simp only [crc_append] at checks
  have equal : b'.bits p m = b.bits p m :=
    crc_short_injective odd _ (by rw [Buffer.bits_length, Buffer.bits_length]) (by rwa [Buffer.bits_length]) (crc_injective odd _ checks)
  have bit := congrArg (fun x => x.getD (k - p) false) equal
  rw [Buffer.getD_bits _ _ (by omega), Buffer.getD_bits _ _ (by omega), Nat.add_sub_cancel' here.1] at bit
  exact differ bit

end Serial
