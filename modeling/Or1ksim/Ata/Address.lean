import Or1ksim.Ata.Device

/-!
# Sector addresses

`ata_set_sect` spreads a sector number over the address registers and `ata_calc_lba` gathers it again. In CHS mode the high
part of the cylinder is gathered at the wrong place.
-/

namespace Or1ksim.Ata

/-- The geometries that a disk may have. -/
structure Conf.Geometry (c : Conf) : Prop where
  heads : 1 ≤ c.heads.toNat ∧ c.heads.toNat ≤ 16
  sectors : 1 ≤ c.sectors.toNat ∧ c.sectors.toNat ≤ 255

/-- The translation is the one of the last hardware reset. -/
structure Device.AfterReset (d : Device) : Prop where
  heads : d.headsPerCylinder = d.conf.heads
  sectors : d.sectorsPerTrack = d.conf.sectors

def Device.lbaMode (d : Device) : Bool := has d.deviceHead dhrLba

/-- The cylinder of both its registers. -/
def Device.cylinder (d : Device) : Half := d.cylinderHigh ++ d.cylinderLow

/-- The sector that the registers mean in CHS mode. -/
def Device.chs (d : Device) : Word :=
  (d.cylinder.setWidth 32 * d.conf.heads + (d.deviceHead &&& dhrH).setWidth 32) * d.conf.sectors + d.sectorNumber.setWidth 32 - 1

/-- The two differ in the address registers only, and not in the other bits of the device/head register. -/
def OnlyAddress (d d' : Device) : Prop :=
  d' = { d with sectorNumber := d'.sectorNumber, cylinderLow := d'.cylinderLow, cylinderHigh := d'.cylinderHigh,
                deviceHead := d'.deviceHead } ∧
    d'.deviceHead &&& ~~~dhrH = d.deviceHead &&& ~~~dhrH

section
variable {d : Device} {s : Word}

theorem head_parts (head low : Byte) (small : low &&& ~~~dhrH = 0) : (head &&& ~~~dhrH ||| low) &&& ~~~dhrH = head &&& ~~~dhrH ∧
    (head &&& ~~~dhrH ||| low) &&& dhrH = low := by
  have bits : ∀ i, (low.getLsbD i && (decide (i < 8) && !dhrH.getLsbD i)) = false := fun i => by
    have bit : (low &&& ~~~dhrH).getLsbD i = (0#8).getLsbD i := by rw [small]; rfl
    rwa [BitVec.getLsbD_and, BitVec.getLsbD_not, BitVec.getLsbD_zero] at bit
  constructor
  all_goals
    apply BitVec.eq_of_getLsbD_eq
    intro i inside
    have bit := bits i
    rw [decide_eq_true inside] at bit
    simp only [BitVec.getLsbD_and, BitVec.getLsbD_or, BitVec.getLsbD_not, decide_eq_true inside]
    generalize low.getLsbD i = a at bit ⊢
    generalize dhrH.getLsbD i = b at bit ⊢
    generalize head.getLsbD i = c
    revert bit
    cases a <;> cases b <;> cases c <;> decide

theorem nibble_small (x : Word) : ((x &&& 0xf).setWidth 8 : Byte) &&& ~~~dhrH = 0 := by
  apply BitVec.eq_of_toNat_eq
  have low : (x &&& 0xf).toNat < 16 := by
    rw [BitVec.toNat_and]
    exact Nat.lt_of_le_of_lt Nat.and_le_right (by decide)
  have same : ((x &&& 0xf).setWidth 8 : Byte).toNat = (x &&& 0xf).toNat := by
    rw [BitVec.toNat_setWidth]
    omega
  rw [BitVec.toNat_and, same]
  generalize (x &&& 0xf).toNat = n at low
  interval_cases n <;> rfl

theorem setSect_onlyAddress : OnlyAddress d (ataSetSect d s) := by
  unfold ataSetSect OnlyAddress
  dsimp only
  split_ifs
  · exact ⟨rfl, (head_parts _ _ (nibble_small _)).1⟩
  · exact ⟨rfl, (head_parts _ _ (nibble_small _)).1⟩

theorem lbaMode_head (head : Byte) : has (head &&& ~~~dhrH) dhrLba = has head dhrLba := by
  unfold has
  rw [BitVec.and_assoc]
  rfl

theorem setSect_lbaMode : (ataSetSect d s).lbaMode = d.lbaMode := by
  have same := (setSect_onlyAddress (d := d) (s := s)).2
  unfold Device.lbaMode
  rw [← lbaMode_head, same, lbaMode_head]

theorem mask_getLsbD (w k : Nat) (fits : k ≤ w) (i : Nat) : (BitVec.ofNat w (2 ^ k - 1)).getLsbD i = decide (i < k) := by
  rw [BitVec.getLsbD_ofNat, Nat.testBit_two_pow_sub_one]
  by_cases low : i < k
  · rw [decide_eq_true low, decide_eq_true (by omega)]
    rfl
  · rw [decide_eq_false low, Bool.and_false]

/-! ### LBA mode -/

theorem gather_bytes (small : s.toNat < 2 ^ 28) :
    (((s >>> 24) &&& 0xf).setWidth 8 : Byte).setWidth 32 <<< 24 ||| (((s >>> 16) &&& 0xff).setWidth 8 : Byte).setWidth 32 <<< 16 |||
      (((s >>> 8) &&& 0xff).setWidth 8 : Byte).setWidth 32 <<< 8 ||| ((s &&& 0xff).setWidth 8 : Byte).setWidth 32 = s := by
  have ff : ∀ i, (0xff : Word).getLsbD i = decide (i < 8) := mask_getLsbD 32 8 (by decide)
  have f : ∀ i, (0xf : Word).getLsbD i = decide (i < 4) := mask_getLsbD 32 4 (by decide)
  apply BitVec.eq_of_getLsbD_eq
  intro i inside
  simp only [BitVec.getLsbD_or, BitVec.getLsbD_shiftLeft, BitVec.getLsbD_setWidth, BitVec.getLsbD_and, BitVec.getLsbD_ushiftRight, ff, f]
  by_cases byte0 : i < 8
  · simp [byte0, inside, show i < 24 by omega, show i < 16 by omega]
  by_cases byte1 : i < 16
  · simp [byte0, byte1, inside, show i < 24 by omega, show i - 8 < 32 by omega, show i - 8 < 8 by omega, show 8 + (i - 8) = i by omega]
  by_cases byte2 : i < 24
  · simp [byte0, byte1, byte2, inside, show i - 16 < 32 by omega, show i - 16 < 8 by omega, show 16 + (i - 16) = i by omega,
      show ¬i - 8 < 8 by omega]
  by_cases byte3 : i < 28
  · simp [byte0, byte1, byte2, inside, show i - 24 < 32 by omega, show i - 24 < 8 by omega, show i - 24 < 4 by omega,
      show 24 + (i - 24) = i by omega, show ¬i - 16 < 8 by omega, show ¬i - 8 < 8 by omega]
  · have high : s.getLsbD i = false := by
      rw [BitVec.getLsbD, Nat.testBit_lt_two_pow]
      exact Nat.lt_of_lt_of_le small (Nat.pow_le_pow_right (by decide) (by omega))
    rw [high]
    simp [byte0, byte1, byte2, show ¬i - 24 < 4 by omega, show ¬i - 16 < 8 by omega, show ¬i - 8 < 8 by omega]

theorem lba_roundTrip (mode : d.lbaMode) (small : s.toNat < 2 ^ 28) : ataCalcLba (ataSetSect d s) = s := by
  have after : has (ataSetSect d s).deviceHead dhrLba := by
    rw [← Device.lbaMode, setSect_lbaMode, mode]
  have mode' : has (d.deviceHead &&& ~~~dhrH) dhrLba := by rw [lbaMode_head]; exact mode
  unfold ataCalcLba
  rw [if_pos after]
  unfold ataSetSect
  dsimp only
  rw [if_pos mode', (head_parts _ _ (nibble_small _)).2]
  exact gather_bytes small

/-! ### CHS mode -/

theorem shifted_or (hi lo : Byte) : (hi.setWidth 32 <<< 16 ||| lo.setWidth 32 : Word) =
    BitVec.ofNat 32 (hi.toNat * 65536 + lo.toNat) := by
  apply BitVec.eq_of_toNat_eq
  have small : lo.toNat < 2 ^ 16 := by have := lo.isLt; omega
  have := hi.isLt
  rw [BitVec.toNat_or, BitVec.toNat_shiftLeft, BitVec.toNat_setWidth, BitVec.toNat_setWidth, BitVec.toNat_ofNat, Nat.shiftLeft_eq,
    Nat.mod_eq_of_lt (by omega : hi.toNat < 2 ^ 32), Nat.mod_eq_of_lt (by omega : lo.toNat < 2 ^ 32), Nat.mod_eq_of_lt (by omega),
    Nat.mod_eq_of_lt (by omega), ← Nat.shiftLeft_eq, ← Nat.shiftLeft_add_eq_or_of_lt small, Nat.shiftLeft_eq]

theorem appended (hi lo : Byte) : ((hi ++ lo : Half).setWidth 32 : Word) = BitVec.ofNat 32 (hi.toNat * 256 + lo.toNat) := by
  apply BitVec.eq_of_toNat_eq
  have := lo.isLt
  have := hi.isLt
  rw [BitVec.toNat_setWidth, BitVec.toNat_append, ← Nat.shiftLeft_add_eq_or_of_lt lo.isLt, Nat.shiftLeft_eq, BitVec.toNat_ofNat]

theorem calcLba_chs (after : d.AfterReset) (mode : d.lbaMode = false) :
    ataCalcLba d = d.chs + BitVec.ofNat 32 (d.cylinderHigh.toNat * 65280) * (d.conf.heads * d.conf.sectors) := by
  have mode' : ¬has d.deviceHead dhrLba := by rw [← Device.lbaMode, mode]; decide
  unfold ataCalcLba Device.chs Device.cylinder
  rw [if_neg mode', after.heads, after.sectors, shifted_or, appended]
  have parts : BitVec.ofNat 32 (d.cylinderHigh.toNat * 65536 + d.cylinderLow.toNat) =
      BitVec.ofNat 32 (d.cylinderHigh.toNat * 256 + d.cylinderLow.toNat) + BitVec.ofNat 32 (d.cylinderHigh.toNat * 65280) := by
    rw [← BitVec.ofNat_add, show d.cylinderHigh.toNat * 256 + d.cylinderLow.toNat + d.cylinderHigh.toNat * 65280 =
      d.cylinderHigh.toNat * 65536 + d.cylinderLow.toNat by omega]
  rw [parts]
  ring

theorem tooFar_iff (geometry : d.conf.Geometry) (hi : Byte) :
    BitVec.ofNat 32 (hi.toNat * 65280) * (d.conf.heads * d.conf.sectors) = 0 ↔ hi = 0 := by
  obtain ⟨⟨heads, heads'⟩, sectors, sectors'⟩ := geometry
  have bound : d.conf.heads.toNat * d.conf.sectors.toNat ≤ 16 * 255 := Nat.mul_le_mul heads' sectors'
  have positive : 1 ≤ d.conf.heads.toNat * d.conf.sectors.toNat := Nat.mul_pos heads sectors
  constructor
  · intro zero
    have value : (hi.toNat * 65280 * (d.conf.heads.toNat * d.conf.sectors.toNat)) % 2 ^ 32 = 0 := by
      have := congrArg BitVec.toNat zero
      rwa [BitVec.toNat_mul, BitVec.toNat_mul, BitVec.toNat_ofNat, ← Nat.mul_mod] at this
    generalize d.conf.heads.toNat * d.conf.sectors.toNat = area at bound positive value
    have bits : 2 ^ 24 ∣ hi.toNat * area := by
      have whole : 2 ^ 8 * 2 ^ 24 ∣ 2 ^ 8 * (255 * (hi.toNat * area)) :=
        (by ring : hi.toNat * 65280 * area = 2 ^ 8 * (255 * (hi.toNat * area))) ▸ Nat.dvd_of_mod_eq_zero value
      have odd : Nat.Coprime (2 ^ 24) 255 := by decide
      exact odd.dvd_of_dvd_mul_left (Nat.dvd_of_mul_dvd_mul_left (by decide) whole)
    have byte : hi.toNat ≤ 255 := by have := hi.isLt; omega
    have below : hi.toNat * area < 2 ^ 24 := by
      have := Nat.mul_le_mul byte bound
      omega
    have none : hi.toNat * area = 0 := Nat.eq_zero_of_dvd_of_lt bits below
    apply BitVec.eq_of_toNat_eq
    rcases Nat.mul_eq_zero.mp none with none | none
    · exact none
    · omega
  · rintro rfl
    rw [show (0 : Byte).toNat = 0 from rfl, Nat.zero_mul]
    exact zero_mul _

theorem calcLba_eq_chs_iff (geometry : d.conf.Geometry) (after : d.AfterReset) (mode : d.lbaMode = false) :
    ataCalcLba d = d.chs ↔ d.cylinderHigh = 0 := by
  rw [calcLba_chs after mode, ← tooFar_iff geometry]
  exact add_eq_left

theorem Conf.Geometry.area {c : Conf} (geometry : c.Geometry) : (c.heads * c.sectors).toNat = c.heads.toNat * c.sectors.toNat ∧
    1 ≤ c.heads.toNat * c.sectors.toNat ∧ c.heads.toNat * c.sectors.toNat ≤ 16 * 255 := by
  obtain ⟨⟨heads, heads'⟩, sectors, sectors'⟩ := geometry
  have bound := Nat.mul_le_mul heads' sectors'
  exact ⟨by rw [BitVec.toNat_mul, Nat.mod_eq_of_lt (by omega)], Nat.mul_pos heads sectors, bound⟩

/-- The place of a sector in its cylinder. -/
theorem place_parts (heads sectors s : Nat) :
    (s / (heads * sectors) * heads + s % (heads * sectors) / sectors) * sectors + s % (heads * sectors) % sectors = s := by
  have inner := Nat.div_add_mod' (s % (heads * sectors)) sectors
  have outer := Nat.div_add_mod' s (heads * sectors)
  calc (s / (heads * sectors) * heads + s % (heads * sectors) / sectors) * sectors + s % (heads * sectors) % sectors
      = s / (heads * sectors) * (heads * sectors) + (s % (heads * sectors) / sectors * sectors + s % (heads * sectors) % sectors) := by
        ring
    _ = s := by rw [inner, outer]

theorem halves_append (x : Half) : (((x >>> 8) &&& 0xff).setWidth 8 ++ (x &&& 0xff).setWidth 8 : Half) = x := by
  have ff : ∀ i, (0xff : Half).getLsbD i = decide (i < 8) := mask_getLsbD 16 8 (by decide)
  apply BitVec.eq_of_getLsbD_eq
  intro i inside
  simp only [BitVec.getLsbD_append, BitVec.getLsbD_setWidth, BitVec.getLsbD_and, BitVec.getLsbD_ushiftRight, ff]
  by_cases low : i < 8
  · simp [low]
  · simp [low, show i - 8 < 8 by omega, show 8 + (i - 8) = i by omega]

theorem nibble_widen {x : Word} (small : x.toNat < 16) : (((x &&& 0xf).setWidth 8 : Byte).setWidth 32 : Word) = x := by
  apply BitVec.eq_of_toNat_eq
  have same : (x &&& 0xf).toNat = x.toNat := by
    rw [BitVec.toNat_and, show (0xf : Word).toNat = 2 ^ 4 - 1 from rfl, Nat.and_two_pow_sub_one_eq_mod, Nat.mod_eq_of_lt small]
  rw [BitVec.toNat_setWidth, BitVec.toNat_setWidth, same]
  omega

theorem rest_widen (geometry : d.conf.Geometry) : (((s % (d.conf.heads * d.conf.sectors)).setWidth 16 : Half).setWidth 32 : Word) =
    s % (d.conf.heads * d.conf.sectors) := by
  obtain ⟨area, positive, bound⟩ := geometry.area
  apply BitVec.eq_of_toNat_eq
  have below : (s % (d.conf.heads * d.conf.sectors)).toNat < 16 * 255 + 1 := by
    rw [BitVec.toNat_umod, area]
    have := Nat.mod_lt s.toNat positive
    omega
  rw [BitVec.toNat_setWidth, BitVec.toNat_setWidth]
  omega

variable (mode : d.lbaMode = false)
include mode

theorem setSect_cylinder : (ataSetSect d s).cylinder = (s / (d.conf.heads * d.conf.sectors)).setWidth 16 := by
  have mode' : ¬has (d.deviceHead &&& ~~~dhrH) dhrLba := by rw [lbaMode_head, ← Device.lbaMode, mode]; decide
  unfold ataSetSect Device.cylinder
  dsimp only
  rw [if_neg mode']
  exact halves_append _

theorem setSect_head : (ataSetSect d s).deviceHead &&& dhrH =
    ((((s % (d.conf.heads * d.conf.sectors)).setWidth 16 : Half).setWidth 32 / d.conf.sectors) &&& 0xf).setWidth 8 := by
  have mode' : ¬has (d.deviceHead &&& ~~~dhrH) dhrLba := by rw [lbaMode_head, ← Device.lbaMode, mode]; decide
  unfold ataSetSect
  dsimp only
  rw [if_neg mode', (head_parts _ _ (nibble_small _)).2]

theorem setSect_sectorNumber : (ataSetSect d s).sectorNumber =
    (((s % (d.conf.heads * d.conf.sectors)).setWidth 16 : Half).setWidth 32 % d.conf.sectors + 1).setWidth 8 := by
  have mode' : ¬has (d.deviceHead &&& ~~~dhrH) dhrLba := by rw [lbaMode_head, ← Device.lbaMode, mode]; decide
  unfold ataSetSect
  dsimp only
  rw [if_neg mode']

/-- The sector is where its registers say, when its cylinder fits into them. -/
theorem setSect_chs (geometry : d.conf.Geometry) (inside : s.toNat < 65536 * (d.conf.heads.toNat * d.conf.sectors.toNat)) :
    (ataSetSect d s).chs = s := by
  obtain ⟨area, positive, bound⟩ := geometry.area
  have sectors := geometry.sectors
  have place := Nat.mod_lt s.toNat positive
  have whole : (s / (d.conf.heads * d.conf.sectors)).toNat = s.toNat / (d.conf.heads.toNat * d.conf.sectors.toNat) := by
    rw [BitVec.toNat_udiv, area]
  have rest : (s % (d.conf.heads * d.conf.sectors)).toNat = s.toNat % (d.conf.heads.toNat * d.conf.sectors.toNat) := by
    rw [BitVec.toNat_umod, area]
  have cylinder : (((s / (d.conf.heads * d.conf.sectors)).setWidth 16 : Half).setWidth 32 : Word) =
      s / (d.conf.heads * d.conf.sectors) := by
    have below : s.toNat / (d.conf.heads.toNat * d.conf.sectors.toNat) < 65536 := by
      rw [Nat.div_lt_iff_lt_mul positive]
      exact inside
    apply BitVec.eq_of_toNat_eq
    rw [BitVec.toNat_setWidth, BitVec.toNat_setWidth, whole]
    omega
  have head : (s % (d.conf.heads * d.conf.sectors) / d.conf.sectors).toNat < 16 := by
    have below : s.toNat % (d.conf.heads.toNat * d.conf.sectors.toNat) / d.conf.sectors.toNat < d.conf.heads.toNat := by
      rw [Nat.div_lt_iff_lt_mul sectors.1]
      exact place
    have := geometry.heads
    rw [BitVec.toNat_udiv, rest]
    omega
  have sector : ((s % (d.conf.heads * d.conf.sectors) % d.conf.sectors + 1).setWidth 8 : Byte).setWidth 32 =
      s % (d.conf.heads * d.conf.sectors) % d.conf.sectors + 1 := by
    have below := Nat.mod_lt (s.toNat % (d.conf.heads.toNat * d.conf.sectors.toNat)) sectors.1
    apply BitVec.eq_of_toNat_eq
    rw [BitVec.toNat_setWidth, BitVec.toNat_setWidth, BitVec.toNat_add, BitVec.toNat_umod, rest, show (1 : Word).toNat = 1 from rfl]
    omega
  have conf : (ataSetSect d s).conf = d.conf := by rw [setSect_onlyAddress.1]
  have parts := place_parts d.conf.heads.toNat d.conf.sectors.toNat s.toNat
  rw [← whole, ← rest, ← BitVec.toNat_udiv, ← BitVec.toNat_umod] at parts
  unfold Device.chs
  rw [setSect_cylinder mode, setSect_head mode, setSect_sectorNumber mode, conf, cylinder, rest_widen geometry,
    nibble_widen head, sector]
  calc (s / (d.conf.heads * d.conf.sectors) * d.conf.heads + s % (d.conf.heads * d.conf.sectors) / d.conf.sectors) * d.conf.sectors +
        (s % (d.conf.heads * d.conf.sectors) % d.conf.sectors + 1) - 1
      = (s / (d.conf.heads * d.conf.sectors) * d.conf.heads + s % (d.conf.heads * d.conf.sectors) / d.conf.sectors) * d.conf.sectors +
        s % (d.conf.heads * d.conf.sectors) % d.conf.sectors := by ring
    _ = BitVec.ofNat 32 (s.toNat) := by
        rw [← parts, BitVec.ofNat_add, BitVec.ofNat_mul, BitVec.ofNat_add, BitVec.ofNat_mul]
        simp only [BitVec.ofNat_toNat, BitVec.setWidth_eq]
    _ = s := by rw [BitVec.ofNat_toNat, BitVec.setWidth_eq]

omit mode in
theorem setSect_afterReset (after : d.AfterReset) : (ataSetSect d s).AfterReset := by
  rw [setSect_onlyAddress.1]
  exact ⟨after.heads, after.sectors⟩

omit mode in
theorem cylinderHigh_iff (e : Device) : e.cylinderHigh = 0 ↔ e.cylinder.toNat < 256 := by
  have bytes : e.cylinder.toNat = e.cylinderHigh.toNat * 256 + e.cylinderLow.toNat := by
    rw [Device.cylinder, BitVec.toNat_append, ← Nat.shiftLeft_add_eq_or_of_lt e.cylinderLow.isLt, Nat.shiftLeft_eq]
  have low := e.cylinderLow.isLt
  rw [bytes]
  constructor
  · intro zero
    rwa [zero, show (0 : Byte).toNat = 0 from rfl, Nat.zero_mul, Nat.zero_add]
  · intro small
    apply BitVec.eq_of_toNat_eq
    show e.cylinderHigh.toNat = 0
    omega

theorem setSect_cylinderHigh_iff (geometry : d.conf.Geometry) (inside : s.toNat < 65536 * (d.conf.heads.toNat * d.conf.sectors.toNat)) :
    (ataSetSect d s).cylinderHigh = 0 ↔ s.toNat < 256 * (d.conf.heads.toNat * d.conf.sectors.toNat) := by
  obtain ⟨area, positive, bound⟩ := geometry.area
  have below : s.toNat / (d.conf.heads.toNat * d.conf.sectors.toNat) < 65536 := by
    rw [Nat.div_lt_iff_lt_mul positive]
    exact inside
  rw [cylinderHigh_iff, setSect_cylinder mode, BitVec.toNat_setWidth, BitVec.toNat_udiv, area, Nat.mod_eq_of_lt below,
    Nat.div_lt_iff_lt_mul positive]

end

/-- A number that the registers can hold in the mode of the device. -/
def Device.Addressable (d : Device) (s : Word) : Prop :=
  s.toNat < if d.lbaMode then 2 ^ 28 else 65536 * (d.conf.heads.toNat * d.conf.sectors.toNat)

instance decidableAddressable (d : Device) (s : Word) : Decidable (d.Addressable s) := Nat.decLt _ _

/-- Sector numbers survive the registers, and CHS registers mean what they say, up to the cylinder that has a high part. -/
theorem setSect_calcLba_iff {d : Device} {s : Word} (geometry : d.conf.Geometry) (after : d.AfterReset) (fits : d.Addressable s) :
    ((ataCalcLba (ataSetSect d s) = s ∧ OnlyAddress d (ataSetSect d s)) ∧ (d.lbaMode = false → ataCalcLba d = d.chs)) ↔
      d.lbaMode ∨ (s.toNat < 256 * (d.conf.heads.toNat * d.conf.sectors.toNat) ∧ d.cylinderHigh = 0) := by
  unfold Device.Addressable at fits
  cases mode : d.lbaMode with
  | true =>
    rw [if_pos mode] at fits
    exact ⟨fun _ => .inl rfl, fun _ => ⟨⟨lba_roundTrip mode fits, setSect_onlyAddress⟩, fun chs => absurd chs (by decide)⟩⟩
  | false =>
    rw [if_neg (by rw [mode]; decide)] at fits
    have conf : (ataSetSect d s).conf = d.conf := by rw [setSect_onlyAddress.1]
    have again : (ataSetSect d s).lbaMode = false := by rw [setSect_lbaMode, mode]
    have back : ataCalcLba (ataSetSect d s) = s ↔ s.toNat < 256 * (d.conf.heads.toNat * d.conf.sectors.toNat) := by
      have same := calcLba_eq_chs_iff (d := ataSetSect d s) (by rw [conf]; exact geometry) (setSect_afterReset after) again
      rwa [setSect_chs mode geometry fits, setSect_cylinderHigh_iff mode geometry fits] at same
    have own := calcLba_eq_chs_iff geometry after mode
    constructor
    · intro ⟨⟨round, _⟩, chs⟩
      exact .inr ⟨back.mp round, own.mp (chs rfl)⟩
    · rintro (lba | ⟨small, high⟩)
      · exact absurd lba (by decide)
      · exact ⟨⟨back.mpr small, setSect_onlyAddress⟩, fun _ => own.mpr high⟩

/-- A disk of sixteen heads and 63 sectors, out of a hardware reset. -/
def fresh : Device :=
  ataDeviceHwReset false false false false
    { conf := { connected := true, size := 0x10000000, packet := false, heads := 16, sectors := 63 }
      stream := { length := 0x10000000, image := fun _ => 0, touched := [] }
      state := .hwRst }

theorem fresh_calcLba : (ataCalcLba (ataSetSect fresh 257) = 257 ∧ OnlyAddress fresh (ataSetSect fresh 257)) ∧
    (fresh.lbaMode = false → ataCalcLba fresh = fresh.chs) :=
  (setSect_calcLba_iff (d := fresh) (s := 257) ⟨by decide, by decide⟩ ⟨rfl, rfl⟩ (by decide)).mpr (.inr (by decide))

/-- Its cylinder 256 starts at sector 258048. -/
theorem cylinder256_lost : fresh.conf.Geometry ∧ fresh.AfterReset ∧ fresh.Addressable 258048 ∧
    ataCalcLba (ataSetSect fresh 258048) ≠ 258048 ∧ ataCalcLba (ataSetSect fresh 258048) = 66060288 ∧
    (ataSetSect fresh 258048).chs = 258048 :=
  ⟨⟨by decide, by decide⟩, ⟨rfl, rfl⟩, by decide, by decide, by decide, by decide⟩

end Or1ksim.Ata
