import Or1ksim.Mem.Memory

/-!
# Generic devices

`peripheral/generic.c`. An access to a generic device is an upcall for a whole word of the bus, with a mask for the bytes that are
meant. The device is told where an access is in its area, and puts its base address on top of that again.
-/

namespace Or1ksim.Generic

open Cpu (Word Width)
open Mem (Bytes bigRead bitMask Memarea Request IsAligned)
open Aligned (low)

abbrev Byte := BitVec 8

structure DevGeneric where
  enabled : Bool
  byteEnabled : Bool
  hwEnabled : Bool
  wordEnabled : Bool
  baseaddr : Word
  size : Word
  deriving DecidableEq

/-! ### Registration -/

def DevGeneric.allows (dev : DevGeneric) : Width → Bool
  | .byte => dev.byteEnabled
  | .half => dev.hwEnabled
  | .word => dev.wordEnabled

/-- The area that is registered; the rest of `generic_sec_end` gives up. -/
def genericSecEnd (dev : DevGeneric) : Option Request :=
  if !dev.enabled then none
  else if dev.size = 0 then none
  else if !dev.byteEnabled && !dev.hwEnabled && !dev.wordEnabled then none
  else some ⟨dev.baseaddr, dev.size, false⟩

/-- The area of `reg_mem_area`, without its functions. -/
def DevGeneric.area (dev : DevGeneric) : Option Memarea :=
  (genericSecEnd dev).bind fun r => (bitMask r.size).bind fun sizeMask =>
    (bitMask (sizeMask + 1)).map fun mask => ⟨~~~sizeMask, r.addr &&& ~~~sizeMask &&& ~~~sizeMask, sizeMask + 1, mask, true⟩

/-! ### Upcalls -/

/-- A word of the bus and the bytes of it that are meant; only the first four bytes of the mask are there. -/
structure Upcall where
  addr : Word
  mask : Bytes

/-- `read_up` and `write_up`; what they return is not zero when they fail. -/
abbrev ReadUp := Word → Bytes → Option Bytes
abbrev WriteUp := Word → Bytes → Bytes → Bool

/-- The test that an access is where its width may be. -/
def misplaced (w : Width) (addr : Word) : Bool :=
  match w with
  | .byte => false
  | .half => addr &&& 1 ≠ 0
  | .word => addr &&& 3 ≠ 0

/-- The word of an access; a full word is taken to be one. -/
def wordaddr (w : Width) (fulladdr : Word) : Word :=
  match w with
  | .byte => fulladdr &&& 0xfffffffc
  | .half => fulladdr &&& 0xfffffffc
  | .word => fulladdr

/-- The first byte of it that is meant. -/
def lane (w : Width) (fulladdr : Word) : Nat :=
  match w with
  | .byte => (fulladdr &&& 3).toNat
  | .half => (fulladdr &&& 2).toNat
  | .word => 0

def laneMask (w : Width) (first : Nat) : Bytes := fun i => if first ≤ i ∧ i < first + w.bytes then 0xff else 0

def upcall (w : Width) (fulladdr : Word) : Upcall := ⟨wordaddr w fulladdr, laneMask w (lane w fulladdr)⟩

/-- The value that is returned and the upcall that is made for it. -/
def genericRead (w : Width) (up : Option ReadUp) (addr : Word) (dev : DevGeneric) : BitVec w.bits × Option Upcall :=
  match up with
  | none => (0, none)
  | some readUp =>
    if dev.size ≤ addr then (0, none)
    else if misplaced w addr then (0, none)
    else
      let fulladdr := addr + dev.baseaddr
      let u := upcall w fulladdr
      match readUp u.addr u.mask with
      | none => (0, some u)
      | some res => (bigRead (fun j => res (lane w fulladdr + j)) 0 w, some u)

/-- The upcall and the bytes that are passed with it; the others are what was on the stack. -/
def genericWrite (w : Width) (up : Option WriteUp) (stack : Bytes) (addr : Word) (value : BitVec w.bits) (dev : DevGeneric) :
    Option (Upcall × Bytes) :=
  match up with
  | none => none
  | some _ =>
    if dev.size ≤ addr then none
    else if misplaced w addr then none
    else
      let fulladdr := addr + dev.baseaddr
      some (upcall w fulladdr, Mem.bigWrite stack (lane w fulladdr) w value)

def genericReadByte := genericRead .byte
def genericReadHw := genericRead .half
def genericReadWord := genericRead .word
def genericWriteByte := genericWrite .byte
def genericWriteHw := genericWrite .half
def genericWriteWord := genericWrite .word

/-! ### Bytes on the bus -/

/-- The byte is one of those that an upcall means. -/
def Upcall.Means (u : Upcall) (x : Word) : Prop := (x - u.addr).toNat < 4 ∧ u.mask (x - u.addr).toNat = 0xff

/-- The byte is one of an access. -/
def InAccess (w : Width) (a x : Word) : Prop := (x - a).toNat < w.bytes

/-- What is behind the bus, as it answers an upcall. -/
def answer (storage : Word → Byte) : ReadUp := fun addr _ => some fun i => storage (addr + BitVec.ofNat 32 i)

/-- An upcall that writes changes the bytes that it means. -/
def Upcall.store (u : Upcall) (val : Bytes) (storage : Word → Byte) : Word → Byte := fun x =>
  if (x - u.addr).toNat < 4 ∧ u.mask (x - u.addr).toNat = 0xff then val (x - u.addr).toNat else storage x

/-- All of an access is in the device. -/
def DevGeneric.Inside (dev : DevGeneric) (w : Width) (a : Word) : Prop :=
  dev.baseaddr.toNat ≤ a.toNat ∧ a.toNat + w.bytes ≤ dev.baseaddr.toNat + dev.size.toNat

/-- Where an access is in the area. -/
def offset (area : Memarea) (a : Word) : Word := a &&& area.sizeMask

/-- The upcalls of an access to a physical address are for its bytes, in the order of the guest, and only made for bytes of the
device. -/
structure CarriesAddress (dev : DevGeneric) (area : Memarea) (w : Width) (a : Word) : Prop where
  reads : dev.allows w → ∀ (storage : Word → Byte) (u : Upcall), (genericRead w (some (answer storage)) (offset area a) dev).2 = some u →
    dev.Inside w a ∧ (∀ x, u.Means x ↔ InAccess w a x) ∧
      (genericRead w (some (answer storage)) (offset area a) dev).1 = bigRead (fun j => storage (a + BitVec.ofNat 32 j)) 0 w
  writes : dev.allows w → ∀ (up : WriteUp) (stack : Bytes) (value : BitVec w.bits) (u : Upcall) (val : Bytes),
    genericWrite w (some up) stack (offset area a) value dev = some (u, val) →
    dev.Inside w a ∧ (∀ x, u.Means x ↔ InAccess w a x) ∧ ∀ (storage : Word → Byte) (x : Word),
      u.store val storage x = if (x - a).toNat < w.bytes then Mem.bigWrite (fun _ => 0) 0 w value (x - a).toNat else storage x

/-! ### Places -/

section
variable {dev : DevGeneric} {area : Memarea} {w : Width} {a fulladdr x : Word}

/-- The area is the block of the base address that holds the size. -/
theorem area_spec (registered : dev.area = some area) : ∃ k < 32, area.sizeMask = low 32 k ∧ area.addrMask = ~~~low 32 k ∧
    area.addrCompare = dev.baseaddr &&& ~~~low 32 k &&& ~~~low 32 k ∧ dev.size.toNat ≤ 2 ^ k := by
  obtain ⟨r, accepted, rest⟩ := Option.bind_eq_some_iff.mp registered
  obtain ⟨sizeMask, masked, rest⟩ := Option.bind_eq_some_iff.mp rest
  obtain ⟨again, remasked, rfl⟩ := Option.map_eq_some_iff.mp rest
  have request : r = ⟨dev.baseaddr, dev.size, false⟩ ∧ dev.size ≠ 0 := by
    unfold genericSecEnd at accepted
    split_ifs at accepted with off none
    exact ⟨(Option.some.inj accepted).symm, none⟩
  obtain ⟨rfl, positive⟩ := request
  obtain ⟨k, small, rfl, fits, least⟩ := Mem.bitMask_spec masked
  obtain ⟨j, small', rfl, fits', least'⟩ := Mem.bitMask_spec remasked
  have power := Nat.pow_lt_pow_right (a := 2) (by decide) small
  have some_ := Nat.two_pow_pos k
  have whole : (low 32 k + 1 - 1).toNat = 2 ^ k - 1 := by
    rw [BitVec.add_sub_cancel, Mem.low_toNat small]
  have same : j = k := by
    rw [whole] at fits' least'
    rcases Nat.lt_trichotomy j k with less | same | more
    · have := Nat.pow_lt_pow_right (a := 2) (by decide) less
      omega
    · exact same
    · have := least' k more
      omega
  refine ⟨k, small, by rw [same], rfl, rfl, ?_⟩
  have nonzero : dev.size.toNat ≠ 0 := fun zero => positive (BitVec.eq_of_toNat_eq zero)
  have less : (dev.size - 1).toNat = dev.size.toNat - 1 := BitVec.toNat_sub_of_le (by rw [BitVec.le_def]; show 1 ≤ _; omega)
  rw [less] at fits
  omega

theorem lane_fits (w : Width) (fulladdr : Word) : lane w fulladdr + w.bytes ≤ 4 := by
  cases w with
  | byte =>
    have := Aligned.and_low (k := 2) fulladdr (by decide)
    have low : (fulladdr &&& 3).toNat = fulladdr.toNat % 4 := this
    show (fulladdr &&& 3).toNat + 1 ≤ 4
    omega
  | half =>
    show (fulladdr &&& 2).toNat + 2 ≤ 4
    have le : (fulladdr &&& 2).toNat ≤ 2 := by
      rw [BitVec.toNat_and]
      exact Nat.and_le_right
    omega
  | word => exact Nat.le_refl 4

/-- The first byte that an upcall means. -/
def firstByte (w : Width) (fulladdr : Word) : Word := wordaddr w fulladdr + BitVec.ofNat 32 (lane w fulladdr)

theorem inAccess_sub (f : Nat) (fits : f + w.bytes ≤ 4) (b : Word) :
    InAccess w (b + BitVec.ofNat 32 f) x ↔ f ≤ (x - b).toNat ∧ (x - b).toNat < f + w.bytes := by
  have shift : x - (b + BitVec.ofNat 32 f) = x - b - BitVec.ofNat 32 f := sub_add_eq_sub_sub _ _ _
  have positive : 1 ≤ w.bytes := by cases w <;> decide
  have small : (BitVec.ofNat 32 f).toNat = f := by
    rw [BitVec.toNat_ofNat]
    omega
  unfold InAccess
  rw [shift, BitVec.toNat_sub, small]
  have := (x - b).isLt
  omega

theorem means_iff : (upcall w fulladdr).Means x ↔ InAccess w (firstByte w fulladdr) x := by
  have fits := lane_fits w fulladdr
  rw [firstByte, inAccess_sub _ fits]
  unfold Upcall.Means upcall laneMask
  dsimp only
  by_cases meant : lane w fulladdr ≤ (x - wordaddr w fulladdr).toNat ∧ (x - wordaddr w fulladdr).toNat < lane w fulladdr + w.bytes
  · rw [if_pos meant]
    exact ⟨fun _ => meant, fun _ => ⟨by omega, rfl⟩⟩
  · rw [if_neg meant]
    exact ⟨fun ⟨_, zero⟩ => absurd zero (by decide), fun within => absurd within meant⟩

/-- An access is known by its bytes. -/
theorem inAccess_inj {b : Word} : (∀ x, InAccess w b x ↔ InAccess w a x) ↔ b = a := by
  constructor
  · intro same
    have positive : 1 ≤ w.bytes ∧ w.bytes ≤ 4 := by cases w <;> decide
    have ahead : InAccess w a b := (same b).mp (by unfold InAccess; rw [BitVec.sub_self]; exact positive.1)
    have behind : InAccess w b a := (same a).mpr (by unfold InAccess; rw [BitVec.sub_self]; exact positive.1)
    unfold InAccess at ahead behind
    rw [BitVec.toNat_sub] at ahead behind
    have := a.isLt
    have := b.isLt
    apply BitVec.eq_of_toNat_eq
    omega
  · rintro rfl x
    rfl

/-- Where an upcall starts, by the width. -/
theorem firstByte_toNat : (firstByte w fulladdr).toNat = if w = .half then fulladdr.toNat / 2 * 2 else fulladdr.toNat := by
  have word : (fulladdr &&& 0xfffffffc).toNat = fulladdr.toNat / 4 * 4 := Aligned.and_not_low (k := 2) fulladdr
  have below := fulladdr.isLt
  unfold firstByte
  cases w with
  | byte =>
    have rest : (fulladdr &&& 3).toNat = fulladdr.toNat % 4 := Aligned.and_low (k := 2) fulladdr (by decide)
    show ((fulladdr &&& 0xfffffffc) + BitVec.ofNat 32 (fulladdr &&& 3).toNat).toNat = fulladdr.toNat
    rw [BitVec.toNat_add, word, BitVec.toNat_ofNat, rest]
    omega
  | half =>
    have rest : (fulladdr &&& low 32 2).toNat = fulladdr.toNat % 4 := Aligned.and_low (k := 2) fulladdr (by decide)
    have even : (fulladdr &&& 2).toNat = fulladdr.toNat % 4 / 2 * 2 := by
      have split : fulladdr &&& 2 = (fulladdr &&& low 32 2) &&& ~~~low 32 1 := by
        rw [BitVec.and_assoc]
        rfl
      rw [split, Aligned.and_not_low, rest, show (2 : Nat) ^ 1 = 2 from rfl]
    show ((fulladdr &&& 0xfffffffc) + BitVec.ofNat 32 (fulladdr &&& 2).toNat).toNat = fulladdr.toNat / 2 * 2
    rw [BitVec.toNat_add, word, BitVec.toNat_ofNat, even]
    omega
  | word =>
    show (fulladdr + 0).toNat = fulladdr.toNat
    rw [show fulladdr + 0 = fulladdr from BitVec.add_zero fulladdr]

/-- The part of the base address that the area does not have. -/
def DevGeneric.skew (dev : DevGeneric) (area : Memarea) : Word := dev.baseaddr &&& area.sizeMask

/-- The places of an access and of the device in the block of the area. -/
structure Placed (dev : DevGeneric) (area : Memarea) (a : Word) (start : Nat) : Prop where
  addr : a.toNat = start + (offset area a).toNat
  base : dev.baseaddr.toNat = start + (dev.skew area).toNat
  full : (offset area a + dev.baseaddr).toNat = (a.toNat + (dev.skew area).toNat) % 2 ^ 32

theorem placed (registered : dev.area = some area) (decoded : area.covers a) : ∃ start, Placed dev area a start := by
  obtain ⟨k, small, mask, addrMask, compare, fits⟩ := area_spec registered
  have block : a.toNat / 2 ^ k * 2 ^ k = dev.baseaddr.toNat / 2 ^ k * 2 ^ k := by
    have same : a &&& ~~~low 32 k = dev.baseaddr &&& ~~~low 32 k := by
      have covered := of_decide_eq_true decoded
      rw [addrMask, compare, BitVec.and_assoc, BitVec.and_assoc, BitVec.and_self, BitVec.and_self] at covered
      exact covered
    rw [← Aligned.and_not_low a, ← Aligned.and_not_low dev.baseaddr, same]
  have addr : a.toNat = dev.baseaddr.toNat / 2 ^ k * 2 ^ k + (offset area a).toNat := by
    unfold offset
    rw [mask, Aligned.and_low a (Nat.le_of_lt small), ← block, Nat.div_add_mod']
  have base : dev.baseaddr.toNat = dev.baseaddr.toNat / 2 ^ k * 2 ^ k + (dev.skew area).toNat := by
    unfold DevGeneric.skew
    rw [mask, Aligned.and_low dev.baseaddr (Nat.le_of_lt small), Nat.div_add_mod']
  refine ⟨_, addr, base, ?_⟩
  rw [BitVec.toNat_add, base, addr]
  congr 1
  omega

theorem offset_placed (aligned : IsAligned w a) : misplaced w (offset area a) = false := by
  have moved : ∀ mask : Word, offset area a &&& mask = (a &&& mask) &&& area.sizeMask := fun mask => by
    unfold offset
    rw [BitVec.and_assoc, BitVec.and_comm area.sizeMask, BitVec.and_assoc]
  cases w with
  | byte => rfl
  | half =>
    have zero : a &&& 1 = 0#32 := not_not.mp (of_decide_eq_false aligned)
    exact decide_eq_false (not_not.mpr (by rw [moved, zero, BitVec.zero_and]; rfl))
  | word =>
    have zero : a &&& 3 = 0#32 := not_not.mp (of_decide_eq_false aligned)
    exact decide_eq_false (not_not.mpr (by rw [moved, zero, BitVec.zero_and]; rfl))

/-- The upcall is for the bytes of the access, and these are in the device. -/
def Exact (dev : DevGeneric) (area : Memarea) (w : Width) (a : Word) : Prop :=
  dev.Inside w a ∧ firstByte w (offset area a + dev.baseaddr) = a

theorem exact_iff (registered : dev.area = some area) (decoded : area.covers a) (aligned : IsAligned w a)
    (within : ¬dev.size ≤ offset area a) : Exact dev area w a ↔
      (dev.skew area = 0 ∧ (offset area a).toNat + w.bytes ≤ dev.size.toNat) ∨
        (w = .half ∧ dev.skew area = 1 ∧ 2 ≤ (offset area a).toNat) := by
  obtain ⟨start, addr, base, full⟩ := placed registered decoded
  have place := (Mem.isAligned_iff w a).mp aligned
  have below := a.isLt
  have low := (dev.skew area).isLt
  have zero : dev.skew area = 0 ↔ (dev.skew area).toNat = 0 := ⟨fun h => by rw [h]; rfl, fun h => BitVec.eq_of_toNat_eq h⟩
  have one : dev.skew area = 1 ↔ (dev.skew area).toNat = 1 := ⟨fun h => by rw [h]; rfl, fun h => BitVec.eq_of_toNat_eq h⟩
  have even_ : w = .half → (offset area a).toNat % 2 = 0 := by
    rintro rfl
    have clear : offset area a &&& 1 = 0#32 := not_not.mp (of_decide_eq_false (offset_placed aligned))
    have low : (offset area a &&& 1).toNat = (offset area a).toNat % 2 := Aligned.and_low (k := 1) (offset area a) (by decide)
    rw [← low, clear]
    rfl
  unfold Exact DevGeneric.Inside
  rw [BitVec.le_def] at within
  rw [← BitVec.toNat_inj, firstByte_toNat, full, zero, one, base]
  generalize (dev.skew area).toNat = skew at *
  generalize (offset area a).toNat = off at *
  by_cases half : w = .half
  · subst half
    rw [if_pos rfl]
    have two : Width.half.bytes = 2 := rfl
    rw [two] at place ⊢
    have even : off % 2 = 0 := even_ rfl
    constructor
    · intro ⟨inside, exact_⟩
      by_cases straight : skew = 0
      · exact .inl ⟨straight, by omega⟩
      · exact .inr ⟨rfl, by omega, by omega⟩
    · rintro (⟨straight, fits⟩ | ⟨_, shifted, behind⟩)
      · exact ⟨by omega, by omega⟩
      · exact ⟨by omega, by omega⟩
  · rw [if_neg half]
    constructor
    · intro ⟨inside, exact_⟩
      exact .inl ⟨by omega, by omega⟩
    · rintro (⟨straight, fits⟩ | ⟨other, _⟩)
      · exact ⟨by omega, by omega⟩
      · exact absurd other half

/-! ### Values -/

theorem reads_made (allowed : ¬dev.size ≤ offset area a) (aligned : IsAligned w a) (storage : Word → Byte) :
    genericRead w (some (answer storage)) (offset area a) dev =
      (bigRead (fun j => storage (wordaddr w (offset area a + dev.baseaddr) +
          BitVec.ofNat 32 (lane w (offset area a + dev.baseaddr) + j))) 0 w,
        some (upcall w (offset area a + dev.baseaddr))) := by
  unfold genericRead
  dsimp only
  rw [if_neg allowed, if_neg (by rw [offset_placed aligned]; decide)]
  rfl

theorem writes_made (allowed : ¬dev.size ≤ offset area a) (aligned : IsAligned w a) (up : WriteUp) (stack : Bytes)
    (value : BitVec w.bits) :
    genericWrite w (some up) stack (offset area a) value dev =
      some (upcall w (offset area a + dev.baseaddr), Mem.bigWrite stack (lane w (offset area a + dev.baseaddr)) w value) := by
  unfold genericWrite
  dsimp only
  rw [if_neg allowed, if_neg (by rw [offset_placed aligned]; decide)]

theorem store_means {u : Upcall} {val : Bytes} {storage : Word → Byte} (meant : u.Means x) :
    u.store val storage x = val (x - u.addr).toNat :=
  if_pos meant

theorem store_other {u : Upcall} {val : Bytes} {storage : Word → Byte} (other : ¬u.Means x) : u.store val storage x = storage x :=
  if_neg other

/-- The bytes of a value that are passed are those of the access. -/
theorem passed_byte {stack : Bytes} {value : BitVec w.bits} (here : (x - firstByte w fulladdr).toNat < w.bytes) :
    Mem.bigWrite stack (lane w fulladdr) w value (x - wordaddr w fulladdr).toNat =
      Mem.bigWrite (fun _ => 0) 0 w value (x - firstByte w fulladdr).toNat := by
  have fits := lane_fits w fulladdr
  have place : (x - wordaddr w fulladdr).toNat = lane w fulladdr + (x - firstByte w fulladdr).toNat := by
    have back : x - wordaddr w fulladdr = BitVec.ofNat 32 (lane w fulladdr) + (x - firstByte w fulladdr) := by
      unfold firstByte
      ring
    rw [back, BitVec.toNat_add, BitVec.toNat_ofNat]
    omega
  unfold Mem.bigWrite
  rw [place, if_pos (by omega), if_pos (by omega), Nat.add_sub_cancel_left, Nat.sub_zero]

/-- The upcalls are right where they are exact, and there only. -/
theorem carries_iff_exact (enabled : dev.allows w) (allowed : ¬dev.size ≤ offset area a) (aligned : IsAligned w a) :
    CarriesAddress dev area w a ↔ Exact dev area w a := by
  have means : (∀ x, (upcall w (offset area a + dev.baseaddr)).Means x ↔ InAccess w a x) ↔
      firstByte w (offset area a + dev.baseaddr) = a := by
    rw [← inAccess_inj (w := w)]
    exact forall_congr' fun x => by rw [means_iff]
  constructor
  · intro carries
    obtain ⟨inside, exact_, _⟩ := carries.reads enabled (fun _ => 0) _ (by rw [reads_made allowed aligned])
    exact ⟨inside, means.mp exact_⟩
  · intro ⟨inside, exact_⟩
    constructor
    · intro _ storage u made
      rw [reads_made allowed aligned] at made ⊢
      obtain rfl := Option.some.inj made
      refine ⟨inside, means.mpr exact_, ?_⟩
      dsimp only
      congr 1
      funext j
      rw [BitVec.ofNat_add, ← BitVec.add_assoc, ← firstByte, exact_]
    · intro _ up stack value u val made
      rw [writes_made allowed aligned] at made
      obtain ⟨rfl, rfl⟩ := Prod.mk.inj (Option.some.inj made)
      refine ⟨inside, means.mpr exact_, fun storage x => ?_⟩
      have same := means.mpr exact_ x
      by_cases here : (x - a).toNat < w.bytes
      · have inside : (x - firstByte w (offset area a + dev.baseaddr)).toNat < w.bytes := exact_.symm ▸ here
        have byte := @passed_byte w _ x stack value inside
        rw [exact_] at byte
        rw [if_pos here, store_means (same.mpr here)]
        exact byte
      · rw [if_neg here, store_other fun meant => here (same.mp meant)]

/-- An access is not allowed, or not made, or it is in the device and the base address is one of the area; a half-word access also gets
through when the base address is one behind the area and the access is not at its start. -/
theorem carriesAddress_iff (registered : dev.area = some area) (decoded : area.covers a) (aligned : IsAligned w a) :
    CarriesAddress dev area w a ↔ dev.allows w = false ∨ dev.size ≤ offset area a ∨
      (dev.skew area = 0 ∧ (offset area a).toNat + w.bytes ≤ dev.size.toNat) ∨
      (w = .half ∧ dev.skew area = 1 ∧ 2 ≤ (offset area a).toNat) := by
  cases enabled : dev.allows w with
  | false =>
    refine ⟨fun _ => .inl rfl, fun _ => ⟨fun allowed => ?_, fun allowed => ?_⟩⟩
    · rw [enabled] at allowed
      exact absurd allowed (by decide)
    · rw [enabled] at allowed
      exact absurd allowed (by decide)
  | true =>
    by_cases beyond : dev.size ≤ offset area a
    · refine ⟨fun _ => .inr (.inl beyond), fun _ => ⟨fun _ storage u made => ?_, fun _ up stack value u val made => ?_⟩⟩
      · unfold genericRead at made
        dsimp only at made
        rw [if_pos beyond] at made
        cases made
      · unfold genericWrite at made
        dsimp only at made
        rw [if_pos beyond] at made
        cases made
    · rw [carries_iff_exact enabled beyond aligned, exact_iff registered decoded aligned beyond]
      constructor
      · exact fun right => .inr (.inr right)
      · rintro (off | beyond' | right)
        · exact absurd off (by decide)
        · exact absurd beyond' beyond
        · exact right

end

/-- A device of six bytes at the start of its block. -/
def six (baseaddr : Word) : DevGeneric := ⟨true, true, true, true, baseaddr, 6⟩

theorem six_carries : CarriesAddress (six 0x98000000) ⟨~~~7, 0x98000000, 8, 7, true⟩ .half 0x98000004 :=
  (carriesAddress_iff (by decide) (by decide) (by decide)).mpr (.inr (.inr (.inl (by decide))))

/-- A word at the end of the device is asked for with two bytes behind it, and with a base address that is not the start of its block the
bytes asked for are others. -/
theorem six_elsewhere : (six 0x98000000).area = some ⟨~~~7, 0x98000000, 8, 7, true⟩ ∧
    ¬CarriesAddress (six 0x98000000) ⟨~~~7, 0x98000000, 8, 7, true⟩ .word 0x98000004 ∧
    (six 0x98000004).area = some ⟨~~~7, 0x98000000, 8, 7, true⟩ ∧
    ¬CarriesAddress (six 0x98000004) ⟨~~~7, 0x98000000, 8, 7, true⟩ .word 0x98000000 := by
  refine ⟨by decide, fun carries => ?_, by decide, fun carries => ?_⟩
  · have inside := (carries.reads rfl (fun _ => 0) ⟨0x98000004, laneMask .word 0⟩ rfl).1
    exact absurd inside.2 (by decide)
  · have bytes := (carries.reads rfl (fun _ => 0) ⟨0x98000004, laneMask .word 0⟩ rfl).2.1 0x98000000
    exact absurd (bytes.mpr (by show (0x98000000 - 0x98000000 : Word).toNat < 4; decide)).1 (by decide)

end Or1ksim.Generic
