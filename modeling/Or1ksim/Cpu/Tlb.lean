import Or1ksim.Cpu.Direct
import Or1ksim.Lib.Aligned

/-!
# The registers of the TLBs

`mtspr` clears the reserved bits of a match or translate register. Its ranges end before the last
register of each TLB, which keeps what is written to it. `dmmu_translate` takes the physical page from
a translate register with a mask for pages of 8 KB, whatever the page size is.
-/

namespace Or1ksim.Cpu

open Aligned (low)

variable {δ : Type}

/-! ### Register numbers -/

inductive TlbPart where
  | matching | translating
  deriving DecidableEq, Repr

def tlbRegno (side : Side) (part : TlbPart) (set : Fin 128) (way : Fin 4) : SprNo :=
  match part with
  | .matching => tlbmr side set way
  | .translating => tlbmr side set way + 128

/-- `SPR_DTLBMR_BASE (0)` or `SPR_ITLBMR_BASE (0)`. -/
def Side.tlbBase : Side → Nat
  | .data => 0x0a00
  | .insn => 0x1200

theorem tlbRegno_toNat (side : Side) (part : TlbPart) (set : Fin 128) (way : Fin 4) :
    (tlbRegno side part set way).toNat = side.tlbBase + set.val + 256 * way.val + if part = .translating then 128 else 0 := by
  have := set.isLt
  have := way.isLt
  have first : (tlbmr side set way).toNat = side.tlbBase + set.val + 256 * way.val := by
    cases side
    · show (0x0a00 + (set.val + 256 * way.val) % 2 ^ 16) % 2 ^ 16 = 0x0a00 + set.val + 256 * way.val
      omega
    · show (0x1200 + (set.val + 256 * way.val) % 2 ^ 16) % 2 ^ 16 = 0x1200 + set.val + 256 * way.val
      omega
  cases part with
  | matching => exact first
  | translating =>
    show (tlbmr side set way + 128).toNat = _
    rw [BitVec.toNat_add, first, if_pos rfl]
    show (side.tlbBase + set.val + 256 * way.val + 128) % 2 ^ 16 = _
    cases side <;> simp only [Side.tlbBase] <;> omega

/-- The registers of a TLB. -/
def InTlb (regno : SprNo) : Prop := 0x0a00 ≤ regno.toNat ∧ regno.toNat ≤ 0x0dff ∨ 0x1200 ≤ regno.toNat ∧ regno.toNat ≤ 0x15ff

instance (regno : SprNo) : Decidable (InTlb regno) := inferInstanceAs (Decidable (_ ∨ _))

theorem tlbRegno_inTlb (side : Side) (part : TlbPart) (set : Fin 128) (way : Fin 4) : InTlb (tlbRegno side part set way) := by
  have := set.isLt
  have := way.isLt
  unfold InTlb
  rw [tlbRegno_toNat]
  cases side <;> simp only [Side.tlbBase] <;> split <;> omega

/-- The last register of a TLB. -/
def IsLast (part : TlbPart) (set : Fin 128) (way : Fin 4) : Prop := part = .translating ∧ set = 127 ∧ way = 3

instance (part : TlbPart) (set : Fin 128) (way : Fin 4) : Decidable (IsLast part set way) := inferInstanceAs (Decidable (_ ∧ _))

/-! ### What `mtspr` stores -/

/-- The architected fields of a register, besides the page number. -/
def tlbFields : Side → TlbPart → Word
  | _, .matching => tlbmrV ||| tlbmrPl1 ||| tlbmrCid ||| tlbmrLru
  | .data, .translating => dtlbtrBits
  | .insn, .translating => itlbtrBits

/-- The page number and the architected fields of a register. -/
def tlbMask (c : Config δ) (side : Side) (part : TlbPart) : Word := (c.mmu side).pageMask ||| tlbFields side part

/-- What a register has of a value written to it. -/
def tlbStored (c : Config δ) (side : Side) (part : TlbPart) (set : Fin 128) (way : Fin 4) (value : Word) : Word :=
  if IsLast part set way then value else value &&& tlbMask c side part

section
variable {c : Config δ} {side : Side} {part : TlbPart} {set : Fin 128} {way : Fin 4} {s : Machine δ}

/-- A register of a TLB is none of those that `mtspr` treats on their own. -/
theorem mtspr_inTlb {regno : SprNo} (inside : InTlb regno) (value : Word) :
    mtspr c regno value s = .ok ((), mtsprDefault c regno value (setSpr regno value s)) := by
  have other : ∀ r : SprNo, ¬ InTlb r → regno ≠ r := by
    rintro r outside rfl
    exact outside inside
  unfold mtspr
  rw [Programs.get_bind, Programs.modify_bind]
  rw [if_neg (other _ (by decide)), if_neg (other _ (by decide)), if_neg (other _ (by decide)), if_neg (other _ (by decide)),
    if_neg (other _ (by decide)), if_neg (other _ (by decide)), if_neg (other _ (by decide)), if_neg (other _ (by decide)),
    if_neg (other _ (by decide)), if_neg (other _ (by decide)), if_neg (other _ (by decide)), if_neg (other _ (by decide)),
    if_neg (other _ (by decide)), if_neg (other _ (by decide)), if_neg (other _ (by decide))]
  rfl

theorem gprLink_inTlb {regno : SprNo} (inside : InTlb regno) : gprLink regno = none := by
  unfold InTlb at inside
  exact dif_neg (by omega)

/-- The low byte of a register number tells the match registers from the translate registers. -/
theorem tlbRegno_low (side : Side) (part : TlbPart) (set : Fin 128) (way : Fin 4) :
    tlbRegno side part set way &&& 0xff < 0x80 ↔ part = .matching := by
  have := set.isLt
  have := way.isLt
  rw [BitVec.lt_def, BitVec.toNat_and, tlbRegno_toNat]
  show (_ &&& 2 ^ 8 - 1) < 128 ↔ _
  rw [Nat.and_two_pow_sub_one_eq_mod]
  cases side <;> cases part <;> simp [Side.tlbBase] <;> omega

/-- The range test for the data TLB leaves out its last register. -/
theorem data_range (side : Side) (part : TlbPart) (set : Fin 128) (way : Fin 4) :
    0x0a00 ≤ tlbRegno side part set way ∧ tlbRegno side part set way < 0x0dff ↔ side = .data ∧ ¬ IsLast part set way := by
  have := set.isLt
  have := way.isLt
  rw [BitVec.le_def, BitVec.lt_def, tlbRegno_toNat]
  show 0x0a00 ≤ _ ∧ _ < 0x0dff ↔ _
  unfold IsLast
  cases side <;> cases part <;> simp [Side.tlbBase, Fin.ext_iff] <;> omega

theorem insn_range (side : Side) (part : TlbPart) (set : Fin 128) (way : Fin 4) :
    0x1200 ≤ tlbRegno side part set way ∧ tlbRegno side part set way < 0x15ff ↔ side = .insn ∧ ¬ IsLast part set way := by
  have := set.isLt
  have := way.isLt
  rw [BitVec.le_def, BitVec.lt_def, tlbRegno_toNat]
  show 0x1200 ≤ _ ∧ _ < 0x15ff ↔ _
  unfold IsLast
  cases side <;> cases part <;> simp [Side.tlbBase, Fin.ext_iff] <;> omega

/-- What `mtspr` does to a register of a TLB. -/
theorem mtspr_tlb (value : Word) :
    mtspr c (tlbRegno side part set way) value s =
      .ok ((), setSpr (tlbRegno side part set way) (tlbStored c side part set way value) s) := by
  have inside := tlbRegno_inTlb side part set way
  rw [mtspr_inTlb inside]
  unfold mtsprDefault tlbStored
  simp only [gprLink_inTlb inside, data_range, insn_range]
  by_cases last : IsLast part set way
  · rw [if_neg fun both => both.2 last, if_neg fun both => both.2 last, if_pos last]
  · have fields : ∀ page,
      (value &&& page ||| value &&& if tlbRegno side part set way &&& 0xff < 0x80 then tlbmrV ||| tlbmrPl1 ||| tlbmrCid ||| tlbmrLru
        else tlbFields side .translating) = value &&& (page ||| tlbFields side part) := by
      intro page
      rw [BitVec.and_or_distrib_left]
      cases part with
      | matching =>
        rw [if_pos ((tlbRegno_low _ _ _ _).mpr rfl)]
        cases side <;> rfl
      | translating => rw [if_neg fun low => by cases (tlbRegno_low _ _ _ _).mp low]
    rw [if_neg last]
    cases side with
    | data =>
      rw [if_neg (fun both => by cases both.1), if_pos ⟨rfl, last⟩, setSpr_setSpr]
      exact congrArg (fun w => Except.ok ((), setSpr _ w s)) (fields c.dmmu.pageMask)
    | insn =>
      rw [if_neg (c := Side.insn = Side.data ∧ _) (fun both => by cases both.1), if_pos ⟨rfl, last⟩, setSpr_setSpr]
      exact congrArg (fun w => Except.ok ((), setSpr _ w s)) (fields c.immu.pageMask)

end

/-! ### Reserved bits -/

/-- The register holds no bit outside the page number and the architected fields, and no other special
purpose register and no general purpose register has changed. -/
structure TlbWritten (c : Config δ) (side : Side) (part : TlbPart) (set : Fin 128) (way : Fin 4) (s s' : Machine δ) : Prop where
  clear : s'.sprs (tlbRegno side part set way) &&& ~~~tlbMask c side part = 0#32
  sprs : ∀ r, r ≠ tlbRegno side part set way → s'.sprs r = s.sprs r
  reg : s'.reg = s.reg

theorem tlbStored_clear_iff (c : Config δ) (side : Side) (part : TlbPart) (set : Fin 128) (way : Fin 4) (value : Word) :
    tlbStored c side part set way value &&& ~~~tlbMask c side part = 0#32 ↔
      ¬ IsLast part set way ∨ value &&& ~~~tlbMask c side part = 0#32 := by
  unfold tlbStored
  by_cases last : IsLast part set way
  · rw [if_pos last]
    exact ⟨.inr, fun either => either.resolve_left (not_not.mpr last)⟩
  · rw [if_neg last, BitVec.and_assoc]
    refine iff_of_true ?_ (.inl last)
    rw [show tlbMask c side part &&& ~~~tlbMask c side part = 0#32 by simp, BitVec.and_zero]

/-- A write to a register of a TLB leaves no reserved bit set, exactly if the register is not the last
of its TLB or no such bit is written. -/
theorem mtspr_reserved_iff (c : Config δ) (side : Side) (part : TlbPart) (set : Fin 128) (way : Fin 4) (value : Word) (s : Machine δ) :
    ∃ s', mtspr c (tlbRegno side part set way) value s = .ok ((), s') ∧
      (TlbWritten c side part set way s s' ↔ ¬ IsLast part set way ∨ value &&& ~~~tlbMask c side part = 0#32) := by
  refine ⟨_, mtspr_tlb value, ?_⟩
  have stored := setSpr_here (tlbRegno side part set way) (tlbStored c side part set way value) s
  rw [← tlbStored_clear_iff c side part set way value]
  constructor
  · rintro ⟨clear, _, _⟩
    rw [stored] at clear
    exact clear
  · intro clear
    refine ⟨?_, fun r other => if_neg other, rfl⟩
    rw [stored]
    exact clear

/-- The last translate register keeps its reserved bits. -/
theorem mtspr_last_reserved :
    ¬ ∀ (c : Config Unit) (side : Side) (part : TlbPart) (set : Fin 128) (way : Fin 4) (value : Word) (s : Machine Unit),
      ∃ s', mtspr c (tlbRegno side part set way) value s = .ok ((), s') ∧ TlbWritten c side part set way s s' := by
  intro claim
  obtain ⟨s', written, clear, _⟩ := claim (Config.bare [] []) .data .translating 127 3 0x1c00 (Machine.bare () 0 0)
  rw [mtspr_tlb] at written
  cases written
  exact absurd clear (by decide +kernel)

/-! ### Pages -/

theorem bits_eq_iff (x y : Word) : x = y ↔ ∀ i, i < 32 → x.getLsbD i = y.getLsbD i :=
  ⟨fun same _ _ => by rw [same], fun same => BitVec.eq_of_getLsbD_eq fun i => same i⟩

namespace Mmu

variable (mmu : Mmu)

theorem pageOffsetMask_eq : mmu.pageOffsetMask = low 32 mmu.pagesizeLog2.val := by
  have size : (1 : Word) <<< mmu.pagesizeLog2.val = BitVec.ofNat 32 (2 ^ mmu.pagesizeLog2.val) := by
    apply BitVec.eq_of_toNat_eq
    rw [BitVec.toNat_shiftLeft, BitVec.toNat_ofNat, Nat.shiftLeft_eq]
    exact congrArg (· % 2 ^ 32) (Nat.one_mul _)
  unfold pageOffsetMask
  rw [size]
  exact (Nat.cast_pred (R := Word) (Nat.two_pow_pos _)).symm

/-- `DADDR_PAGE`. -/
def page (a : Word) : Word := a &&& mmu.pageMask

/-- The place of an address in its page. -/
def pageOffset (a : Word) : Word := a &&& mmu.pageOffsetMask

theorem page_add_offset (frame a : Word) : mmu.page frame + mmu.pageOffset a = mmu.page frame ||| mmu.pageOffset a := by
  refine BitVec.add_eq_or_of_and_eq_zero _ _ ?_
  unfold page pageOffset pageMask
  apply BitVec.eq_of_getLsbD_eq
  intro i inside
  simp only [BitVec.getLsbD_and, BitVec.getLsbD_not, BitVec.getLsbD_zero]
  cases mmu.pageOffsetMask.getLsbD i <;> simp

/-- The addresses of a page and those of the page that they are mapped to are in bijection. -/
theorem page_add_inj {frame a b : Word} (same : mmu.page a = mmu.page b)
    (mapped : mmu.page frame + mmu.pageOffset a = mmu.page frame + mmu.pageOffset b) : a = b := by
  have offset := (BitVec.add_right_inj _).mp mapped
  unfold page pageMask at same
  unfold pageOffset at offset
  apply BitVec.eq_of_getLsbD_eq
  intro i inside
  have high := congrArg (BitVec.getLsbD · i) same
  have low := congrArg (BitVec.getLsbD · i) offset
  simp only [BitVec.getLsbD_and, BitVec.getLsbD_not, inside, decide_true, Bool.true_and] at high low
  cases mask : mmu.pageOffsetMask.getLsbD i with
  | true => simpa [mask] using low
  | false => simpa [mask] using high

theorem page_of_page (frame a : Word) : mmu.page (mmu.page frame + mmu.pageOffset a) = mmu.page frame := by
  rw [page_add_offset]
  unfold page pageOffset pageMask
  apply BitVec.eq_of_getLsbD_eq
  intro i inside
  simp only [BitVec.getLsbD_or, BitVec.getLsbD_and, BitVec.getLsbD_not, inside, decide_true, Bool.true_and]
  cases frame.getLsbD i <;> cases a.getLsbD i <;> cases mmu.pageOffsetMask.getLsbD i <;> rfl

/-- The physical page of a translate register and the place in the page are put together without a loss. -/
theorem physical_eq_iff (stored frame a : Word) :
    mmu.physical stored a = mmu.page frame + mmu.pageOffset a ↔
      mmu.page (stored &&& tlbtrPpn) = mmu.page frame ∧ stored &&& tlbtrPpn &&& mmu.pageOffsetMask &&& ~~~a = 0#32 := by
  rw [page_add_offset]
  unfold physical page pageOffset pageMask
  simp only [bits_eq_iff, BitVec.getLsbD_or, BitVec.getLsbD_and, BitVec.getLsbD_not, BitVec.getLsbD_zero, ← forall_and]
  refine forall_congr' fun i => forall_congr' fun inside => ?_
  simp only [inside, decide_true, Bool.true_and]
  cases stored.getLsbD i <;> cases tlbtrPpn.getLsbD i <;> cases mmu.pageOffsetMask.getLsbD i <;> cases a.getLsbD i <;>
    cases frame.getLsbD i <;> decide

end Mmu

theorem Mmu.page_eq_iff (mmu : Mmu) (value mask : Word) :
    mmu.page (value &&& mask) = mmu.page value ↔ mmu.page value &&& ~~~mask = 0#32 := by
  unfold Mmu.page
  simp only [bits_eq_iff, BitVec.getLsbD_and, BitVec.getLsbD_not, BitVec.getLsbD_zero]
  refine forall_congr' fun i => forall_congr' fun inside => ?_
  simp only [inside, decide_true, Bool.true_and]
  cases value.getLsbD i <;> cases mmu.pageMask.getLsbD i <;> cases mask.getLsbD i <;> decide

/-- The address that a stored translate register gives: the page number loses its bits below those of
8 KB, and in the last register bits that belong to the place in the page come with it. -/
theorem physical_stored_iff (c : Config δ) (set : Fin 128) (way : Fin 4) (value a : Word) :
    c.dmmu.physical (tlbStored c .data .translating set way value) a = c.dmmu.page value + c.dmmu.pageOffset a ↔
      c.dmmu.page value &&& ~~~tlbtrPpn = 0#32 ∧
        (IsLast .translating set way → value &&& tlbtrPpn &&& c.dmmu.pageOffsetMask &&& ~~~a = 0#32) := by
  rw [Mmu.physical_eq_iff]
  unfold tlbStored
  by_cases last : IsLast .translating set way
  · rw [if_pos last, Mmu.page_eq_iff]
    exact and_congr_right fun _ => ⟨fun clear _ => clear, fun clear => clear last⟩
  · have masked : value &&& tlbMask c .data .translating &&& tlbtrPpn = value &&& tlbtrPpn &&& c.dmmu.pageMask := by
      have fields : dtlbtrBits &&& tlbtrPpn = 0#32 := by decide
      show value &&& (c.dmmu.pageMask ||| dtlbtrBits) &&& tlbtrPpn = _
      rw [BitVec.and_assoc, BitVec.and_or_distrib_right, fields, BitVec.or_zero, BitVec.and_comm c.dmmu.pageMask, BitVec.and_assoc]
    have apart : c.dmmu.pageMask &&& c.dmmu.pageOffsetMask = 0#32 := by
      unfold Mmu.pageMask
      rw [BitVec.and_comm]
      simp
    have page : c.dmmu.page (value &&& tlbtrPpn &&& c.dmmu.pageMask) = c.dmmu.page (value &&& tlbtrPpn) := by
      unfold Mmu.page
      rw [BitVec.and_assoc, BitVec.and_self]
    rw [if_neg last, masked, page, Mmu.page_eq_iff, BitVec.and_assoc (value &&& tlbtrPpn), apart, BitVec.and_zero, BitVec.zero_and]
    exact and_congr_right fun _ => iff_of_true rfl fun isLast => absurd isLast last

section
variable {c : Config δ} {opd : Operands δ} {s : Machine δ}

/-- A hit gives the address of its entry, whether the access is permitted or not. -/
theorem dmmuTranslate_physical (opd : Operands δ) (virtaddr : Word) (write : Bool) {way : Fin 4} {tlbtr : Word}
    (active : dmmuActive s = true) (found : tlbFind .data c.dmmu s virtaddr c.dmmu.ways = some (way, tlbtr)) :
    ∃ t, runP c opd (dmmuTranslate c virtaddr write) s = .ok (c.dmmu.physical tlbtr virtaddr, t) := by
  have viewed : s.view.sr = s.sr := rfl
  unfold dmmuTranslate
  rw [runP_view, not_skipped active, if_neg (by decide), runP_bind_ok (runP_findTlbmr _ _ _ _ _), found]
  dsimp only
  rw [viewed]
  cases dtlbPermits s.sr tlbtr write
  · exact ⟨_, rfl⟩
  · exact ⟨_, rfl⟩

/-- The entry of a hit is what its translate register holds. -/
theorem tlbFind_entry {side : Side} {mmu : Mmu} {virtaddr : Word} {ways : List (Fin 4)} {way : Fin 4} {tlbtr : Word}
    (found : tlbFind side mmu s virtaddr ways = some (way, tlbtr)) :
    tlbtr = s.sprs (tlbRegno side .translating (mmu.set virtaddr) way) := by
  induction ways with
  | nil => cases found
  | cons first ways ih =>
    unfold tlbFind at found
    dsimp only at found
    split at found
    · cases found
      rfl
    · exact ih found

/-- A virtual address that hits an entry gets the place in the physical page that was written to its
translate register, exactly if the page number has no bits below those of 8 KB, and the entry is not the
last one or has no bits between those of 8 KB and the page size but those of the address. -/
theorem dmmuTranslate_page_iff (opd : Operands δ) (virtaddr : Word) (write : Bool) {s' t : Machine δ} {set : Fin 128} {way : Fin 4}
    {value tlbtr : Word} (loaded : mtspr c (tlbRegno .data .translating set way) value s = .ok ((), s'))
    (kept : t.sprs (tlbRegno .data .translating set way) = s'.sprs (tlbRegno .data .translating set way))
    (active : dmmuActive t = true) (here : c.dmmu.set virtaddr = set)
    (hit : tlbFind .data c.dmmu t virtaddr c.dmmu.ways = some (way, tlbtr)) :
    ∃ phys u, runP c opd (dmmuTranslate c virtaddr write) t = .ok (phys, u) ∧
      (phys = c.dmmu.page value + c.dmmu.pageOffset virtaddr ↔
        c.dmmu.page value &&& ~~~tlbtrPpn = 0#32 ∧
          (IsLast .translating set way → value &&& tlbtrPpn &&& c.dmmu.pageOffsetMask &&& ~~~virtaddr = 0#32)) ∧
      c.dmmu.page (c.dmmu.page value + c.dmmu.pageOffset virtaddr) = c.dmmu.page value ∧
      ∀ other, c.dmmu.page other = c.dmmu.page virtaddr →
        c.dmmu.page value + c.dmmu.pageOffset other = c.dmmu.page value + c.dmmu.pageOffset virtaddr → other = virtaddr := by
  obtain ⟨u, ran⟩ := dmmuTranslate_physical opd virtaddr write active hit
  rw [mtspr_tlb] at loaded
  obtain rfl := congrArg Prod.snd (Except.ok.inj loaded)
  have entry : tlbtr = tlbStored c .data .translating set way value := by
    rw [tlbFind_entry hit, here, kept]
    exact setSpr_here _ _ _
  refine ⟨_, u, ran, ?_, c.dmmu.page_of_page value virtaddr, fun other same mapped => c.dmmu.page_add_inj same mapped⟩
  rw [entry]
  exact physical_stored_iff c set way value virtaddr

end

/-- A core with a data TLB of one entry and pages of 4 KB. -/
def pagedConfig : Config Unit := { Config.bare [] [] with dmmu := ⟨0, 0, 12, 0, 0⟩ }

/-- The match register of the page at zero is set up. -/
def pagedMachine : Machine Unit :=
  { Machine.bare () 0 0 with
    sprs := fun r =>
      if r = sprSr then srDme ||| srSm else if r = sprUpr then uprDmp else if r = tlbmr .data 0 0 then tlbmrV else 0 }

/-- A page number that is even gets through the mask. -/
theorem dmmuTranslate_page_even :
    ∃ phys u, runP pagedConfig noOperands (dmmuTranslate pagedConfig 0x123 false)
        (setSpr (tlbRegno .data .translating 0 0) 0x6000 pagedMachine) = .ok (phys, u) ∧
      phys = pagedConfig.dmmu.page 0x6000 + pagedConfig.dmmu.pageOffset 0x123 := by
  have loaded : mtspr pagedConfig (tlbRegno .data .translating 0 0) 0x6000 pagedMachine =
      .ok ((), setSpr (tlbRegno .data .translating 0 0) 0x6000 pagedMachine) := by
    rw [mtspr_tlb, show tlbStored pagedConfig .data .translating 0 0 0x6000 = 0x6000 by decide +kernel]
  have hit : tlbFind .data pagedConfig.dmmu (setSpr (tlbRegno .data .translating 0 0) 0x6000 pagedMachine) 0x123 pagedConfig.dmmu.ways =
      some (0, 0x6000) := by decide +kernel
  obtain ⟨phys, u, ran, same, _⟩ := dmmuTranslate_page_iff noOperands 0x123 false loaded rfl (by decide +kernel) (by decide +kernel) hit
  exact ⟨phys, u, ran, same.mpr ⟨by decide +kernel, fun last => absurd last (by decide)⟩⟩

/-- One that is odd loses its last bit. -/
theorem dmmuTranslate_page_odd :
    ¬ ∀ (c : Config Unit) (s s' t : Machine Unit) (set : Fin 128) (way : Fin 4) (value virtaddr tlbtr : Word) (write : Bool),
      mtspr c (tlbRegno .data .translating set way) value s = .ok ((), s') →
      t.sprs (tlbRegno .data .translating set way) = s'.sprs (tlbRegno .data .translating set way) → dmmuActive t = true →
      c.dmmu.set virtaddr = set → tlbFind .data c.dmmu t virtaddr c.dmmu.ways = some (way, tlbtr) →
      ∃ phys u, runP c noOperands (dmmuTranslate c virtaddr write) t = .ok (phys, u) ∧
        phys = c.dmmu.page value + c.dmmu.pageOffset virtaddr := by
  intro claim
  have loaded : mtspr pagedConfig (tlbRegno .data .translating 0 0) 0x5000 pagedMachine =
      .ok ((), setSpr (tlbRegno .data .translating 0 0) 0x5000 pagedMachine) := by
    rw [mtspr_tlb, show tlbStored pagedConfig .data .translating 0 0 0x5000 = 0x5000 by decide +kernel]
  obtain ⟨phys, u, ran, same⟩ := claim _ _ _ _ 0 0 0x5000 0 0x5000 false loaded rfl (by decide +kernel) (by decide +kernel)
    (by decide +kernel)
  have given : ((runP pagedConfig noOperands (dmmuTranslate pagedConfig 0 false)
      (setSpr (tlbRegno .data .translating 0 0) 0x5000 pagedMachine)).toOption.map Prod.fst) = some 0x4000 := by decide +kernel
  rw [ran, same] at given
  have equal : pagedConfig.dmmu.page 0x5000 + pagedConfig.dmmu.pageOffset 0 = 0x4000 := Option.some.inj given
  exact absurd equal (by decide +kernel)

end Or1ksim.Cpu
