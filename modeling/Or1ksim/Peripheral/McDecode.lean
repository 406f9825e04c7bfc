import Or1ksim.Peripheral.McAreas

/-!
# What the registers select

A write to a register of the controller goes on to the memory areas through `set_csc_tms`. It stops at the
first area of the chip select, shifts the whole upper half of `CSC` into the address to compare, and never adjusts a
delay: its tests of the memory type compare constants.
-/

namespace Or1ksim.MemoryController

open Function (update)
open Linked (Segment Chain)

/-! ### Writes to the registers -/

def nCe : Nat := 8

def mcCsr : Nat := 0x00
def mcPoc : Nat := 0x04
def mcBaMask : Nat := 0x08
def mcCsc (i : Nat) : Nat := 0x10 + i * 8
def mcTms (i : Nat) : Nat := 0x14 + i * 8

def baMaskValid : Word := 0x000003ff

def setMc (m : Nat) (mc : Mc) (h : Heap) : Heap := { h with mcs := update h.mcs m mc }

/-- A call of `set_csc_tms` with the registers of a chip select. -/
def setChipsel (fuel m : Nat) (h : Heap) (chipsel : Nat) : Option Heap :=
  setCscTms (BitVec.ofNat 32 chipsel) ((h.mcs m).csc chipsel) ((h.mcs m).tms chipsel) (h.mcs m).baMask fuel (h.mcs m).mcAreas h

def mcWriteWord (fuel m addr : Nat) (value : Word) (h : Heap) : Option Heap :=
  let mc := h.mcs m
  if addr = mcCsr then some (setMc m { mc with csr := value } h)
  else if addr = mcPoc then some h
  else if addr = mcBaMask then (List.range nCe).foldlM (setChipsel fuel m) (setMc m { mc with baMask := value &&& baMaskValid } h)
  else if mcCsc 0 ≤ addr ∧ addr ≤ mcTms (nCe - 1) then
    let chipsel := (addr - mcCsc 0) / 8
    if (addr - mcCsc 0) / 4 % 2 = 1 then setChipsel fuel m (setMc m { mc with tms := update mc.tms chipsel value } h) chipsel
    else setChipsel fuel m (setMc m { mc with csc := update mc.csc chipsel value } h) chipsel
  else some h

/-- The guest writes to the registers of a controller. -/
def writeWords (fuel m : Nat) (writes : List (Nat × Word)) (h : Heap) : Option Heap :=
  writes.foldlM (fun h w => mcWriteWord fuel m w.1 w.2 h) h

/-! ### What the registers hold -/

def writeReg (mc : Mc) (w : Nat × Word) : Mc :=
  if w.1 = mcCsr then { mc with csr := w.2 }
  else if w.1 = mcPoc then mc
  else if w.1 = mcBaMask then { mc with baMask := w.2 &&& baMaskValid }
  else if mcCsc 0 ≤ w.1 ∧ w.1 ≤ mcTms (nCe - 1) then
    if (w.1 - mcCsc 0) / 4 % 2 = 1 then { mc with tms := update mc.tms ((w.1 - mcCsc 0) / 8) w.2 }
    else { mc with csc := update mc.csc ((w.1 - mcCsc 0) / 8) w.2 }
  else mc

/-- The registers of a controller after a reset and the writes. -/
def registers (mc : Mc) (writes : List (Nat × Word)) : Mc := writes.foldl writeReg (resetRegs mc)

/-- The chip selects that a write goes on to. -/
def touched (addr : Nat) : List Nat :=
  if addr = mcBaMask then List.range nCe
  else if mcCsc 0 ≤ addr ∧ addr ≤ mcTms (nCe - 1) then [(addr - mcCsc 0) / 8]
  else []

/-! ### What the fields mean -/

def enabled (csc : Word) : Bool := (csc >>> cscEn) &&& 0x01 ≠ 0

/-- The field of two bits, `MC_CSC_MEMTYPE_WIDTH`. -/
def memtype (csc : Word) : Nat := ((csc >>> cscMemtype) &&& 0x03).toNat

/-- The field of eight bits, `MC_CSC_SEL_WIDTH`. -/
def sel (csc : Word) : Word := (csc >>> cscSel) &&& 0xff

/-- The delays for reads and writes that the memory type and the timing ask for. -/
def typeDelays (csc tms : Word) : Word × Word :=
  if memtype csc = memtypeAsync then
    ((tms &&& 0xff) + ((tms >>> 8) &&& 0x0f), ((tms >>> 12) &&& 0x0f) + ((tms >>> 16) &&& 0x0f) + ((tms >>> 20) &&& 0x3f))
  else if memtype csc = memtypeSdram then (3 + ((tms >>> 4) &&& 0x03), 3 + ((tms >>> 4) &&& 0x03))
  else (2, 2)

/-- The test of `verify_memoryarea`. -/
def selects (a : Memarea) (addr : Word) : Bool := addr &&& a.addrMask = a.addrCompare &&& a.addrMask && a.valid

/-- The area is what the registers of its chip select say. -/
structure AreaAgrees (mc : Mc) (cs : Nat) (a : Memarea) : Prop where
  valid : a.valid = enabled (mc.csc cs)
  decodes : a.valid = true → ∀ addr,
    selects a addr = true ↔ addr &&& (mc.baMask <<< 22) = (sel (mc.csc cs) &&& mc.baMask) <<< 22
  delays : a.valid = true → (a.delayr, a.delayw) = typeDelays (mc.csc cs) (mc.tms cs)

def chipsel (h : Heap) (p : Nat) : Nat := (h.areas p).cs.toNat

def memarea (h : Heap) (p : Nat) : Memarea := h.mems (h.areas p).mem

/-- Every area of the controller is what the registers say. -/
def Agree (m : Nat) (own : List Nat) (h : Heap) : Prop :=
  ∀ p ∈ own, chipsel h p < nCe → AreaAgrees (h.mcs m) (chipsel h p) (memarea h p)

/-- The first area of its chip select. -/
def First (h : Heap) (own : List Nat) (p : Nat) : Prop := own.find? (fun q => chipsel h q = chipsel h p) = some p

/-- What an enabled area has to be: the first of its chip select, without reserved bits in the mask, and registered with the
delays. -/
structure AreaFits (mc : Mc) (h : Heap) (own : List Nat) (p : Nat) : Prop where
  first : First h own p
  reserved : (mc.csc (chipsel h p) >>> 24) &&& (mc.baMask >>> 8) &&& 0x3 = 0
  delays : ((memarea h p).delayr, (memarea h p).delayw) = typeDelays (mc.csc (chipsel h p)) (mc.tms (chipsel h p))

def Fits (mc : Mc) (h : Heap) (own : List Nat) : Prop :=
  ∀ p ∈ own, chipsel h p < nCe → enabled (mc.csc (chipsel h p)) = true → AreaFits mc h own p

/-! ### Fields and addresses -/

/-- Two values under a mask select the same addresses only when they are the same. -/
theorem same_addresses {mask x y : Word} (hx : x &&& mask = x) :
    (∀ addr, addr &&& mask = x ↔ addr &&& mask = y) ↔ x = y := by
  constructor
  · intro same
    rw [← (same x).mp hx, hx]
  · rintro rfl
    exact fun addr => Iff.rfl

theorem reserved_iff (csc baMask : Word) :
    ((csc >>> cscSel) <<< 22) &&& (baMask <<< 22) = (sel csc &&& baMask) <<< 22 ↔ (csc >>> 24) &&& (baMask >>> 8) &&& 0x3 = 0 := by
  have three (i : Nat) (hi : i < 32) : BitVec.getLsbD (0x3 : Word) i = decide (i < 2) := by
    rw [show (0x3 : Word) = Aligned.low 32 2 from rfl, Aligned.getLsbD_low, decide_eq_true hi, Bool.true_and]
  have field (i : Nat) (hi : i < 32) : BitVec.getLsbD (0xff : Word) i = decide (i < 8) := by
    rw [show (0xff : Word) = Aligned.low 32 8 from rfl, Aligned.getLsbD_low, decide_eq_true hi, Bool.true_and]
  constructor
  · intro same
    apply BitVec.eq_of_getLsbD_eq
    intro i hi
    rw [BitVec.getLsbD_and, BitVec.getLsbD_and, BitVec.getLsbD_ushiftRight, BitVec.getLsbD_ushiftRight, three i hi]
    by_cases small : i < 2
    · -- bit `i` above the field is compared at the address bit `30 + i`
      have bit := congrArg (BitVec.getLsbD · (30 + i)) same
      simp only [BitVec.getLsbD_and, BitVec.getLsbD_shiftLeft, sel, BitVec.getLsbD_ushiftRight, cscSel,
        show 30 + i - 22 = 8 + i by omega, field (8 + i) (by omega), show ¬8 + i < 8 by omega, show 16 + (8 + i) = 24 + i by omega,
        show 30 + i < 32 by omega, show ¬30 + i < 22 by omega] at bit
      simpa [small] using bit
    · simp [small]
  · intro clear
    apply BitVec.eq_of_getLsbD_eq
    intro i hi
    simp only [BitVec.getLsbD_and, BitVec.getLsbD_shiftLeft, sel, BitVec.getLsbD_ushiftRight, cscSel, field (i - 22) (by omega)]
    by_cases below : i < 22
    · simp [below]
    by_cases inside : i - 22 < 8
    · simp [below, inside, hi]
    · have bit := congrArg (BitVec.getLsbD · (i - 30)) clear
      simp only [BitVec.getLsbD_and, BitVec.getLsbD_ushiftRight, three (i - 30) (by omega), show i - 30 < 2 by omega,
        show 24 + (i - 30) = 16 + (i - 22) by omega, show 8 + (i - 30) = i - 22 by omega] at bit
      simpa [below, inside, hi] using bit

/-! ### What one call does to the areas -/

section
variable {m fuel : Nat} {h h' : Heap} {own : List Nat}

theorem OnlyMems.areas (only : OnlyMems h h') : h'.areas = h.areas := by
  unfold OnlyMems at only
  rw [only]

theorem OnlyMems.mcs (only : OnlyMems h h') : h'.mcs = h.mcs := by
  unfold OnlyMems at only
  rw [only]

theorem OnlyMems.trans {k : Heap} (first : OnlyMems h h') (second : OnlyMems h' k) : OnlyMems h k := by
  unfold OnlyMems at first second ⊢
  rw [second, first]

/-- What `set_csc_tms` makes of the area of a chip select. -/
def programmed (mc : Mc) (cs : Nat) (a : Memarea) : Memarea :=
  { a with addrMask := mc.baMask <<< 22, addrCompare := (mc.csc cs >>> cscSel) <<< 22, valid := enabled (mc.csc cs) }

theorem programmed_idem (mc : Mc) (cs : Nat) (a : Memarea) : programmed mc cs (programmed mc cs a) = programmed mc cs a := by
  simp only [programmed]

/-- The constant that the source compares is no memory type. -/
theorem hasMemtype_none (csc : Word) {t : Nat} (small : t < 4) : hasMemtype csc t = false := by
  unfold hasMemtype
  rw [decide_eq_false (show ¬0x07 = t by omega), Bool.and_false]

theorem programArea_eq (mem : Nat) (csc tms baMask : Word) (h : Heap) :
    programArea mem csc tms baMask h =
      { h with mems := update h.mems mem { h.mems mem with
        addrMask := baMask <<< 22, addrCompare := (csc >>> cscSel) <<< 22, valid := enabled csc } } := by
  unfold programArea
  simp only [hasMemtype_none csc (show memtypeAsync < 4 by decide), hasMemtype_none csc (show memtypeSdram < 4 by decide),
    hasMemtype_none csc (show memtypeSsram < 4 by decide), hasMemtype_none csc (show memtypeSync < 4 by decide), Bool.false_eq_true,
    if_false, setMemValid, Function.update_self, Function.update_idem, enabled]

/-- The walk finds the first area of the chip select, if there is one. -/
theorem setCscTms_eq {cs csc tms baMask : Word} {a : Option Nat} (chain : Chain h.next a own) (enough : own.length ≤ fuel) :
    setCscTms cs csc tms baMask fuel a h =
      some (match own.find? (fun p => (h.areas p).cs = cs) with
        | none => h
        | some p => programArea (h.areas p).mem csc tms baMask h) := by
  induction own generalizing fuel a with
  | nil =>
    cases chain
    cases fuel <;> rfl
  | cons cur own ih =>
    obtain ⟨rfl, rest⟩ := chain
    cases fuel with
    | zero => cases enough
    | succ fuel =>
      unfold setCscTms
      by_cases here : (h.areas cur).cs = cs
      · rw [if_pos here, List.find?_cons_of_pos (by simpa using here)]
      · rw [if_neg here, List.find?_cons_of_neg (by simpa using here)]
        exact ih rest (Nat.le_of_succ_le_succ enough)

/-- The controller's list, whose areas have their own memories. -/
structure Owns (h : Heap) (m fuel : Nat) (own : List Nat) : Prop where
  chain : Chain h.next (h.mcs m).mcAreas own
  enough : own.length ≤ fuel
  distinct : ∀ p ∈ own, ∀ q ∈ own, (h.areas p).mem = (h.areas q).mem → p = q

theorem Owns.onlyMems (owns : Owns h m fuel own) (only : OnlyMems h h') : Owns h' m fuel own := by
  unfold OnlyMems at only
  rw [only]
  exact ⟨owns.chain, owns.enough, owns.distinct⟩

theorem first_iff {p : Nat} {cs : Word} (is : (h.areas p).cs = cs) :
    First h own p ↔ own.find? (fun q => (h.areas q).cs = cs) = some p := by
  unfold First chipsel
  simp only [is, BitVec.toNat_inj]

theorem setChipsel_areas (owns : Owns h m fuel own) {cs : Nat} (word : cs < 2 ^ 32) :
    ∃ h', setChipsel fuel m h cs = some h' ∧ OnlyMems h h' ∧
      (∀ p ∈ own, First h own p → chipsel h p = cs → memarea h' p = programmed (h.mcs m) cs (memarea h p)) ∧
      ∀ p ∈ own, ¬(First h own p ∧ chipsel h p = cs) → memarea h' p = memarea h p := by
  have same (p : Nat) : (h.areas p).cs = BitVec.ofNat 32 cs ↔ chipsel h p = cs := by
    rw [← BitVec.toNat_inj, BitVec.toNat_ofNat, Nat.mod_eq_of_lt word]
    exact Iff.rfl
  unfold setChipsel
  rw [setCscTms_eq owns.chain owns.enough]
  refine ⟨_, rfl, ?_⟩
  cases found : own.find? fun p => (h.areas p).cs = BitVec.ofNat 32 cs with
  | none =>
    refine ⟨rfl, fun p _ first is => ?_, fun p _ _ => rfl⟩
    rw [first_iff ((same p).mpr is), found] at first
    cases first
  | some q =>
    have isQ : (h.areas q).cs = BitVec.ofNat 32 cs := by simpa using List.find?_some found
    have inside : q ∈ own := List.mem_of_find?_eq_some found
    refine ⟨programArea_same _ _ _ _ h, fun p _ first is => ?_, fun p owned other => ?_⟩
    · rw [first_iff ((same p).mpr is), found] at first
      obtain rfl := Option.some.inj first
      simp only [programArea_eq, memarea, Function.update_self]
      rfl
    · simp only [programArea_eq, memarea]
      refine Function.update_of_ne (fun mem => other ?_) _ _
      obtain rfl := owns.distinct p owned q inside mem
      exact ⟨(first_iff isQ).mpr found, (same p).mp isQ⟩

theorem setChipsels_areas (owns : Owns h m fuel own) (css : List Nat) (words : ∀ cs ∈ css, cs < 2 ^ 32) :
    ∃ h', css.foldlM (setChipsel fuel m) h = some h' ∧ OnlyMems h h' ∧
      (∀ p ∈ own, First h own p → chipsel h p ∈ css → memarea h' p = programmed (h.mcs m) (chipsel h p) (memarea h p)) ∧
      ∀ p ∈ own, ¬(First h own p ∧ chipsel h p ∈ css) → memarea h' p = memarea h p := by
  induction css generalizing h with
  | nil => exact ⟨h, rfl, rfl, fun _ _ _ inside => absurd inside List.not_mem_nil, fun _ _ _ => rfl⟩
  | cons cs css ih =>
    obtain ⟨h₁, ran, only, set, kept⟩ := setChipsel_areas owns (words cs List.mem_cons_self)
    obtain ⟨h₂, rest, only', set', kept'⟩ := ih (owns.onlyMems only) fun c inside => words c (List.mem_cons_of_mem cs inside)
    have areas : h₁.areas = h.areas := only.areas
    have select (p : Nat) : chipsel h₁ p = chipsel h p := congrArg (fun areas => (areas p).cs.toNat) areas
    have first (p : Nat) : First h₁ own p ↔ First h own p := by
      unfold First
      simp only [select]
    have regs : h₁.mcs = h.mcs := only.mcs
    simp only [select, first, regs] at set' kept'
    refine ⟨h₂, by rw [List.foldlM_cons, ran]; exact rest, ?_, fun p owned isFirst inside => ?_, fun p owned out => ?_⟩
    · exact only.trans only'
    · by_cases later : chipsel h p ∈ css
      · rw [set' p owned isFirst later]
        by_cases now : chipsel h p = cs
        · rw [set p owned isFirst now, now, programmed_idem]
        · rw [kept p owned fun both => now both.2]
      · have now : chipsel h p = cs := (List.mem_cons.mp inside).resolve_right later
        rw [kept' p owned fun both => later both.2, set p owned isFirst now, now]
    · rw [kept' p owned fun both => out ⟨both.1, List.mem_cons_of_mem cs both.2⟩,
        kept p owned fun both => out ⟨both.1, both.2 ▸ List.mem_cons_self⟩]

/-! ### The areas follow the registers -/

/-- The first area of a chip select is programmed as the registers say when it is enabled, and the others are never valid. The
delays stay as they were. -/
structure Follows (was : Nat → Memarea) (m : Nat) (own : List Nat) (h : Heap) (p : Nat) : Prop where
  delays : (memarea h p).delayr = (was p).delayr ∧ (memarea h p).delayw = (was p).delayw
  valid : First h own p → (memarea h p).valid = enabled ((h.mcs m).csc (chipsel h p))
  decodes : First h own p → (memarea h p).valid = true → (memarea h p).addrMask = (h.mcs m).baMask <<< 22 ∧
    (memarea h p).addrCompare = ((h.mcs m).csc (chipsel h p) >>> cscSel) <<< 22
  shared : ¬First h own p → (memarea h p).valid = false

variable {was : Nat → Memarea}

theorem mcWriteWord_eq (fuel m : Nat) (w : Nat × Word) (h : Heap) :
    mcWriteWord fuel m w.1 w.2 h = (touched w.1).foldlM (setChipsel fuel m) (setMc m (writeReg (h.mcs m) w) h) := by
  have one (cs : Nat) (k : Heap) : [cs].foldlM (setChipsel fuel m) k = setChipsel fuel m k cs := by
    cases run : setChipsel fuel m k cs <;> simp [run]
  unfold mcWriteWord touched writeReg
  by_cases csr : w.1 = mcCsr
  · simp [csr, mcCsr, mcBaMask, mcCsc]
  by_cases poc : w.1 = mcPoc
  · simp [poc, mcCsr, mcPoc, mcBaMask, mcCsc, setMc]
  by_cases mask : w.1 = mcBaMask
  · simp [mask, mcCsr, mcPoc, mcBaMask]
  by_cases inside : mcCsc 0 ≤ w.1 ∧ w.1 ≤ mcTms (nCe - 1)
  · simp only [if_neg csr, if_neg poc, if_neg mask, if_pos inside, one]
    split <;> rfl
  · simp [csr, poc, mask, inside, setMc]

theorem touched_words (addr : Nat) : ∀ cs ∈ touched addr, cs < 2 ^ 32 := by
  intro cs inside
  unfold touched at inside
  split at inside
  · have := List.mem_range.mp inside
    unfold nCe at this
    omega
  split at inside
  · next within =>
    obtain rfl := List.mem_singleton.mp inside
    have := within.2
    unfold mcTms nCe at this
    omega
  · exact absurd inside List.not_mem_nil

/-- A write changes the registers of the chip selects that it goes on to. -/
theorem writeReg_other (mc : Mc) (w : Nat × Word) {cs : Nat} (small : cs < nCe) (out : cs ∉ touched w.1) :
    (writeReg mc w).csc cs = mc.csc cs ∧ (writeReg mc w).tms cs = mc.tms cs ∧ (writeReg mc w).baMask = mc.baMask := by
  unfold touched at out
  unfold writeReg
  by_cases mask : w.1 = mcBaMask
  · rw [if_pos mask] at out
    exact absurd (List.mem_range.mpr small) out
  rw [if_neg mask] at out ⊢
  split
  · exact ⟨rfl, rfl, rfl⟩
  split
  · exact ⟨rfl, rfl, rfl⟩
  split
  · next inside =>
    rw [if_pos inside] at out
    have other : cs ≠ (w.1 - mcCsc 0) / 8 := fun same => out (List.mem_singleton.mpr same)
    split
    · exact ⟨rfl, Function.update_of_ne other _ _, rfl⟩
    · exact ⟨Function.update_of_ne other _ _, rfl, rfl⟩
  · exact ⟨rfl, rfl, rfl⟩

theorem writeReg_mcAreas (mc : Mc) (w : Nat × Word) : (writeReg mc w).mcAreas = mc.mcAreas := by
  unfold writeReg
  repeat' split
  all_goals rfl

theorem Owns.setMc (owns : Owns h m fuel own) {mc : Mc} (same : mc.mcAreas = (h.mcs m).mcAreas) : Owns (setMc m mc h) m fuel own := by
  refine ⟨?_, owns.enough, owns.distinct⟩
  show Chain h.next (update h.mcs m mc m).mcAreas own
  rw [Function.update_self, same]
  exact owns.chain

/-- The step: a write keeps the areas with the registers. -/
theorem mcWriteWord_follows (owns : Owns h m fuel own) (follows : ∀ p ∈ own, chipsel h p < nCe → Follows was m own h p)
    (w : Nat × Word) :
    ∃ h', mcWriteWord fuel m w.1 w.2 h = some h' ∧ Owns h' m fuel own ∧ h'.areas = h.areas ∧ h'.mcs m = writeReg (h.mcs m) w ∧
      ∀ p ∈ own, chipsel h' p < nCe → Follows was m own h' p := by
  have owns' := owns.setMc (writeReg_mcAreas (h.mcs m) w)
  obtain ⟨h', ran, only, set, kept⟩ := setChipsels_areas owns' (touched w.1) (touched_words w.1)
  have areas : h'.areas = h.areas := only.areas
  have regs : h'.mcs m = writeReg (h.mcs m) w := (congrFun only.mcs m).trans (Function.update_self m _ _)
  have first (p : Nat) : First h' own p ↔ First h own p := by
    unfold First chipsel
    rw [areas]
  refine ⟨h', (mcWriteWord_eq fuel m w h).trans ran, owns'.onlyMems only, areas, regs, fun p owned small => ?_⟩
  have select : chipsel h' p = chipsel h p := congrArg (fun areas => (areas p).cs.toNat) areas
  rw [select] at small
  have before := follows p owned small
  by_cases now : First h own p ∧ chipsel h p ∈ touched w.1
  · have after : memarea h' p = programmed (writeReg (h.mcs m) w) (chipsel h p) (memarea h p) := by
      rw [set p owned now.1 now.2, show (MemoryController.setMc m (writeReg (h.mcs m) w) h).mcs m = _ from Function.update_self m _ _]
      rfl
    refine ⟨?_, fun _ => ?_, fun _ _ => ?_, fun other => absurd ((first p).mpr now.1) other⟩
    · simp only [after, programmed]
      exact before.delays
    · simp only [after, regs, select, programmed]
    · simp only [after, regs, select, programmed, and_self]
  · have after : memarea h' p = memarea h p := kept p owned now
    refine ⟨?_, fun isFirst => ?_, fun isFirst valid => ?_, fun other => ?_⟩
    · rw [after]
      exact before.delays
    · obtain ⟨csc, -, -⟩ := writeReg_other (h.mcs m) w small fun inside => now ⟨(first p).mp isFirst, inside⟩
      rw [after, regs, select, csc]
      exact before.valid ((first p).mp isFirst)
    · obtain ⟨csc, -, mask⟩ := writeReg_other (h.mcs m) w small fun inside => now ⟨(first p).mp isFirst, inside⟩
      rw [after] at valid
      rw [after, regs, select, csc, mask]
      exact before.decodes ((first p).mp isFirst) valid
    · rw [after]
      exact before.shared fun isFirst => other ((first p).mpr isFirst)

theorem writeWords_follows (owns : Owns h m fuel own) (follows : ∀ p ∈ own, chipsel h p < nCe → Follows was m own h p)
    (writes : List (Nat × Word)) :
    ∃ h', writeWords fuel m writes h = some h' ∧ h'.areas = h.areas ∧ h'.mcs m = writes.foldl writeReg (h.mcs m) ∧
      ∀ p ∈ own, chipsel h' p < nCe → Follows was m own h' p := by
  induction writes generalizing h with
  | nil => exact ⟨h, rfl, rfl, rfl, follows⟩
  | cons w rest ih =>
    obtain ⟨h₁, ran, owns₁, areas₁, regs₁, follows₁⟩ := mcWriteWord_follows owns follows w
    obtain ⟨h₂, ran', areas₂, regs₂, follows₂⟩ := ih owns₁ follows₁
    refine ⟨h₂, ?_, areas₂.trans areas₁, by rw [regs₂, regs₁]; rfl, follows₂⟩
    rw [writeWords, List.foldlM_cons, ran]
    exact ran'

/-- An area that follows the registers agrees with them when it fits. -/
theorem Follows.agrees_iff {p : Nat} (follows : Follows was m own h p) :
    AreaAgrees (h.mcs m) (chipsel h p) (memarea h p) ↔
      (enabled ((h.mcs m).csc (chipsel h p)) = true → First h own p ∧
        ((h.mcs m).csc (chipsel h p) >>> 24) &&& ((h.mcs m).baMask >>> 8) &&& 0x3 = 0 ∧
        ((was p).delayr, (was p).delayw) = typeDelays ((h.mcs m).csc (chipsel h p)) ((h.mcs m).tms (chipsel h p))) := by
  rw [← follows.delays.1, ← follows.delays.2]
  by_cases first : First h own p
  · have valid := follows.valid first
    have compares (on : (memarea h p).valid = true) :
        (∀ addr, selects (memarea h p) addr = true ↔ addr &&& ((h.mcs m).baMask <<< 22) =
          (sel ((h.mcs m).csc (chipsel h p)) &&& (h.mcs m).baMask) <<< 22) ↔
        ((h.mcs m).csc (chipsel h p) >>> 24) &&& ((h.mcs m).baMask >>> 8) &&& 0x3 = 0 := by
      obtain ⟨mask, compare⟩ := follows.decodes first on
      rw [← reserved_iff, ← same_addresses (by rw [BitVec.and_assoc, BitVec.and_self])]
      simp only [selects, on, mask, compare, Bool.and_true, decide_eq_true_iff]
    constructor
    · intro agrees on
      have on := valid.trans on
      exact ⟨first, (compares on).mp (agrees.decodes on), agrees.delays on⟩
    · intro fits
      refine ⟨valid, fun on => ?_, fun on => (fits (valid.symm.trans on)).2.2⟩
      exact (compares on).mpr (fits (valid.symm.trans on)).2.1
  · have off := follows.shared first
    constructor
    · intro agrees on
      exact absurd (off.symm.trans (agrees.valid.trans on)) nofun
    · intro fits
      have disabled : enabled ((h.mcs m).csc (chipsel h p)) = false := by
        by_contra on
        exact first (fits (Bool.eq_true_of_not_eq_false on)).1
      exact ⟨off.trans disabled.symm, fun on => absurd (off.symm.trans on) nofun, fun on => absurd (off.symm.trans on) nofun⟩

/-! ### What a reset leaves -/

/-- Links lead to registered nodes. -/
structure Closed (n : Nat) (h : Heap) : Prop where
  next : ∀ p q, h.next p = some q → q < n
  waiting : ∀ q, h.mcAreas = some q → q < n
  owned : ∀ k q, (h.mcs k).mcAreas = some q → q < n

theorem Closed.chain {n : Nat} {a : Option Nat} (closed : Closed n h) (chain : Chain h.next a own) (start : ∀ q, a = some q → q < n) :
    ∀ p ∈ own, p < n := by
  induction own generalizing a with
  | nil => exact fun p inside => absurd inside List.not_mem_nil
  | cons p own ih =>
    obtain ⟨rfl, rest⟩ := chain
    intro q inside
    rcases List.mem_cons.mp inside with rfl | inside
    · exact start q rfl
    · exact ih rest (closed.next p) q inside

/-- The loop that grabs moves nodes between the lists. -/
structure Regrouped (n : Nat) (h g : Heap) : Prop where
  areas : g.areas = h.areas
  mems : g.mems = h.mems
  regs : ∀ k, ∃ a, g.mcs k = { h.mcs k with mcAreas := a }
  closed : Closed n g

theorem unlink_closed {n cur : Nat} {prev : Option Nat} (closed : Closed n h) : Closed n (unlink prev cur h) := by
  unfold unlink
  cases prev with
  | none => exact ⟨closed.next, closed.next cur, closed.owned⟩
  | some p =>
    refine ⟨fun r q is => ?_, closed.waiting, closed.owned⟩
    by_cases same : r = p
    · subst same
      exact closed.next cur q ((Function.update_self r _ h.next).symm.trans is)
    · exact closed.next r q ((Function.update_of_ne same _ h.next).symm.trans is)

theorem push_closed {n cur : Nat} (closed : Closed n h) (known : cur < n) : Closed n (push m cur h) := by
  refine ⟨fun r q is => ?_, closed.waiting, fun k q is => ?_⟩
  · by_cases same : r = cur
    · subst same
      exact closed.owned m q ((Function.update_self r _ h.next).symm.trans is)
    · exact closed.next r q ((Function.update_of_ne same _ h.next).symm.trans is)
  · by_cases same : k = m
    · subst same
      have first : some cur = some q := (congrArg Mc.mcAreas (Function.update_self k _ h.mcs)).symm.trans is
      exact Option.some.inj first ▸ known
    · exact closed.owned k q ((congrArg Mc.mcAreas (Function.update_of_ne same _ h.mcs)).symm.trans is)

theorem moved_regs (m : Nat) (prev : Option Nat) (cur : Nat) (h : Heap) (k : Nat) :
    ∃ a, (push m cur (unlink prev cur h)).mcs k = { h.mcs k with mcAreas := a } := by
  have regs : (unlink prev cur h).mcs = h.mcs := by cases prev <;> rfl
  by_cases same : k = m
  · subst same
    exact ⟨some cur, (Function.update_self k _ _).trans (by rw [regs])⟩
  · exact ⟨(h.mcs k).mcAreas, (Function.update_of_ne same _ _).trans (congrFun regs k)⟩

theorem grab_regrouped {n : Nat} {a prev : Option Nat} {g : Heap} (closed : Closed n h) (start : ∀ q, a = some q → q < n)
    (ran : grab m fuel a prev h = some g) : Regrouped n h g := by
  have done : Regrouped n h h := ⟨rfl, rfl, fun k => ⟨_, rfl⟩, closed⟩
  induction fuel generalizing a prev h with
  | zero =>
    cases a with
    | none => exact Option.some.inj ran ▸ done
    | some cur => cases ran
  | succ fuel ih =>
    cases a with
    | none => exact Option.some.inj ran ▸ done
    | some cur =>
      rw [grab] at ran
      split at ran
      · have closed₁ := @push_closed m (unlink prev cur h) n cur (unlink_closed closed) (start cur rfl)
        have rest := ih closed₁ ((unlink_closed closed).next cur) ran ⟨rfl, rfl, fun k => ⟨_, rfl⟩, closed₁⟩
        have mems : (push m cur (unlink prev cur h)).mems = h.mems := by cases prev <;> rfl
        refine ⟨rest.areas.trans (moved_frame m prev cur h).areas, rest.mems.trans mems, fun k => ?_, rest.closed⟩
        obtain ⟨a, is⟩ := rest.regs k
        obtain ⟨b, was⟩ := moved_regs m prev cur h k
        exact ⟨a, by rw [is, was]⟩
      · exact ih closed (closed.next cur) ran done

/-- The walk that invalidates has come to the end of the list. -/
theorem invalidate_spec {a : Option Nat} (ran : invalidate fuel a h = some h') :
    ∃ own, Chain h.next a own ∧ own.length ≤ fuel ∧
      ∀ k, h'.mems k = if ∃ p ∈ own, (h.areas p).mem = k then { h.mems k with valid := false } else h.mems k := by
  have ended (fuel : Nat) (h : Heap) : ∃ own, Chain h.next none own ∧ own.length ≤ fuel ∧
      ∀ k, h.mems k = if ∃ p ∈ own, (h.areas p).mem = k then { h.mems k with valid := false } else h.mems k :=
    ⟨[], rfl, Nat.zero_le fuel, fun k => (if_neg (by simp)).symm⟩
  induction fuel generalizing a h with
  | zero =>
    cases a with
    | none => exact Option.some.inj ran ▸ ended _ h
    | some cur => cases ran
  | succ fuel ih =>
    cases a with
    | none => exact Option.some.inj ran ▸ ended _ h
    | some cur =>
      obtain ⟨own, chain, enough, mems⟩ :=
        ih (show invalidate fuel (h.next cur) (setMemValid (h.areas cur).mem false h) = some h' from ran)
      refine ⟨cur :: own, ⟨rfl, chain⟩, Nat.succ_le_succ enough, fun k => ?_⟩
      have step : (setMemValid (h.areas cur).mem false h).mems k =
          if (h.areas cur).mem = k then { h.mems k with valid := false } else h.mems k := by
        by_cases same : (h.areas cur).mem = k
        · subst same
          rw [if_pos rfl]
          exact Function.update_self _ _ _
        · rw [if_neg same]
          exact Function.update_of_ne (Ne.symm same) _ _
      rw [mems k, step]
      by_cases here : (h.areas cur).mem = k
      · have listed : ∃ p ∈ cur :: own, (h.areas p).mem = k := ⟨cur, List.mem_cons_self, here⟩
        rw [if_pos here, if_pos listed]
        split <;> rfl
      · have same : (∃ p ∈ cur :: own, (h.areas p).mem = k) ↔ ∃ p ∈ own, (h.areas p).mem = k := by simp [here]
        rw [if_neg here]
        simp only [same]
        rfl

theorem mcReset_parts (ran : mcReset fuel m h = some h') :
    ∃ g i, grab m fuel (clearMc m h).mcAreas none (clearMc m h) = some g ∧ invalidate fuel (g.mcs m).mcAreas g = some i ∧
      setChipsel fuel m i 0 = some h' := by
  obtain ⟨g, grabs, rest⟩ := Option.bind_eq_some_iff.mp ran
  obtain ⟨i, invalid, last⟩ := Option.bind_eq_some_iff.mp rest
  exact ⟨g, i, grabs, invalid, last⟩

theorem clearMc_closed {n : Nat} (closed : Closed n h) : Closed n (clearMc m h) := by
  refine ⟨closed.next, closed.waiting, fun k q is => ?_⟩
  by_cases same : k = m
  · subst same
    exact closed.owned k q ((clearMc_mcAreas k h).symm.trans is)
  · exact closed.owned k q (((clearMc_frame m h).others k same).symm.trans is)

theorem OnlyMems.closed {n : Nat} (only : OnlyMems h h') (closed : Closed n h) : Closed n h' := by
  unfold OnlyMems at only
  rw [only]
  exact ⟨closed.next, closed.waiting, closed.owned⟩

/-- A reset keeps the registration, and the links inside it. -/
theorem mcReset_closed {n : Nat} (closed : Closed n h) (ran : mcReset fuel m h = some h') : Closed n h' ∧ h'.areas = h.areas := by
  obtain ⟨g, i, grabs, invalid, last⟩ := mcReset_parts ran
  have regrouped := grab_regrouped (clearMc_closed closed) (clearMc_closed closed).waiting grabs
  have only := (invalidate_same invalid).trans (setCscTms_same last)
  exact ⟨only.closed regrouped.closed, only.areas.trans regrouped.areas⟩

/-- The first chip select is enabled by a reset and the others are not. -/
theorem resetRegs_disabled (mc : Mc) {cs : Nat} (other : cs ≠ 0) : enabled ((resetRegs mc).csc cs) = false := by
  simp [resetRegs, Function.update_of_ne other, enabled]

theorem mcReset_follows {n : Nat} (closed : Closed n h)
    (distinct : ∀ p < n, ∀ q < n, (h.areas p).mem = (h.areas q).mem → p = q) (ran : mcReset fuel m h = some h') :
    ∃ own, Owns h' m fuel own ∧ (∃ a, h'.mcs m = { resetRegs (h.mcs m) with mcAreas := a }) ∧
      ∀ p ∈ own, chipsel h' p < nCe → Follows (memarea h) m own h' p := by
  obtain ⟨g, i, grabs, invalid, last⟩ := mcReset_parts ran
  have regrouped := grab_regrouped (clearMc_closed closed) (clearMc_closed closed).waiting grabs
  obtain ⟨own, chain, enough, mems⟩ := invalidate_spec invalid
  have inside := regrouped.closed.chain chain (regrouped.closed.owned m)
  have owns : Owns i m fuel own := by
    refine Owns.onlyMems ⟨chain, enough, fun p hp q hq same => ?_⟩ (invalidate_same invalid)
    rw [regrouped.areas] at same
    exact distinct p (inside p hp) q (inside q hq) same
  have areas : i.areas = h.areas := (invalidate_same invalid).areas.trans regrouped.areas
  obtain ⟨a, regs⟩ := regrouped.regs m
  have regs : i.mcs m = { resetRegs (h.mcs m) with mcAreas := a } := by
    rw [(invalidate_same invalid).mcs, regs, show (clearMc m h).mcs m = resetRegs (h.mcs m) from Function.update_self m _ _]
  obtain ⟨k, ran', only, set, kept⟩ := setChipsel_areas owns (show 0 < 2 ^ 32 by decide)
  obtain rfl := Option.some.inj (ran'.symm.trans last)
  have off (p : Nat) (owned : p ∈ own) : memarea i p = { memarea h p with valid := false } := by
    unfold memarea
    rw [areas, mems, regrouped.mems, regrouped.areas, if_pos ⟨p, owned, rfl⟩]
    rfl
  have regs' : k.mcs m = { resetRegs (h.mcs m) with mcAreas := a } := (congrFun only.mcs m).trans regs
  have select (p : Nat) : chipsel k p = chipsel i p := congrArg (fun areas => (areas p).cs.toNat) only.areas
  have first (p : Nat) : First k own p ↔ First i own p := by
    unfold First
    simp only [select]
  refine ⟨own, owns.onlyMems only, ⟨a, regs'⟩, fun p owned _ => ?_⟩
  by_cases now : First i own p ∧ chipsel i p = 0
  · have after := set p owned now.1 now.2
    rw [off p owned, regs] at after
    refine ⟨?_, fun _ => ?_, fun _ _ => ?_, fun other => absurd ((first p).mpr now.1) other⟩
    · simp only [after, programmed, and_self]
    · simp only [after, programmed, select, now.2, regs']
    · simp only [after, programmed, select, now.2, regs', and_self]
  · have after : memarea k p = { memarea h p with valid := false } := (kept p owned now).trans (off p owned)
    refine ⟨?_, fun isFirst => ?_, fun _ on => ?_, fun _ => ?_⟩
    · simp only [after, and_self]
    · have other : chipsel k p ≠ 0 := fun zero => now ⟨(first p).mp isFirst, (select p).symm.trans zero⟩
      simp only [after, regs']
      exact (resetRegs_disabled (h.mcs m) other).symm
    · rw [after] at on
      cases on
    · rw [after]

end

/-! ### Every configuration -/

theorem configured_closed (sections : Nat → Section) (left : Nat → Mc) (mems : Nat → Memarea) (areas : List Area) :
    Closed areas.length (configured sections left mems areas) := by
  have run (areas : List Area) (h : Heap) (closed : Closed h.size h) :
      Closed (h.size + areas.length) (mcRegMemAreas areas h) := by
    induction areas generalizing h with
    | nil => exact closed
    | cons area areas ih =>
      have one : Closed (h.size + 1) (mcRegMemArea area h) := by
        refine ⟨fun p q is => ?_, fun q is => ?_, fun k q is => Nat.lt_succ_of_lt (closed.owned k q is)⟩
        · by_cases same : p = h.size
          · subst same
            exact Nat.lt_succ_of_lt (closed.waiting q ((Function.update_self h.size _ h.next).symm.trans is))
          · exact Nat.lt_succ_of_lt (closed.next p q ((Function.update_of_ne same _ h.next).symm.trans is))
        · exact Option.some.inj is ▸ Nat.lt_succ_self h.size
      have rest := ih (mcRegMemArea area h) one
      rw [List.length_cons, Nat.add_comm areas.length, ← Nat.add_assoc]
      exact rest
  have done := run areas ⟨0, fun _ => ⟨0, 0, 0⟩, fun _ => none, none, fun m => mcSec (sections m) (left m), mems⟩
    ⟨fun _ _ is => (nomatch is), fun _ is => (nomatch is), fun _ _ is => (nomatch is)⟩
  rw [Nat.zero_add] at done
  exact done

theorem Resets.closed {start h : Heap} {n : Nat} {ms : List Nat} (closed : Closed n start) (run : Resets start ms h) :
    Closed n h ∧ h.areas = start.areas := by
  induction run with
  | nil => exact ⟨closed, rfl⟩
  | snoc before ran ih =>
    obtain ⟨kept, areas⟩ := mcReset_closed ih.1 ran
    exact ⟨kept, areas.trans ih.2⟩

theorem foldl_writeReg_mcAreas (mc : Mc) (a : Option Nat) (writes : List (Nat × Word)) :
    writes.foldl writeReg { mc with mcAreas := a } = { writes.foldl writeReg mc with mcAreas := a } := by
  induction writes generalizing mc with
  | nil => rfl
  | cons w rest ih =>
    have one : writeReg { mc with mcAreas := a } w = { writeReg mc w with mcAreas := a } := by
      unfold writeReg
      repeat' split
      all_goals rfl
    rw [List.foldl_cons, one]
    exact ih (writeReg mc w)

/-- After a reset and any writes every area agrees with the registers, exactly when every enabled one is the first of its chip
select, has no reserved bits under the mask, and was registered with the delays that its type asks for. -/
theorem areas_agree_iff (sections : Nat → Section) (left : Nat → Mc) (mems : Nat → Memarea) (areas : List Area)
    (distinct : (areas.map Area.mem).Nodup) {done : List Nat} {m fuel : Nat} {h h' : Heap}
    (before : Resets (configured sections left mems areas) done h) (ran : mcReset fuel m h = some h') (writes : List (Nat × Word)) :
    ∃ own h'', Chain h'.next (h'.mcs m).mcAreas own ∧ writeWords fuel m writes h' = some h'' ∧
      (Agree m own h'' ↔ Fits (registers (h.mcs m) writes) h own) := by
  obtain ⟨closed, known⟩ := before.closed (configured_closed sections left mems areas)
  have apart : ∀ p < areas.length, ∀ q < areas.length, (h.areas p).mem = (h.areas q).mem → p = q := by
    intro p hp q hq same
    rw [known, configured_area sections left mems areas hp, configured_area sections left mems areas hq] at same
    have inP : p < (areas.map Area.mem).length := by rwa [List.length_map]
    have inQ : q < (areas.map Area.mem).length := by rwa [List.length_map]
    have equal : (areas.map Area.mem)[p] = (areas.map Area.mem)[q] := by
      rw [List.getElem_map, List.getElem_map]
      exact same
    exact distinct.getElem_inj_iff.mp equal
  obtain ⟨own, owns, ⟨a, regs⟩, follows⟩ := mcReset_follows closed apart ran
  obtain ⟨h'', wrote, areas', regs', follows'⟩ := writeWords_follows owns follows writes
  refine ⟨own, h'', owns.chain, wrote, ?_⟩
  have same : h''.areas = h.areas := areas'.trans (mcReset_closed closed ran).2
  have regs'' : h''.mcs m = { registers (h.mcs m) writes with mcAreas := a } := by
    rw [regs', regs]
    exact foldl_writeReg_mcAreas _ a writes
  have select (p : Nat) : chipsel h'' p = chipsel h p := congrArg (fun areas => (areas p).cs.toNat) same
  have first (p : Nat) : First h'' own p ↔ First h own p := by
    unfold First
    simp only [select]
  refine forall_congr' fun p => forall_congr' fun owned => ?_
  rw [select p]
  refine forall_congr' fun small => ?_
  have agrees := (follows' p owned (by rwa [select p])).agrees_iff
  rw [select p, first p, regs''] at agrees
  rw [regs'', agrees]
  exact imp_congr_right fun _ => ⟨fun ⟨first, reserved, delays⟩ => ⟨first, reserved, delays⟩,
    fun ⟨first, reserved, delays⟩ => ⟨first, reserved, delays⟩⟩

/-- Two areas of one controller and one chip select, with an area of another controller registered between them. -/
def shared : Heap :=
  configured (fun m => ⟨0, m⟩) (fun _ => ⟨0, 0, 0, fun _ => 0, fun _ => 0, 0, none⟩) (fun _ => ⟨0, 0, true, 2, 2⟩)
    [⟨0, 1, 0⟩, ⟨1, 1, 1⟩, ⟨2, 1, 0⟩]

theorem areas_agree_shared :
    ∃ h', mcReset 3 0 shared = some h' ∧ ∃ own h'', Chain h'.next (h'.mcs 0).mcAreas own ∧
      writeWords 3 0 [(mcCsc 1, 0x3)] h' = some h'' ∧ (Agree 0 own h'' ↔ Fits (registers (shared.mcs 0) [(mcCsc 1, 0x3)]) shared own) :=
  ⟨_, rfl, areas_agree_iff _ _ _ _ (by decide) .nil rfl [(mcCsc 1, 0x3)]⟩

/-- A write enables the chip select with a type that asks for the delays the areas have. The second area stays invalid. -/
theorem second_not_valid :
    ∃ h' own h'', mcReset 3 0 shared = some h' ∧ Chain h'.next (h'.mcs 0).mcAreas own ∧ writeWords 3 0 [(mcCsc 1, 0x3)] h' = some h'' ∧
      ¬Agree 0 own h'' := by
  refine ⟨_, [0, 2], _, rfl, ⟨rfl, rfl, rfl⟩, rfl, fun agree => ?_⟩
  exact absurd (agree 2 (by decide) (by decide)).valid (by decide)

end Or1ksim.MemoryController
