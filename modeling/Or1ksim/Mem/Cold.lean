import Or1ksim.Mem.Transparent

/-!
# Cold caches

The first access through a cache in the state in which the simulator starts. `ic_end_sec` sets the
tags of the instruction cache to a value that no address has; the data cache starts with tags of zero,
which are those of the lowest addresses.
-/

namespace Or1ksim.Mem

open Cpu (Word Width Config Machine Dc DcConfig IcConfig Ic Operands runP)

variable {ε : Type}

/-- The static array `dc`. -/
def dcStart : Dc := fun _ _ => ⟨fun _ => 0, 0, 0⟩

/-- The arrays that `ic_end_sec` sets up. -/
def icEndSec : Ic := ⟨fun _ => 0, fun _ => 0, fun _ => -1⟩

/-! ### The instruction cache -/

namespace IcGeometry

variable (i : IcConfig)

theorem blocksize_cases : i.blocksize = 16 ∨ i.blocksize = 32 := by
  have := i.blocksizeLog2.isLt
  unfold IcConfig.blocksize
  rcases (by omega : i.blocksizeLog2.val = 0 ∨ i.blocksizeLog2.val = 1) with size | size <;> rw [size]
  · exact .inl rfl
  · exact .inr rfl

/-- The tag of an address is never that of an empty way. -/
theorem tagaddr_ne (a : Word) : i.tagaddr a ≠ -1 := by
  intro empty
  have span : ∃ k, 0 < k ∧ k < 32 ∧ i.nsets * i.blocksize = 2 ^ k := by
    have := i.nsetsLog2.isLt
    have := i.blocksizeLog2.isLt
    refine ⟨i.nsetsLog2.val + (4 + i.blocksizeLog2.val), by omega, by omega, ?_⟩
    unfold IcConfig.nsets IcConfig.blocksize
    rw [pow_add, pow_add]
    rfl
  obtain ⟨k, positive, small, size⟩ := span
  have bit := congrArg (fun w => BitVec.getLsbD w 0) empty
  have mask : BitVec.ofNat 32 (i.nsets * i.blocksize) - 1 = Aligned.low 32 k := by
    apply BitVec.eq_of_toNat_eq
    have range := Nat.pow_lt_pow_right (a := 2) (by decide) small
    have := Nat.two_pow_pos k
    rw [size, low_toNat small, BitVec.toNat_sub, BitVec.toNat_ofNat, show (1 : Word).toNat = 1 from rfl]
    omega
  unfold IcConfig.tagaddr at bit
  rw [mask] at bit
  simp [positive] at bit

/-- The address of a word of a refill, `n` words behind the first. -/
def refillAddr (a : Word) (n : Nat) : Word :=
  (a &&& ~~~(BitVec.ofNat 32 i.blocksize - 1)) ||| BitVec.ofNat 32 (i.offset (i.offset a.toNat + 4 * n))

theorem refillAddr_zero (a : Word) : refillAddr i a 0 = a := by
  have mask : ∃ k, k < 32 ∧ i.blocksize = 2 ^ k ∧ BitVec.ofNat 32 i.blocksize - 1 = Aligned.low 32 k := by
    rcases blocksize_cases i with size | size <;> rw [size]
    · exact ⟨4, by decide, rfl, rfl⟩
    · exact ⟨5, by decide, rfl, rfl⟩
  obtain ⟨k, small, size, low⟩ := mask
  have offset : BitVec.ofNat 32 (i.offset (i.offset a.toNat + 4 * 0)) = a &&& Aligned.low 32 k := by
    apply BitVec.eq_of_toNat_eq
    have := a.isLt
    rw [Aligned.and_low a (by omega), BitVec.toNat_ofNat]
    unfold IcConfig.offset
    rw [Nat.mul_zero, Nat.add_zero, Nat.mod_mod, size, Nat.mod_eq_of_lt]
    exact Nat.lt_of_le_of_lt (Nat.mod_le _ _) a.isLt
  unfold refillAddr
  rw [offset, low]
  apply BitVec.eq_of_getLsbD_eq
  intro j inside
  simp only [BitVec.getLsbD_or, BitVec.getLsbD_and, BitVec.getLsbD_not, Aligned.getLsbD_low]
  grind

end IcGeometry

theorem read32_write32 (ic : Ic) (p : Nat) (value : Word) : (ic.write32 p value).read32 p = value := by
  have byte : ∀ k < 4, (ic.write32 p value).mem (p + k) = value.extractLsb' (8 * k) 8 := by
    intro k small
    refine (if_pos (by omega)).trans ?_
    rw [Nat.add_sub_cancel_left]
  have first := byte 0 (by decide)
  rw [Nat.add_zero] at first
  unfold Ic.read32
  rw [byte 3 (by decide), byte 2 (by decide), byte 1 (by decide), first]
  apply BitVec.eq_of_getLsbD_eq
  intro j inside
  simp only [BitVec.getLsbD_append, BitVec.getLsbD_extractLsb']
  grind

theorem read32_write32_other (ic : Ic) {p q : Nat} (apart : p + 4 ≤ q ∨ q + 4 ≤ p) (value : Word) :
    (ic.write32 p value).read32 q = ic.read32 q := by
  have byte : ∀ k < 4, (ic.write32 p value).mem (q + k) = ic.mem (q + k) := by
    intro k small
    exact if_neg (by omega)
  unfold Ic.read32
  rw [byte 3 (by decide), byte 2 (by decide), byte 1 (by decide), ← Nat.add_zero q, byte 0 (by decide)]

section
variable {c : Config (Devices ε)} {e : Endian} {o : ε}

/-- The words that a refill of the instruction cache reads. -/
def IcLineMapped (c : Config (Devices ε)) (d : Devices ε) (a : Word) : Prop :=
  ∀ n < c.ic.blocksize / 4, (owner c d (IcGeometry.refillAddr c.ic a n)).isSome = true

/-- The machine after a refill has written the word that is `n` words behind the first. -/
def icWord (c : Config (Devices ε)) (a : Word) (way n : Nat) (value : Word) (s : Machine (Devices ε)) : Machine (Devices ε) :=
  { s with ic := s.ic.write32 (way * c.ic.blocksize + c.ic.offset (c.ic.offset a.toNat + 4 * n)) value }

theorem icRefill_succ {a : Word} (way more : Nat) {n : Nat} {s s₁ : Machine (Devices ε)} {value : Word} {mapped : Bool}
    (read : Cpu.evalsimMem c .word (IcGeometry.refillAddr c.ic a n) 0 s = .ok ((value, mapped), s₁)) :
    Cpu.icRefill c a way (more + 1) (c.ic.offset a.toNat + 4 * n) s =
      if mapped then Cpu.icRefill c a way more (c.ic.offset a.toNat + 4 * (n + 1)) (icWord c a way n value s₁)
      else .ok (false, { icWord c a way n value s₁ with ic := (icWord c a way n value s₁).ic.clear way }) := by
  refine (Programs.bind_of_ok read).trans ?_
  cases mapped <;> rfl

/-- A refill reads its words, stops at one without an area, and writes nothing else. -/
theorem icRefill_spec (space : Space c e o) (a : Word) (way more n : Nat) (s : Machine (Devices ε)) (rest : s.dev.rest = o)
    (plain : ∀ j < more, Plain c e s.dev (IcGeometry.refillAddr c.ic a (n + j))) :
    ∃ done s', Cpu.icRefill c a way more (c.ic.offset a.toNat + 4 * n) s = .ok (done, s') ∧ s'.dev = s.dev ∧
      (done = true ↔ ∀ j < more, (owner c s.dev (IcGeometry.refillAddr c.ic a (n + j))).isSome = true) ∧
      (done = true → ∀ q, (∀ j < more,
        let p := way * c.ic.blocksize + c.ic.offset (c.ic.offset a.toNat + 4 * (n + j))
        p + 4 ≤ q ∨ q + 4 ≤ p) → s'.ic.read32 q = s.ic.read32 q) := by
  induction more generalizing n s with
  | zero => exact ⟨true, s, rfl, rfl, by simp, fun _ _ _ => rfl⟩
  | succ more ih =>
    obtain ⟨s₁, read, calm⟩ := evalsimMem_word space rest (plain 0 (by omega)) 0
    rw [Nat.add_zero] at read
    rw [icRefill_succ way more read]
    cases mapped : (owner c s.dev (IcGeometry.refillAddr c.ic a n)).isSome with
    | false =>
      refine ⟨false, _, if_neg (by decide), calm.dev, iff_of_false (by decide) fun all => ?_, nofun⟩
      have here := all 0 (by omega)
      rw [Nat.add_zero, mapped] at here
      cases here
    | true =>
      rw [if_pos rfl]
      have dev : (icWord c a way n (word c s.dev (IcGeometry.refillAddr c.ic a n)) s₁).dev = s.dev := calm.dev
      obtain ⟨done, s', ran, dev', all, others⟩ := ih (n + 1) _ (by rw [dev, rest]) fun j inside => by
        rw [dev, show n + 1 + j = n + (j + 1) by omega]
        exact plain (j + 1) (by omega)
      rw [dev] at all
      refine ⟨done, s', ran, dev'.trans dev, ?_, fun finished q apart => ?_⟩
      · rw [all]
        constructor
        · rintro later (_ | j) inside
          · exact mapped
          · rw [show n + (j + 1) = n + 1 + j by omega]
            exact later j (by omega)
        · intro each j inside
          rw [show n + 1 + j = n + (j + 1) by omega]
          exact each (j + 1) (by omega)
      · rw [others finished q fun j inside => ?_]
        · have first := apart 0 (by omega)
          rw [Nat.add_zero] at first
          rw [← calm.ic]
          exact read32_write32_other _ first _
        · have later := apart (j + 1) (by omega)
          rw [show n + (j + 1) = n + 1 + j by omega] at later
          exact later

theorem blocksize_words (i : IcConfig) : ∃ more, i.blocksize / 4 = more + 1 ∧ 4 * (more + 1) = i.blocksize := by
  rcases IcGeometry.blocksize_cases i with size | size <;> rw [size]
  · exact ⟨3, rfl, rfl⟩
  · exact ⟨7, rfl, rfl⟩

/-- The refill of a line leaves the word of the address in it. -/
theorem icRefill_line (space : Space c e o) (a : Word) (way : Nat) (s : Machine (Devices ε)) (rest : s.dev.rest = o)
    (plain : ∀ n < c.ic.blocksize / 4, Plain c e s.dev (IcGeometry.refillAddr c.ic a n)) :
    ∃ done s', Cpu.icRefill c a way (c.ic.blocksize / 4) (c.ic.offset a.toNat) s = .ok (done, s') ∧
      (done = true ↔ IcLineMapped c s.dev a) ∧
      (done = true → s'.ic.read32 (way * c.ic.blocksize + c.ic.offset a.toNat) = word c s.dev a) := by
  obtain ⟨more, words, size⟩ := blocksize_words c.ic
  have start : c.ic.offset (c.ic.offset a.toNat + 4 * 0) = c.ic.offset a.toNat := by
    unfold IcConfig.offset
    rw [Nat.mul_zero, Nat.add_zero, Nat.mod_mod]
  obtain ⟨s₁, read, calm⟩ := evalsimMem_word space rest (plain 0 (by omega)) 0
  have step := icRefill_succ way more read
  rw [Nat.mul_zero, Nat.add_zero (c.ic.offset a.toNat)] at step
  unfold IcLineMapped
  rw [words, step]
  cases mapped : (owner c s.dev (IcGeometry.refillAddr c.ic a 0)).isSome with
  | false =>
    refine ⟨false, _, if_neg (by decide), iff_of_false (by decide) fun line => ?_, nofun⟩
    have here := line 0 (by omega)
    rw [mapped] at here
    cases here
  | true =>
    rw [if_pos rfl]
    have dev : (icWord c a way 0 (word c s.dev (IcGeometry.refillAddr c.ic a 0)) s₁).dev = s.dev := calm.dev
    obtain ⟨done, s', ran, _, all, others⟩ := icRefill_spec space a way more 1 _ (by rw [dev, rest]) fun j inside => by
      rw [dev]
      exact plain (1 + j) (by omega)
    rw [dev] at all
    refine ⟨done, s', ran, ?_, fun finished => ?_⟩
    · rw [all]
      constructor
      · rintro later (_ | n) inside
        · exact mapped
        · rw [Nat.add_comm n 1]
          exact later n (by omega)
      · intro each j inside
        exact each (1 + j) (by omega)
    -- the other words of the line are written elsewhere
    · rw [others finished _ fun j inside => ?_]
      · have own := read32_write32 s₁.ic (way * c.ic.blocksize + c.ic.offset (c.ic.offset a.toNat + 4 * 0))
          (word c s.dev (IcGeometry.refillAddr c.ic a 0))
        rw [start, IcGeometry.refillAddr_zero] at own
        unfold icWord
        rw [start, IcGeometry.refillAddr_zero]
        exact own
      · unfold IcConfig.offset
        dsimp only
        rcases IcGeometry.blocksize_cases c.ic with block | block <;> rw [block] at size ⊢ <;> omega

/-- What `ic_simulate_fetch` makes of the refill after a miss. -/
theorem icSimulateFetch_refill {a : Word} (virtAddr : Word) {s s₁ : Machine (Devices ε)} {done : Bool} (active : Cpu.icActive s = true)
    (absent : c.ic.findWay s.ic a = none)
    (refill : Cpu.icRefill c a (c.ic.minway s.ic a) (c.ic.blocksize / 4) (c.ic.offset a.toNat)
      { s with ic := c.ic.claim a (c.ic.minway s.ic a) s.ic } = .ok (done, s₁)) :
    ∃ s', Cpu.icSimulateFetch c a virtAddr s =
      .ok (if done then s₁.ic.read32 (c.ic.minway s.ic a * c.ic.blocksize + c.ic.offset a.toNat) else 0, s') ∧
      s'.dev = s₁.dev ∧ s'.ic = s₁.ic := by
  rw [Cpu.icSimulateFetch, Programs.get_bind, active]
  simp only [Bool.not_true, Bool.false_eq_true, if_false, absent, Programs.set_bind]
  cases done with
  | false => exact ⟨s₁, (Programs.bind_of_ok refill).trans rfl, rfl, rfl⟩
  | true =>
    let s₂ : Machine (Devices ε) := { s₁ with memCycles := s₁.memCycles + c.ic.missdelay }
    unfold Cpu.countEvent
    cases c.pcuEnabled with
    | false => exact ⟨s₂, (Programs.bind_of_ok refill).trans rfl, rfl, rfl⟩
    | true =>
      have calm := Calm.pcuCountEvent Cpu.pcmrIcm s₂
      refine ⟨Cpu.pcuCountEvent Cpu.pcmrIcm s₂, (Programs.bind_of_ok refill).trans ?_, calm.dev, calm.ic⟩
      show Except.ok ((Cpu.pcuCountEvent Cpu.pcmrIcm s₂).ic.read32 _, _) = _
      rw [calm.ic]
      rfl

/-- A miss of the instruction cache: the word of the address, if all words of the line have an area,
and else zero. -/
theorem icSimulateFetch_miss (space : Space c e o) {s : Machine (Devices ε)} (rest : s.dev.rest = o) (a virtAddr : Word)
    (plain : ∀ n < c.ic.blocksize / 4, Plain c e s.dev (IcGeometry.refillAddr c.ic a n))
    (active : Cpu.icActive s = true) (absent : c.ic.findWay s.ic a = none) :
    ∃ answer s', Cpu.icSimulateFetch c a virtAddr s = .ok (answer, s') ∧
      (IcLineMapped c s.dev a → answer = word c s.dev a) ∧ (¬ IcLineMapped c s.dev a → answer = 0) := by
  obtain ⟨done, s₁, refill, whole, value⟩ := icRefill_line space a (c.ic.minway s.ic a)
    { s with ic := c.ic.claim a (c.ic.minway s.ic a) s.ic } rest plain
  obtain ⟨s', fetched, _⟩ := icSimulateFetch_refill virtAddr active absent refill
  refine ⟨_, s', fetched, fun line => ?_, fun partly => if_neg fun finished => partly (whole.mp finished)⟩
  have finished := whole.mpr line
  rw [if_pos finished]
  exact value finished

end

/-! ### Accesses -/

inductive Access where
  | data (w : Width) (addr virtAddr : Word)
  | insn (addr virtAddr : Word)

namespace Access

/-- The access, with the word it returns. -/
def run (c : Config (Devices ε)) : Access → Cpu.Sim (Devices ε) Word
  | .data w a v => do pure ((← runP c Cpu.noOperands (Cpu.dcSimulateRead c w a v)).setWidth 32)
  | .insn a v => Cpu.icSimulateFetch c a v

/-- What the memory holds. -/
def contents (c : Config (Devices ε)) (d : Devices ε) : Access → Word
  | .data w a _ => (peek c w d a).setWidth 32
  | .insn a _ => word c d a

def Active (s : Machine (Devices ε)) : Access → Prop
  | .data _ _ _ => Cpu.dcActive s.view = true
  | .insn _ _ => Cpu.icActive s = true

def Hits (c : Config (Devices ε)) (s : Machine (Devices ε)) : Access → Prop
  | .data _ a _ => c.dc.findWay s.dc a ≠ none
  | .insn a _ => c.ic.findWay s.ic a ≠ none

/-- All words of the line have an area. -/
def LineMapped (c : Config (Devices ε)) (d : Devices ε) : Access → Prop
  | .data _ a _ => Mem.LineMapped c d a
  | .insn a _ => IcLineMapped c d a

/-- The address is one of a memory, aligned for a data access, and the words of its line have
contents or no area. -/
def OnMemory (c : Config (Devices ε)) (e : Endian) (d : Devices ε) : Access → Prop
  | .data w a _ => (∃ i m, MemoryAt c e d a i m) ∧ IsAligned w a ∧ PlainLine c e d a
  | .insn a _ => (∃ i m, MemoryAt c e d a i m) ∧ ∀ n < c.ic.blocksize / 4, Plain c e d (IcGeometry.refillAddr c.ic a n)

/-- The address is not one whose tag in the data cache is zero. -/
def AboveTagZero (c : Config (Devices ε)) : Access → Prop
  | .data _ a _ => c.dc.nsets * c.dc.blocksize ≤ a.toNat
  | .insn _ _ => True

end Access

section
variable {c : Config (Devices ε)} {e : Endian} {o : ε}

theorem tagaddr_zero_iff (d : DcConfig) (a : Word) : d.tagaddr a = 0 ↔ a.toNat < d.nsets * d.blocksize := by
  rw [← BitVec.toNat_inj, Geometry.tagaddr_toNat, Nat.div_div_eq_div_mul, Nat.mul_comm d.blocksize]
  have positive : 0 < d.nsets * d.blocksize := by
    rcases Geometry.blocksize_cases d with size | size <;> rw [size] <;> have := Geometry.nsets_pos d <;> omega
  exact Nat.div_eq_zero_iff_lt positive

theorem findWay_dcStart (d : DcConfig) (a : Word) : d.findWay dcStart a = none ↔ d.nsets * d.blocksize ≤ a.toNat := by
  rw [findWay_none_iff, ← Nat.not_lt, ← tagaddr_zero_iff]
  constructor
  · intro absent tag
    exact absent ⟨0, Geometry.nways_pos d⟩ tag.symm
  · intro other way holds
    exact other holds.symm

/-- The first access through a cold cache returns, with what the memory holds and not by a hit,
exactly if it is a fetch or its tag is not zero, and all words of its line have an area (or the memory
holds zero). -/
theorem cold_access_iff (space : Space c e o) (s : Machine (Devices ε)) (rest : s.dev.rest = o) (dcCold : s.dc = dcStart)
    (icCold : s.ic = icEndSec) (access : Access) (memory : access.OnMemory c e s.dev) (active : access.Active s) :
    ∃ answer s', access.run c s = .ok (answer, s') ∧
      ((answer = access.contents c s.dev ∧ ¬ access.Hits c s) ↔
        access.AboveTagZero c ∧ (access.LineMapped c s.dev ∨ access.contents c s.dev = 0)) := by
  cases access with
  | data w a v =>
    obtain ⟨⟨i, m, here⟩, aligned, plain⟩ := memory
    by_cases above : c.dc.nsets * c.dc.blocksize ≤ a.toNat
    · have absent : c.dc.findWay s.dc a = none := by
        rw [dcCold]
        exact (findWay_dcStart c.dc a).mpr above
      obtain ⟨done, s₁, refill, all, after⟩ :=
        miss_filled Cpu.noOperands space (minwayRead_lt c.dc s.dc (c.dc.set a)) c.dc.loadMissdelay s rest plain
        (a := a)
      obtain ⟨_, _, _, _, loaded⟩ := after _ rfl
      have value : peek c w s.dev a = w.select a (word c s.dev (wordAddr a)) := by
        subst rest
        exact peek_eq_select space here aligned
      have ran := dcSimulateRead_miss (w := w) v active absent refill
      cases done with
      | true =>
        rw [if_pos rfl] at ran loaded
        dsimp only at ran
        rw [loaded rfl, ← value] at ran
        refine ⟨_, _, Programs.bind_of_ok ran, ?_⟩
        exact iff_of_true ⟨rfl, fun hits => hits absent⟩ ⟨above, .inl (all.mp rfl)⟩
      | false =>
        rw [if_neg (by decide)] at ran
        refine ⟨_, _, Programs.bind_of_ok ran, ?_⟩
        have partly : ¬ LineMapped c s.dev a := fun line => Bool.false_ne_true (all.mpr line)
        have zero : (0 : BitVec w.bits).setWidth 32 = (0 : Word) := BitVec.setWidth_zero ..
        constructor
        · rintro ⟨same, _⟩
          exact ⟨above, .inr (same.symm.trans zero)⟩
        · rintro ⟨_, line | same⟩
          · exact absurd line partly
          · exact ⟨zero.trans same.symm, fun hits => hits absent⟩
    · have present : c.dc.findWay s.dc a ≠ none := by
        rw [dcCold]
        exact fun absent => above ((findWay_dcStart c.dc a).mp absent)
      obtain ⟨way, found⟩ := Option.ne_none_iff_exists'.mp present
      refine ⟨_, _, Programs.bind_of_ok (dcSimulateRead_hit active found), ?_⟩
      exact iff_of_false (fun both => both.2 present) fun both => above both.1
  | insn a v =>
    obtain ⟨_, plain⟩ := memory
    have absent : c.ic.findWay s.ic a = none := by
      rw [icCold]
      refine List.find?_eq_none.mpr fun way _ => ?_
      rw [decide_eq_true_eq]
      exact (IcGeometry.tagaddr_ne c.ic a).symm
    obtain ⟨answer, s', ran, line, partly⟩ := icSimulateFetch_miss space rest a v plain active absent
    refine ⟨answer, s', ran, ?_⟩
    constructor
    · rintro ⟨same, _⟩
      refine ⟨trivial, ?_⟩
      by_cases whole : IcLineMapped c s.dev a
      · exact .inl whole
      · exact .inr (same.symm.trans (partly whole))
    · rintro ⟨_, whole | zero⟩
      · exact ⟨line whole, fun hits => hits absent⟩
      · refine ⟨?_, fun hits => hits absent⟩
        by_cases whole : IcLineMapped c s.dev a
        · exact line whole
        · exact (partly whole).trans zero.symm

end

/-- A word of memory that is not in the first line is read from a cold cache. -/
theorem cold_access_second_line :
    ∃ answer s', (Access.data .word 16 16).run (cachedConfig ⟨1, 1⟩ 6) (cachedMachine fun _ => 1) = .ok (answer, s') ∧
      answer = (Access.data .word 16 16).contents (cachedConfig ⟨1, 1⟩ 6) (cachedMachine fun _ => 1).dev := by
  have areas : (cachedConfig ⟨1, 1⟩ 6).areas = [memoryArea .little 0 ⟨1, 1⟩ 0 6] := rfl
  obtain ⟨i, m, here, _⟩ := ramAt_cachedConfig 6 (cachedMachine fun _ => 1).dev (a := 16) (by decide)
  obtain ⟨answer, s', ran, same⟩ :=
    cold_access_iff (Space.memory () areas (by decide) (by decide)) (cachedMachine fun _ => 1) rfl rfl rfl
    (.data .word 16 16) ⟨⟨i, m, here⟩, by decide, fun _ _ => plain_cachedConfig _ _ _ _⟩
    (show Cpu.dcActive (cachedMachine fun _ => 1).view = true by decide +kernel)
  have mapped : ∀ k < 4, (owner (cachedConfig ⟨1, 1⟩ 6) (cachedMachine fun _ => 1).dev
      (Geometry.lineAddr (cachedConfig ⟨1, 1⟩ 6).dc 16 k)).isSome = true := by decide +kernel
  exact ⟨answer, s', ran, (same.mpr ⟨Nat.le_refl 16, .inl mapped⟩).1⟩

/-- The word at zero hits before its line has been filled. -/
theorem cold_access_stale_zero :
    ¬ ∀ (c : Config (Devices Unit)) (e : Endian) (s : Machine (Devices Unit)) (access : Access), Space c e () → s.dc = dcStart →
      s.ic = icEndSec → access.OnMemory c e s.dev → access.Active s →
      ∃ answer s', access.run c s = .ok (answer, s') ∧ answer = access.contents c s.dev ∧ ¬ access.Hits c s := by
  intro claim
  have areas : (cachedConfig ⟨1, 1⟩ 6).areas = [memoryArea .little 0 ⟨1, 1⟩ 0 6] := rfl
  obtain ⟨i, m, here, _⟩ := ramAt_cachedConfig 6 (cachedMachine fun _ => 1).dev (a := 0) (by decide)
  obtain ⟨answer, s', ran, same, _⟩ := claim (cachedConfig ⟨1, 1⟩ 6) .little (cachedMachine fun _ => 1) (.data .word 0 0)
    (Space.memory () areas (by decide) (by decide)) rfl rfl ⟨⟨i, m, here⟩, by decide, fun _ _ => plain_cachedConfig _ _ _ _⟩
    (show Cpu.dcActive (cachedMachine fun _ => 1).view = true by decide +kernel)
  have cached : ((Access.data .word 0 0).run (cachedConfig ⟨1, 1⟩ 6) (cachedMachine fun _ => 1)).toOption.map Prod.fst = some 0 := by
    decide +kernel
  have memory : (Access.data .word 0 0).contents (cachedConfig ⟨1, 1⟩ 6) (cachedMachine fun _ => 1).dev = 0x01010101 := by
    decide +kernel
  rw [ran] at cached
  obtain rfl : answer = 0 := Option.some.inj cached
  rw [memory] at same
  exact absurd same (by decide)

end Or1ksim.Mem
