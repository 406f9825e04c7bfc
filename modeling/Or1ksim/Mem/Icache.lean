import Or1ksim.Mem.Cold

/-!
# The instruction cache

The ways of a set stand `nsets` apart in flat arrays. A refill starts at the word that is fetched and
wraps at the end of the line. As long as fetches are aligned to words, a line is filled with its words
and nothing else, and from the state that `ic_end_sec` leaves every fetch returns what the memory holds.
-/

namespace Or1ksim.Mem

open Cpu (Word Config Machine IcConfig Ic)
open Caching (Split Lines)

variable {ε : Type}

/-! ### Geometry -/

namespace IcGeometry

variable (i : IcConfig)

theorem nsets_pos : 0 < i.nsets := Nat.two_pow_pos _

theorem nways_pos : 0 < i.nways := Nat.two_pow_pos _

theorem set_lt (a : Word) : i.set a < i.nsets := Nat.mod_lt _ (nsets_pos i)

theorem blocksize_eq_pow : i.blocksize = 2 ^ (4 + i.blocksizeLog2.val) := by
  unfold IcConfig.blocksize
  rw [pow_add]
  rfl

/-- `set_mask` and `blocksize_log2` of `ic_end_sec`. -/
theorem set_eq_mask (a : Word) :
    i.set a = (a.toNat &&& ((i.nsets - 1) <<< (4 + i.blocksizeLog2.val))) >>> (4 + i.blocksizeLog2.val) := by
  unfold IcConfig.set
  rw [Nat.shiftRight_and_distrib, Nat.shiftLeft_shiftRight, Nat.shiftRight_eq_div_pow, ← blocksize_eq_pow]
  exact (Nat.and_two_pow_sub_one_eq_mod _ _).symm

/-- `way << blocksize_log2 | (addr & block_offset_mask)`. -/
def memIndex (way addr : Nat) : Nat := (way <<< (4 + i.blocksizeLog2.val)) ||| (addr &&& (i.blocksize - 1))

theorem memIndex_eq (way addr : Nat) : memIndex i way addr = way * i.blocksize + i.offset addr := by
  unfold memIndex IcConfig.offset
  rw [blocksize_eq_pow, Nat.and_two_pow_sub_one_eq_mod, ← Nat.shiftLeft_add_eq_or_of_lt (Nat.mod_lt _ (Nat.two_pow_pos _)),
    Nat.shiftLeft_eq]

/-- The loop `for (way = set; way < last_way; way += nsets)`. -/
def wayLoop (lastWay step : Nat) : Nat → Nat → List Nat
  | 0, _ => []
  | fuel + 1, way => if way < lastWay then way :: wayLoop lastWay step fuel (way + step) else []

theorem wayLoop_eq {set step n : Nat} (small : set < step) (k fuel : Nat) (enough : n ≤ k + fuel) :
    wayLoop (step * n) step fuel (set + step * k) = (List.range' k (n - k)).map fun j => set + step * j := by
  induction fuel generalizing k with
  | zero =>
    rw [Nat.sub_eq_zero_of_le (by omega)]
    rfl
  | succ fuel ih =>
    unfold wayLoop
    by_cases more : k < n
    · have inside : set + step * k < step * n := by
        calc set + step * k < step * (k + 1) := by rw [Nat.mul_add, Nat.mul_one]; omega
          _ ≤ step * n := Nat.mul_le_mul_left _ more
      rw [if_pos inside, show n - k = (n - (k + 1)) + 1 by omega, List.range'_succ, List.map_cons, Nat.add_assoc,
        ← Nat.mul_succ, ih (k + 1) (by omega)]
    · have outside : ¬ set + step * k < step * n := by
        have := Nat.mul_le_mul_left step (Nat.le_of_not_lt more)
        omega
      rw [if_neg outside, Nat.sub_eq_zero_of_le (by omega)]
      rfl

/-- The ways that the loops over a set visit, in their order. -/
theorem ways_eq_loop (a : Word) : i.ways a = wayLoop i.lastWay i.nsets i.nways (i.set a) := by
  have loop := wayLoop_eq (set_lt i a) 0 i.nways (n := i.nways) (by omega)
  rw [Nat.mul_zero, Nat.add_zero, Nat.sub_zero, ← List.range_eq_range'] at loop
  exact loop.symm

theorem mem_ways {a : Word} {k : Nat} : k ∈ i.ways a ↔ ∃ way < i.nways, k = i.set a + i.nsets * way := by
  unfold IcConfig.ways
  simp only [List.mem_map, List.mem_range]
  constructor
  · rintro ⟨way, inside, rfl⟩
    exact ⟨way, inside, rfl⟩
  · rintro ⟨way, inside, rfl⟩
    exact ⟨way, inside, rfl⟩

theorem place_lt {set way : Nat} (here : set < i.nsets) (inside : way < i.nways) : set + i.nsets * way < i.lastWay := by
  calc set + i.nsets * way < i.nsets * (way + 1) := by rw [Nat.mul_add, Nat.mul_one]; omega
    _ ≤ i.nsets * i.nways := Nat.mul_le_mul_left _ inside

/-- Each place of the arrays is that of one set and one way. -/
theorem place_inj {set set' way way' : Nat} (here : set < i.nsets) (here' : set' < i.nsets)
    (same : set + i.nsets * way = set' + i.nsets * way') : set = set' ∧ way = way' := by
  have sets := congrArg (· % i.nsets) same
  simp only [Nat.add_mul_mod_self_left, Nat.mod_eq_of_lt here, Nat.mod_eq_of_lt here'] at sets
  obtain rfl := sets
  exact ⟨rfl, Nat.eq_of_mul_eq_mul_left (nsets_pos i) (Nat.add_left_cancel same)⟩

/-- The block of an address. -/
def SameBlock (a b : Word) : Prop := a.toNat / i.blocksize = b.toNat / i.blocksize

instance (a b : Word) : Decidable (SameBlock i a b) := inferInstanceAs (Decidable (_ = _))

theorem tagaddr_toNat (a : Word) :
    (i.tagaddr a).toNat = a.toNat / (i.nsets * i.blocksize) * (i.nsets * i.blocksize) := by
  have := i.nsetsLog2.isLt
  have := i.blocksizeLog2.isLt
  have span : i.nsets * i.blocksize = 2 ^ (i.nsetsLog2.val + (4 + i.blocksizeLog2.val)) := by
    rw [blocksize_eq_pow, pow_add 2 i.nsetsLog2.val]
    rfl
  have mask : BitVec.ofNat 32 (i.nsets * i.blocksize) - 1 = Aligned.low 32 (i.nsetsLog2.val + (4 + i.blocksizeLog2.val)) := by
    rw [span]
    exact (Nat.cast_pred (R := Word) (Nat.two_pow_pos _)).symm
  unfold IcConfig.tagaddr
  rw [mask, Aligned.and_not_low, span]

theorem same_block {a b : Word} (set : i.set a = i.set b) (tag : i.tagaddr a = i.tagaddr b) : SameBlock i a b := by
  have tags := congrArg BitVec.toNat tag
  rw [tagaddr_toNat, tagaddr_toNat, Nat.mul_comm i.nsets, ← Nat.div_div_eq_div_mul, ← Nat.div_div_eq_div_mul] at tags
  have positive : 0 < i.blocksize * i.nsets := by
    rcases blocksize_cases i with size | size <;> rw [size] <;> have := nsets_pos i <;> omega
  have high := Nat.eq_of_mul_eq_mul_right positive tags
  unfold IcConfig.set at set
  unfold SameBlock
  rw [← Nat.div_add_mod (a.toNat / i.blocksize) i.nsets, ← Nat.div_add_mod (b.toNat / i.blocksize) i.nsets, set, high]

theorem set_eq_of_block {a b : Word} (block : SameBlock i a b) : i.set a = i.set b := by
  unfold IcConfig.set
  rw [block]

theorem tagaddr_eq_of_block {a b : Word} (block : SameBlock i a b) : i.tagaddr a = i.tagaddr b := by
  apply BitVec.eq_of_toNat_eq
  rw [tagaddr_toNat, tagaddr_toNat, Nat.mul_comm i.nsets, ← Nat.div_div_eq_div_mul, ← Nat.div_div_eq_div_mul, block]

theorem ways_eq_of_block {a b : Word} (block : SameBlock i a b) : i.ways a = i.ways b := by
  unfold IcConfig.ways
  rw [set_eq_of_block i block]

theorem refillAddr_of_block {a b : Word} (block : SameBlock i a b) {n : Nat}
    (here : i.offset (i.offset a.toNat + 4 * n) = i.offset b.toNat) : refillAddr i a n = b := by
  have mask : BitVec.ofNat 32 i.blocksize - 1 = Aligned.low 32 (4 + i.blocksizeLog2.val) := by
    rw [blocksize_eq_pow]
    exact (Nat.cast_pred (R := Word) (Nat.two_pow_pos _)).symm
  have masked : a &&& ~~~(BitVec.ofNat 32 i.blocksize - 1) = b &&& ~~~(BitVec.ofNat 32 i.blocksize - 1) := by
    apply BitVec.eq_of_toNat_eq
    rw [mask, Aligned.and_not_low, Aligned.and_not_low, ← blocksize_eq_pow, block]
  have start := refillAddr_zero i b
  unfold refillAddr at start ⊢
  rw [Nat.mul_zero, Nat.add_zero] at start
  rw [masked, here]
  have again : i.offset (i.offset b.toNat) = i.offset b.toNat := Nat.mod_mod _ _
  rw [again] at start
  exact start

/-- The refill that starts at one word of a block comes to every other. -/
theorem reaches {a b : Word} (alignedA : a.toNat % 4 = 0) (alignedB : b.toNat % 4 = 0) :
    ∃ n < i.blocksize / 4, i.offset (i.offset a.toNat + 4 * n) = i.offset b.toNat := by
  unfold IcConfig.offset
  refine ⟨(b.toNat % i.blocksize + i.blocksize - a.toNat % i.blocksize) % i.blocksize / 4, ?_, ?_⟩
  · rcases blocksize_cases i with size | size <;> rw [size] <;> omega
  · rcases blocksize_cases i with size | size <;> rw [size] <;> omega

end IcGeometry

/-! ### Lines -/

theorem IcGeometry.index_lt (i : IcConfig) (a : Word) : i.offset a.toNat / 4 < i.blocksize / 4 := by
  unfold IcConfig.offset
  rcases IcGeometry.blocksize_cases i with size | size <;> rw [size] <;> omega

theorem IcGeometry.offset_index (i : IcConfig) {a : Word} (aligned : a.toNat % 4 = 0) :
    4 * (i.offset a.toNat / 4) = i.offset a.toNat := by
  unfold IcConfig.offset
  rcases IcGeometry.blocksize_cases i with size | size <;> rw [size] <;> omega

/-- The parts of an address. -/
def icSplit (i : IcConfig) : Split Word (Fin i.nsets) Word (Fin (i.blocksize / 4)) :=
  ⟨fun a => ⟨i.set a, IcGeometry.set_lt i a⟩, i.tagaddr, fun a => ⟨i.offset a.toNat / 4, IcGeometry.index_lt i a⟩⟩

/-- The arrays as sets and ways. -/
def icLines (i : IcConfig) (ic : Ic) : Lines (Fin i.nsets) (Fin i.nways) Word (Fin (i.blocksize / 4)) Word where
  tag set way := ic.tags (set + i.nsets * way)
  line set way k := ic.read32 ((set + i.nsets * way) * i.blocksize + 4 * k)

theorem icFindWay_none_iff {i : IcConfig} {ic : Ic} {a : Word} :
    i.findWay ic a = none ↔ ∀ k ∈ i.ways a, ic.tags k ≠ i.tagaddr a := by
  unfold IcConfig.findWay
  simp only [List.find?_eq_none, decide_eq_true_eq]

theorem icFindWay_some {i : IcConfig} {ic : Ic} {a : Word} {way : Nat} (found : i.findWay ic a = some way) :
    way ∈ i.ways a ∧ ic.tags way = i.tagaddr a :=
  ⟨List.mem_of_find?_eq_some found, of_decide_eq_true (List.find?_some (p := fun way => ic.tags way = i.tagaddr a) found)⟩

theorem icMinway_mem (i : IcConfig) (ic : Ic) (a : Word) : i.minway ic a ∈ i.ways a := by
  have first : i.set a ∈ i.ways a := (IcGeometry.mem_ways i).mpr ⟨0, IcGeometry.nways_pos i, by rw [Nat.mul_zero, Nat.add_zero]⟩
  rcases foldl_mem (fun min way => if ic.lrus way < min.2 then (way, ic.lrus way) else min) Prod.fst
    (l := i.ways a) (fun min way _ => by split <;> simp) (i.set a, i.ustates - 1) with same | member
  · exact (congrArg (· ∈ i.ways a) same).mpr first
  · exact member

/-! ### Refills -/

section
variable {c : Config (Devices ε)} {d : Devices ε} {a : Word} {way n : Nat}

/-- The arrays after the first words of a refill. -/
def icWords (c : Config (Devices ε)) (d : Devices ε) (a : Word) (way : Nat) : Nat → Ic → Ic
  | 0, ic => ic
  | n + 1, ic => (icWords c d a way n ic).write32 (way * c.ic.blocksize + c.ic.offset (c.ic.offset a.toNat + 4 * n))
      (word c d (IcGeometry.refillAddr c.ic a n))

@[simp] theorem icWords_tags (ic : Ic) : (icWords c d a way n ic).tags = ic.tags := by
  induction n with
  | zero => rfl
  | succ n ih => exact ih

@[simp] theorem icWords_lrus (ic : Ic) : (icWords c d a way n ic).lrus = ic.lrus := by
  induction n with
  | zero => rfl
  | succ n ih => exact ih

theorem offset_word_le (i : IcConfig) {a : Nat} (aligned : a % 4 = 0) (n : Nat) :
    i.offset (i.offset a + 4 * n) + 4 ≤ i.blocksize := by
  unfold IcConfig.offset
  rcases IcGeometry.blocksize_cases i with size | size <;> rw [size] <;> omega

theorem icWords_outside (aligned : a.toNat % 4 = 0) (ic : Ic) {p : Nat}
    (outside : p < way * c.ic.blocksize ∨ way * c.ic.blocksize + c.ic.blocksize ≤ p) :
    (icWords c d a way n ic).mem p = ic.mem p := by
  induction n with
  | zero => rfl
  | succ n ih =>
    have inside := offset_word_le c.ic aligned n
    exact (if_neg (by omega)).trans ih

theorem read32_icWords_outside (aligned : a.toNat % 4 = 0) (ic : Ic) {other k : Nat} (apart : other ≠ way)
    (inside : k < c.ic.blocksize / 4) :
    (icWords c d a way n ic).read32 (other * c.ic.blocksize + 4 * k) = ic.read32 (other * c.ic.blocksize + 4 * k) := by
  have byte : ∀ j < 4, (icWords c d a way n ic).mem (other * c.ic.blocksize + 4 * k + j) =
      ic.mem (other * c.ic.blocksize + 4 * k + j) := by
    intro j small
    refine icWords_outside aligned ic ?_
    rcases Nat.lt_or_gt_of_ne apart with below | above
    · have := Nat.mul_le_mul_right c.ic.blocksize (show other + 1 ≤ way from below)
      rw [Nat.add_mul, Nat.one_mul] at this
      omega
    · have := Nat.mul_le_mul_right c.ic.blocksize (show way + 1 ≤ other from above)
      rw [Nat.add_mul, Nat.one_mul] at this
      omega
  unfold Ic.read32
  rw [byte 3 (by decide), byte 2 (by decide), byte 1 (by decide)]
  exact congrArg _ (byte 0 (by decide))

theorem read32_icWords (ic : Ic) {j : Nat} (written : j < n) (fits : n ≤ c.ic.blocksize / 4) :
    (icWords c d a way n ic).read32 (way * c.ic.blocksize + c.ic.offset (c.ic.offset a.toNat + 4 * j)) =
      word c d (IcGeometry.refillAddr c.ic a j) := by
  induction n with
  | zero => omega
  | succ n ih =>
    unfold icWords
    by_cases last : j = n
    · rw [last, read32_write32]
    · rw [read32_write32_other, ih (by omega) (by omega)]
      unfold IcConfig.offset
      rcases IcGeometry.blocksize_cases c.ic with size | size <;> rw [size] at fits ⊢ <;> omega

/-- What `ic_simulate_fetch` makes of the arrays. -/
def icFetched (c : Config (Devices ε)) (d : Devices ε) (a : Word) (ic : Ic) : Ic :=
  match c.ic.findWay ic a with
  | some way => c.ic.hit a way ic
  | none => icWords c d a (c.ic.minway ic a) (c.ic.blocksize / 4) (c.ic.claim a (c.ic.minway ic a) ic)

end

/-- The words of the line of a fetch have contents and an area. -/
structure LineFetchable (c : Config (Devices ε)) (e : Endian) (d : Devices ε) (a : Word) : Prop where
  plain : ∀ n < c.ic.blocksize / 4, Plain c e d (IcGeometry.refillAddr c.ic a n)
  mapped : IcLineMapped c d a

section
variable {c : Config (Devices ε)} {e : Endian} {o : ε} {d : Devices ε} {a : Word}

theorem LineFetchable.here (fetchable : LineFetchable c e d a) : Plain c e d a ∧ (owner c d a).isSome = true := by
  have some : 0 < c.ic.blocksize / 4 := by
    rcases IcGeometry.blocksize_cases c.ic with size | size <;> rw [size] <;> decide
  have plain := fetchable.plain 0 some
  have mapped := fetchable.mapped 0 some
  rw [IcGeometry.refillAddr_zero] at plain mapped
  exact ⟨plain, mapped⟩

theorem icRefill_words (space : Space c e o) (way : Nat) (ic : Ic) (more n : Nat) (s : Machine (Devices ε)) (rest : s.dev.rest = o)
    (dev : s.dev = d) (before : s.ic = icWords c d a way n ic)
    (plain : ∀ j < more, Plain c e d (IcGeometry.refillAddr c.ic a (n + j)))
    (mapped : ∀ j < more, (owner c d (IcGeometry.refillAddr c.ic a (n + j))).isSome = true) :
    ∃ s', Cpu.icRefill c a way more (c.ic.offset a.toNat + 4 * n) s = .ok (true, s') ∧ s'.dev = d ∧
      s'.ic = icWords c d a way (n + more) ic := by
  induction more generalizing n s with
  | zero => exact ⟨s, rfl, dev, before⟩
  | succ more ih =>
    subst dev
    have plainHere := plain 0 (by omega)
    have mappedHere := mapped 0 (by omega)
    rw [Nat.add_zero] at plainHere mappedHere
    obtain ⟨s₁, read, calm⟩ := evalsimMem_word space rest plainHere 0
    rw [icRefill_succ way more read, if_pos mappedHere]
    have later : ∀ j, n + 1 + j = n + (j + 1) := fun j => by omega
    have dev : (icWord c a way n (word c s.dev (IcGeometry.refillAddr c.ic a n)) s₁).dev = s.dev := calm.dev
    rw [← later more]
    refine ih (n + 1) _ (by rw [dev, rest]) dev ?_ (fun j inside => ?_) fun j inside => ?_
    · show s₁.ic.write32 _ _ = _
      rw [calm.ic, before]
      rfl
    · rw [later]
      exact plain (j + 1) (by omega)
    · rw [later]
      exact mapped (j + 1) (by omega)

theorem icSimulateFetch_uncached (space : Space c e o) {s : Machine (Devices ε)} (rest : s.dev.rest = o) (virtAddr : Word)
    (fetchable : LineFetchable c e s.dev a) (inactive : Cpu.icActive s = false) :
    ∃ s', Cpu.icSimulateFetch c a virtAddr s = .ok (word c s.dev a, s') ∧ s'.dev = s.dev ∧ s'.ic = s.ic := by
  obtain ⟨s', read, calm⟩ := evalsimMem_word space rest fetchable.here.1 virtAddr
  refine ⟨s', ?_, calm.dev, calm.ic⟩
  rw [Cpu.icSimulateFetch, Programs.get_bind, inactive]
  simp only [Bool.not_false, if_true]
  exact (Programs.bind_of_ok read).trans rfl

theorem icSimulateFetch_hit {s : Machine (Devices ε)} (virtAddr : Word) (active : Cpu.icActive s = true) {way : Nat}
    (found : c.ic.findWay s.ic a = some way) :
    ∃ s', Cpu.icSimulateFetch c a virtAddr s = .ok (s.ic.read32 (way * c.ic.blocksize + c.ic.offset a.toNat), s') ∧
      s'.dev = s.dev ∧ s'.ic = icFetched c s.dev a s.ic := by
  rw [Cpu.icSimulateFetch, Programs.get_bind, active]
  simp only [Bool.not_true, Bool.false_eq_true, if_false, found, Programs.set_bind]
  refine ⟨_, rfl, rfl, ?_⟩
  unfold icFetched
  rw [found]

theorem icSimulateFetch_fill (space : Space c e o) {s : Machine (Devices ε)} (rest : s.dev.rest = o) (virtAddr : Word)
    (fetchable : LineFetchable c e s.dev a) (active : Cpu.icActive s = true) (absent : c.ic.findWay s.ic a = none) :
    ∃ s', Cpu.icSimulateFetch c a virtAddr s = .ok (word c s.dev a, s') ∧ s'.dev = s.dev ∧ s'.ic = icFetched c s.dev a s.ic := by
  obtain ⟨answer, t, returned, value, _⟩ := icSimulateFetch_miss space rest a virtAddr fetchable.plain active absent
  obtain rfl := value fetchable.mapped
  obtain ⟨s₁, refill, dev, ic⟩ := icRefill_words (a := a) space (c.ic.minway s.ic a) (c.ic.claim a (c.ic.minway s.ic a) s.ic)
    (c.ic.blocksize / 4) 0 { s with ic := c.ic.claim a (c.ic.minway s.ic a) s.ic } rest rfl rfl
    (fun j inside => by rw [Nat.zero_add]; exact fetchable.plain j inside)
    (fun j inside => by rw [Nat.zero_add]; exact fetchable.mapped j inside)
  have start : c.ic.offset (c.ic.offset a.toNat) = c.ic.offset a.toNat := Nat.mod_mod _ _
  rw [Nat.mul_zero, Nat.add_zero] at refill
  rw [Nat.zero_add] at ic
  obtain ⟨s', fetched, dev', ic'⟩ := icSimulateFetch_refill virtAddr active absent refill
  obtain rfl : t = s' := congrArg Prod.snd (Except.ok.inj (returned.symm.trans fetched))
  refine ⟨t, returned, dev'.trans dev, ic'.trans (ic.trans ?_)⟩
  unfold icFetched
  rw [absent]

/-! ### Coherence -/

/-- In each set at most one way holds a valid tag, and a way holds the words of its line. -/
structure IcCoherent (c : Config (Devices ε)) (d : Devices ε) (ic : Ic) : Prop where
  unique : (icLines c.ic ic).Unique fun tag => tag ≠ -1
  agrees : (icLines c.ic ic).Agrees (icSplit c.ic) (fun a => a.toNat % 4 = 0) (word c d)

namespace IcCoherent

theorem start (c : Config (Devices ε)) (d : Devices ε) : IcCoherent c d icEndSec where
  unique _ _ _ valid := absurd rfl valid
  agrees a _ _ holds := absurd holds.symm (IcGeometry.tagaddr_ne c.ic a)

variable {ic ic' : Ic}

/-- A way that holds the block of an address has its word. -/
theorem read32 (coherent : IcCoherent c d ic) (aligned : a.toNat % 4 = 0) {k : Nat} (member : k ∈ c.ic.ways a)
    (tag : ic.tags k = c.ic.tagaddr a) : ic.read32 (k * c.ic.blocksize + c.ic.offset a.toNat) = word c d a := by
  obtain ⟨way, inside, rfl⟩ := (IcGeometry.mem_ways c.ic).mp member
  have agrees := coherent.agrees a ⟨way, inside⟩ aligned tag
  rw [← IcGeometry.offset_index c.ic aligned]
  exact agrees

/-- Tags become invalid, or nothing but usage states changes. -/
theorem forget (coherent : IcCoherent c d ic) (tags : ∀ k, ic'.tags k = ic.tags k ∨ ic'.tags k = -1) (mem : ic'.mem = ic.mem) :
    IcCoherent c d ic' where
  unique set way way' valid same := by
    rcases tags (set + c.ic.nsets * way) with kept | emptied
    · rcases tags (set + c.ic.nsets * way') with kept' | emptied'
      · exact coherent.unique set way way' (fun empty => valid (kept.trans empty)) (kept.symm.trans (same.trans kept'))
      · exact absurd (same.trans emptied') valid
    · exact absurd emptied valid
  agrees b way aligned holds := by
    have line : (icLines c.ic ic').line = (icLines c.ic ic).line := by
      unfold icLines Ic.read32
      rw [mem]
    rw [line]
    refine coherent.agrees b way aligned ?_
    rcases tags (c.ic.set b + c.ic.nsets * way) with kept | emptied
    · exact kept.symm.trans holds
    · exact absurd (holds.symm.trans emptied) (IcGeometry.tagaddr_ne c.ic b)

/-- A way gets the words of a block that no way held. -/
theorem fill (coherent : IcCoherent c d ic) (aligned : a.toNat % 4 = 0) (absent : c.ic.findWay ic a = none) :
    IcCoherent c d (icFetched c d a ic) := by
  obtain ⟨way, inside, place⟩ := (IcGeometry.mem_ways c.ic).mp (icMinway_mem c.ic ic a)
  have fetched : icFetched c d a ic =
      icWords c d a (c.ic.set a + c.ic.nsets * way) (c.ic.blocksize / 4) (c.ic.claim a (c.ic.set a + c.ic.nsets * way) ic) := by
    unfold icFetched
    rw [absent, ← place]
  have tags : ∀ k, (icFetched c d a ic).tags k = if k = c.ic.set a + c.ic.nsets * way then c.ic.tagaddr a else ic.tags k := by
    intro k
    rw [fetched, icWords_tags]
    rfl
  have others : ∀ (set' : Fin c.ic.nsets) (way' : Fin c.ic.nways), ¬ (set' = (icSplit c.ic).set a ∧ way' = ⟨way, inside⟩) →
      (set' : Nat) + c.ic.nsets * way' ≠ c.ic.set a + c.ic.nsets * way := by
    intro set' way' other same
    obtain ⟨sets, ways⟩ := IcGeometry.place_inj c.ic set'.isLt (IcGeometry.set_lt c.ic a) same
    exact other ⟨Fin.ext sets, Fin.ext ways⟩
  constructor
  · refine coherent.unique.fill ((icSplit c.ic).set a) ⟨way, inside⟩ (fun set' way' other => ?_) fun way' valid same => ?_
    · exact (tags _).trans (if_neg (others set' way' other))
    · refine icFindWay_none_iff.mp absent _ ((IcGeometry.mem_ways c.ic).mpr ⟨way', way'.isLt, rfl⟩) ?_
      exact same.trans ((tags _).trans (if_pos rfl))
  · refine coherent.agrees.fill ((icSplit c.ic).set a) ⟨way, inside⟩ (fun set' way' other => ⟨?_, ?_⟩) fun b alignedB set tag => ?_
    · exact (tags _).trans (if_neg (others set' way' other))
    · funext k
      show (icFetched c d a ic).read32 _ = _
      rw [fetched, read32_icWords_outside aligned _ (others set' way' other) k.isLt]
      rfl
    · have tag : c.ic.tagaddr a = c.ic.tagaddr b := ((tags _).trans (if_pos rfl)).symm.trans tag
      have block := IcGeometry.same_block c.ic (congrArg Fin.val set.symm) tag
      obtain ⟨n, small, reached⟩ := IcGeometry.reaches c.ic aligned alignedB
      have read : (icWords c d a (c.ic.set a + c.ic.nsets * way) (c.ic.blocksize / 4)
          (c.ic.claim a (c.ic.set a + c.ic.nsets * way) ic)).read32
            ((c.ic.set a + c.ic.nsets * way) * c.ic.blocksize + c.ic.offset (c.ic.offset a.toNat + 4 * n)) =
          word c d (IcGeometry.refillAddr c.ic a n) := read32_icWords _ small (le_refl _)
      rw [IcGeometry.refillAddr_of_block c.ic block reached, reached, ← fetched] at read
      rw [← read, ← IcGeometry.offset_index c.ic alignedB]
      rfl

end IcCoherent

/-! ### The arrays' bounds -/

/-- Outside the memory that `ic_end_sec` allocates nothing changes. -/
structure IcWithin (i : IcConfig) (ic ic' : Ic) : Prop where
  tags : ∀ k, i.nsets * i.nways ≤ k → ic'.tags k = ic.tags k
  lrus : ∀ k, i.nsets * i.nways ≤ k → ic'.lrus k = ic.lrus k
  mem : ∀ p, i.nways * i.nsets * i.blocksize ≤ p → ic'.mem p = ic.mem p

/-- The part of `mem` that belongs to a way of a set. -/
def icPart (i : IcConfig) (set way : Nat) : Set Nat :=
  { p | (set + i.nsets * way) * i.blocksize ≤ p ∧ p < (set + i.nsets * way + 1) * i.blocksize }

namespace IcWithin

variable {i : IcConfig} {ic : Ic}

theorem ways_lt {k : Nat} (member : k ∈ i.ways a) : k < i.nsets * i.nways := by
  obtain ⟨way, inside, rfl⟩ := (IcGeometry.mem_ways i).mp member
  exact IcGeometry.place_lt i (IcGeometry.set_lt i a) inside

theorem hit {way : Nat} (member : way ∈ i.ways a) : IcWithin i ic (i.hit a way ic) where
  tags _ _ := rfl
  lrus k outside := by
    have other : k ≠ way := fun same => Nat.not_lt.mpr outside (same ▸ ways_lt member)
    exact (if_neg other).trans (if_neg fun both => Nat.not_lt.mpr outside (ways_lt both.1))
  mem _ _ := rfl

theorem line_end {k : Nat} (inside : k < i.nsets * i.nways) : k * i.blocksize + i.blocksize ≤ i.nways * i.nsets * i.blocksize := by
  rw [Nat.mul_comm i.nways]
  calc k * i.blocksize + i.blocksize = (k + 1) * i.blocksize := by rw [Nat.add_mul, Nat.one_mul]
    _ ≤ i.nsets * i.nways * i.blocksize := Nat.mul_le_mul_right _ inside

theorem fetched (c : Config (Devices ε)) (d : Devices ε) (aligned : a.toNat % 4 = 0) (ic : Ic) :
    IcWithin c.ic ic (icFetched c d a ic) := by
  unfold icFetched
  cases found : c.ic.findWay ic a with
  | some way => exact hit (icFindWay_some found).1
  | none =>
    have inside := ways_lt (icMinway_mem c.ic ic a)
    constructor
    · intro k outside
      dsimp only
      rw [icWords_tags]
      exact if_neg (by omega)
    · intro k outside
      dsimp only
      rw [icWords_lrus]
      exact (if_neg (by omega)).trans (if_neg fun both => Nat.not_lt.mpr outside (ways_lt both.1))
    · intro p outside
      exact icWords_outside aligned _ (.inr (Nat.le_trans (line_end inside) outside))

theorem inv (c : Config (Devices ε)) (a : Word) (s : Machine (Devices ε)) : IcWithin c.ic s.ic (Cpu.icInv c a s).ic := by
  unfold Cpu.icInv
  cases Cpu.has (s.sprs Cpu.sprUpr) Cpu.uprIcp with
  | false => exact ⟨fun _ _ => rfl, fun _ _ => rfl, fun _ _ => rfl⟩
  | true =>
    have stays : ∀ k, c.ic.nsets * c.ic.nways ≤ k → ¬ (k ∈ c.ic.ways a ∧
        (Cpu.has s.sr Cpu.srIce = true → s.ic.tags k = c.ic.tagaddr a)) :=
      fun k outside both => Nat.not_lt.mpr outside (ways_lt both.1)
    refine ⟨fun k outside => ?_, fun k outside => ?_, fun _ _ => rfl⟩
    · exact if_neg fun stale => stays k outside (of_decide_eq_true stale)
    · exact if_neg fun stale => stays k outside (of_decide_eq_true stale)

end IcWithin

/-! ### Calls -/

section
variable {s : Machine (Devices ε)}

/-- A fetch returns the word of memory, and keeps the arrays coherent. -/
theorem fetch_step (space : Space c e o) (rest : s.dev.rest = o) (coherent : IcCoherent c s.dev s.ic) (aligned : a.toNat % 4 = 0)
    (virtAddr : Word) (fetchable : LineFetchable c e s.dev a) :
    ∃ s', Cpu.icSimulateFetch c a virtAddr s = .ok (word c s.dev a, s') ∧ s'.dev = s.dev ∧ IcCoherent c s.dev s'.ic ∧
      IcWithin c.ic s.ic s'.ic := by
  cases active : Cpu.icActive s with
  | false =>
    obtain ⟨s', fetched, dev, ic⟩ := icSimulateFetch_uncached space rest virtAddr fetchable active
    rw [← ic] at coherent ⊢
    exact ⟨s', fetched, dev, coherent, fun _ _ => rfl, fun _ _ => rfl, fun _ _ => rfl⟩
  | true =>
    have within := IcWithin.fetched c s.dev aligned s.ic
    cases found : c.ic.findWay s.ic a with
    | some way =>
      obtain ⟨member, tag⟩ := icFindWay_some found
      obtain ⟨s', fetched, dev, ic⟩ := icSimulateFetch_hit virtAddr active found
      rw [coherent.read32 aligned member tag] at fetched
      rw [← ic] at within
      refine ⟨s', fetched, dev, ?_, within⟩
      refine coherent.forget (fun k => .inl ?_) ?_
      · rw [ic, icFetched, found]
        rfl
      · rw [ic, icFetched, found]
        rfl
    | none =>
      obtain ⟨s', fetched, dev, ic⟩ := icSimulateFetch_fill space rest virtAddr fetchable active found
      rw [← ic] at within
      refine ⟨s', fetched, dev, ?_, within⟩
      rw [ic]
      exact coherent.fill aligned found

theorem icInv_dev (a : Word) : (Cpu.icInv c a s).dev = s.dev := by
  unfold Cpu.icInv
  split <;> rfl

theorem icInv_tags (a : Word) (k : Nat) : (Cpu.icInv c a s).ic.tags k = s.ic.tags k ∨ (Cpu.icInv c a s).ic.tags k = -1 := by
  unfold Cpu.icInv
  split
  · exact .inl rfl
  · dsimp only
    split
    · exact .inr rfl
    · exact .inl rfl

theorem inv_coherent (coherent : IcCoherent c s.dev s.ic) (a : Word) : IcCoherent c s.dev (Cpu.icInv c a s).ic := by
  refine coherent.forget (icInv_tags a) ?_
  unfold Cpu.icInv
  split <;> rfl

theorem inv_absent (present : Cpu.has (s.sprs Cpu.sprUpr) Cpu.uprIcp = true) (a : Word) :
    c.ic.findWay (Cpu.icInv c a s).ic a = none := by
  refine icFindWay_none_iff.mpr fun k member => ?_
  unfold Cpu.icInv
  rw [present]
  simp only [Bool.not_true, Bool.false_eq_true, if_false]
  split
  · exact (IcGeometry.tagaddr_ne c.ic a).symm
  · next fresh =>
    intro same
    exact fresh (decide_eq_true ⟨member, fun _ => same⟩)

end

end

/-! ### Runs -/

/-- The states that fetches and invalidations lead to from the one that `ic_end_sec` leaves, on the
memory `d`. The fetches are at the addresses `P`. Everything else leaves the instruction cache and the
memory alone. -/
inductive IcReached (c : Config (Devices ε)) (e : Endian) (P : Word → Prop) (d : Devices ε) : Machine (Devices ε) → Prop
  | start {s} (cold : s.ic = icEndSec) (dev : s.dev = d) : IcReached c e P d s
  | fetch {s s' a virtAddr value} (before : IcReached c e P d s) (allowed : P a) (fetchable : LineFetchable c e d a)
      (fetched : Cpu.icSimulateFetch c a virtAddr s = .ok (value, s')) : IcReached c e P d s'
  | inv {s} (a : Word) (before : IcReached c e P d s) : IcReached c e P d (Cpu.icInv c a s)
  | elsewhere {s s'} (before : IcReached c e P d s) (ic : s'.ic = s.ic) (dev : s'.dev = s.dev) : IcReached c e P d s'

/-- What happens while no instruction of the block of `a` is fetched. The memory may change. -/
inductive IcWithout (c : Config (Devices ε)) (e : Endian) (a : Word) (s : Machine (Devices ε)) : Machine (Devices ε) → Prop
  | refl : IcWithout c e a s s
  | fetch {t t' b virtAddr value} (before : IcWithout c e a s t) (other : ¬ IcGeometry.SameBlock c.ic a b)
      (fetchable : LineFetchable c e t.dev b) (rest : t.dev.rest = s.dev.rest)
      (fetched : Cpu.icSimulateFetch c b virtAddr t = .ok (value, t')) : IcWithout c e a s t'
  | inv {t} (b : Word) (before : IcWithout c e a s t) : IcWithout c e a s (Cpu.icInv c b t)
  | elsewhere {t t'} (before : IcWithout c e a s t) (ic : t'.ic = t.ic) : IcWithout c e a s t'

/-- What the instruction cache does in a state, for fetches at the addresses `P`. -/
structure IcCorrect (c : Config (Devices ε)) (e : Endian) (P : Word → Prop) (d : Devices ε) (s : Machine (Devices ε)) : Prop where
  fetch : ∀ a virtAddr, P a → LineFetchable c e d a →
    ∃ s', Cpu.icSimulateFetch c a virtAddr s = .ok (word c d a, s') ∧ IcWithin c.ic s.ic s'.ic
  inv : ∀ a, IcWithin c.ic s.ic (Cpu.icInv c a s).ic
  tags : ∀ a, ∀ k ∈ IcGeometry.wayLoop c.ic.lastWay c.ic.nsets c.ic.nways (c.ic.set a), k < c.ic.nsets * c.ic.nways
  part : ∀ a, P a → ∀ way < c.ic.nways, ∀ n, ∀ j < 4,
    IcGeometry.memIndex c.ic (c.ic.set a + c.ic.nsets * way) (a.toNat + 4 * n) + j ∈ icPart c.ic (c.ic.set a) way
  inside : ∀ set < c.ic.nsets, ∀ way < c.ic.nways, ∀ p ∈ icPart c.ic set way, p < c.ic.nways * c.ic.nsets * c.ic.blocksize
  disjoint : ∀ set < c.ic.nsets, ∀ set' < c.ic.nsets, ∀ way way', (set, way) ≠ (set', way') →
    Disjoint (icPart c.ic set way) (icPart c.ic set' way')
  unique : ∀ set < c.ic.nsets, ∀ way < c.ic.nways, ∀ way' < c.ic.nways, s.ic.tags (set + c.ic.nsets * way) ≠ -1 →
    s.ic.tags (set + c.ic.nsets * way) = s.ic.tags (set + c.ic.nsets * way') → way = way'
  again : ∀ a, Cpu.has (s.sprs Cpu.sprUpr) Cpu.uprIcp = true → ∀ t, IcWithout c e a (Cpu.icInv c a s) t → t.dev.rest = d.rest →
    ∀ b virtAddr, IcGeometry.SameBlock c.ic a b → LineFetchable c e t.dev b →
    ∃ t', Cpu.icSimulateFetch c b virtAddr t = .ok (word c t.dev b, t')

section
variable {c : Config (Devices ε)} {e : Endian} {o : ε} {d : Devices ε} {a : Word} {s t : Machine (Devices ε)}

theorem reached_coherent (space : Space c e d.rest) (reached : IcReached c e (fun a => a.toNat % 4 = 0) d s) :
    s.dev = d ∧ IcCoherent c d s.ic := by
  induction reached with
  | start cold dev => exact ⟨dev, cold ▸ IcCoherent.start c d⟩
  | fetch before aligned fetchable fetched ih =>
    obtain ⟨rfl, coherent⟩ := ih
    obtain ⟨s', returned, dev, coherent', _⟩ := fetch_step space rfl coherent aligned _ fetchable
    obtain rfl := congrArg Prod.snd (Except.ok.inj (returned.symm.trans fetched))
    exact ⟨dev, coherent'⟩
  | inv a before ih =>
    obtain ⟨rfl, coherent⟩ := ih
    exact ⟨icInv_dev a, inv_coherent coherent a⟩
  | elsewhere before ic dev ih =>
    obtain ⟨rfl, coherent⟩ := ih
    exact ⟨dev, ic ▸ coherent⟩

/-- A fetch of another block leaves the block absent. -/
theorem absent_of_fetched {b : Word} (absent : c.ic.findWay t.ic a = none) (other : ¬ IcGeometry.SameBlock c.ic a b) :
    c.ic.findWay (icFetched c t.dev b t.ic) a = none := by
  refine icFindWay_none_iff.mpr fun k member => ?_
  have before := icFindWay_none_iff.mp absent k member
  unfold icFetched
  cases found : c.ic.findWay t.ic b with
  | some way => exact before
  | none =>
    dsimp only
    rw [icWords_tags]
    show (if k = c.ic.minway t.ic b then c.ic.tagaddr b else t.ic.tags k) ≠ _
    split
    · next filled =>
      intro tag
      refine other (IcGeometry.same_block c.ic ?_ tag.symm)
      obtain ⟨way, _, place⟩ := (IcGeometry.mem_ways c.ic).mp member
      obtain ⟨way', _, place'⟩ := (IcGeometry.mem_ways c.ic).mp (icMinway_mem c.ic t.ic b)
      exact (IcGeometry.place_inj c.ic (IcGeometry.set_lt c.ic a) (IcGeometry.set_lt c.ic b)
        (place.symm.trans (filled.trans place'))).1
    · exact before

theorem absent_without (space : Space c e s.dev.rest) (absent : c.ic.findWay s.ic a = none) (without : IcWithout c e a s t) :
    c.ic.findWay t.ic a = none := by
  induction without with
  | refl => exact absent
  | @fetch t t' b virtAddr value before other fetchable rest fetched ih =>
    cases active : Cpu.icActive t with
    | false =>
      obtain ⟨t', returned, _, ic⟩ := icSimulateFetch_uncached space rest virtAddr fetchable active
      obtain rfl := congrArg Prod.snd (Except.ok.inj (returned.symm.trans fetched))
      rw [ic]
      exact ih
    | true =>
      have filled := absent_of_fetched ih other
      cases found : c.ic.findWay t.ic b with
      | some way =>
        obtain ⟨t', returned, _, ic⟩ := icSimulateFetch_hit virtAddr active found
        obtain rfl := congrArg Prod.snd (Except.ok.inj (returned.symm.trans fetched))
        rw [ic]
        exact filled
      | none =>
        obtain ⟨t', returned, _, ic⟩ := icSimulateFetch_fill space rest virtAddr fetchable active found
        obtain rfl := congrArg Prod.snd (Except.ok.inj (returned.symm.trans fetched))
        rw [ic]
        exact filled
  | @inv t b before ih =>
    refine icFindWay_none_iff.mpr fun k member => ?_
    rcases icInv_tags (c := c) (s := t) b k with kept | emptied
    · rw [kept]
      exact icFindWay_none_iff.mp ih k member
    · rw [emptied]
      exact (IcGeometry.tagaddr_ne c.ic a).symm
  | elsewhere before ic ih =>
    rw [ic]
    exact ih

/-- In every state that fetches of aligned words and invalidations lead to, fetches return what the
memory holds. -/
theorem icache_correct (space : Space c e d.rest) (reached : IcReached c e (fun a => a.toNat % 4 = 0) d s) :
    IcCorrect c e (fun a => a.toNat % 4 = 0) d s := by
  obtain ⟨rfl, coherent⟩ := reached_coherent space reached
  constructor
  case fetch =>
    intro a virtAddr aligned fetchable
    obtain ⟨s', fetched, _, _, within⟩ := fetch_step space rfl coherent aligned virtAddr fetchable
    exact ⟨s', fetched, within⟩
  case inv => exact fun a => IcWithin.inv c a s
  case tags =>
    intro a k member
    rw [← IcGeometry.ways_eq_loop] at member
    exact IcWithin.ways_lt member
  case part =>
    intro a aligned way inside n j small
    rw [IcGeometry.memIndex_eq]
    have offset : c.ic.offset (a.toNat + 4 * n) + 4 ≤ c.ic.blocksize := by
      unfold IcConfig.offset
      rcases IcGeometry.blocksize_cases c.ic with size | size <;> rw [size] <;> omega
    constructor
    · omega
    · rw [Nat.succ_mul (c.ic.set a + c.ic.nsets * way)]
      omega
  case inside =>
    rintro set here way inside p ⟨_, below⟩
    have last := IcWithin.line_end (IcGeometry.place_lt c.ic here inside)
    rw [Nat.add_mul _ 1, Nat.one_mul] at below
    omega
  case disjoint =>
    intro set here set' here' way way' different
    refine Set.disjoint_left.mpr fun p first second => different ?_
    obtain ⟨low, high⟩ := first
    obtain ⟨low', high'⟩ := second
    have same : set + c.ic.nsets * way = set' + c.ic.nsets * way' := by
      have := Nat.lt_of_mul_lt_mul_right (Nat.lt_of_le_of_lt low high')
      have := Nat.lt_of_mul_lt_mul_right (Nat.lt_of_le_of_lt low' high)
      omega
    obtain ⟨rfl, rfl⟩ := IcGeometry.place_inj c.ic here here' same
    rfl
  case unique =>
    intro set here way inside way' inside' valid same
    exact congrArg Fin.val (coherent.unique ⟨set, here⟩ ⟨way, inside⟩ ⟨way', inside'⟩ valid same)
  case again =>
    intro a present t without rest b virtAddr block fetchable
    have start := inv_absent (c := c) present a
    have space' : Space c e (Cpu.icInv c a s).dev.rest := by
      rw [icInv_dev]
      exact space
    have absent : c.ic.findWay t.ic b = none := by
      have gone := icFindWay_none_iff.mp (absent_without space' start without)
      rw [IcGeometry.ways_eq_of_block c.ic block, IcGeometry.tagaddr_eq_of_block c.ic block] at gone
      exact icFindWay_none_iff.mpr gone
    cases active : Cpu.icActive t with
    | false =>
      obtain ⟨t', fetched, _⟩ := icSimulateFetch_uncached space rest virtAddr fetchable active
      exact ⟨t', fetched⟩
    | true =>
      obtain ⟨t', fetched, _⟩ := icSimulateFetch_fill space rest virtAddr fetchable active absent
      exact ⟨t', fetched⟩

end

theorem lineFetchable_cachedConfig (mem : Bytes) {a : Word}
    (mapped : ∀ n < 4, (owner (cachedConfig ⟨1, 1⟩ 6) (cachedMachine mem).dev
      (IcGeometry.refillAddr (cachedConfig ⟨1, 1⟩ 6).ic a n)).isSome = true) :
    LineFetchable (cachedConfig ⟨1, 1⟩ 6) .little (cachedMachine mem).dev a :=
  ⟨fun _ _ => plain_cachedConfig _ _ _ _, mapped⟩

/-- A word is fetched, its line is invalidated, and the next word of the line is fetched. -/
theorem icache_correct_next :
    ∃ s, IcReached (cachedConfig ⟨1, 1⟩ 6) .little (fun a => a.toNat % 4 = 0) (cachedMachine fun _ => 1).dev s ∧
      IcCorrect (cachedConfig ⟨1, 1⟩ 6) .little (fun a => a.toNat % 4 = 0) (cachedMachine fun _ => 1).dev s := by
  have areas : (cachedConfig ⟨1, 1⟩ 6).areas = [memoryArea .little 0 ⟨1, 1⟩ 0 6] := rfl
  have space : Space (cachedConfig ⟨1, 1⟩ 6) .little () := Space.memory () areas (by decide) (by decide)
  have start : IcReached (cachedConfig ⟨1, 1⟩ 6) .little (fun a => a.toNat % 4 = 0) (cachedMachine fun _ => 1).dev
      (cachedMachine fun _ => 1) := .start rfl rfl
  have line := lineFetchable_cachedConfig (fun _ => 1) (a := 4) (by decide +kernel)
  obtain ⟨s', fetched, _⟩ := fetch_step space rfl (reached_coherent space start).2 (a := 4) (by decide) 4 line
  have reached := (IcReached.fetch start (by decide) line fetched).inv 4
  exact ⟨_, reached, icache_correct space reached⟩

/-- A refill that starts in the middle of a word writes past the end of the line, and leaves the first
bytes of the line as they were. -/
theorem icache_unaligned :
    ¬ ∀ (c : Config (Devices Unit)) (e : Endian) (d : Devices Unit) (s : Machine (Devices Unit)), Space c e d.rest →
      IcReached c e (fun _ => True) d s → IcCorrect c e (fun _ => True) d s := by
  intro claim
  have areas : (cachedConfig ⟨1, 1⟩ 6).areas = [memoryArea .little 0 ⟨1, 1⟩ 0 6] := rfl
  have space : Space (cachedConfig ⟨1, 1⟩ 6) .little () := Space.memory () areas (by decide) (by decide)
  have start : IcReached (cachedConfig ⟨1, 1⟩ 6) .little (fun _ => True) (cachedMachine fun _ => 1).dev (cachedMachine fun _ => 1) :=
    .start rfl rfl
  have first := lineFetchable_cachedConfig (fun _ => 1) (a := 2) (by decide +kernel)
  have second := lineFetchable_cachedConfig (fun _ => 1) (a := 0) (by decide +kernel)
  obtain ⟨s', fetched, _⟩ := (claim _ _ _ _ space start).fetch 2 2 trivial first
  obtain ⟨s'', fetched', _⟩ := (claim _ _ _ _ space (.fetch start trivial first fetched)).fetch 0 0 trivial second
  have cached : ((Cpu.icSimulateFetch (cachedConfig ⟨1, 1⟩ 6) 2 2 (cachedMachine fun _ => 1)).toOption.bind fun r =>
      (Cpu.icSimulateFetch (cachedConfig ⟨1, 1⟩ 6) 0 0 r.2).toOption.map Prod.fst) = some 0x01010000 := by decide +kernel
  have memory : word (cachedConfig ⟨1, 1⟩ 6) (cachedMachine fun _ => 1).dev 0 = 0x01010101 := by decide +kernel
  rw [fetched] at cached
  dsimp only [Except.toOption, Option.bind] at cached
  rw [fetched', memory] at cached
  have same : (0x01010101 : Word) = 0x01010000 := Option.some.inj cached
  exact absurd same (by decide)

end Or1ksim.Mem
