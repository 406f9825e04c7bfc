import Or1ksim.Lib.Cache
import Or1ksim.Mem.Space

/-!
# The data cache

`cache/dcache-model.c`. The lines of the cache agree with the memory as long as a store reaches the
memory; a store that an area refuses or drops is merged into the line all the same.
-/

namespace Or1ksim.Mem

open Cpu (Word Width Config Area Machine Dc DcConfig Operands runP runP_bind_ok runP_evalsimMem runP_setsimMem runP_view)
open Caching (Split Lines)

/-! ### Addresses and lines -/

namespace Geometry

variable (d : DcConfig)

theorem blocksize_cases : d.blocksize = 16 ∨ d.blocksize = 32 := by
  have := d.blocksizeLog2.isLt
  unfold DcConfig.blocksize
  rcases (by omega : d.blocksizeLog2.val = 0 ∨ d.blocksizeLog2.val = 1) with size | size <;> rw [size]
  · exact .inl rfl
  · exact .inr rfl

theorem nsets_pos : 0 < d.nsets := Nat.two_pow_pos _

theorem nways_pos : 0 < d.nways := Nat.two_pow_pos _

theorem tagaddr_toNat (a : Word) : (d.tagaddr a).toNat = a.toNat / d.blocksize / d.nsets := by
  unfold DcConfig.tagaddr
  rw [BitVec.toNat_ofNat, Nat.mod_eq_of_lt]
  exact Nat.lt_of_le_of_lt (Nat.le_trans (Nat.div_le_self _ _) (Nat.div_le_self _ _)) a.isLt

/-- The tag of an address is never that of an empty way. -/
theorem tagaddr_ne (a : Word) : d.tagaddr a ≠ -1 := by
  intro empty
  have value := congrArg BitVec.toNat empty
  rw [tagaddr_toNat, show (-1 : Word).toNat = 4294967295 from rfl] at value
  have small : a.toNat / d.blocksize / d.nsets ≤ a.toNat / d.blocksize := Nat.div_le_self _ _
  have := a.isLt
  rcases blocksize_cases d with size | size <;> rw [size] at small value <;> omega

theorem same_block {a b : Word} (set : d.set b = d.set a) (tag : d.tagaddr b = d.tagaddr a) :
    b.toNat / d.blocksize = a.toNat / d.blocksize := by
  have tags := congrArg BitVec.toNat tag
  rw [tagaddr_toNat, tagaddr_toNat] at tags
  unfold DcConfig.set at set
  rw [← Nat.div_add_mod (b.toNat / d.blocksize) d.nsets, ← Nat.div_add_mod (a.toNat / d.blocksize) d.nsets, tags, set]

/-- The word at a place of the line of an address. -/
def lineAddr (a : Word) (k : Nat) : Word := BitVec.ofNat 32 (a.toNat / d.blocksize * d.blocksize + 4 * k)

theorem lineAddr_toNat (a : Word) {k : Nat} (inside : k < d.blocksize / 4) :
    (lineAddr d a k).toNat = a.toNat / d.blocksize * d.blocksize + 4 * k := by
  unfold lineAddr
  have := a.isLt
  rw [BitVec.toNat_ofNat, Nat.mod_eq_of_lt]
  rcases blocksize_cases d with size | size <;> rw [size] at inside ⊢ <;> omega

theorem index_lt (a : Word) : d.index a < d.blocksize / 4 := by
  unfold DcConfig.index
  rcases blocksize_cases d with size | size <;> rw [size] <;> omega

theorem wordAddr_eq_lineAddr {a b : Word} (set : d.set b = d.set a) (tag : d.tagaddr b = d.tagaddr a) :
    wordAddr b = lineAddr d a (d.index b) := by
  have block := same_block d set tag
  apply BitVec.eq_of_toNat_eq
  rw [wordAddr_toNat, lineAddr_toNat d a (index_lt d b), ← block]
  unfold DcConfig.index
  rcases blocksize_cases d with size | size <;> rw [size] <;> omega

theorem wordAddr_eq_of_same {a b : Word} (set : d.set b = d.set a) (tag : d.tagaddr b = d.tagaddr a)
    (index : d.index b = d.index a) : wordAddr b = wordAddr a := by
  rw [wordAddr_eq_lineAddr d set tag, index, ← wordAddr_eq_lineAddr d rfl rfl]

theorem same_of_wordAddr_eq {a b : Word} (same : wordAddr b = wordAddr a) :
    d.set b = d.set a ∧ d.tagaddr b = d.tagaddr a ∧ d.index b = d.index a := by
  have words := congrArg BitVec.toNat same
  rw [wordAddr_toNat, wordAddr_toNat] at words
  have block : b.toNat / d.blocksize = a.toNat / d.blocksize := by
    rcases blocksize_cases d with size | size <;> rw [size] <;> omega
  refine ⟨?_, ?_, ?_⟩
  · unfold DcConfig.set
    rw [block]
  · unfold DcConfig.tagaddr
    rw [block]
  · unfold DcConfig.index
    rcases blocksize_cases d with size | size <;> rw [size] <;> omega

theorem refillAddr_eq (a : Word) (n : Nat) :
    d.refillAddr a (4 * n) = lineAddr d a (d.index (a + BitVec.ofNat 32 (4 * n))) := by
  have mask : ∃ k, d.blocksize = 2 ^ k ∧ k ≤ 5 ∧ BitVec.ofNat 32 d.blocksize - 1 = Aligned.low 32 k := by
    rcases blocksize_cases d with size | size <;> rw [size]
    · exact ⟨4, rfl, by decide, rfl⟩
    · exact ⟨5, rfl, by decide, rfl⟩
  obtain ⟨k, size, small, low⟩ := mask
  apply BitVec.eq_of_toNat_eq
  rw [lineAddr_toNat d a (index_lt d _)]
  unfold DcConfig.refillAddr DcConfig.index
  rw [low, BitVec.toNat_add, Aligned.and_not_low, Aligned.and_low _ (by omega), BitVec.toNat_add, BitVec.toNat_add,
    show (a &&& ~~~3).toNat = a.toNat / 4 * 4 from wordAddr_toNat a, BitVec.toNat_ofNat, ← size]
  have := a.isLt
  rcases blocksize_cases d with size | size <;> rw [size] <;> omega

theorem index_surjective (a : Word) {k : Nat} (inside : k < d.blocksize / 4) :
    ∃ n < d.blocksize / 4, d.index (a + BitVec.ofNat 32 (4 * n)) = k := by
  refine ⟨(k + d.blocksize / 4 - d.index a) % (d.blocksize / 4), Nat.mod_lt _ (by omega), ?_⟩
  unfold DcConfig.index
  rw [BitVec.toNat_add, BitVec.toNat_ofNat]
  rcases blocksize_cases d with size | size <;> rw [size] at inside ⊢ <;> omega

end Geometry

/-! ### Ways -/

def dcSplit (d : DcConfig) : Split Word Nat Word Nat := ⟨d.set, d.tagaddr, d.index⟩

def dcLines (d : DcConfig) (dc : Dc) : Lines Nat (Fin d.nways) Word Nat Word :=
  { tag := fun set way => (dc set way).tagaddr, line := fun set way => (dc set way).line }

theorem foldl_last_none {α : Type} {p : α → Prop} [DecidablePred p] (l : List α) (init : Option α) :
    l.foldl (fun found i => if p i then some i else found) init = none ↔ init = none ∧ ∀ i ∈ l, ¬ p i := by
  induction l generalizing init with
  | nil => simp
  | cons i l ih =>
    rw [List.foldl_cons, ih]
    by_cases here : p i <;> simp [here]

theorem foldl_last_some {α : Type} {p : α → Prop} [DecidablePred p] {l : List α} {init : Option α} {a : α}
    (found : l.foldl (fun found i => if p i then some i else found) init = some a) : init = some a ∨ a ∈ l ∧ p a := by
  induction l generalizing init with
  | nil => exact .inl found
  | cons i l ih =>
    rw [List.foldl_cons] at found
    rcases ih found with first | ⟨member, here⟩
    · split at first
      · next here =>
        obtain rfl := Option.some.inj first
        exact .inr ⟨List.mem_cons_self, here⟩
      · exact .inl first
    · exact .inr ⟨List.mem_cons_of_mem _ member, here⟩

theorem findWay_none_iff {d : DcConfig} {dc : Dc} {a : Word} :
    d.findWay dc a = none ↔ ∀ way, ¬ (dcLines d dc).Holds (dcSplit d) a way := by
  unfold DcConfig.findWay
  rw [foldl_last_none (p := fun i => (dc (d.set a) i).tagaddr = d.tagaddr a)]
  constructor
  · rintro ⟨_, absent⟩ way
    exact absent way (List.mem_range.mpr way.isLt)
  · intro absent
    exact ⟨rfl, fun i member => absent ⟨i, List.mem_range.mp member⟩⟩

theorem findWay_some {d : DcConfig} {dc : Dc} {a : Word} {way : Nat} (found : d.findWay dc a = some way) :
    ∃ inside : way < d.nways, (dcLines d dc).Holds (dcSplit d) a ⟨way, inside⟩ := by
  unfold DcConfig.findWay at found
  rcases foldl_last_some (p := fun i => (dc (d.set a) i).tagaddr = d.tagaddr a) found with initial | ⟨member, here⟩
  · cases initial
  · exact ⟨List.mem_range.mp member, here⟩

theorem foldl_mem {α β : Type} (f : β → α → β) (g : β → α) {l : List α} (step : ∀ b, ∀ i ∈ l, g (f b i) = g b ∨ g (f b i) = i)
    (init : β) : g (l.foldl f init) = g init ∨ g (l.foldl f init) ∈ l := by
  induction l generalizing init with
  | nil => exact .inl rfl
  | cons i l ih =>
    rw [List.foldl_cons]
    rcases ih (fun b j member => step b j (List.mem_cons_of_mem _ member)) (f init i) with same | member
    · rw [same]
      rcases step init i List.mem_cons_self with kept | here
      · exact .inl kept
      · rw [here]
        exact .inr List.mem_cons_self
    · exact .inr (List.mem_cons_of_mem _ member)

theorem minwayRead_lt (d : DcConfig) (dc : Dc) (set : Nat) : d.minwayRead dc set < d.nways := by
  unfold DcConfig.minwayRead
  rcases foldl_mem (fun min i => if (dc set i).lru < min.2 then (i, (dc set i).lru) else min) Prod.fst
    (l := List.range d.nways) (fun b i _ => by split <;> simp) (0, d.ustates - 1) with first | member
  · rw [first]
    exact Geometry.nways_pos d
  · exact List.mem_range.mp member

theorem minwayWrite_lt (d : DcConfig) (dc : Dc) (set : Nat) : d.minwayWrite dc set < d.nways := by
  unfold DcConfig.minwayWrite
  rcases foldl_mem (fun min i => if (dc set i).lru < d.ustates - 1 then i else min) id
    (l := List.range d.nways) (fun b i _ => by dsimp only [id]; split <;> simp) 0 with first | member
  · exact (congrArg (· < d.nways) first).mpr (Geometry.nways_pos d)
  · exact List.mem_range.mp member

/-! ### Changes to a way -/

section
variable (set way index : Nat) (value : Word) (dc : Dc) (s₁ w : Nat)

@[simp] theorem setLine_tagaddr : (Dc.setLine set way index value dc s₁ w).tagaddr = (dc s₁ w).tagaddr := by
  unfold Dc.setLine Dc.setWay
  split
  · next same => rw [same.1, same.2]
  · rfl

@[simp] theorem setLine_line (k : Nat) : (Dc.setLine set way index value dc s₁ w).line k =
    if s₁ = set ∧ w = way ∧ k = index then value else (dc s₁ w).line k := by
  unfold Dc.setLine Dc.setWay
  by_cases same : s₁ = set ∧ w = way
  · obtain ⟨rfl, rfl⟩ := same
    simp
  · rw [if_neg same, if_neg fun all => same ⟨all.1, all.2.1⟩]

@[simp] theorem hit_tagaddr (d : DcConfig) : (d.hit set way dc s₁ w).tagaddr = (dc s₁ w).tagaddr := by
  unfold DcConfig.hit Dc.mapSet
  dsimp only
  split
  · split
    · rfl
    · split <;> rfl
  · rfl

@[simp] theorem hit_line (d : DcConfig) : (d.hit set way dc s₁ w).line = (dc s₁ w).line := by
  unfold DcConfig.hit Dc.mapSet
  dsimp only
  split
  · split
    · rfl
    · split <;> rfl
  · rfl

theorem refilled_tagaddr (d : DcConfig) (tagaddr : Word) (inside : way < d.nways) :
    (d.refilled set way tagaddr dc s₁ w).tagaddr = if s₁ = set ∧ w = way then tagaddr else (dc s₁ w).tagaddr := by
  unfold DcConfig.refilled Dc.mapSet
  dsimp only
  by_cases here : s₁ = set ∧ w = way
  · obtain ⟨rfl, rfl⟩ := here
    rw [if_pos ⟨rfl, inside⟩, if_pos rfl, if_pos ⟨rfl, rfl⟩]
  · rw [if_neg here]
    split
    · next both =>
      rw [if_neg fun same => here ⟨both.1, same⟩]
      split <;> rfl
    · rfl

@[simp] theorem refilled_line (d : DcConfig) (tagaddr : Word) :
    (d.refilled set way tagaddr dc s₁ w).line = (dc s₁ w).line := by
  unfold DcConfig.refilled Dc.mapSet
  dsimp only
  split
  · split
    · rfl
    · split <;> rfl
  · rfl

end

/-! ### Refills -/

variable {ε : Type}

/-- The devices and what switches the caches on, and all ways of the data cache but one, stay. -/
structure WayChanged (set way : Nat) (s s' : Machine (Devices ε)) : Prop where
  dev : s'.dev = s.dev
  ic : s'.ic = s.ic
  dcActive : Cpu.dcActive s'.view = Cpu.dcActive s.view
  icActive : Cpu.icActive s' = Cpu.icActive s
  others : ∀ s₁ w, ¬ (s₁ = set ∧ w = way) → s'.dc s₁ w = s.dc s₁ w

namespace WayChanged

variable {set way : Nat} {s t u : Machine (Devices ε)}

theorem trans (first : WayChanged set way s t) (second : WayChanged set way t u) : WayChanged set way s u where
  dev := second.dev.trans first.dev
  ic := second.ic.trans first.ic
  dcActive := second.dcActive.trans first.dcActive
  icActive := second.icActive.trans first.icActive
  others s₁ w other := (second.others s₁ w other).trans (first.others s₁ w other)

theorem of_calm (calm : Calm s t) : WayChanged set way s t :=
  ⟨calm.dev, calm.ic, calm.dcActive, calm.icActive, fun _ _ _ => by rw [calm.dc]⟩

theorem setDc (s : Machine (Devices ε)) (dc : Dc) (others : ∀ s₁ w, ¬ (s₁ = set ∧ w = way) → dc s₁ w = s.dc s₁ w) :
    WayChanged set way s { s with dc } := ⟨rfl, rfl, rfl, rfl, others⟩

end WayChanged

section
variable {c : Config (Devices ε)} {e : Endian} {o : ε} {opd : Operands (Devices ε)}

theorem dcRefill_succ {a : Word} {way more i : Nat} {s s₁ : Machine (Devices ε)} {value : Word} {mapped : Bool}
    (read : Cpu.evalsimMem c .word (c.dc.refillAddr a i) 0 s = .ok ((value, mapped), s₁)) :
    let dc := Dc.setLine (c.dc.set a) way (c.dc.index (a + BitVec.ofNat 32 i)) value s₁.dc
    runP c opd (Cpu.dcRefill c a way (more + 1) i) s =
      if mapped then runP c opd (Cpu.dcRefill c a way more (i + 4)) { s₁ with dc }
      else .ok (false, { s₁ with dc := Dc.clear (c.dc.set a) way dc }) := by
  refine (Programs.bind_of_ok read).trans ?_
  cases mapped <;> rfl

/-- The words of the line of an address that a refill reads. -/
def LineMapped (c : Config (Devices ε)) (d : Devices ε) (a : Word) : Prop :=
  ∀ k < c.dc.blocksize / 4, (owner c d (Geometry.lineAddr c.dc a k)).isSome = true

/-- The words of the line of an address have contents. -/
def PlainLine (c : Config (Devices ε)) (e : Endian) (d : Devices ε) (a : Word) : Prop :=
  ∀ k < c.dc.blocksize / 4, Plain c e d (Geometry.lineAddr c.dc a k)

theorem PlainLine.word {d : Devices ε} {a : Word} (plain : PlainLine c e d a) : Plain c e d (wordAddr a) := by
  rw [Geometry.wordAddr_eq_lineAddr c.dc rfl rfl]
  exact plain _ (Geometry.index_lt c.dc a)

/-- A refill that comes to its end has read the words of the line; one that does not has met a word
without an area, and leaves the way empty. -/
theorem dcRefill_spec (opd : Operands (Devices ε)) (space : Space c e o) (a : Word) (way more : Nat) (n : Nat) (s : Machine (Devices ε))
    (rest : s.dev.rest = o) (plain : PlainLine c e s.dev a) :
    ∃ done s', runP c opd (Cpu.dcRefill c a way more (4 * n)) s = .ok (done, s') ∧
      WayChanged (c.dc.set a) way s s' ∧
      (done = true ↔ ∀ j < more, (owner c s.dev (c.dc.refillAddr a (4 * (n + j)))).isSome = true) ∧
      (done = true → (s'.dc (c.dc.set a) way).tagaddr = (s.dc (c.dc.set a) way).tagaddr ∧
        ∀ k, (s'.dc (c.dc.set a) way).line k = (s.dc (c.dc.set a) way).line k ∧
            (∀ j < more, k ≠ c.dc.index (a + BitVec.ofNat 32 (4 * (n + j)))) ∨
          (s'.dc (c.dc.set a) way).line k = word c s.dev (Geometry.lineAddr c.dc a k)) ∧
      (done = false → (s'.dc (c.dc.set a) way).tagaddr = -1) := by
  induction more generalizing n s with
  | zero =>
    refine ⟨true, s, rfl, .of_calm (.refl s), by simp, fun _ => ⟨rfl, fun k => .inl ⟨rfl, by simp⟩⟩, nofun⟩
  | succ more ih =>
    have plainHere : Plain c e s.dev (c.dc.refillAddr a (4 * n)) := by
      rw [Geometry.refillAddr_eq]
      exact plain _ (Geometry.index_lt c.dc _)
    obtain ⟨s₁, read, calm⟩ := evalsimMem_word space rest plainHere 0
    let dc₂ := Dc.setLine (c.dc.set a) way (c.dc.index (a + BitVec.ofNat 32 (4 * n))) (word c s.dev (c.dc.refillAddr a (4 * n))) s₁.dc
    have first : WayChanged (c.dc.set a) way s { s₁ with dc := dc₂ } := by
      refine (WayChanged.of_calm calm).trans (.setDc s₁ dc₂ fun s₁ w other => ?_)
      exact if_neg other
    rw [dcRefill_succ read]
    cases mapped : (owner c s.dev (c.dc.refillAddr a (4 * n))).isSome with
    | false =>
      rw [if_neg (by decide)]
      refine ⟨false, _, rfl, first.trans (.setDc _ _ fun s₁ w other => if_neg other), ?_, nofun, fun _ => ?_⟩
      · refine iff_of_false (by decide) fun all => ?_
        rw [show 4 * n = 4 * (n + 0) from rfl, all 0 (by omega)] at mapped
        cases mapped
      · exact congrArg Cpu.DcWay.tagaddr (if_pos ⟨rfl, rfl⟩)
    | true =>
      rw [if_pos rfl, show 4 * n + 4 = 4 * (n + 1) from by omega]
      obtain ⟨done, s', ran, changed, all, filled, empty⟩ := ih (n + 1) { s₁ with dc := dc₂ } (by rw [← rest, ← calm.dev])
        (by rw [← calm.dev] at plain; exact plain)
      have dev : ({ s₁ with dc := dc₂ } : Machine (Devices ε)).dev = s.dev := calm.dev
      rw [dev] at all filled
      refine ⟨done, s', ran, first.trans changed, ?_, fun finished => ?_, empty⟩
      · rw [all]
        constructor
        · rintro later (_ | j) inside
          · exact mapped
          · rw [show n + (j + 1) = n + 1 + j by omega]
            exact later j (by omega)
        · intro each j inside
          rw [show n + 1 + j = n + (j + 1) by omega]
          exact each (j + 1) (by omega)
      · obtain ⟨tag, lines⟩ := filled finished
        refine ⟨tag.trans ?_, fun k => ?_⟩
        · rw [← calm.dc]
          exact setLine_tagaddr ..
        rcases lines k with ⟨kept, later⟩ | read
        · have now := kept.trans (setLine_line ..)
          by_cases written : k = c.dc.index (a + BitVec.ofNat 32 (4 * n))
          · refine .inr (now.trans ?_)
            rw [if_pos ⟨rfl, rfl, written⟩, Geometry.refillAddr_eq, written]
          · rw [if_neg fun all => written all.2.2, calm.dc] at now
            refine .inl ⟨now, ?_⟩
            rintro (_ | j) inside
            · exact written
            · rw [show n + (j + 1) = n + 1 + j by omega]
              exact later j (by omega)
        · exact .inr read

theorem dcRefill_line (opd : Operands (Devices ε)) (space : Space c e o) (a : Word) (way : Nat) (s : Machine (Devices ε))
    (rest : s.dev.rest = o) (plain : PlainLine c e s.dev a) :
    ∃ done s', runP c opd (Cpu.dcRefill c a way (c.dc.blocksize / 4) 0) s = .ok (done, s') ∧
      WayChanged (c.dc.set a) way s s' ∧ (done = true ↔ LineMapped c s.dev a) ∧
      (done = true → ∀ b, c.dc.set b = c.dc.set a → c.dc.tagaddr b = c.dc.tagaddr a →
        (s'.dc (c.dc.set a) way).line (c.dc.index b) = word c s.dev (wordAddr b)) ∧
      (done = false → (s'.dc (c.dc.set a) way).tagaddr = -1) := by
  obtain ⟨done, s', ran, changed, all, filled, empty⟩ := dcRefill_spec opd space a way (c.dc.blocksize / 4) 0 s rest plain
  refine ⟨done, s', ran, changed, ?_, fun finished b set tag => ?_, empty⟩
  · rw [all]
    constructor
    · intro each k inside
      obtain ⟨n, small, rfl⟩ := Geometry.index_surjective c.dc a inside
      rw [← Geometry.refillAddr_eq]
      simpa using each n small
    · intro each j inside
      rw [Geometry.refillAddr_eq]
      exact each _ (Geometry.index_lt c.dc _)
  · rcases (filled finished).2 (c.dc.index b) with ⟨_, untouched⟩ | read
    · obtain ⟨n, small, same⟩ := Geometry.index_surjective c.dc a (Geometry.index_lt c.dc b)
      refine absurd ?_ (untouched n small)
      rw [Nat.zero_add, same]
    · rw [read, Geometry.wordAddr_eq_lineAddr c.dc set tag]

/-- One way has the line of an address from the memory, or has become empty. -/
structure Filled (c : Config (Devices ε)) (d : Devices ε) (a : Word) (way : Nat) (dc dc' : Dc) : Prop where
  inside : way < c.dc.nways
  others : ∀ s w, ¬ (s = c.dc.set a ∧ w = way) → (dc' s w).tagaddr = (dc s w).tagaddr ∧ (dc' s w).line = (dc s w).line
  here : (dc' (c.dc.set a) way).tagaddr = -1 ∨ (dc' (c.dc.set a) way).tagaddr = c.dc.tagaddr a ∧
    ∀ b, c.dc.set b = c.dc.set a → c.dc.tagaddr b = c.dc.tagaddr a →
      (dc' (c.dc.set a) way).line (c.dc.index b) = word c d (wordAddr b)

/-- The state behind a refill that came to its end. -/
def missed (c : Config (Devices ε)) (a : Word) (way : Nat) (delay : Int) (s : Machine (Devices ε)) : Machine (Devices ε) :=
  let filled := { s with dc := c.dc.refilled (c.dc.set a) way (c.dc.tagaddr a) s.dc, memCycles := s.memCycles + delay }
  if c.pcuEnabled then Cpu.pcuCountEvent Cpu.pcmrDcm filled else filled

theorem dcSimulateRead_miss {w : Width} {a : Word} (virtAddr : Word) {s s₁ : Machine (Devices ε)} {done : Bool}
    (active : Cpu.dcActive s.view = true) (absent : c.dc.findWay s.dc a = none)
    (refill : runP c opd (Cpu.dcRefill c a (c.dc.minwayRead s.dc (c.dc.set a)) (c.dc.blocksize / 4) 0) s = .ok (done, s₁)) :
    runP c opd (Cpu.dcSimulateRead c w a virtAddr) s =
      if done then
        let s₂ := missed c a (c.dc.minwayRead s.dc (c.dc.set a)) c.dc.loadMissdelay s₁
        .ok (w.select a ((s₂.dc (c.dc.set a) (c.dc.minwayRead s.dc (c.dc.set a))).line (c.dc.index a)), s₂)
      else .ok (0, s₁) := by
  have found : c.dc.findWay s.view.dc a = none := absent
  rw [Cpu.dcSimulateRead, runP_view, active]
  simp only [Bool.not_true, Bool.false_eq_true, if_false, found]
  refine (runP_bind_ok refill).trans ?_
  cases done with
  | false => rfl
  | true =>
    unfold missed
    cases c.pcuEnabled <;> rfl

theorem dcSimulateRead_hit {w : Width} {a virtAddr : Word} {s : Machine (Devices ε)} {way : Nat}
    (active : Cpu.dcActive s.view = true) (found : c.dc.findWay s.dc a = some way) :
    runP c opd (Cpu.dcSimulateRead c w a virtAddr) s =
      .ok (w.select a ((s.dc (c.dc.set a) way).line (c.dc.index a)),
        { s with dc := c.dc.hit (c.dc.set a) way s.dc, memCycles := s.memCycles + c.dc.loadHitdelay }) := by
  have found : c.dc.findWay s.view.dc a = some way := found
  rw [Cpu.dcSimulateRead, runP_view, active]
  simp only [Bool.not_true, Bool.false_eq_true, if_false, found]
  rfl

theorem dcSimulateWrite_unmapped {w : Width} {a virtAddr : Word} {data : BitVec w.bits} {s s₁ : Machine (Devices ε)}
    (written : Cpu.setsimMem c w a virtAddr data s = .ok (false, s₁)) :
    runP c opd (Cpu.dcSimulateWrite c w a virtAddr data) s = .ok ((), s₁) := by
  rw [Cpu.dcSimulateWrite, runP_setsimMem written, runP_view, Bool.not_false, Bool.or_true]
  rfl

theorem dcSimulateWrite_hit {w : Width} {a virtAddr : Word} {data : BitVec w.bits} {s s₁ : Machine (Devices ε)} {way : Nat}
    (written : Cpu.setsimMem c w a virtAddr data s = .ok (true, s₁)) (active : Cpu.dcActive s₁.view = true)
    (found : c.dc.findWay s₁.dc a = some way) :
    runP c opd (Cpu.dcSimulateWrite c w a virtAddr data) s =
      .ok ((), { s₁ with
        memCycles := s₁.memCycles + c.dc.storeHitdelay
        dc := Dc.setLine (c.dc.set a) way (c.dc.index a)
          (w.merge a ((s₁.dc (c.dc.set a) way).line (c.dc.index a)) data) (c.dc.hit (c.dc.set a) way s₁.dc) }) := by
  have found : c.dc.findWay s₁.view.dc a = some way := found
  rw [Cpu.dcSimulateWrite, runP_setsimMem written, runP_view, active]
  simp only [Bool.not_true, Bool.or_self, Bool.false_eq_true, found]
  rfl

theorem dcSimulateWrite_miss {w : Width} {a virtAddr : Word} {data : BitVec w.bits} {s s₁ s₂ : Machine (Devices ε)} {done : Bool}
    (written : Cpu.setsimMem c w a virtAddr data s = .ok (true, s₁)) (active : Cpu.dcActive s₁.view = true)
    (absent : c.dc.findWay s₁.dc a = none)
    (refill : runP c opd (Cpu.dcRefill c a (c.dc.minwayWrite s₁.dc (c.dc.set a)) (c.dc.blocksize / 4) 0) s₁ = .ok (done, s₂)) :
    runP c opd (Cpu.dcSimulateWrite c w a virtAddr data) s =
      .ok ((), if done then missed c a (c.dc.minwayWrite s₁.dc (c.dc.set a)) c.dc.storeMissdelay s₂ else s₂) := by
  have found : c.dc.findWay s₁.view.dc a = none := absent
  rw [Cpu.dcSimulateWrite, runP_setsimMem written, runP_view, active]
  simp only [Bool.not_true, Bool.or_self, Bool.false_eq_true, if_false, found]
  refine (runP_bind_ok refill).trans ?_
  cases done with
  | false => rfl
  | true =>
    unfold missed
    cases c.pcuEnabled <;> rfl

/-! ### Agreement with the memory -/

/-- Every line that an address finds holds what the memory holds. -/
def DcAgrees (c : Config (Devices ε)) (e : Endian) (d : Devices ε) (dc : Dc) : Prop :=
  (dcLines c.dc dc).Agrees (dcSplit c.dc) (fun a => Plain c e d (wordAddr a)) fun a => word c d (wordAddr a)

theorem missed_calm (c : Config (Devices ε)) (a : Word) (way : Nat) (delay : Int) (s : Machine (Devices ε)) :
    Calm { s with dc := c.dc.refilled (c.dc.set a) way (c.dc.tagaddr a) s.dc } (missed c a way delay s) := by
  unfold missed
  dsimp only
  split
  · refine Calm.trans ?_ (.pcuCountEvent _ _)
    exact ⟨rfl, rfl, rfl, rfl, rfl⟩
  · exact ⟨rfl, rfl, rfl, rfl, rfl⟩

/-- What a miss leaves, whether the refill came to its end or not. -/
theorem miss_filled (opd : Operands (Devices ε)) (space : Space c e o) {a : Word} {way : Nat} (inside : way < c.dc.nways) (delay : Int)
    (s : Machine (Devices ε)) (rest : s.dev.rest = o) (plain : PlainLine c e s.dev a) :
    ∃ done s₁, runP c opd (Cpu.dcRefill c a way (c.dc.blocksize / 4) 0) s = .ok (done, s₁) ∧
      (done = true ↔ LineMapped c s.dev a) ∧
      ∀ s', s' = (if done then missed c a way delay s₁ else s₁) →
        s'.dev = s.dev ∧ s'.ic = s.ic ∧ Cpu.dcActive s'.view = Cpu.dcActive s.view ∧
          Filled c s.dev a way s.dc s'.dc ∧
          (done = true → (s'.dc (c.dc.set a) way).line (c.dc.index a) = word c s.dev (wordAddr a)) := by
  obtain ⟨done, s₁, ran, changed, all, lines, empty⟩ := dcRefill_line opd space a way s rest plain
  refine ⟨done, s₁, ran, all, ?_⟩
  rintro s' rfl
  cases done with
  | false =>
    rw [if_neg (by decide)]
    exact ⟨changed.dev, changed.ic, changed.dcActive,
      ⟨inside, fun s w other => by rw [changed.others s w other]; exact ⟨rfl, rfl⟩, .inl (empty rfl)⟩, nofun⟩
  | true =>
    rw [if_pos rfl]
    have calm := missed_calm c a way delay s₁
    have filled := lines rfl
    refine ⟨calm.dev.trans changed.dev, calm.ic.trans changed.ic, calm.dcActive.trans changed.dcActive, ?_, fun _ => ?_⟩
    · rw [calm.dc]
      refine ⟨inside, fun s w other => ?_, .inr ⟨?_, fun b set tag => ?_⟩⟩
      · rw [refilled_tagaddr _ _ _ _ _ _ _ inside, if_neg other, refilled_line, changed.others s w other]
        exact ⟨rfl, rfl⟩
      · rw [refilled_tagaddr _ _ _ _ _ _ _ inside, if_pos ⟨rfl, rfl⟩]
      · rw [refilled_line]
        exact filled b set tag
    · rw [calm.dc, refilled_line]
      exact filled a rfl rfl

theorem Filled.agrees {d : Devices ε} {a : Word} {way : Nat} {dc dc' : Dc} (filled : Filled c d a way dc dc')
    (agrees : DcAgrees c e d dc) : DcAgrees c e d dc' := by
  refine Lines.Agrees.fill agrees (c.dc.set a) ⟨way, filled.inside⟩ (fun s w other => ?_) fun b _ set holds => ?_
  · exact filled.others s w fun same => other ⟨same.1, Fin.ext same.2⟩
  · rcases filled.here with empty | ⟨tag, lines⟩
    · exact absurd (holds.symm.trans empty) (Geometry.tagaddr_ne c.dc b)
    · exact lines b set (holds.symm.trans tag)

/-! ### Stores -/

/-- The address is one of memory that can be read and written. -/
def RamAt (c : Config (Devices ε)) (e : Endian) (d : Devices ε) (a : Word) : Prop :=
  ∃ i m, MemoryAt c e d a i m ∧ m.IsRam

/-- The area of the address, if there is one, is a memory, or a device without a writer of the width. -/
def StoreKind (c : Config (Devices ε)) (e : Endian) (d : Devices ε) (w : Width) (a : Word) : Prop :=
  ∀ i area, owner c d a = some i → c.areas[i]? = some area → (∃ m, IsMemory e i area m) ∨ area.writefunc w = none

/-- A store to an area: the memory has the value merged in if it can be read and written, and else is
as before. -/
theorem setsimMem_mapped (space : Space c e o) {s : Machine (Devices ε)} (rest : s.dev.rest = o) {w : Width}
    {a : Word} (aligned : IsAligned w a) (virtAddr : Word) (data : BitVec w.bits) (kind : StoreKind c e s.dev w a)
    {i : Nat} (found : owner c s.dev a = some i) [Decidable (RamAt c e s.dev a)] :
    ∃ s₁, Cpu.setsimMem c w a virtAddr data s = .ok (true, s₁) ∧ s₁.dc = s.dc ∧ s₁.ic = s.ic ∧ s₁.dev.rest = o ∧
      Cpu.dcActive s₁.view = Cpu.dcActive s.view ∧
      ∀ b, Plain c e s.dev (wordAddr b) → word c s₁.dev (wordAddr b) =
        if RamAt c e s.dev a ∧ wordAddr b = wordAddr a then w.merge a (word c s.dev (wordAddr b)) data
        else word c s.dev (wordAddr b) := by
  obtain ⟨area, present, _⟩ := owner_present found
  have memoryStore : ∀ m, IsMemory e i area m → ∃ s₁, Cpu.setsimMem c w a virtAddr data s = .ok (true, s₁) ∧
      s₁.dc = s.dc ∧ s₁.ic = s.ic ∧ s₁.dev.rest = o ∧ Cpu.dcActive s₁.view = Cpu.dcActive s.view ∧
      ∀ b, Plain c e s.dev (wordAddr b) → word c s₁.dev (wordAddr b) =
        if m.IsRam ∧ wordAddr b = wordAddr a then w.merge a (word c s.dev (wordAddr b)) data
        else word c s.dev (wordAddr b) := by
    intro m memory
    obtain ⟨s₁, written, calm⟩ := setsimMem_memory space rest w a virtAddr data found present memory
    refine ⟨s₁, written, calm.dc, calm.ic, ?_, calm.dcActive, fun b plain => ?_⟩
    · rw [calm.dev, ← rest]
      unfold MemConfig.writefunc
      dsimp only
      split <;> rfl
    · subst rest
      rw [calm.dev]
      exact word_store space ⟨found, area, present, memory⟩ present aligned data (wordAddr_aligned b) plain
  by_cases ram : RamAt c e s.dev a
  · obtain ⟨j, m, here, isRam⟩ := ram
    obtain rfl : j = i := Option.some.inj (here.found.symm.trans found)
    obtain ⟨area', present', memory⟩ := here.memory
    obtain rfl : area' = area := Option.some.inj (present'.symm.trans present)
    obtain ⟨s₁, written, dc, ic, rest₁, active, words⟩ := memoryStore m memory
    have isRamAt : RamAt c e s.dev a := ⟨j, m, here, isRam⟩
    refine ⟨s₁, written, dc, ic, rest₁, active, fun b plain => ?_⟩
    simpa only [isRam, isRamAt, true_and] using words b plain
  · rcases kind i area found present with ⟨m, memory⟩ | refused
    · obtain ⟨s₁, written, dc, ic, rest₁, active, words⟩ := memoryStore m memory
      refine ⟨s₁, written, dc, ic, rest₁, active, fun b plain => ?_⟩
      have notRam : ¬ m.IsRam := fun isRam => ram ⟨i, m, ⟨found, area, present, memory⟩, isRam⟩
      simpa only [notRam, ram, false_and, if_false] using words b plain
    · obtain ⟨s₁, written, calm⟩ := setsimMem_refused space rest w a virtAddr data fun j area' foundJ presentJ => by
        obtain rfl : j = i := Option.some.inj (foundJ.symm.trans found)
        obtain rfl : area' = area := Option.some.inj (presentJ.symm.trans present)
        exact refused
      rw [found] at written
      refine ⟨s₁, written, calm.dc, calm.ic, by rw [calm.dev, rest], calm.dcActive, fun b _ => ?_⟩
      rw [calm.dev, if_neg fun both => ram both.1]

theorem plain_iff (space : Space c e o) {d d₁ : Devices ε} (rest : d.rest = o) (rest₁ : d₁.rest = o) (b : Word) :
    Plain c e d₁ b ↔ Plain c e d b := by
  obtain ⟨mem, rest'⟩ := d
  obtain ⟨mem₁, rest₁'⟩ := d₁
  subst rest rest₁
  exact ⟨fun plain => plain.mem space mem, fun plain => plain.mem space mem₁⟩

theorem same_iff {a b : Word} : (dcSplit c.dc).Same b a ↔ wordAddr b = wordAddr a :=
  ⟨fun same => Geometry.wordAddr_eq_of_same c.dc same.1 same.2.1 same.2.2, fun same => Geometry.same_of_wordAddr_eq c.dc same⟩

theorem hit_agrees_iff {d d₁ : Devices ε} {dc : Dc} (agrees : DcAgrees c e d dc) {w : Width} {a : Word} {data : BitVec w.bits}
    (plain : Plain c e d (wordAddr a)) (plains : ∀ b, Plain c e d₁ b ↔ Plain c e d b) {ram : Prop} [Decidable ram]
    (words : ∀ b, Plain c e d (wordAddr b) → word c d₁ (wordAddr b) =
      if ram ∧ wordAddr b = wordAddr a then w.merge a (word c d (wordAddr b)) data else word c d (wordAddr b))
    {way : Nat} (found : c.dc.findWay dc a = some way) :
    let line := (dc (c.dc.set a) way).line (c.dc.index a)
    DcAgrees c e d₁ (Dc.setLine (c.dc.set a) way (c.dc.index a) (w.merge a line data) (c.dc.hit (c.dc.set a) way dc)) ↔
      w.merge a line data = line ∨
        ram ∧ ∀ v < c.dc.nways, (dc (c.dc.set a) v).tagaddr = c.dc.tagaddr a → v = way := by
  intro line
  obtain ⟨inside, holds⟩ := findWay_some found
  have old : line = word c d (wordAddr a) := agrees a ⟨way, inside⟩ plain holds
  have now := words a plain
  unfold DcAgrees
  simp only [plains]
  rw [Lines.Agrees.store_iff agrees (a := a) plain (w.merge a line data)
    (show (dcLines c.dc dc).Holds (dcSplit c.dc) a ⟨way, inside⟩ from holds)]
  · rw [now, ← old]
    by_cases isRam : ram
    · rw [if_pos ⟨isRam, rfl⟩]
      constructor
      · rintro ⟨_, only⟩
        by_cases kept : w.merge a line data = line
        · exact .inl kept
        · refine .inr ⟨isRam, fun v insideV tag => ?_⟩
          exact congrArg Fin.val ((only ⟨v, insideV⟩ tag).resolve_right kept)
      · rintro (kept | ⟨_, only⟩)
        · exact ⟨rfl, fun _ _ => .inr kept⟩
        · exact ⟨rfl, fun v tag => .inl (Fin.ext (only v v.isLt tag))⟩
    · rw [if_neg fun both => isRam both.1]
      constructor
      · rintro ⟨kept, _⟩
        exact .inl kept.symm
      · rintro (kept | ⟨isRam', _⟩)
        · exact ⟨kept.symm, fun _ _ => .inr kept⟩
        · exact absurd isRam' isRam
  · funext s v
    simp [dcLines]
  · simp [dcLines, dcSplit]
  · intro s v k other
    have other : ¬ (s = c.dc.set a ∧ v.val = way ∧ k = c.dc.index a) := fun all => other ⟨all.1, Fin.ext all.2.1, all.2.2⟩
    simp [dcLines, other]
  · intro b same
    rw [same_iff.mp same]
  · intro b valued other
    rw [words b valued, if_neg fun both => other (same_iff.mpr both.2)]

/-- The condition under which a cached store keeps the agreement: it meets no area, or no line of its
address; or it changes nothing; or it reaches memory that can be read and written, and one way holds the
line. -/
def StoreAgrees (c : Config (Devices ε)) (e : Endian) (s : Machine (Devices ε)) (w : Width) (a : Word) (data : BitVec w.bits) : Prop :=
  owner c s.dev a = none ∨ ∀ way, c.dc.findWay s.dc a = some way →
    let line := (s.dc (c.dc.set a) way).line (c.dc.index a)
    w.merge a line data = line ∨
      RamAt c e s.dev a ∧ ∀ v < c.dc.nways, (s.dc (c.dc.set a) v).tagaddr = c.dc.tagaddr a → v = way

/-- A cached store returns, and leaves every line in agreement with the memory exactly under that
condition. -/
theorem dcSimulateWrite_agrees_iff (space : Space c e o) (s : Machine (Devices ε)) (rest : s.dev.rest = o) (w : Width)
    (a virtAddr : Word) (data : BitVec w.bits) (aligned : IsAligned w a) (kind : StoreKind c e s.dev w a)
    (plain : PlainLine c e s.dev a) (active : Cpu.dcActive s.view = true) (agrees : DcAgrees c e s.dev s.dc) :
    ∃ s', runP c opd (Cpu.dcSimulateWrite c w a virtAddr data) s = .ok ((), s') ∧
      (DcAgrees c e s'.dev s'.dc ↔ StoreAgrees c e s w a data) := by
  classical
  cases found : owner c s.dev a with
  | none =>
    obtain ⟨s₁, written, calm⟩ := setsimMem_refused space rest w a virtAddr data fun i _ foundI => by
      rw [found] at foundI
      cases foundI
    rw [found] at written
    refine ⟨s₁, dcSimulateWrite_unmapped written, iff_of_true ?_ (.inl found)⟩
    rw [calm.dev, calm.dc]
    exact agrees
  | some i =>
    obtain ⟨s₁, written, dc, _, rest₁, active₁, words⟩ := setsimMem_mapped space rest aligned virtAddr data kind found
    have active₁ := active₁.trans active
    have plains := plain_iff space rest rest₁
    have mapped : owner c s.dev a ≠ none := by rw [found]; nofun
    rw [StoreAgrees, or_iff_right mapped]
    cases hit : c.dc.findWay s.dc a with
    | some way =>
      refine ⟨_, dcSimulateWrite_hit written active₁ (by rw [dc]; exact hit), ?_⟩
      rw [dc]
      refine (hit_agrees_iff agrees plain.word plains words hit).trans ?_
      simp
    | none =>
      have absent : c.dc.findWay s₁.dc a = none := by rw [dc]; exact hit
      obtain ⟨done, s₂, refill, _, after⟩ := miss_filled opd space (minwayWrite_lt c.dc s₁.dc (c.dc.set a))
        c.dc.storeMissdelay s₁ rest₁ (fun k inside => (plains _).mpr (plain k inside)) (a := a)
      refine ⟨_, dcSimulateWrite_miss written active₁ absent refill, iff_of_true ?_ (by simp)⟩
      obtain ⟨dev, _, _, filled, _⟩ := after _ rfl
      rw [dev]
      refine filled.agrees ?_
      rw [dc]
      unfold DcAgrees
      simp only [plains]
      refine Lines.Agrees.uncached agrees (a := a) (findWay_none_iff.mp hit) fun b valued other => ?_
      rw [words b valued, if_neg fun both => other (same_iff.mpr both.2)]

end

/-- A core with caches of one line each and one memory at zero. -/
def cachedConfig (m : MemConfig) (k : Nat) : Config (Devices Unit) :=
  { Config.bare [] [memoryArea .little 0 m 0 k] with
    dc := ⟨true, 0, 0, 0, 2, 0, 0, 0, 0⟩
    ic := ⟨true, 0, 0, 0, 2, 0, 0⟩ }

def cachedMachine (mem : Bytes) : Machine (Devices Unit) :=
  { Machine.bare ⟨fun _ => mem, ()⟩ 0 0 with
    sprs := fun r =>
      if r = Cpu.sprSr then Cpu.srDce ||| Cpu.srIce else if r = Cpu.sprUpr then Cpu.uprDcp ||| Cpu.uprIcp else 0 }

theorem cachedConfig_memory {m : MemConfig} {k i : Nat} {area : Area (Devices Unit)}
    (present : (cachedConfig m k).areas[i]? = some area) : i = 0 ∧ area = memoryArea .little 0 m 0 k := by
  rw [show (cachedConfig m k).areas = [memoryArea .little 0 m 0 k] from rfl, List.getElem?_singleton] at present
  split at present
  · next first => exact ⟨first, (Option.some.inj present).symm⟩
  · cases present

theorem plain_cachedConfig (m : MemConfig) (k : Nat) (d : Devices Unit) (a : Word) : Plain (cachedConfig m k) .little d a := by
  intro i area _ present
  obtain ⟨rfl, rfl⟩ := cachedConfig_memory present
  exact .inl ⟨m, memoryArea_isMemory _ _ _ _ _⟩

theorem storeKind_cachedConfig (m : MemConfig) (k : Nat) (d : Devices Unit) (w : Width) (a : Word) :
    StoreKind (cachedConfig m k) .little d w a := by
  intro i area _ present
  obtain ⟨rfl, rfl⟩ := cachedConfig_memory present
  exact .inl ⟨m, memoryArea_isMemory _ _ _ _ _⟩

theorem word_zero (m : MemConfig) (k : Nat) (a : Word) : word (cachedConfig m k) ⟨fun _ _ => 0, ()⟩ a = 0 := by
  unfold word peek
  cases found : owner (cachedConfig m k) ⟨fun _ _ => 0, ()⟩ a with
  | none => rfl
  | some i =>
    obtain ⟨area, present, _⟩ := owner_present found
    rw [Option.bind_some, present]
    obtain ⟨rfl, rfl⟩ := cachedConfig_memory present
    show (if 0 < m.delayr then simmemRead .little .word _ _ else 0) = 0
    split
    · show ((0 : BitVec 8) ++ (0 : BitVec 8) ++ (0 : BitVec 8) ++ (0 : BitVec 8) : Word) = 0
      decide
    · rfl

/-- The zeros that the cache starts with agree with a memory of zeros. -/
theorem dcAgrees_zero (m : MemConfig) (k : Nat) :
    DcAgrees (cachedConfig m k) .little (cachedMachine fun _ => 0).dev (cachedMachine fun _ => 0).dc := by
  intro a way _ _
  exact (word_zero m k (wordAddr a)).symm

/-- A store to memory, in a cache whose one line is that of the address. -/
theorem dcSimulateWrite_agrees_ram :
    ∃ s', runP (cachedConfig ⟨1, 1⟩ 6) Cpu.noOperands (Cpu.dcSimulateWrite (cachedConfig ⟨1, 1⟩ 6) .word 0 0 (1 : Word))
        (cachedMachine fun _ => 0) = .ok ((), s') ∧ DcAgrees (cachedConfig ⟨1, 1⟩ 6) .little s'.dev s'.dc := by
  have areas : (cachedConfig ⟨1, 1⟩ 6).areas = [memoryArea .little 0 ⟨1, 1⟩ 0 6] := rfl
  have found : owner (cachedConfig ⟨1, 1⟩ 6) (cachedMachine fun _ => 0).dev 0 = some 0 := by decide +kernel
  obtain ⟨s', ran, agrees⟩ := @dcSimulateWrite_agrees_iff _ _ _ _ Cpu.noOperands (Space.memory () areas (by decide) (by decide))
    (cachedMachine fun _ => 0) rfl .word 0 0 (1 : Word) (by decide) (storeKind_cachedConfig _ _ _ _ _)
    (fun _ _ => plain_cachedConfig _ _ _ _) (by decide +kernel) (dcAgrees_zero ⟨1, 1⟩ 6)
  refine ⟨s', ran, agrees.mpr (.inr fun way hit => .inr ⟨⟨0, ⟨1, 1⟩, ⟨found, _, rfl, memoryArea_isMemory _ _ _ _ _⟩, by decide⟩, ?_⟩)⟩
  obtain ⟨inside, _⟩ := findWay_some hit
  have ways : (cachedConfig ⟨1, 1⟩ 6).dc.nways = 1 := rfl
  intro v insideV _
  omega

/-- A store to memory that drops it is merged into the line. -/
theorem dcSimulateWrite_stale_rom :
    ¬ ∀ (c : Config (Devices Unit)) (e : Endian) (s : Machine (Devices Unit)) (w : Width) (a virtAddr : Word) (data : BitVec w.bits),
      Space c e () → IsAligned w a → StoreKind c e s.dev w a → PlainLine c e s.dev a → Cpu.dcActive s.view = true →
      DcAgrees c e s.dev s.dc →
      ∃ s', runP c Cpu.noOperands (Cpu.dcSimulateWrite c w a virtAddr data) s = .ok ((), s') ∧ DcAgrees c e s'.dev s'.dc := by
  intro claim
  have areas : (cachedConfig ⟨1, 0⟩ 6).areas = [memoryArea .little 0 ⟨1, 0⟩ 0 6] := rfl
  obtain ⟨s', ran, agrees⟩ := claim (cachedConfig ⟨1, 0⟩ 6) .little (cachedMachine fun _ => 0) .word 0 0 (1 : Word)
    (Space.memory () areas (by decide) (by decide)) (by decide) (storeKind_cachedConfig _ _ _ _ _)
    (fun _ _ => plain_cachedConfig _ _ _ _) (by decide +kernel) (dcAgrees_zero ⟨1, 0⟩ 6)
  have differs : ((runP (cachedConfig ⟨1, 0⟩ 6) Cpu.noOperands
      (Cpu.dcSimulateWrite (cachedConfig ⟨1, 0⟩ 6) .word 0 0 (1 : Word)) (cachedMachine fun _ => 0)).toOption.map
      fun r => ((r.2.dc 0 0).tagaddr, (r.2.dc 0 0).line 0, word (cachedConfig ⟨1, 0⟩ 6) r.2.dev 0)) = some (0, 1, 0) := by
    decide +kernel
  rw [ran] at differs
  simp only [Except.toOption, Option.map_some, Option.some.injEq, Prod.mk.injEq] at differs
  obtain ⟨tag, line, memory⟩ := differs
  have same : (s'.dc 0 0).line 0 = word (cachedConfig ⟨1, 0⟩ 6) s'.dev 0 :=
    agrees 0 ⟨0, by decide⟩ (plain_cachedConfig _ _ _ _) tag
  rw [line, memory] at same
  exact absurd same (by decide)

end Or1ksim.Mem
