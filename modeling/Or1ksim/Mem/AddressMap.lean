import Or1ksim.Lib.Aligned
import Or1ksim.Cpu.Units

/-!
# The address map

Registration and lookup of the memory areas of `cpu/common/abstract.c`. An area is a block of the
address space: its size is rounded up to a power of two and its base down to a multiple of that. The
list of areas, the area of the memory controller and the area found last are the globals `dev_list`,
`mc_area` and `cur_area`; an area is known by its place in the list.
-/

namespace Or1ksim.Mem

open Aligned (low)
open Cpu (Word)

/-! ### Registration -/

/-- The loop of `bit_mask`, with `more` shifts of a word left. A shift by 32 is undefined. -/
def bitMaskLoop : Nat → Nat → Word → Option Word
  | 0, _, _ => none
  | more + 1, i, data => if data >>> i = 0 then some data else bitMaskLoop more (i + 1) (data ||| (1 : Word) <<< i)

def bitMask (data : Word) : Option Word := bitMaskLoop 32 0 (data - 1)

/-- The part of a `dev_memarea` that places it. -/
structure Memarea where
  addrMask : Word
  addrCompare : Word
  size : Word
  sizeMask : Word
  valid : Bool
  deriving DecidableEq, Repr

structure AddressMap where
  devList : List Memarea
  mcArea : Option Nat
  curArea : Option Nat
  deriving DecidableEq, Repr

def AddressMap.empty : AddressMap := ⟨[], none, none⟩

/-- The test of `register_memoryarea_mask` against an area of the list, in 32 bits. -/
def overlaps (addrCompare size : Word) (p : Memarea) : Bool :=
  (addrCompare ≥ p.addrCompare ∧ addrCompare < p.addrCompare + p.size) ∨
    (addrCompare + size > p.addrCompare ∧ addrCompare < p.addrCompare + p.size)

/-- It ends the program when the test finds an overlap. -/
def registerMemoryareaMask (addrMask addrCompare size : Word) (mcDev : Bool) (map : AddressMap) : Option AddressMap :=
  (bitMask size).bind fun sizeMask =>
    let addrCompare := addrCompare &&& addrMask
    if map.devList.any (overlaps addrCompare size) then none
    else some
      { devList := map.devList ++ [⟨addrMask, addrCompare, size, sizeMask, true⟩]
        mcArea := if mcDev then some map.devList.length else map.mcArea
        curArea := some map.devList.length }

/-- A call of `reg_mem_area`. -/
structure Request where
  addr : Word
  size : Word
  mcDev : Bool
  deriving DecidableEq, Repr

def regMemArea (r : Request) (map : AddressMap) : Option AddressMap :=
  (bitMask r.size).bind fun sizeMask =>
    registerMemoryareaMask (~~~sizeMask) (r.addr &&& ~~~sizeMask) (sizeMask + 1) r.mcDev map

def regMemAreas : List Request → AddressMap → Option AddressMap
  | [], map => some map
  | r :: rs, map => (regMemArea r map).bind (regMemAreas rs)

/-! ### Blocks -/

theorem or_one_shift (data : Word) (i : Nat) : (data ||| low 32 i) ||| (1 : Word) <<< i = data ||| low 32 (i + 1) := by
  apply BitVec.eq_of_getLsbD_eq
  intro k inside
  by_cases below : k < i
  · simp [inside, below, show k < i + 1 by omega]
  · by_cases here : k = i
    · subst here
      simp [inside]
    · simp [inside, below, show ¬ k < i + 1 by omega, show k - i ≠ 0 by omega]

theorem bitMaskLoop_spec {more i : Nat} {data mask : Word} (total : i + more = 32)
    (done : bitMaskLoop more i (data ||| low 32 i) = some mask) :
    ∃ k < 32, mask = low 32 k ∧ data.toNat < 2 ^ k ∧ ∀ j, i ≤ j → j < k → 2 ^ j ≤ data.toNat := by
  induction more generalizing i with
  | zero => cases done
  | succ more ih =>
    rw [bitMaskLoop] at done
    split at done
    · next above =>
      obtain rfl := Option.some.inj done
      have small : data.toNat < 2 ^ i := by
        have := congrArg BitVec.toNat above
        rw [BitVec.toNat_ushiftRight, Nat.shiftRight_eq_div_pow] at this
        have := Nat.lt_of_div_eq_zero (Nat.two_pow_pos i) this
        exact Nat.lt_of_le_of_lt (by rw [BitVec.toNat_or]; exact Nat.left_le_or) this
      refine ⟨i, by omega, ?_, small, fun j _ _ => by omega⟩
      apply BitVec.eq_of_getLsbD_eq
      intro k inside
      by_cases below : k < i
      · simp [inside, below]
      · have : data.getLsbD k = false := by
          rw [BitVec.getLsbD, Nat.testBit_lt_two_pow]
          exact Nat.lt_of_lt_of_le small (Nat.pow_le_pow_right (by decide) (by omega))
        simp [below, this]
    · next rest =>
      rw [or_one_shift] at done
      obtain ⟨k, small, rfl, below, above⟩ := ih (by omega) done
      refine ⟨k, small, rfl, below, fun j from_i to_k => ?_⟩
      by_cases here : j = i
      · subst here
        by_contra less
        refine rest (BitVec.eq_of_getLsbD_eq fun n _ => ?_)
        have clear : data.getLsbD (j + n) = false := by
          rw [BitVec.getLsbD, Nat.testBit_lt_two_pow]
          exact Nat.lt_of_lt_of_le (Nat.not_le.mp less) (Nat.pow_le_pow_right (by decide) (Nat.le_add_right j n))
        rw [BitVec.getLsbD_ushiftRight, BitVec.getLsbD_or, clear, Aligned.getLsbD_low]
        simp
      · exact above j (by omega) to_k

/-- The mask is the smallest that holds the size less one. -/
theorem bitMask_spec {size mask : Word} (done : bitMask size = some mask) :
    ∃ k < 32, mask = low 32 k ∧ (size - 1).toNat < 2 ^ k ∧ ∀ j, j < k → 2 ^ j ≤ (size - 1).toNat := by
  have start : bitMaskLoop 32 0 (size - 1 ||| low 32 0) = some mask := by
    rwa [show low 32 0 = 0#32 from rfl, BitVec.or_zero]
  obtain ⟨k, small, same, below, above⟩ := bitMaskLoop_spec (show 0 + 32 = 32 from rfl) start
  exact ⟨k, small, same, below, fun j => above j (Nat.zero_le j)⟩

/-- The area is a block of `2 ^ k` addresses. -/
structure Memarea.Block (a : Memarea) (k : Nat) : Prop where
  small : k < 32
  mask : a.addrMask = ~~~low 32 k
  size : a.size.toNat = 2 ^ k
  base : a.addrCompare.toNat = a.addrCompare.toNat / 2 ^ k * 2 ^ k

/-- The addresses of an area. -/
def Memarea.covers (a : Memarea) (addr : Word) : Bool := addr &&& a.addrMask = a.addrCompare &&& a.addrMask

theorem Memarea.Block.covers_iff {a : Memarea} {k : Nat} (block : a.Block k) (addr : Word) :
    a.covers addr = true ↔ a.addrCompare.toNat ≤ addr.toNat ∧ addr.toNat < a.addrCompare.toNat + 2 ^ k := by
  have masked : a.covers addr = true ↔ addr.toNat / 2 ^ k * 2 ^ k = a.addrCompare.toNat := by
    rw [Memarea.covers, decide_eq_true_iff, ← BitVec.toNat_inj, block.mask, Aligned.and_not_low,
      Aligned.and_not_low, ← block.base]
  rw [masked]
  constructor
  · intro start
    have bounds := Aligned.block_bounds addr.toNat k
    omega
  · intro inside
    rw [block.base] at inside ⊢
    rw [Aligned.block_unique inside.1 inside.2]

/-- An area starts in itself, and ends within the address space. -/
theorem Memarea.Block.ends {a : Memarea} {k : Nat} (block : a.Block k) :
    a.covers a.addrCompare = true ∧ a.addrCompare.toNat + 2 ^ k ≤ 2 ^ 32 := by
  have positive := Nat.two_pow_pos k
  refine ⟨(block.covers_iff _).mpr ⟨Nat.le_refl _, by omega⟩, ?_⟩
  have below := a.addrCompare.isLt
  obtain ⟨d, total⟩ := Nat.exists_eq_add_of_le (Nat.le_of_lt block.small)
  have whole : (2 : Nat) ^ 32 = 2 ^ d * 2 ^ k := by
    rw [← pow_add, total, Nat.add_comm]
  rw [block.base] at below ⊢
  rw [whole] at below ⊢
  have := Nat.lt_of_mul_lt_mul_right below
  calc a.addrCompare.toNat / 2 ^ k * 2 ^ k + 2 ^ k = (a.addrCompare.toNat / 2 ^ k + 1) * 2 ^ k := by ring
    _ ≤ 2 ^ d * 2 ^ k := Nat.mul_le_mul_right _ this

/-- No address is in both areas. -/
def Memarea.Disjoint (a b : Memarea) : Prop := ∀ addr : Word, ¬ (a.covers addr = true ∧ b.covers addr = true)

/-- The area ends at `2 ^ 32`. -/
def Memarea.EndsAtTop (a : Memarea) : Prop := a.addrCompare.toNat + a.size.toNat = 2 ^ 32

instance (a : Memarea) : Decidable a.EndsAtTop := inferInstanceAs (Decidable (_ = _))

/-- An area that ends at `2 ^ 32` starts above the other. -/
def Memarea.TopAbove (a b : Memarea) : Prop :=
  (a.EndsAtTop → b.addrCompare < a.addrCompare) ∧ (b.EndsAtTop → a.addrCompare < b.addrCompare)

instance (a b : Memarea) : Decidable (a.TopAbove b) := inferInstanceAs (Decidable (_ ∧ _))

section
variable {p n : Memarea} {i j : Nat}

theorem topAbove_of_disjoint (old : p.Block i) (new : n.Block j) (apart : p.Disjoint n) : p.TopAbove n := by
  constructor
  · intro top
    rw [Memarea.EndsAtTop, old.size] at top
    have outside : ¬ (p.addrCompare.toNat ≤ n.addrCompare.toNat ∧ n.addrCompare.toNat < p.addrCompare.toNat + 2 ^ i) :=
      fun inside => apart n.addrCompare ⟨(old.covers_iff _).mpr inside, new.ends.1⟩
    have := n.addrCompare.isLt
    rw [BitVec.lt_def]
    omega
  · intro top
    rw [Memarea.EndsAtTop, new.size] at top
    have outside : ¬ (n.addrCompare.toNat ≤ p.addrCompare.toNat ∧ p.addrCompare.toNat < n.addrCompare.toNat + 2 ^ j) :=
      fun inside => apart p.addrCompare ⟨old.ends.1, (new.covers_iff _).mpr inside⟩
    have := p.addrCompare.isLt
    rw [BitVec.lt_def]
    omega

/-- The test sees every overlap of areas that do not end at `2 ^ 32`. -/
theorem disjoint_of_topAbove (old : p.Block i) (new : n.Block j)
    (unseen : overlaps n.addrCompare n.size p = false) (above : p.TopAbove n) : p.Disjoint n := by
  rintro addr ⟨inOld, inNew⟩
  have oldBounds := (old.covers_iff addr).mp inOld
  have newBounds := (new.covers_iff addr).mp inNew
  have oldEnd := old.ends.2
  have newEnd := new.ends.2
  have sum {a : Memarea} {k : Nat} (block : a.Block k) :
      (a.addrCompare + a.size).toNat = a.addrCompare.toNat + 2 ^ k ∨ a.EndsAtTop := by
    have := block.ends.2
    have := Nat.two_pow_pos k
    rw [Memarea.EndsAtTop, BitVec.toNat_add, block.size]
    omega
  simp only [overlaps, ge_iff_le, gt_iff_lt, decide_eq_false_iff_not, not_or, not_and, BitVec.le_def,
    BitVec.lt_def] at unseen
  have aboveOld : p.EndsAtTop → n.addrCompare.toNat < p.addrCompare.toNat := above.1
  have aboveNew : n.EndsAtTop → p.addrCompare.toNat < n.addrCompare.toNat := above.2
  have oldBase := Aligned.block_unique (old.base ▸ oldBounds.1) (old.base ▸ oldBounds.2)
  have newBase := Aligned.block_unique (new.base ▸ newBounds.1) (new.base ▸ newBounds.2)
  rcases Nat.le_total i j with smaller | smaller
  · -- the old area lies in the new one
    have inside := Aligned.nested (n := addr.toNat) smaller
    rw [oldBase, newBase, ← old.base, ← new.base] at inside
    rcases sum new with newSum | top
    · rcases sum old with oldSum | top
      · omega
      · have := aboveOld top
        rw [Memarea.EndsAtTop, old.size] at top
        omega
    · have := aboveNew top
      omega
  · have inside := Aligned.nested (n := addr.toNat) smaller
    rw [oldBase, newBase, ← old.base, ← new.base] at inside
    rcases sum old with oldSum | top
    · omega
    · have := aboveOld top
      omega

end

/-- What registration keeps: every area is a block, and the test saw no overlap. -/
structure AddressMap.Registered (map : AddressMap) : Prop where
  blocks : ∀ a ∈ map.devList, ∃ k, a.Block k
  unseen : map.devList.Pairwise fun p n => overlaps n.addrCompare n.size p = false

theorem low_toNat {k : Nat} (small : k < 32) : (low 32 k).toNat = 2 ^ k - 1 := by
  rw [low, BitVec.toNat_ofNat, Nat.mod_eq_of_lt]
  have := Nat.pow_lt_pow_right (a := 2) (by decide) small
  omega

theorem regMemArea_registered {r : Request} {map map' : AddressMap} (registered : map.Registered)
    (done : regMemArea r map = some map') : map'.Registered := by
  obtain ⟨mask, masked, rest⟩ := Option.bind_eq_some_iff.mp done
  obtain ⟨k, small, rfl, _⟩ := bitMask_spec masked
  obtain ⟨sizeMask, _, rest⟩ := Option.bind_eq_some_iff.mp rest
  dsimp only at rest
  by_cases seen : map.devList.any (overlaps (r.addr &&& ~~~low 32 k &&& ~~~low 32 k) (low 32 k + 1)) = true
  · rw [if_pos seen] at rest
    cases rest
  · rw [if_neg seen] at rest
    obtain rfl := Option.some.inj rest
    constructor
    · intro a member
      rcases List.mem_append.mp member with old | new
      · exact registered.blocks a old
      · obtain rfl := List.mem_singleton.mp new
        have range := Nat.pow_lt_pow_right (a := 2) (by decide) small
        have positive := Nat.two_pow_pos k
        refine ⟨k, small, rfl, ?_, ?_⟩
        · rw [BitVec.toNat_add, low_toNat small, show (1 : Word).toNat = 1 from rfl]
          omega
        · simp only [BitVec.and_assoc, BitVec.and_self, Aligned.and_not_low]
          rw [Nat.mul_div_cancel _ positive]
    · refine List.pairwise_append.mpr ⟨registered.unseen, List.pairwise_singleton _ _, fun p member n new => ?_⟩
      obtain rfl := List.mem_singleton.mp new
      simpa using List.any_eq_false.mp (Bool.eq_false_iff.mpr seen) p member

theorem regMemAreas_registered {rs : List Request} {map map' : AddressMap} (registered : map.Registered)
    (done : regMemAreas rs map = some map') : map'.Registered := by
  induction rs generalizing map with
  | nil =>
    obtain rfl := Option.some.inj done
    exact registered
  | cons r rs ih =>
    obtain ⟨mid, first, rest⟩ := Option.bind_eq_some_iff.mp done
    exact ih (regMemArea_registered registered first) rest

theorem empty_registered : AddressMap.empty.Registered := ⟨by simp [AddressMap.empty], List.Pairwise.nil⟩

/-- After any calls of `reg_mem_area` that return, the areas are disjoint exactly if each one that
ends at `2 ^ 32` starts above all others: there the sum of start and size is zero in 32 bits. -/
theorem regMemAreas_disjoint_iff (calls : List Request) (map : AddressMap)
    (registered : regMemAreas calls .empty = some map) :
    map.devList.Pairwise Memarea.Disjoint ↔ map.devList.Pairwise Memarea.TopAbove := by
  obtain ⟨blocks, unseen⟩ := regMemAreas_registered empty_registered registered
  constructor
  · intro disjoint
    refine disjoint.imp_of_mem fun {p n} pIn nIn apart => ?_
    obtain ⟨i, old⟩ := blocks p pIn
    obtain ⟨j, new⟩ := blocks n nIn
    exact topAbove_of_disjoint old new apart
  · intro above
    refine (unseen.and above).imp_of_mem fun {p n} pIn nIn both => ?_
    obtain ⟨i, old⟩ := blocks p pIn
    obtain ⟨j, new⟩ := blocks n nIn
    exact disjoint_of_topAbove old new both.1 both.2

/-- A megabyte at zero and a kilobyte at the top. -/
theorem regMemAreas_disjoint_ram_rom :
    ∃ map, regMemAreas [⟨0, 0x100000, false⟩, ⟨0xfffffc00, 0x400, false⟩] .empty = some map ∧
      map.devList.Pairwise Memarea.TopAbove ∧ map.devList.Pairwise Memarea.Disjoint := by
  have accepted : (regMemAreas [⟨0, 0x100000, false⟩, ⟨0xfffffc00, 0x400, false⟩] .empty).map
      (fun map => decide (map.devList.Pairwise Memarea.TopAbove)) = some true := by decide +kernel
  obtain ⟨map, done, above⟩ := Option.map_eq_some_iff.mp accepted
  have above := of_decide_eq_true above
  exact ⟨map, done, above, (regMemAreas_disjoint_iff _ _ done).mpr above⟩

/-- A ROM of 256 MB that ends at `2 ^ 32`, and a device inside it. -/
theorem regMemAreas_overlap_at_top :
    ¬ ∀ (calls : List Request) (map : AddressMap), regMemAreas calls .empty = some map →
      map.devList.Pairwise Memarea.Disjoint := by
  intro claim
  have accepted : (regMemAreas [⟨0xf0000000, 0x10000000, false⟩, ⟨0xf0000000, 0x1000, false⟩] .empty).map
      (fun map => map.devList.map fun a => a.covers 0xf0000000) = some [true, true] := by decide +kernel
  obtain ⟨map, done, both⟩ := Option.map_eq_some_iff.mp accepted
  have disjoint := claim _ _ done
  obtain ⟨p, n, areas⟩ : ∃ p n, map.devList = [p, n] := by
    have length := congrArg List.length both
    rw [List.length_map] at length
    exact List.length_eq_two.mp length
  rw [areas] at both disjoint
  simp only [List.map_cons, List.cons.injEq] at both
  exact (List.pairwise_cons.mp disjoint).1 n (by simp) 0xf0000000 ⟨both.1, both.2.1⟩

/-! ### Rounding up -/

theorem bitMaskLoop_ends {more i : Nat} {data : Word} (total : i + more = 32) (left : 0 < more) (small : data.toNat < 2 ^ 31) :
    ∃ mask, bitMaskLoop more i (data ||| low 32 i) = some mask := by
  induction more generalizing i with
  | zero => omega
  | succ more ih =>
    rw [bitMaskLoop]
    by_cases above : (data ||| low 32 i) >>> i = 0
    · rw [if_pos above]
      exact ⟨_, rfl⟩
    · rw [if_neg above, or_one_shift]
      refine ih (by omega) (Nat.pos_of_ne_zero fun none => above ?_)
      obtain rfl : i = 31 := by omega
      apply BitVec.eq_of_toNat_eq
      have filled : (data ||| low 32 31).toNat < 2 ^ 31 := by
        rw [BitVec.toNat_or]
        exact Nat.or_lt_two_pow small (by decide)
      rw [BitVec.toNat_ushiftRight, Nat.shiftRight_eq_div_pow, Nat.div_eq_of_lt filled]
      rfl

theorem toNat_pred (size : Word) : (size - 1).toNat = if size.toNat = 0 then 2 ^ 32 - 1 else size.toNat - 1 := by
  have bound := size.isLt
  rw [BitVec.toNat_sub, show (1 : Word).toNat = 1 from rfl]
  split <;> omega

/-- The shifts stay below 32 for the sizes from one to `2 ^ 31`. -/
theorem bitMask_some_iff (size : Word) : (∃ mask, bitMask size = some mask) ↔ 0 < size.toNat ∧ size.toNat ≤ 2 ^ 31 := by
  have pred := toNat_pred size
  constructor
  · rintro ⟨mask, done⟩
    obtain ⟨k, small, -, below, -⟩ := bitMask_spec done
    have range : 2 ^ k ≤ 2 ^ 31 := Nat.pow_le_pow_right (by decide) (by omega)
    split at pred <;> omega
  · rintro ⟨positive, half⟩
    rw [if_neg (by omega)] at pred
    have ends := bitMaskLoop_ends (show 0 + 32 = 32 from rfl) (by decide) (show (size - 1).toNat < 2 ^ 31 by omega)
    rwa [show low 32 0 = 0#32 from rfl, BitVec.or_zero] at ends

/-- The mask is that of the least power of two that holds the size, and the window that `reg_mem_area` makes of it holds the
addresses of the area, if the first one is aligned. -/
structure RoundsUp (size mask : Word) (k : Nat) : Prop where
  least : IsLeast {k | size.toNat ≤ 2 ^ k} k
  mask : mask.toNat = 2 ^ k - 1
  window : ∀ (r : Request) (map map' : AddressMap), r.size = size → 2 ^ k ∣ r.addr.toNat → regMemArea r map = some map' →
    ∃ a, map'.devList = map.devList ++ [a] ∧
      ∀ x : Word, r.addr.toNat ≤ x.toNat → x.toNat < r.addr.toNat + size.toNat → a.covers x = true

theorem regMemArea_appends {r : Request} {map map' : AddressMap} {mask : Word} (masked : bitMask r.size = some mask)
    (done : regMemArea r map = some map') :
    ∃ a, map'.devList = map.devList ++ [a] ∧ a.addrMask = ~~~mask ∧ a.addrCompare = r.addr &&& ~~~mask := by
  rw [regMemArea, masked, Option.bind_some] at done
  obtain ⟨sizeMask, _, rest⟩ := Option.bind_eq_some_iff.mp done
  dsimp only at rest
  split at rest
  · cases rest
  · cases rest
    exact ⟨_, rfl, rfl, by rw [BitVec.and_assoc, BitVec.and_self]⟩

theorem roundsUp {size mask : Word} (positive : 0 < size.toNat) (done : bitMask size = some mask) : ∃ k, RoundsUp size mask k := by
  obtain ⟨k, small, rfl, below, above⟩ := bitMask_spec done
  have pred := toNat_pred size
  rw [if_neg (by omega)] at pred
  refine ⟨k, ⟨show size.toNat ≤ 2 ^ k by omega, fun j (holds : size.toNat ≤ 2 ^ j) => ?_⟩, low_toNat small, ?_⟩
  · by_contra less
    have := above j (not_le.mp less)
    omega
  · rintro r map map' rfl aligned registered
    obtain ⟨a, appended, addrMask, addrCompare⟩ := regMemArea_appends done registered
    refine ⟨a, appended, fun x from_ to_ => ?_⟩
    have start : r.addr.toNat / 2 ^ k * 2 ^ k = r.addr.toNat := Nat.div_mul_cancel aligned
    rw [Memarea.covers, decide_eq_true_iff, addrMask, addrCompare, BitVec.and_assoc, BitVec.and_self, ← BitVec.toNat_inj,
      Aligned.and_not_low, Aligned.and_not_low, start]
    have fits : r.size.toNat ≤ 2 ^ k := by omega
    have same := @Aligned.block_unique (r.addr.toNat / 2 ^ k) x.toNat k (by omega) (by omega)
    rw [same, start]

/-- `bit_mask` rounds up the sizes from one to `2 ^ 31`; for all others it shifts by 32. -/
theorem bitMask_rounds_up_iff (size : Word) :
    (∃ mask k, bitMask size = some mask ∧ RoundsUp size mask k) ↔ 0 < size.toNat ∧ size.toNat ≤ 2 ^ 31 := by
  rw [← bitMask_some_iff]
  constructor
  · rintro ⟨mask, -, done, -⟩
    exact ⟨mask, done⟩
  · rintro ⟨mask, done⟩
    obtain ⟨positive, -⟩ := (bitMask_some_iff size).mp ⟨mask, done⟩
    obtain ⟨k, rounds⟩ := roundsUp positive done
    exact ⟨mask, k, done, rounds⟩

/-- Three gigabytes. -/
theorem bitMask_large_undefined : ¬ ∃ mask k, bitMask 0xc0000000 = some mask ∧ RoundsUp 0xc0000000 mask k := by
  rintro ⟨mask, k, done, -⟩
  have none : bitMask 0xc0000000 = none := by decide +kernel
  rw [none] at done
  cases done

end Or1ksim.Mem
