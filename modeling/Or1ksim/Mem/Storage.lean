import Or1ksim.Mem.Lookup
import Or1ksim.Mem.Memory

/-!
# The storage of a memory

`memory_sec_end` allocates the size of a memory, up to the next multiple of four, and registers an
area whose size is up to the next power of two. What is behind the storage in the area is decoded too.
-/

namespace Or1ksim.Mem

open Aligned (low)
open Cpu (Word Width)

/-- A memory: the bytes of its storage, and its area. -/
structure Storage where
  allocated : Nat
  area : Nat
  deriving DecidableEq, Repr

/-- `memory_sec_end`, which drops a memory of no size. It ends the program where `reg_mem_area` does. -/
def memorySecEnd (baseaddr size : Word) (map : AddressMap) : Option (Option Storage × AddressMap) :=
  if size = 0 then some (none, map)
  else
    (regMemArea ⟨baseaddr, storageSize size, false⟩ map).map fun registered =>
      (some ⟨(storageSize size).toNat, map.devList.length⟩, registered.setMemValid map.devList.length true)

/-- A memory controller decodes an area anew. -/
def AddressMap.remap (map : AddressMap) (i : Nat) (addrMask addrCompare : Word) (valid : Bool) : AddressMap :=
  { map with devList := map.devList.modify i fun a => { a with addrMask, addrCompare, valid } }

/-- What becomes of a map. -/
inductive Later : AddressMap → AddressMap → Prop where
  | refl (map : AddressMap) : Later map map
  | step {map next last : AddressMap} {answer : Option Nat} (op : MapOp) (done : map.step op = some (answer, next))
  (later : Later next last) :
      Later map last
  | remap {map last : AddressMap} (i : Nat) (addrMask addrCompare : Word) (valid : Bool)
      (later : Later (map.remap i addrMask addrCompare valid) last) : Later map last

/-- Every lookup that finds the area of the memory, at any time behind its registration, leads to a place
of its storage. -/
def Contained (baseaddr size : Word) : Prop :=
  ∀ map m registered later, memorySecEnd baseaddr size map = some (some m, registered) → Later registered later →
    ∀ addr a w, later.verifyMemoryarea addr = some m.area → later.devList[m.area]? = some a → IsAligned w addr →
      (addr &&& a.sizeMask).toNat + w.bytes ≤ m.allocated

/-! ### The mask of the area -/

theorem Later.sizeMask {map last : AddressMap} (later : Later map last) {i : Nat} {a : Memarea} (present : map.devList[i]? = some a) :
    ∃ b, last.devList[i]? = some b ∧ b.sizeMask = a.sizeMask := by
  induction later generalizing a with
  | refl map => exact ⟨a, present, rfl⟩
  | @step map next last answer op done later ih =>
    have kept : ∃ b, next.devList[i]? = some b ∧ b.sizeMask = a.sizeMask := by
      cases op with
      | regMemArea r =>
        obtain ⟨added, registered, same⟩ := Option.map_eq_some_iff.mp done
        cases same
        obtain ⟨mask, _, rest⟩ := Option.bind_eq_some_iff.mp registered
        obtain ⟨sizeMask, _, rest⟩ := Option.bind_eq_some_iff.mp rest
        dsimp only at rest
        split at rest
        · cases rest
        · cases rest
          exact ⟨a, by rw [List.getElem?_append_left (List.getElem?_eq_some_iff.mp present).1]; exact present, rfl⟩
      | setMemValid j valid =>
        cases done
        refine ⟨_, by rw [AddressMap.setMemValid, List.getElem?_modify, present]; rfl, ?_⟩
        dsimp only
        split <;> rfl
      | verifyMemoryarea addr =>
        cases done
        exact ⟨a, present, rfl⟩
    obtain ⟨b, there, same⟩ := kept
    obtain ⟨c, here, sameC⟩ := ih there
    exact ⟨c, here, sameC.trans same⟩
  | @remap map last j addrMask addrCompare valid later ih =>
    have kept : ∃ b, (map.remap j addrMask addrCompare valid).devList[i]? = some b ∧ b.sizeMask = a.sizeMask := by
      refine ⟨_, by rw [AddressMap.remap, List.getElem?_modify, present]; rfl, ?_⟩
      dsimp only
      split <;> rfl
    obtain ⟨b, there, same⟩ := kept
    obtain ⟨c, here, sameC⟩ := ih there
    exact ⟨c, here, sameC.trans same⟩

theorem bitMask_block {k : Nat} (small : k < 32) {mask : Word} (done : bitMask (low 32 k + 1) = some mask) : mask = low 32 k := by
  obtain ⟨n, _, rfl, below, least⟩ := bitMask_spec done
  rw [BitVec.add_sub_cancel, low_toNat small] at below least
  have positive := Nat.two_pow_pos k
  have up : k ≤ n := by
    have := (Nat.pow_lt_pow_iff_right (a := 2) (by decide)).mp (show 2 ^ k < 2 ^ (n + 1) by rw [pow_succ]; omega)
    omega
  have down : n ≤ k := by
    by_contra more
    have := least k (by omega)
    omega
  rw [Nat.le_antisymm up down]

/-- The area that `memory_sec_end` registers: a block of the least power of two that holds the storage. -/
theorem memorySecEnd_area {baseaddr size : Word} {map registered : AddressMap} {m : Storage}
    (done : memorySecEnd baseaddr size map = some (some m, registered)) :
    ∃ k < 32, ∃ a, registered.devList[m.area]? = some a ∧ a.addrMask = ~~~low 32 k ∧ a.sizeMask = low 32 k ∧
      registered.curArea = some m.area ∧ registered.mcArea = map.mcArea ∧ m.allocated = (storageSize size).toNat ∧
      m.allocated ≤ 2 ^ k ∧ ∀ j, j < k → 2 ^ j < m.allocated := by
  rw [memorySecEnd] at done
  split at done
  · cases done
  · obtain ⟨mid, registration, same⟩ := Option.map_eq_some_iff.mp done
    cases same
    obtain ⟨mask, masked, rest⟩ := Option.bind_eq_some_iff.mp registration
    obtain ⟨k, small, rfl, below, least⟩ := bitMask_spec masked
    obtain ⟨sizeMask, sized, rest⟩ := Option.bind_eq_some_iff.mp rest
    obtain rfl := bitMask_block small sized
    dsimp only at rest below least
    split at rest
    · cases rest
    · cases rest
      have positive : (storageSize size).toNat = (storageSize size - 1).toNat + 1 := by
        have bound : (2 : Nat) ^ k ≤ 2 ^ 31 := Nat.pow_le_pow_right (by decide) (by omega)
        rw [BitVec.toNat_sub, show (1 : Word).toNat = 1 from rfl] at below ⊢
        have := (storageSize size).isLt
        omega
      refine ⟨k, small, ⟨~~~low 32 k, baseaddr &&& ~~~low 32 k &&& ~~~low 32 k, low 32 k + 1, low 32 k, true⟩, ?_, rfl, rfl, rfl,
        rfl, rfl, ?_, fun j less => ?_⟩
      · rw [AddressMap.setMemValid, List.getElem?_modify, List.getElem?_append_right (Nat.le_refl _), Nat.sub_self]
        simp
      · show (storageSize size).toNat ≤ 2 ^ k
        omega
      · have := least j less
        show 2 ^ j < (storageSize size).toNat
        omega

/-! ### Accesses -/

theorem aligned_place {w : Width} {addr : Word} (aligned : IsAligned w addr) {k : Nat} (small : k < 32) (words : 2 ^ k % 4 = 0) :
    (addr &&& low 32 k).toNat + w.bytes ≤ 2 ^ k := by
  have place := (isAligned_iff w addr).mp aligned
  have divides : w.bytes ∣ 2 ^ k := by
    refine Nat.dvd_trans ?_ (Nat.dvd_of_mod_eq_zero words)
    cases w <;> decide
  rw [Aligned.and_low addr (Nat.le_of_lt small)]
  have below := Nat.mod_lt addr.toNat (Nat.two_pow_pos k)
  have whole : addr.toNat % 2 ^ k % w.bytes = 0 := by
    rw [Nat.mod_mod_of_dvd _ divides, place]
  obtain ⟨x, here⟩ := Nat.dvd_of_mod_eq_zero whole
  obtain ⟨y, all⟩ := divides
  rw [here, all] at below ⊢
  have less : x < y := Nat.lt_of_mul_lt_mul_left below
  calc w.bytes * x + w.bytes = w.bytes * (x + 1) := by ring
    _ ≤ w.bytes * y := Nat.mul_le_mul_left _ less

/-- The last byte of an area is found in it, and its place is behind all others. -/
theorem last_covered {a : Memarea} {k : Nat} (small : k < 32) (mask : a.addrMask = ~~~low 32 k) :
    a.covers (a.addrCompare ||| low 32 k) = true ∧ ((a.addrCompare ||| low 32 k) &&& low 32 k).toNat = 2 ^ k - 1 := by
  constructor
  · rw [Memarea.covers, decide_eq_true_iff, mask]
    apply BitVec.eq_of_getLsbD_eq
    intro i inside
    simp only [BitVec.getLsbD_and, BitVec.getLsbD_or, BitVec.getLsbD_not, Aligned.getLsbD_low, inside, decide_true, Bool.true_and]
    by_cases below : i < k <;> simp [below]
  · rw [← low_toNat small]
    congr 1
    apply BitVec.eq_of_getLsbD_eq
    intro i inside
    simp only [BitVec.getLsbD_and, BitVec.getLsbD_or, Aligned.getLsbD_low, inside, decide_true, Bool.true_and]
    by_cases below : i < k <;> simp [below]

/-- A memory stays within its storage, wherever it lies and whatever is registered besides, exactly if its
size is a power of two when it is rounded up to words. -/
theorem memorySecEnd_contained_iff (baseaddr size : Word)
    (accepted : ∃ m registered, memorySecEnd baseaddr size .empty = some (some m, registered)) :
    Contained baseaddr size ↔ ∃ k, (storageSize size).toNat = 2 ^ k := by
  constructor
  · intro contained
    obtain ⟨m, registered, done⟩ := accepted
    obtain ⟨k, small, a, present, mask, sizeMask, cur, mc, allocated, fits, least⟩ := memorySecEnd_area done
    obtain ⟨covers, last⟩ := last_covered small mask
    have found : registered.verifyMemoryarea (a.addrCompare ||| low 32 k) = some m.area := by
      have hit : registered.coversAt (a.addrCompare ||| low 32 k) m.area = true := by
        rw [AddressMap.coversAt, present, Option.any_some, covers]
      rw [AddressMap.verifyMemoryarea, mc, cur, Option.any_some, hit]
      rfl
    have place := contained _ m registered registered done (.refl _) _ a .byte found present (by rw [isAligned_iff]; exact Nat.mod_one _)
    rw [sizeMask, last] at place
    have positive := Nat.two_pow_pos k
    have one : (2 ^ k - 1) + 1 ≤ m.allocated := place
    exact ⟨k, by omega⟩
  · rintro ⟨n, power⟩ map m registered later done run addr b w found present aligned
    obtain ⟨k, small, a, here, mask, sizeMask, cur, mc, allocated, fits, least⟩ := memorySecEnd_area done
    obtain ⟨c, there, kept⟩ := run.sizeMask here
    obtain rfl := Option.some.inj (present.symm.trans there)
    have block : m.allocated = 2 ^ k := by
      rw [allocated, power] at fits least ⊢
      have up : n ≤ k := (Nat.pow_le_pow_iff_right (by decide)).mp fits
      have down : ¬ n < k := fun less => absurd (least n less) (Nat.lt_irrefl _)
      rw [show n = k by omega]
    rw [kept, sizeMask, block]
    refine aligned_place aligned small ?_
    rw [← block, allocated]
    exact storageSize_words size

/-- A megabyte at zero. -/
theorem memorySecEnd_contained_megabyte : Contained 0 0x100000 := by
  refine (memorySecEnd_contained_iff 0 0x100000 ?_).mpr ⟨20, by decide⟩
  have accepted : (memorySecEnd 0 0x100000 .empty).map (fun r => r.1.isSome) = some true := by decide +kernel
  obtain ⟨⟨answer, registered⟩, done, isSome⟩ := Option.map_eq_some_iff.mp accepted
  obtain ⟨m, rfl⟩ := Option.isSome_iff_exists.mp isSome
  exact ⟨m, registered, done⟩

/-- The area of a memory of twelve bytes has room for sixteen. -/
theorem memorySecEnd_outside : ¬ ∀ baseaddr size : Word,
    (∃ m registered, memorySecEnd baseaddr size .empty = some (some m, registered)) → Contained baseaddr size := by
  intro claim
  have leaves : (memorySecEnd 0 12 .empty).map (fun r => (r.1, r.2.verifyMemoryarea 12, r.2.devList.map Memarea.sizeMask)) =
      some (some ⟨12, 0⟩, some 0, [15]) := by decide +kernel
  obtain ⟨⟨answer, registered⟩, done, same⟩ := Option.map_eq_some_iff.mp leaves
  simp only [Prod.mk.injEq] at same
  obtain ⟨rfl, found, areas⟩ := same
  obtain ⟨a, here, sizeMask⟩ : ∃ a, registered.devList[0]? = some a ∧ a.sizeMask = 15 := by
    have first : (registered.devList.map Memarea.sizeMask)[0]? = some 15 := by rw [areas]; rfl
    rw [List.getElem?_map] at first
    exact Option.map_eq_some_iff.mp first
  have place := claim 0 12 ⟨_, _, done⟩ _ _ registered registered done (.refl _) 12 a .word found here (by decide)
  rw [sizeMask] at place
  exact absurd place (by decide)

end Or1ksim.Mem
