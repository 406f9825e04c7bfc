import Or1ksim.Mem.Space

/-!
# The contents of the memories

What the memories hold, byte by byte, whether or not a guest may read it, and what becomes of it when
a program is loaded.
-/

namespace Or1ksim.Mem

open Cpu (Word Width Config Area)

/-! ### Bytes from an address on -/

/-- Some bytes from an address on replace what was there. -/
def placed (addr : Word) (bytes : List (BitVec 8)) (f : Word → BitVec 8) : Word → BitVec 8 := fun b => bytes.getD (b - addr).toNat (f b)

section
variable {addr : Word} {xs ys bytes : List (BitVec 8)} {f : Word → BitVec 8}

theorem placed_one {value : BitVec 8} {b : Word} : placed addr [value] f b = if b = addr then value else f b := by
  unfold placed
  by_cases same : b = addr
  · rw [if_pos same, same, BitVec.sub_self]
    rfl
  · refine (List.getD_eq_default _ _ (Nat.one_le_iff_ne_zero.mpr fun none => same ?_)).trans (if_neg same).symm
    rw [← BitVec.sub_add_cancel b addr, show b - addr = 0#32 from BitVec.eq_of_toNat_eq none, BitVec.zero_add]

theorem placed_nil : placed addr [] f = f := rfl

theorem sub_add_toNat {b : Word} {n : Nat} (small : n < 2 ^ 32) :
    (b - (addr + BitVec.ofNat 32 n)).toNat = ((b - addr).toNat + (2 ^ 32 - n)) % 2 ^ 32 := by
  have low := addr.isLt
  have high := b.isLt
  rw [BitVec.toNat_sub, BitVec.toNat_sub, BitVec.toNat_add, BitVec.toNat_ofNat, Nat.mod_eq_of_lt small]
  omega

theorem placed_append (fits : xs.length + ys.length ≤ 2 ^ 32) :
    placed addr (xs ++ ys) f = placed (addr + BitVec.ofNat 32 xs.length) ys (placed addr xs f) := by
  cases ys with
  | nil => rw [List.append_nil, placed_nil]
  | cons ch ys =>
    rw [List.length_cons] at fits
    funext b
    have place : (b - (addr + BitVec.ofNat 32 xs.length)).toNat = _ := sub_add_toNat (by omega)
    have small := (b - addr).isLt
    unfold placed
    rw [place]
    by_cases inside : (b - addr).toNat < xs.length
    · rw [List.getD_append _ _ _ _ inside, Nat.mod_eq_of_lt (by omega),
        List.getD_eq_default (ch :: ys) _ (by rw [List.length_cons]; omega)]
    · rw [List.getD_append_right _ _ _ _ (by omega), List.getD_eq_default xs _ (by omega),
        show (b - addr).toNat + (2 ^ 32 - xs.length) = (b - addr).toNat - xs.length + 2 ^ 32 by omega, Nat.add_mod_right,
        Nat.mod_eq_of_lt (by omega)]

theorem placed_self {j : Nat} (inside : j < bytes.length) (fits : bytes.length ≤ 2 ^ 32) :
    placed addr bytes f (addr + BitVec.ofNat 32 j) = bytes[j] := by
  have place : (addr + BitVec.ofNat 32 j - addr).toNat = j := by
    rw [BitVec.add_comm, BitVec.add_sub_cancel, BitVec.toNat_ofNat, Nat.mod_eq_of_lt (by omega)]
  unfold placed
  rw [place, List.getD_eq_getElem _ _ inside]

/-- Bytes that stand there already change nothing. -/
theorem placed_eq_of {b : Word} (stand : ∀ j (inside : j < bytes.length), b = addr + BitVec.ofNat 32 j → f b = bytes[j]) :
    placed addr bytes f b = f b := by
  unfold placed
  by_cases inside : (b - addr).toNat < bytes.length
  · have place : b = addr + BitVec.ofNat 32 (b - addr).toNat := by
      rw [BitVec.ofNat_toNat, BitVec.setWidth_eq, BitVec.add_comm, BitVec.sub_add_cancel]
    rw [List.getD_eq_getElem _ _ inside, stand _ inside place]
  · exact List.getD_eq_default _ _ (Nat.le_of_not_lt inside)

end

/-! ### Memories -/

variable {ε : Type}

/-- An address that has memory. -/
def Mapped (c : Config (Devices ε)) (d : Devices ε) (addr : Word) : Prop := (owner c d addr).isSome = true

instance (c : Config (Devices ε)) (d : Devices ε) (addr : Word) : Decidable (Mapped c d addr) := inferInstanceAs (Decidable (_ = _))

/-- The byte that the memory of an address holds. -/
def contents (c : Config (Devices ε)) (e : Endian) (d : Devices ε) (addr : Word) : BitVec 8 :=
  match owner c d addr with
  | none => 0
  | some i =>
    match c.areas[i]? with
    | none => 0
    | some a => cells e (d.mem i) (addr &&& a.sizeMask d).toNat

section
variable {c : Config (Devices ε)} {e : Endian} {o : ε} {mem mem' : Nat → Bytes} {addr b : Word} {i : Nat}
    {a : Area (Devices ε)} {w : Width}

theorem contents_of_owner {d : Devices ε} (found : owner c d addr = some i) (present : c.areas[i]? = some a) :
    contents c e d addr = cells e (d.mem i) (addr &&& a.sizeMask d).toNat := by
  unfold contents
  rw [found]
  dsimp only
  rw [present]

theorem owner_setMem (space : Space c e o) (bytes : Bytes) (b : Word) :
    owner c (Devices.setMem ⟨mem, o⟩ i bytes) b = owner c ⟨mem, o⟩ b := owner_mem space _ mem b

/-- A byte that a program puts into a memory stands at its address, and nothing else changes. -/
theorem contents_program8 (space : Space c e o) (found : owner c ⟨mem, o⟩ addr = some i) (present : c.areas[i]? = some a)
    (value : BitVec 8) :
    contents c e (Devices.setMem ⟨mem, o⟩ i (simmemWrite e .byte (addr &&& a.sizeMask ⟨mem, o⟩) value (mem i))) =
      placed addr [value] (contents c e ⟨mem, o⟩) := by
  obtain ⟨k, base, window, -⟩ := space.window i a present
  have size (mem : Nat → Bytes) : a.sizeMask ⟨mem, o⟩ = Aligned.low 32 k := window.sizeMask mem
  have offset (b : Word) : (b &&& Aligned.low 32 k).toNat = b.toNat % 2 ^ k := Aligned.and_low b (Nat.le_of_lt window.small)
  have stored (n : Nat) : cells e (simmemWrite e .byte (addr &&& Aligned.low 32 k) value (mem i)) n =
      if n = addr.toNat % 2 ^ k then value else cells e (mem i) n := by
    have written := cells_simmemWrite e (w := .byte) (aligned_byte (addr &&& Aligned.low 32 k)) value (mem i)
    rw [written, bigWrite_byte, offset]
  have window' (bytes : Bytes) : a.sizeMask (Devices.setMem ⟨mem, o⟩ i bytes) = Aligned.low 32 k := window.sizeMask _
  have mine (bytes : Bytes) : (Devices.setMem (⟨mem, o⟩ : Devices ε) i bytes).mem i = bytes := if_pos rfl
  rw [size]
  funext b
  by_cases same : b = addr
  · subst same
    rw [contents_of_owner ((owner_setMem space _ b).trans found) present, window', mine, stored, offset, if_pos rfl,
      placed_one, if_pos rfl]
  rw [placed_one, if_neg same]
  cases foundB : owner c ⟨mem, o⟩ b with
  | none =>
    unfold contents
    rw [owner_setMem space, foundB]
  | some j =>
    obtain ⟨area, presentB, -⟩ := owner_present foundB
    obtain ⟨k', base', windowB, -⟩ := space.window j area presentB
    rw [contents_of_owner ((owner_setMem space _ b).trans foundB) presentB, contents_of_owner foundB presentB]
    by_cases inside : j = i
    · subst inside
      obtain rfl : a = area := Option.some.inj (present.symm.trans presentB)
      have coversA := (owner_eq_some_iff space mem addr j).mp found
      have coversB := (owner_eq_some_iff space mem b j).mp foundB
      rw [Config.covers, present] at coversA coversB
      rw [window', size, mine, stored, offset, if_neg fun place => same (window.eq_of_mod coversA coversB place)]
    · rw [windowB.sizeMask mem, show area.sizeMask (Devices.setMem ⟨mem, o⟩ i _) = Aligned.low 32 k' from windowB.sizeMask _,
        show (Devices.setMem (⟨mem, o⟩ : Devices ε) i _).mem j = mem j from if_neg inside]

end

end Or1ksim.Mem
