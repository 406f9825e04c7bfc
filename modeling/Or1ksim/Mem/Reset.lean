import Or1ksim.Mem.Memory

/-!
# The contents after a reset

Accesses of all widths share the block of a memory. A reset fills the block in the order of the host, byte by byte.
-/

namespace Or1ksim.Mem

open Cpu (Word Width)

/-! ### `mem_reset` -/

inductive MemType where
  | unknown | pattern | random | exitnops
  deriving DecidableEq

/-- What `mem_reset` reads of a `mem_config`. -/
structure ResetConfig where
  size : Word
  pattern : Int
  randomSeed : Int
  type : MemType

/-- `srandom` and `random`. -/
structure Generator (σ : Type) where
  srandom : Int → σ
  random : σ → Word × σ

/-- The loop over the bytes of the block. -/
def fill {σ : Type} (byte : Nat → σ → BitVec 8 × σ) : Nat → Bytes × σ → Bytes × σ
  | 0, s => s
  | i + 1, s =>
    let s := fill byte i s
    let b := byte i s.2
    (Function.update s.1 i b.1, b.2)

/-- A byte of the words that end a simulation. -/
def exitNop (i : Nat) : BitVec 8 := if i % 4 = 3 then 0x15 else if i % 4 = 0 then 0x01 else 0x00

def memReset {σ : Type} (g : Generator σ) (m : ResetConfig) (s : Bytes × σ) : Bytes × σ :=
  match m.type with
  | .random =>
    fill (fun _ r => ((g.random r).1.setWidth 8, (g.random r).2)) m.size.toNat (s.1, if m.randomSeed = -1 then s.2
      else g.srandom m.randomSeed)
  | .pattern => fill (fun _ r => (BitVec.ofInt 8 m.pattern, r)) m.size.toNat s
  | .unknown => s
  | .exitnops => fill (fun i r => (exitNop i, r)) m.size.toNat s

theorem fill_apply {σ : Type} {byte : Nat → σ → BitVec 8 × σ} {b : Nat → BitVec 8} (same : ∀ i r, (byte i r).1 = b i) (n : Nat)
    (s : Bytes × σ) (k : Nat) : (fill byte n s).1 k = if k < n then b k else s.1 k := by
  induction n with
  | zero => rfl
  | succ n ih =>
    show Function.update (fill byte n s).1 n (byte n (fill byte n s).2).1 k = _
    by_cases here : k = n
    · rw [here, Function.update_self, same, if_pos (Nat.lt_succ_self n)]
    · rw [Function.update_of_ne here, ih]
      by_cases below : k < n
      · rw [if_pos below, if_pos (Nat.lt_succ_of_lt below)]
      · rw [if_neg below, if_neg (by omega)]

/-! ### Accesses of all widths -/

/-- A store of a guest. -/
structure Store where
  width : Width
  addr : Word
  value : BitVec width.bits

/-- The accesses see one array of bytes, whatever their widths. -/
theorem stores_agree (e : Endian) (l : List Store) (mem : Bytes) (aligned : ∀ s ∈ l, IsAligned s.width s.addr) :
    cells e (l.foldl (fun mem s => simmemWrite e s.width s.addr s.value mem) mem) =
      l.foldl (fun f s => bigWrite f s.addr.toNat s.width s.value) (cells e mem) := by
  induction l generalizing mem with
  | nil => rfl
  | cons s l ih =>
    rw [List.foldl_cons, List.foldl_cons, ih _ fun t mem' => aligned t (List.mem_cons_of_mem _ mem'),
      cells_simmemWrite e (aligned s List.mem_cons_self)]

section
variable {σ : Type} (g : Generator σ) {m : ResetConfig} (s : Bytes × σ) {addr : Word}

/-- The words of the loop, as a host reads them. -/
theorem exitnops_word (e : Endian) (type : m.type = .exitnops) (aligned : IsAligned .word addr)
    (inside : addr.toNat + 4 ≤ m.size.toNat) :
    simmemRead e .word addr (memReset g m s).1 = if e = .big then 0x01000015 else 0x15000001 := by
  have place : addr.toNat % 4 = 0 := (isAligned_iff .word addr).mp aligned
  have bytes : ∀ k < 4, (memReset g m s).1 (addr.toNat + k) = exitNop k := by
    intro k low
    unfold memReset
    rw [type]
    dsimp only
    rw [fill_apply (b := exitNop) (fun _ _ => rfl), if_pos (by omega)]
    unfold exitNop
    rw [show (addr.toNat + k) % 4 = k % 4 by omega]
  have first : (memReset g m s).1 addr.toNat = exitNop 0 := bytes 0 (by decide)
  cases e with
  | big =>
    show bigWord (memReset g m s).1 addr.toNat = _
    unfold bigWord
    rw [first, bytes 1 (by decide), bytes 2 (by decide), bytes 3 (by decide)]
    rfl
  | little =>
    have shape : simmemRead .little .word addr (memReset g m s).1 =
      ((memReset g m s).1 (addr.toNat + 3) ++ (memReset g m s).1 (addr.toNat + 2) ++
      (memReset g m s).1 (addr.toNat + 1) ++ (memReset g m s).1 addr.toNat : Word) := rfl
    rw [shape, first, bytes 1 (by decide), bytes 2 (by decide), bytes 3 (by decide)]
    rfl

end

/-- Accesses of all widths agree on every host; the words of a block that a reset fills end a simulation on a little-endian host, and
on another one there must be none. -/
theorem mixed_exitnops_iff {σ : Type} (g : Generator σ) (e : Endian) (size : Word) (pattern randomSeed : Int) :
    ((∀ (mem : Bytes) (l : List Store), (∀ s ∈ l, IsAligned s.width s.addr) → ∀ (w : Width) (addr : Word), IsAligned w addr →
        simmemRead e w addr (l.foldl (fun mem s => simmemWrite e s.width s.addr s.value mem) mem) =
          bigRead (l.foldl (fun f s => bigWrite f s.addr.toNat s.width s.value) (cells e mem)) addr.toNat w) ∧
      ∀ (s : Bytes × σ) (addr : Word), IsAligned .word addr → addr.toNat + 4 ≤ (storageSize size).toNat →
        simmemRead e .word addr (memReset g ⟨storageSize size, pattern, randomSeed, .exitnops⟩ s).1 = 0x15000001) ↔
      e = .little ∨ storageSize size = 0 := by
  have agree : ∀ (mem : Bytes) (l : List Store), (∀ s ∈ l, IsAligned s.width s.addr) → ∀ (w : Width) (addr : Word), IsAligned w addr →
      simmemRead e w addr (l.foldl (fun mem s => simmemWrite e s.width s.addr s.value mem) mem) =
        bigRead (l.foldl (fun f s => bigWrite f s.addr.toNat s.width s.value) (cells e mem)) addr.toNat w := by
    intro mem l aligned w addr place
    rw [simmemRead_eq e place, stores_agree e l mem aligned]
  constructor
  · intro ⟨_, words⟩
    cases e with
    | little => exact .inl rfl
    | big =>
      right
      by_contra some_
      have positive : (storageSize size).toNat ≠ 0 := fun zero => some_ (BitVec.eq_of_toNat_eq zero)
      have whole := storageSize_words size
      have inside : (0 : Word).toNat + 4 ≤ (storageSize size).toNat := by
        show 0 + 4 ≤ _
        omega
      have read := words (fun _ => 0, g.srandom 0) 0 (by decide) inside
      rw [exitnops_word g _ .big rfl (by decide) inside] at read
      exact absurd read (by decide)
  · intro condition
    refine ⟨agree, fun s addr place inside => ?_⟩
    rw [exitnops_word g s e rfl place inside]
    rcases condition with rfl | none
    · rfl
    · rw [none] at inside
      exact absurd inside (by show ¬addr.toNat + 4 ≤ 0; omega)

/-- The only word of a block of four bytes, on a host that is big-endian. -/
theorem exitnops_bigEndian : IsAligned .word 0 ∧ (0 : Word).toNat + 4 ≤ (storageSize 4).toNat ∧
    simmemRead .big .word 0 (memReset ⟨fun _ => (), fun _ => (0, ())⟩ ⟨storageSize 4, 0, -1, .exitnops⟩ (fun _ => 0, ())).1 =
      0x01000015 ∧
    simmemRead .big .word 0 (memReset ⟨fun _ => (), fun _ => (0, ())⟩ ⟨storageSize 4, 0, -1, .exitnops⟩ (fun _ => 0, ())).1 ≠
      0x15000001 := by
  decide

end Or1ksim.Mem
