import Or1ksim.Peripheral.CfiFlash

/-!
# Sectors and tables of the flash

`cfi_memory_size` enters the size of the device and its erase region in `cfi_table`, which all the flash sections share.
Every entry announces blocks of 128 KB. The machine erases 64 KB, from half the address on.
-/

namespace Or1ksim.CfiFlash

/-! ### The tables -/

def eraseBlkInfo : Nat := 0x1d
def deviceSize : Nat := 0x17

def cfiTable : List Half :=
  [0x51, 0x52, 0x59, 0x02, 0x00, 0x40, 0x00, 0x00, 0x00, 0x00, 0x00, 0x27, 0x36, 0x00, 0x00,
    0x06, 0x06, 0x09, 0x13, 0x03, 0x05, 0x03, 0x02, 0x1b, 0x02, 0x00, 0x06, 0x00, 0x01,
    0xff, 0x03, 0x00, 0x02, 0x00, 0x00, 0x00, 0x00, 0x00, 0x00, 0x00, 0x00, 0x00, 0x00, 0x00, 0x00, 0x00, 0x00, 0x00,
    0x50, 0x52, 0x49, 0x31, 0x33, 0x14, 0x02, 0x01, 0x00, 0x08, 0x00, 0x00, 0x02, 0xb5, 0xc5, 0x04, 0x01]

def autoselectArray : List Half :=
  [0x01, 0x7e, 0x00, 0x19, 0x00, 0x00, 0x00, 0x00, 0x00, 0x00, 0x00, 0x00, 0x00, 0x00, 0x21, 0x01]

def eraseBlkRegion1Gb : List Half := [0xff, 0x03, 0x00, 0x02]
def eraseBlkRegion512Mb : List Half := [0xff, 0x01, 0x00, 0x02]
def eraseBlkRegion256Mb : List Half := [0xff, 0x00, 0x00, 0x02]
def eraseBlkRegion128Mb : List Half := [0x7f, 0x00, 0x00, 0x02]

/-- `memcpy` into a table. -/
def copyInto (table : List Half) (start : Nat) (entries : List Half) : List Half :=
  table.take start ++ entries ++ table.drop (start + entries.length)

/-! ### The configuration -/

/-- The size of a flash, and the shared table. -/
structure Section where
  size : Nat
  table : List Half
  deriving DecidableEq, Repr

def Section.announce (s : Section) (size : Nat) (region : List Half) (code : Half) : Section :=
  ⟨size, (copyInto s.table eraseBlkInfo region).set deviceSize code⟩

def cfiMemorySize (val : Int) (s : Section) : Section :=
  if val ≤ 0x1000000 then s.announce 0x1000000 eraseBlkRegion128Mb 0x18
  else if val ≤ 0x2000000 then s.announce 0x2000000 eraseBlkRegion256Mb 0x19
  else if val ≤ 0x4000000 then s.announce 0x4000000 eraseBlkRegion512Mb 0x1a
  else s.announce 0x8000000 eraseBlkRegion1Gb 0x1b

/-- `cfi_memory_sec_start`. -/
def secStart (table : List Half) : Section := ⟨1024, table⟩

/-- A size for this flash, or for another one. -/
inductive SizeParam where
  | own (val : Int)
  | other (val : Int)
  deriving DecidableEq, Repr

def setSize (s : Section) : SizeParam → Section
  | .own val => cfiMemorySize val s
  | .other val => { s with table := (cfiMemorySize val s).table }

/-- A flash, whatever sizes the configuration gives to it and to others. -/
def configured (params : List SizeParam) : Section := params.foldl setSize (secStart cfiTable)

/-- What `cfi_memory_sec_end` allocates. -/
def Section.allocated (s : Section) : Nat := if s.size % 4 = 0 then s.size else s.size / 4 * 4 + 4

def Section.config (s : Section) (bigEndian : Bool) : Config := ⟨bigEndian, s.table, autoselectArray⟩

/-- The size of a block in the entry of the erase region, in units of 256 bytes there. -/
def announcedBlock (table : List Half) : Nat :=
  ((table.getD (eraseBlkInfo + 3) 0).toNat * 256 + (table.getD (eraseBlkInfo + 2) 0).toNat) * 256

/-! ### What the table announces -/

/-- The table has its length, and blocks of 128 KB. -/
structure Uniform (table : List Half) : Prop where
  length : table.length = 65
  block : announcedBlock table = 0x20000

theorem uniform_announce {s : Section} (size : Nat) {region : List Half} (code : Half) (h : Uniform s.table)
    (four : region.length = 4) (low : region.getD 2 0 = 0x00) (high : region.getD 3 0 = 0x02) :
    Uniform (s.announce size region code).table := by
  have start : (s.table.take eraseBlkInfo).length = 29 := by rw [List.length_take, h.length]; rfl
  have entry (k : Nat) (hk : k < 4) :
      ((copyInto s.table eraseBlkInfo region).set deviceSize code).getD (eraseBlkInfo + k) 0 = region.getD k 0 := by
    rw [List.getD_eq_getElem?_getD, List.getElem?_set_ne (by simp only [deviceSize, eraseBlkInfo]; omega), copyInto,
      List.append_assoc, List.getElem?_append_right (by rw [start, eraseBlkInfo]; omega), start,
      show eraseBlkInfo + k - 29 = k by rw [eraseBlkInfo]; omega, List.getElem?_append_left (by omega), ← List.getD_eq_getElem?_getD]
  constructor
  · rw [Section.announce, List.length_set, copyInto, List.length_append, List.length_append, start, four, List.length_drop,
      h.length, eraseBlkInfo]
  · rw [announcedBlock, Section.announce, entry 3 (by omega), entry 2 (by omega), low, high]
    rfl

theorem uniform_cfiMemorySize (val : Int) {s : Section} (h : Uniform s.table) : Uniform (cfiMemorySize val s).table := by
  unfold cfiMemorySize
  split
  · exact uniform_announce _ _ h rfl rfl rfl
  split
  · exact uniform_announce _ _ h rfl rfl rfl
  split
  · exact uniform_announce _ _ h rfl rfl rfl
  · exact uniform_announce _ _ h rfl rfl rfl

theorem uniform_setSize {s : Section} (h : Uniform s.table) (p : SizeParam) : Uniform (setSize s p).table := by
  cases p with
  | own val => exact uniform_cfiMemorySize val h
  | other val => exact uniform_cfiMemorySize val h

theorem uniform_configured (params : List SizeParam) : Uniform (configured params).table := by
  have run (s : Section) (h : Uniform s.table) : Uniform (params.foldl setSize s).table := by
    induction params generalizing s with
    | nil => exact h
    | cons p rest ih => exact ih _ (uniform_setSize h p)
  exact run _ ⟨rfl, by decide⟩

/-! ### Erasing a sector -/

/-- The write that confirms the erasure, in the state that waits for it. -/
def confirmErase (c : Config) (addr : Nat) (mem : Nat → Byte) : Flash :=
  (stateMachineProcess c .write16 addr amdCmdEraseSector ⟨.erase, mem⟩).2

theorem confirmErase_eq (c : Config) (addr : Nat) (mem : Nat → Byte) :
    confirmErase c addr mem = ⟨.read, eraseSector (addr / 2) mem⟩ := by
  have other : ¬(addr / 2 = addrUnlock1 ∧ amdCmdEraseSector = amdCmdEraseChip) := fun h => absurd h.2 (by decide)
  simp [confirmErase, stateMachineProcess, other]

/-- The announced block of the address is erased and nothing else, and the memory beyond the allocated one is not written
whatever it holds. -/
structure ErasesBlock (s : Section) (c : Config) (addr : Nat) (mem : Nat → Byte) : Prop where
  block : ∀ i, (confirmErase c addr mem).mem i =
    if i / announcedBlock c.cfiTable = addr / announcedBlock c.cfiTable then 0xff else mem i
  inside : ∀ beyond : Nat → Byte, ∀ i, s.allocated ≤ i → (confirmErase c addr beyond).mem i = beyond i

/-- The bytes of the block that are not in the 64 KB at half the address, and those that are in it and not in the block, hold
ones already; these 64 KB are inside. -/
structure ErasedBefore (s : Section) (addr : Nat) (mem : Nat → Byte) : Prop where
  missed : ∀ i, i / 0x20000 = addr / 0x20000 → ¬(addr / 2 ≤ i ∧ i < addr / 2 + sectorSize) → mem i = 0xff
  strayed : ∀ i, addr / 2 ≤ i → i < addr / 2 + sectorSize → i / 0x20000 ≠ addr / 0x20000 → mem i = 0xff
  inside : addr / 2 + sectorSize ≤ s.allocated

theorem erasesBlock_iff (s : Section) (c : Config) (uniform : Uniform c.cfiTable) (addr : Nat) (mem : Nat → Byte) :
    ErasesBlock s c addr mem ↔ ErasedBefore s addr mem := by
  constructor
  · rintro ⟨block, inside⟩
    simp only [confirmErase_eq, uniform.block, eraseSector] at block inside
    refine ⟨fun i hit missed => ?_, fun i low high stray => ?_, ?_⟩
    · have eq := block i
      rwa [if_neg missed, if_pos hit] at eq
    · have eq := block i
      rw [if_pos ⟨low, high⟩, if_neg stray] at eq
      exact eq.symm
    · -- the last byte of the 64 KB is written, so that it is inside
      by_contra beyond
      have eq := inside (fun _ => 0) (addr / 2 + sectorSize - 1) (by omega)
      rw [if_pos ⟨by simp only [sectorSize]; omega, by simp only [sectorSize]; omega⟩] at eq
      exact absurd eq (by decide)
  · rintro ⟨missed, strayed, inside⟩
    refine ⟨fun i => ?_, fun beyond i hi => ?_⟩
    · rw [confirmErase_eq, uniform.block]
      simp only [eraseSector]
      by_cases hit : i / 0x20000 = addr / 0x20000 <;> by_cases written : addr / 2 ≤ i ∧ i < addr / 2 + sectorSize
      · rw [if_pos hit, if_pos written]
      · rw [if_pos hit, if_neg written]
        exact missed i hit written
      · rw [if_neg hit, if_pos written]
        exact (strayed i written.1 written.2 hit).symm
      · rw [if_neg hit, if_neg written]
    · rw [confirmErase_eq]
      exact if_neg (by omega)

/-! ### Looking in the tables -/

/-- The access in this state finds its entry in the table. -/
def Looks (c : Config) (state : CfiState) (xfer : Xfer) (addr : Nat) : Prop :=
  ∀ dataIn mem, (stateMachineProcess c xfer addr dataIn ⟨state, mem⟩).1.isSome = true

def InQueryTable (xfer : Xfer) (addr : Nat) : Prop := xfer = .read8 ∨ xfer = .read16 → 0x10 ≤ addr / 2 ∧ addr / 2 < 0x10 + 65

/-- The array has 16 entries of two bytes. -/
def InAutoselectArray (xfer : Xfer) (addr : Nat) : Prop := (xfer = .read16 → addr / 2 < 16) ∧ (xfer = .read8 → addr / 2 < 32)

theorem isSome_tableByte (c : Config) (table : List Half) (i : Nat) :
    (tableByte c table i).isSome = true ↔ i / 2 < table.length := by
  rw [tableByte, Option.isSome_map, isSome_getElem?]

theorem looks_cfiQuery {c : Config} (uniform : Uniform c.cfiTable) (xfer : Xfer) (addr : Nat) :
    Looks c .cfiQuery xfer addr ↔ InQueryTable xfer addr := by
  have length := uniform.length
  cases xfer with
  | read8 =>
    have inside : addr / 2 * 2 < 0x20 ↔ addr / 2 < 0x10 := by omega
    have index : (addr / 2 * 2 - 0x20) / 2 = addr / 2 - 0x10 := by omega
    by_cases h : addr / 2 < 0x10
    · simp [Looks, InQueryTable, stateMachineProcess, inside, h]
    · simp [Looks, InQueryTable, stateMachineProcess, inside, h, isSome_tableByte, index, length]
      omega
  | read16 =>
    by_cases h : addr / 2 < 0x10
    · simp [Looks, InQueryTable, stateMachineProcess, h]
    · simp [Looks, InQueryTable, stateMachineProcess, h, length]
      omega
  | read32 => simp [Looks, InQueryTable, stateMachineProcess]
  | write8 => simp [Looks, InQueryTable, stateMachineProcess]
  | write16 =>
    simp [Looks, InQueryTable, stateMachineProcess]
    intro dataIn mem
    split <;> rfl

theorem looks_readId {c : Config} (array : c.autoselectArray.length = 16) (xfer : Xfer) (addr : Nat) :
    Looks c .readId xfer addr ↔ InAutoselectArray xfer addr := by
  cases xfer with
  | read8 =>
    simp [Looks, InAutoselectArray, stateMachineProcess, isSome_tableByte, array]
    omega
  | read16 => simp [Looks, InAutoselectArray, stateMachineProcess, array]
  | read32 => simp [Looks, InAutoselectArray, stateMachineProcess]
  | write8 => simp [Looks, InAutoselectArray, stateMachineProcess]
  | write16 =>
    simp [Looks, InAutoselectArray, stateMachineProcess]
    intro dataIn mem
    split <;> rfl

/-! ### Every flash -/

/-- The erasure hits its block when what it misses and what it strays into holds ones already, and the two states look in
their tables for the addresses of the entries. -/
theorem sectors_safe_iff (params : List SizeParam) (bigEndian : Bool) (addr : Nat) (mem : Nat → Byte) (xfer : Xfer) :
    (ErasesBlock (configured params) ((configured params).config bigEndian) addr mem ↔
      ErasedBefore (configured params) addr mem) ∧
    (Looks ((configured params).config bigEndian) .cfiQuery xfer addr ↔ InQueryTable xfer addr) ∧
    (Looks ((configured params).config bigEndian) .readId xfer addr ↔ InAutoselectArray xfer addr) := by
  have uniform : Uniform ((configured params).config bigEndian).cfiTable := uniform_configured params
  exact ⟨erasesBlock_iff _ _ uniform addr mem, looks_cfiQuery uniform xfer addr, looks_readId rfl xfer addr⟩

/-- In a flash of 16 MB that holds programmed data the erasure at the start of block 1 erases half of block 0 and leaves
block 1 as it is. The first word of the device has no entry. -/
theorem block_missed :
    0x20000 < (configured [.own 0x1000000]).allocated ∧
    ¬ErasesBlock (configured [.own 0x1000000]) ((configured [.own 0x1000000]).config false) 0x20000 (fun _ => 0) ∧
    ¬Looks ((configured [.own 0x1000000]).config false) .cfiQuery .read16 0 ∧
    ¬Looks ((configured [.own 0x1000000]).config false) .readId .read16 0x20 := by
  refine ⟨by decide, fun h => ?_, fun h => absurd (h 0 fun _ => 0) (by decide), fun h => absurd (h 0 fun _ => 0) (by decide)⟩
  have eq := h.block 0x10000
  rw [confirmErase_eq] at eq
  exact absurd eq (by decide)

end Or1ksim.CfiFlash
