import Or1ksim.Load.Elf

/-!
# What a loaded program leaves in the memory

Whole words are stored, so a segment whose size is no multiple of four either takes bytes of the file behind it
along or, at the end of the file, loses its last ones. Nothing clears the memory of a segment that the file does not fill.
-/

namespace Or1ksim.Load

open Programs (bind_ok bind_of_ok bind_of_error)
open Cpu (Word Machine Sim Stop)
open Debug (DebugConfig Board Alike setProgram8 inBlock inMemory)
open Mem (Devices Endian Mapped contents placed)

/-! ### Chunks -/

/-- A part of the file that is stored from an address on. Its first bytes belong to a segment. -/
structure Chunk where
  addr : Word
  offset : Word
  size : Word
  own : Nat
  deriving DecidableEq, Repr

/-- How many words are read, with some bytes left in the file. A size from `2 ^ 31` on is negative. -/
def wordCount (left : Nat) (size : Int) : Nat := min ((size.toNat + 3) / 4) (left / 4)

/-- The bytes that are stored. -/
def Chunk.bytes (f : File) (ch : Chunk) : File :=
  (f.drop ch.offset.toNat).take (4 * wordCount (f.length - ch.offset.toNat) ch.size.toInt)

/-- A byte is stored at the address. -/
def Chunk.Stores (f : File) (ch : Chunk) (x : Word) : Prop := (x - ch.addr).toNat < (ch.bytes f).length

instance (f : File) (ch : Chunk) (x : Word) : Decidable (ch.Stores f x) := inferInstanceAs (Decidable (_ < _))

def segments (f : File) : List Phdr := (phdata f).filter fun ph => ph.type = ptLoad

def Phdr.chunk (ph : Phdr) : Chunk := ⟨ph.paddr, ph.offset, ph.filesz, ph.filesz.toNat⟩

/-- No byte of a section is one of a segment when there are no segments. -/
def Shdr.chunk (phs : List Phdr) (s : Shdr) : Chunk := ⟨sectionPadd phs s, s.offset, s.size, 0⟩

/-- What is stored, in order. -/
def chunks (f : File) : List Chunk :=
  if segments f = [] then ((shdata f).filter isProgbits).map (Shdr.chunk (phdata f)) else (segments f).map Phdr.chunk

/-- What stands at an address in the end, with what stood there before. -/
def lastStored (f : File) (chs : List Chunk) (x : Word) (before : Byte) : Byte :=
  chs.foldl (fun b ch => (ch.bytes f).getD (x - ch.addr).toNat b) before

section
variable {f : File} {x : Word} {b : Byte}

/-- The last chunk that stores at the address decides. -/
theorem lastStored_cases (f : File) (chs : List Chunk) (x : Word) (b : Byte) :
    ((∀ ch ∈ chs, ¬ch.Stores f x) ∧ lastStored f chs x b = b) ∨
      ∃ pre ch post, chs = pre ++ ch :: post ∧ ch.Stores f x ∧ (∀ later ∈ post, ¬later.Stores f x) ∧
        lastStored f chs x b = (ch.bytes f).getD (x - ch.addr).toNat 0 := by
  induction chs using List.reverseRecOn with
  | nil => exact .inl ⟨nofun, rfl⟩
  | append_singleton chs ch ih =>
    have step : lastStored f (chs ++ [ch]) x b = (ch.bytes f).getD (x - ch.addr).toNat (lastStored f chs x b) := List.foldl_append
    by_cases here : ch.Stores f x
    · refine .inr ⟨chs, ch, [], rfl, here, nofun, step.trans ?_⟩
      rw [List.getD_eq_getElem _ _ here, List.getD_eq_getElem _ _ here]
    · have kept : lastStored f (chs ++ [ch]) x b = lastStored f chs x b :=
        step.trans (List.getD_eq_default _ _ (Nat.le_of_not_lt here))
      rw [kept]
      rcases ih with ⟨none, same⟩ | ⟨pre, last, post, rfl, stores, later, same⟩
      · refine .inl ⟨fun c inside => ?_, same⟩
        rcases List.mem_append.mp inside with inside | inside
        · exact none c inside
        · exact List.mem_singleton.mp inside ▸ here
      · refine .inr ⟨pre, last, post ++ [ch], by rw [List.append_assoc, List.cons_append], stores, fun c inside => ?_, same⟩
        rcases List.mem_append.mp inside with inside | inside
        · exact later c inside
        · exact List.mem_singleton.mp inside ▸ here

theorem lastStored_none {chs : List Chunk} (none : ∀ ch ∈ chs, ¬ch.Stores f x) (b : Byte) : lastStored f chs x b = b := by
  rcases lastStored_cases f chs x b with ⟨-, same⟩ | ⟨pre, ch, post, is, stores, -⟩
  · exact same
  · exact absurd stores (none ch (is ▸ List.mem_append_right pre List.mem_cons_self))

end

/-! ### The bytes that are stored -/

/-- Bytes from an address on, each with its own address. -/
def places (addr : Word) : File → List (Word × Byte)
  | [] => []
  | b :: bytes => (addr, b) :: places (addr + 1) bytes

/-- What the chunks store, in order. -/
def storedBytes (f : File) (chs : List Chunk) : List (Word × Byte) := chs.flatMap fun ch => places ch.addr (ch.bytes f)

/-- What stands at an address once some bytes have been stored. -/
def afterBytes (bytes : List (Word × Byte)) (x : Word) (before : Byte) : Byte :=
  bytes.foldl (fun b place => if x = place.1 then place.2 else b) before

theorem places_append (addr : Word) (xs ys : File) :
    places addr (xs ++ ys) = places addr xs ++ places (addr + BitVec.ofNat 32 xs.length) ys := by
  induction xs generalizing addr with
  | nil => exact congrArg (places · ys) (BitVec.add_zero addr).symm
  | cons b xs ih =>
    have next : addr + 1 + BitVec.ofNat 32 xs.length = addr + BitVec.ofNat 32 (xs.length + 1) := by
      rw [BitVec.ofNat_add, BitVec.add_assoc, BitVec.add_comm (1 : Word)]
      rfl
    rw [List.cons_append, places, ih, next]
    rfl

theorem afterBytes_places {addr x : Word} {bytes : File} (fits : bytes.length ≤ 2 ^ 32) (b : Byte) :
    afterBytes (places addr bytes) x b = placed addr bytes (fun _ => b) x := by
  induction bytes generalizing addr b with
  | nil => rfl
  | cons c bytes ih =>
    rw [List.length_cons] at fits
    calc afterBytes (places addr (c :: bytes)) x b
      _ = afterBytes (places (addr + 1) bytes) x (if x = addr then c else b) := rfl
      _ = placed (addr + 1) bytes (fun _ => if x = addr then c else b) x := ih (by omega) _
      _ = placed (addr + 1) bytes (placed addr [c] fun _ => b) x := by
        unfold placed
        exact congrArg _ (Mem.placed_one (f := fun _ => b)).symm
      _ = placed addr ([c] ++ bytes) (fun _ => b) x := by
        rw [Mem.placed_append (by rw [List.length_singleton]; omega)]
        rfl

theorem bytes_length_le (f : File) (ch : Chunk) : (ch.bytes f).length ≤ 2 ^ 32 := by
  have small := ch.size.toInt_lt
  unfold Chunk.bytes wordCount
  rw [List.length_take]
  omega

theorem afterBytes_storedBytes (f : File) (chs : List Chunk) (x : Word) (b : Byte) :
    afterBytes (storedBytes f chs) x b = lastStored f chs x b := by
  induction chs generalizing b with
  | nil => rfl
  | cons ch chs ih =>
    have first : afterBytes (places ch.addr (ch.bytes f)) x b = (ch.bytes f).getD (x - ch.addr).toNat b :=
      afterBytes_places (bytes_length_le f ch) b
    calc afterBytes (storedBytes f (ch :: chs)) x b
      _ = afterBytes (places ch.addr (ch.bytes f) ++ storedBytes f chs) x b := rfl
      _ = afterBytes (storedBytes f chs) x (afterBytes (places ch.addr (ch.bytes f)) x b) := List.foldl_append
      _ = lastStored f (ch :: chs) x b := by
        rw [first, ih]
        rfl

section
variable {δ : Type} {l : LoadConfig δ} {f : File}

/-- Bytes go to their addresses, one after the other. -/
def storeBytes (u : DebugConfig δ) : List (Word × Byte) → Sim δ Unit
  | [] => pure ()
  | (addr, b) :: rest => do
    setProgram8 u addr b
    storeBytes u rest

theorem storeBytes_append (u : DebugConfig δ) (xs ys : List (Word × Byte)) :
    storeBytes u (xs ++ ys) = storeBytes u xs >>= fun _ => storeBytes u ys := by
  induction xs with
  | nil => rfl
  | cons place xs ih => rw [List.cons_append, storeBytes, storeBytes, ih, bind_assoc]

theorem extract_bytes (a b c d : Byte) :
    (a ++ b ++ c ++ d : Word).extractLsb' 24 8 = a ∧ (a ++ b ++ c ++ d : Word).extractLsb' 16 8 = b ∧
      (a ++ b ++ c ++ d : Word).extractLsb' 8 8 = c ∧ (a ++ b ++ c ++ d : Word).extractLsb' 0 8 = d := by
  refine ⟨?_, ?_, ?_, ?_⟩
  all_goals
    apply BitVec.eq_of_getLsbD_eq
    intro i small
    simp only [BitVec.getLsbD_extractLsb', BitVec.getLsbD_append, small, decide_true, Bool.true_and]
  · rw [if_neg (by omega), if_neg (by omega), if_neg (by omega), show 24 + i - 8 - 8 - 8 = i by omega]
  · rw [if_neg (by omega), if_neg (by omega), if_pos (by omega), show 16 + i - 8 - 8 = i by omega]
  · rw [if_neg (by omega), if_pos (by omega), show 8 + i - 8 = i by omega]
  · rw [if_pos (by omega), Nat.zero_add]

theorem addprogram_eq (named : l.filename = true) (addr : Word) (a b c d : Byte) :
    addprogram l addr addr (a ++ b ++ c ++ d) = storeBytes l.debug (places addr [a, b, c, d]) >>= fun _ => pure (addr + 4) := by
  obtain ⟨is1, is2, is3, is4⟩ := extract_bytes a b c d
  have second : addr + 1 + 1 = addr + 2 := by rw [BitVec.add_assoc]; rfl
  have third : addr + 2 + 1 = addr + 3 := by rw [BitVec.add_assoc]; rfl
  unfold addprogram translate
  simp only [named, is1, is2, is3, is4, if_true, places, storeBytes, second, third, bind_assoc, pure_bind, insnLen]

theorem wordCount_step {left : Nat} {size : Int} (some : 0 < size) :
    wordCount (left + 4) size = wordCount left (size - 4) + 1 := by
  unfold wordCount
  omega

/-- The loop stores whole words. -/
theorem loadWords_eq (named : l.filename = true) (bytes : File) (size : Int) (addr : Word) :
    ∃ last, loadWords l bytes size addr =
      storeBytes l.debug (places addr (bytes.take (4 * wordCount bytes.length size))) >>= fun _ => pure last := by
  have ends {bytes : File} {size : Int} {addr : Word} (zero : wordCount bytes.length size = 0)
      (stops : loadWords l bytes size addr = pure addr) : ∃ last, loadWords l bytes size addr =
        storeBytes l.debug (places addr (bytes.take (4 * wordCount bytes.length size))) >>= fun _ => pure last := by
    refine ⟨addr, ?_⟩
    rw [zero, stops]
    rfl
  induction bytes, size, addr using loadWords.induct with
  | case1 a b c d bytes size freemem some ih =>
    obtain ⟨last, rest⟩ := ih (freemem + 4)
    have count : wordCount (a :: b :: c :: d :: bytes).length size = wordCount bytes.length (size - 4) + 1 := wordCount_step some
    have taken : (a :: b :: c :: d :: bytes).take (4 * wordCount (a :: b :: c :: d :: bytes).length size) =
        [a, b, c, d] ++ bytes.take (4 * wordCount bytes.length (size - 4)) := by
      rw [count, show 4 * (wordCount bytes.length (size - 4) + 1) = 4 * wordCount bytes.length (size - 4) + 4 by omega]
      rfl
    refine ⟨last, ?_⟩
    rw [loadWords, if_pos some, addprogram_eq named, taken, places_append, storeBytes_append, bind_assoc, bind_assoc]
    simp only [pure_bind, rest]
    rfl
  | case2 a b c d bytes size freemem none =>
    refine ends ?_ (by rw [loadWords, if_neg none])
    unfold wordCount
    omega
  | case3 bytes size freemem short =>
    have few : bytes.length < 4 := by
      by_contra long
      match bytes with
      | a :: b :: c :: d :: bytes => exact short a b c d bytes rfl
      | [] | [_] | [_, _] | [_, _, _] => simp at long
    refine ends ?_ (by rw [loadWords]; exact short)
    unfold wordCount
    omega

/-- The loops over headers load some chunks. -/
def loadChunks (l : LoadConfig δ) (f : File) : List Chunk → Nat → Word → Sim δ (Nat × Word)
  | [], loaded, freemem => pure (loaded, freemem)
  | ch :: rest, loaded, _ => do
    let freemem ← loadFrom l f ch.offset ch.size ch.addr
    loadChunks l f rest (loaded + 1) freemem

theorem loadByProgramHeaders_eq (l : LoadConfig δ) (f : File) (phs : List Phdr) (loaded : Nat) (freemem : Word) :
    loadByProgramHeadersElf l f phs loaded freemem =
      loadChunks l f ((phs.filter fun ph => ph.type = ptLoad).map Phdr.chunk) loaded freemem := by
  induction phs generalizing loaded freemem with
  | nil => rfl
  | cons ph rest ih =>
    unfold loadByProgramHeadersElf
    by_cases is : ph.type = ptLoad
    · rw [if_pos is, List.filter_cons_of_pos (by simpa using is), List.map_cons, loadChunks]
      simp only [ih]
      rfl
    · rw [if_neg is, List.filter_cons_of_neg (by simpa using is)]
      exact ih loaded freemem

theorem loadSections_eq (l : LoadConfig δ) (f : File) (phs : List Phdr) (ss : List Shdr) (loaded : Nat) (freemem : Word) :
    loadSections l f phs ss loaded freemem = loadChunks l f ((ss.filter isProgbits).map (Shdr.chunk phs)) loaded freemem := by
  induction ss generalizing loaded freemem with
  | nil => rfl
  | cons s rest ih =>
    unfold loadSections
    by_cases is : isProgbits s = true
    · rw [if_pos is, List.filter_cons_of_pos is, List.map_cons, loadChunks]
      simp only [ih]
      rfl
    · rw [if_neg is, List.filter_cons_of_neg is]
      exact ih loaded freemem

theorem loadChunks_eq (named : l.filename = true) (f : File) (chs : List Chunk) (loaded : Nat) (freemem : Word) :
    ∃ last, loadChunks l f chs loaded freemem =
      storeBytes l.debug (storedBytes f chs) >>= fun _ => pure (loaded + chs.length, last) := by
  induction chs generalizing loaded freemem with
  | nil => exact ⟨freemem, rfl⟩
  | cons ch chs ih =>
    obtain ⟨first, words⟩ := loadWords_eq named (f.drop ch.offset.toNat) ch.size.toInt ch.addr
    rw [List.length_drop] at words
    obtain ⟨last, rest⟩ := ih (loaded + 1) first
    refine ⟨last, ?_⟩
    have all : storedBytes f (ch :: chs) = places ch.addr (ch.bytes f) ++ storedBytes f chs := rfl
    rw [loadChunks, loadFrom, words, bind_assoc, all, storeBytes_append, bind_assoc]
    simp only [pure_bind, rest, List.length_cons, Nat.add_assoc, Nat.add_comm 1]
    rfl

end

/-! ### Bytes in the memories -/

section
variable {ε : Type} {u : DebugConfig (Devices ε)} {e : Endian} {blocks : Nat → Option Word} {holds : ε → Prop}
  {m m' m₁ : Machine (Devices ε)} {g g' : Word → Byte → Byte}

/-- The machine has gone from one state to another, in which these bytes are in the memories. -/
structure Stored (u : DebugConfig (Devices ε)) (e : Endian) (blocks : Nat → Option Word) (holds : ε → Prop)
    (m m' : Machine (Devices ε)) (g : Word → Byte → Byte) : Prop where
  held : holds m'.dev.rest
  bytes : ∀ x, contents u.cpu e m'.dev x =
    if inMemory u blocks m.dev x = true then g x (contents u.cpu e m.dev x) else contents u.cpu e m.dev x

theorem Stored.refl (held : holds m.dev.rest) : Stored u e blocks holds m m fun _ b => b := ⟨held, fun _ => (ite_self _).symm⟩

theorem Stored.trans (board : Board u e blocks holds) (held : holds m.dev.rest) (first : Stored u e blocks holds m m₁ g)
    (second : Stored u e blocks holds m₁ m' g') : Stored u e blocks holds m m' fun x b => g' x (g x b) := by
  refine ⟨second.held, fun x => ?_⟩
  have same : inMemory u blocks m₁.dev x = inMemory u blocks m.dev x := board.inMemory first.held held x
  rw [second.bytes, first.bytes, same]
  split <;> rfl

theorem setProgram8_stored (board : Board u e blocks holds) (held : holds m.dev.rest) {addr : Word} {value : Byte}
    (ran : setProgram8 u addr value m = .ok ((), m')) :
    Stored u e blocks holds m m' fun x b => if x = addr then value else b := by
  by_cases mapped : Mapped u.cpu m.dev addr
  · have taken := Debug.setProgram8_taken board held mapped ran
    refine ⟨taken.held, fun x => ?_⟩
    rw [taken.contents]
    unfold Debug.stored
    rw [Mem.placed_one]
  · -- the byte goes nowhere
    have none : u.cpu.area (Cpu.verifyMemoryarea u.cpu addr m) = none :=
      Option.isNone_iff_eq_none.mp ((Debug.area_isNone (board.space _ held)).mpr mapped)
    unfold Debug.setProgram8 at ran
    rw [Programs.modify_bind, Programs.get_bind, none] at ran
    cases ran
    refine ⟨held, fun x => ?_⟩
    show contents u.cpu e m.dev x = _
    split
    · next there =>
      refine (if_neg fun same => mapped ?_).symm
      obtain ⟨i, found, -⟩ := (Option.any_eq_true _ _).mp there
      exact Option.isSome_iff_exists.mpr ⟨i, same ▸ found⟩
    · rfl

theorem storeBytes_stored (board : Board u e blocks holds) (held : holds m.dev.rest) {bytes : List (Word × Byte)}
    (ran : storeBytes u bytes m = .ok ((), m')) : Stored u e blocks holds m m' (afterBytes bytes) := by
  induction bytes generalizing m with
  | nil =>
    cases ran
    exact .refl held
  | cons place bytes ih =>
    obtain ⟨_, m₁, first, rest⟩ := bind_ok ran
    have here := setProgram8_stored board held first
    have whole := here.trans board held (ih here.held rest)
    exact ⟨whole.held, whole.bytes⟩

end

/-! ### Well-formed files -/

/-- The segment takes up the address. -/
def Phdr.Covers (ph : Phdr) (x : Word) : Prop := (x - ph.paddr).toNat < ph.memsz.toNat

instance (ph : Phdr) (x : Word) : Decidable (ph.Covers x) := inferInstanceAs (Decidable (_ < _))

def inFile (f : File) (offset size : Word) : Prop := offset.toNat + size.toNat ≤ f.length

/-- A big-endian executable of 32 bits, whose tables, symbols, names and segments are in the file, and whose segments do not
overlap. -/
structure WellFormed (f : File) : Prop where
  header : sizeofEhdr ≤ f.length
  ident : f.take 6 = elfMagic ++ [1, 2]
  executable : (ehdr f).type = etExec
  sections : (ehdr f).shnum ≠ 0 → (ehdr f).shentsize.toNat = sizeofShdr ∧
    (ehdr f).shoff.toNat + sizeofShdr * (ehdr f).shnum.toNat ≤ f.length
  programs : (ehdr f).phnum ≠ 0 → (ehdr f).phoff ≠ 0 ∧ (ehdr f).phentsize.toNat = sizeofPhdr ∧
    (ehdr f).phoff.toNat + sizeofPhdr * (ehdr f).phnum.toNat ≤ f.length
  names : (ehdr f).shstrndx ≠ shnUndef → ∃ s, (shdata f)[(ehdr f).shstrndx.toNat]? = some s ∧ inFile f s.offset s.size
  symbols : ∀ s ∈ shdata f, s.type = shtSymtab → inFile f s.offset s.size ∧ s.entsize ≠ 0 ∧
    ∃ str, (shdata f)[s.link.toNat]? = some str ∧ inFile f str.offset str.size
  filled : ∀ ph ∈ segments f, inFile f ph.offset ph.filesz ∧ ph.filesz.toNat ≤ ph.memsz.toNat
  apart : (segments f).Pairwise fun a b => ∀ x, ¬(a.Covers x ∧ b.Covers x)

/-- No table that is read is empty: there are section headers, there are program headers if there is a place for them, and
the tables of symbols and names have entries. -/
structure NoEmptyTable (f : File) : Prop where
  sections : (ehdr f).shnum ≠ 0
  programs : (ehdr f).phoff ≠ 0 → (ehdr f).phnum ≠ 0
  names : segments f = [] → (ehdr f).shstrndx ≠ shnUndef → ∀ s, (shdata f)[(ehdr f).shstrndx.toNat]? = some s → s.size ≠ 0
  symbols : chunks f ≠ [] → ∀ s ∈ shdata f, s.type = shtSymtab →
    s.size ≠ 0 ∧ ∀ str, (shdata f)[s.link.toNat]? = some str → str.size ≠ 0

section
variable {ε : Type} {l : LoadConfig (Devices ε)} {e : Endian} {blocks : Nat → Option Word} {holds : ε → Prop}
  {m m' : Machine (Devices ε)} {f : File}

theorem freads_inFile {offset size : Word} (inside : inFile f offset size) : freads f offset.toNat size.toNat = true ↔ size ≠ 0 := by
  have zero : size.toNat ≠ 0 ↔ size ≠ 0 := not_congr ⟨fun z => BitVec.eq_of_toNat_eq z, fun z => z ▸ rfl⟩
  unfold freads
  rw [Bool.and_eq_true, decide_eq_true_iff, decide_eq_true_iff, zero]
  exact and_iff_left inside

/-- A run returns under a condition, and ends the program otherwise. -/
structure Ends {α : Type} (p : Sim (Devices ε) α) (m : Machine (Devices ε)) (good : Prop) (post : α → Machine (Devices ε) → Prop) :
    Prop where
  returns : good → ∃ a m', p m = .ok (a, m') ∧ post a m'
  fails : ¬good → ∃ why, p m = .error why

variable {α β : Type} {p : Sim (Devices ε) α} {next : α → Sim (Devices ε) β} {c d : Prop} {post : α → Machine (Devices ε) → Prop}
  {post' : β → Machine (Devices ε) → Prop}

theorem Ends.ok {a : α} (ran : p m = .ok (a, m')) (holds : post a m') : Ends p m True post :=
  ⟨fun _ => ⟨a, m', ran, holds⟩, fun no => absurd trivial no⟩

theorem Ends.congr (ends : Ends p m c post) (same : c ↔ d) : Ends p m d post :=
  ⟨fun good => ends.returns (same.mpr good), fun bad => ends.fails fun good => bad (same.mp good)⟩

theorem Ends.bind (first : Ends p m c post) (second : ∀ a m', post a m' → Ends (next a) m' d post') :
    Ends (p >>= next) m (c ∧ d) post' := by
  constructor
  · rintro ⟨good, good'⟩
    obtain ⟨a, m₁, ran, holds⟩ := first.returns good
    obtain ⟨b, m₂, ran', holds'⟩ := (second a m₁ holds).returns good'
    exact ⟨b, m₂, by rw [bind_of_ok ran, ran'], holds'⟩
  · intro bad
    by_cases good : c
    · obtain ⟨a, m₁, ran, holds⟩ := first.returns good
      obtain ⟨why, failed⟩ := (second a m₁ holds).fails fun good' => bad ⟨good, good'⟩
      exact ⟨why, by rw [bind_of_ok ran, failed]⟩
    · obtain ⟨why, failed⟩ := first.fails good
      refine ⟨why, ?_⟩
      show (p m >>= fun r => next r.1 r.2) = _
      rw [failed]
      rfl

theorem Ends.after {a : α} (ran : p m = .ok (a, m')) (ends : Ends (next a) m' d post') : Ends (p >>= next) m d post' := by
  have same : (p >>= next) m = next a m' := bind_of_ok ran
  exact ⟨fun good => same ▸ ends.returns good, fun bad => same ▸ ends.fails bad⟩

theorem Ends.fread (f : File) (offset size : Nat) (m : Machine (Devices ε)) :
    Ends (freadOrExit f offset size) m (freads f offset size = true) fun _ m' => m' = m := by
  unfold freadOrExit
  constructor
  · intro reads
    rw [if_pos reads]
    exact ⟨(), m, rfl, rfl⟩
  · intro no
    rw [if_neg no]
    exact ⟨.exit, rfl⟩

/-- The tables of symbols of some sections are not empty. -/
def SymbolsRead (f : File) (ss : List Shdr) : Prop :=
  ∀ s ∈ ss, s.type = shtSymtab → s.size ≠ 0 ∧ ∀ str, (shdata f)[s.link.toNat]? = some str → str.size ≠ 0

theorem symbolsRead_cons (f : File) (s : Shdr) (rest : List Shdr) :
    SymbolsRead f (s :: rest) ↔
      (s.type = shtSymtab → s.size ≠ 0 ∧ ∀ str, (shdata f)[s.link.toNat]? = some str → str.size ≠ 0) ∧ SymbolsRead f rest :=
  List.forall_mem_cons

theorem loadLabels_ends (wf : WellFormed f) (ss : List Shdr) (known : ∀ s ∈ ss, s ∈ shdata f) (m : Machine (Devices ε)) :
    Ends (loadLabelsElf f ss) m (SymbolsRead f ss) fun _ m' => m' = m := by
  induction ss with
  | nil =>
    have done : Ends (loadLabelsElf f [] : Sim (Devices ε) Unit) m True fun _ m' => m' = m := .ok (a := ()) rfl rfl
    exact done.congr (iff_of_true trivial fun _ inside => absurd inside List.not_mem_nil)
  | cons s rest ih =>
    have ih := ih fun t inside => known t (List.mem_cons_of_mem s inside)
    by_cases is : s.type = shtSymtab
    · obtain ⟨inside, entries, str, found, insideStr⟩ := wf.symbols s (known s List.mem_cons_self) is
      have small : s.link.toNat ≤ (ehdr f).shnum.toNat := by
        have less := (List.getElem?_eq_some_iff.mp found).1
        simp only [shdata, List.length_map, List.length_range] at less
        omega
      have unfolded : (loadLabelsElf f (s :: rest) : Sim (Devices ε) Unit) =
          freadOrExit f s.offset.toNat s.size.toNat >>= fun _ =>
            freadOrExit f str.offset.toNat str.size.toNat >>= fun _ => loadLabelsElf f rest := by
        rw [loadLabelsElf, if_pos is]
        simp only [if_neg entries, if_pos small, found]
      rw [unfolded]
      refine ((Ends.fread f _ _ m).bind fun _ m₁ same₁ => (Ends.fread f _ _ m₁).bind
        (d := SymbolsRead f rest) fun _ m₂ same₂ => ?_).congr ?_
      · rw [same₂, same₁]
        exact ih
      · rw [freads_inFile inside, freads_inFile insideStr, symbolsRead_cons, ← and_assoc]
        refine and_congr_left fun _ => ⟨fun both _ => ⟨both.1, fun str' found' => ?_⟩, fun all => ⟨(all is).1, (all is).2 str found⟩⟩
        obtain rfl := Option.some.inj (found.symm.trans found')
        exact both.2
    · have unfolded : (loadLabelsElf f (s :: rest) : Sim (Devices ε) Unit) = loadLabelsElf f rest := by
        rw [loadLabelsElf, if_neg is]
      rw [unfolded]
      refine ih.congr ?_
      rw [symbolsRead_cons]
      exact (and_iff_right fun here => absurd here is).symm

/-- The table of the names of sections, which is read when there are no segments. -/
def NamesRead (f : File) : Prop :=
  (ehdr f).shstrndx ≠ shnUndef → ∀ s, (shdata f)[(ehdr f).shstrndx.toNat]? = some s → s.size ≠ 0

/-- All that is stored is taken. A memory takes every byte; a device may ask for something that ends the program. -/
def Takes (l : LoadConfig (Devices ε)) (f : File) (m : Machine (Devices ε)) : Prop :=
  ∃ r, storeBytes l.debug (storedBytes f (chunks f)) m = .ok r

theorem loadChunks_ends (board : Board l.debug e blocks holds) (held : holds m.dev.rest) (named : l.filename = true)
    (loaded : Nat) (freemem : Word) :
    Ends (loadChunks l f (chunks f) loaded freemem) m (Takes l f m) fun r m' =>
      r.1 = loaded + (chunks f).length ∧ Stored l.debug e blocks holds m m' (lastStored f (chunks f)) := by
  obtain ⟨last, all⟩ := loadChunks_eq named f (chunks f) loaded freemem
  rw [all]
  constructor
  · rintro ⟨⟨_, m'⟩, ran⟩
    have stored := storeBytes_stored board held ran
    refine ⟨_, m', bind_of_ok ran, rfl, stored.held, fun x => ?_⟩
    rw [stored.bytes, afterBytes_storedBytes]
  · intro not
    cases ran : storeBytes l.debug (storedBytes f (chunks f)) m with
    | ok r => exact absurd ⟨r, ran⟩ not
    | error why => exact ⟨why, bind_of_error ran⟩

/-- The section headers are used when there are no segments. -/
theorem loadSectionHeaders_ends (board : Board l.debug e blocks holds) (held : holds m.dev.rest) (named : l.filename = true)
    (wf : WellFormed f) (none : segments f = []) (freemem : Word) :
    Ends (loadBySectionHeadersElf l f freemem) m (NamesRead f ∧ Takes l f m) fun r m' =>
      r.1 = (chunks f).length ∧ Stored l.debug e blocks holds m m' (lastStored f (chunks f)) := by
  have these : chunks f = ((shdata f).filter isProgbits).map (Shdr.chunk (phdata f)) := if_pos none
  have body := loadChunks_ends (f := f) board held named 0 freemem
  rw [Nat.zero_add] at body
  have same : loadSections l f (phdata f) (shdata f) 0 freemem = loadChunks l f (chunks f) 0 freemem := by
    rw [loadSections_eq, ← these]
  rw [← same] at body
  by_cases given : (ehdr f).shstrndx ≠ shnUndef
  · obtain ⟨s, found, inside⟩ := wf.names given
    have unfolded : loadBySectionHeadersElf l f freemem =
        freadOrExit f s.offset.toNat s.size.toNat >>= fun _ => loadSections l f (phdata f) (shdata f) 0 freemem := by
      unfold loadBySectionHeadersElf
      simp only [if_pos given, found]
    rw [unfolded]
    refine ((Ends.fread f _ _ m).bind (d := Takes l f m) fun _ m₁ same => ?_).congr ?_
    · rw [same]
      exact body
    · rw [freads_inFile inside]
      refine and_congr_left fun _ => ⟨fun size _ t found' => ?_, fun all => all given s found⟩
      obtain rfl := Option.some.inj (found.symm.trans found')
      exact size
  · have unfolded : loadBySectionHeadersElf l f freemem = loadSections l f (phdata f) (shdata f) 0 freemem := by
      unfold loadBySectionHeadersElf
      rw [if_neg given]
    rw [unfolded]
    exact body.congr (and_iff_right fun named => absurd named given).symm

theorem loadHeaders_ends (board : Board l.debug e blocks holds) (held : holds m.dev.rest) (named : l.filename = true)
    (wf : WellFormed f) (freemem : Word) :
    Ends (loadHeaders l f freemem) m
      (((segments f = [] → NamesRead f) ∧ Takes l f m) ∧ (chunks f ≠ [] → SymbolsRead f (shdata f))) fun _ m' =>
      Stored l.debug e blocks holds m m' (lastStored f (chunks f)) := by
  -- the labels leave the machine as it is
  have labels (loaded : Nat) (freemem : Word) (m₁ : Machine (Devices ε)) (count : loaded = (chunks f).length)
      (stored : Stored l.debug e blocks holds m m₁ (lastStored f (chunks f))) :
      Ends (if loaded ≠ 0 then loadLabelsElf f (shdata f) >>= fun _ => pure freemem else pure freemem) m₁
        (chunks f ≠ [] → SymbolsRead f (shdata f)) fun _ m' => Stored l.debug e blocks holds m m' (lastStored f (chunks f)) := by
    have some : loaded ≠ 0 ↔ chunks f ≠ [] := by rw [count, Ne, List.length_eq_zero_iff]
    by_cases any : loaded ≠ 0
    · rw [if_pos any]
      refine ((loadLabels_ends wf (shdata f) (fun _ => id) m₁).bind (d := True) fun _ m₂ same => ?_).congr ?_
      · exact .ok rfl (same ▸ stored)
      · rw [and_true, imp_iff_right (some.mp any)]
    · rw [if_neg any]
      exact (Ends.ok rfl stored).congr (iff_of_true trivial fun other => absurd (some.mpr other) any)
  have headers : loadByProgramHeadersElf l f (phdata f) 0 freemem = loadChunks l f ((segments f).map Phdr.chunk) 0 freemem :=
    loadByProgramHeaders_eq l f (phdata f) 0 freemem
  unfold loadHeaders
  rw [headers]
  by_cases none : segments f = []
  · have sections := (loadSectionHeaders_ends board held named wf none freemem).bind fun r m₂ both => labels r.1 r.2 m₂ both.1 both.2
    rw [none]
    refine Ends.after (a := (0, freemem)) rfl (sections.congr ?_)
    exact and_congr_left fun _ => and_congr_left fun _ => ⟨fun read _ => read, fun read => read rfl⟩
  · have these : chunks f = (segments f).map Phdr.chunk := if_neg none
    have some : ¬(segments f).length = 0 := fun zero => none (List.length_eq_zero_iff.mp zero)
    have segments' := loadChunks_ends (f := f) board held named 0 freemem
    rw [← these]
    refine (segments'.bind (d := chunks f ≠ [] → SymbolsRead f (shdata f)) fun r m₂ both => ?_).congr ?_
    · have count : r.1 = (chunks f).length := both.1.trans (Nat.zero_add _)
      have any : ¬r.1 = 0 := by rwa [count, these, List.length_map]
      simp only [any, if_false]
      exact Ends.after (a := r) rfl (labels r.1 r.2 m₂ count both.2)
    · exact and_congr_left fun _ => (and_iff_right fun empty => absurd empty none).symm

/-- A well-formed file is loaded when no table that is read is empty. -/
theorem readfileElf_ends (board : Board l.debug e blocks holds) (held : holds m.dev.rest) (named : l.filename = true)
    (wf : WellFormed f) (freemem : Word) :
    Ends (readfileElf l f freemem) m (NoEmptyTable f ∧ Takes l f m) fun _ m' =>
      Stored l.debug e blocks holds m m' (lastStored f (chunks f)) := by
  have programs (m : Machine (Devices ε)) : Ends (readPhdata f) m ((ehdr f).phoff ≠ 0 → (ehdr f).phnum ≠ 0) fun _ m' => m' = m := by
    unfold readPhdata
    by_cases place : (ehdr f).phoff ≠ 0
    · rw [if_pos place]
      refine (Ends.fread f _ _ m).congr ?_
      rw [imp_iff_right place]
      by_cases some : (ehdr f).phnum ≠ 0
      · obtain ⟨-, size, inside⟩ := wf.programs some
        refine iff_of_true ?_ some
        rw [size, freads, Bool.and_eq_true, decide_eq_true_iff, decide_eq_true_iff]
        have positive : (ehdr f).phnum.toNat ≠ 0 := fun zero => some (BitVec.eq_of_toNat_eq zero)
        unfold sizeofPhdr at inside ⊢
        omega
      · rw [not_not.mp some]
        refine iff_of_false ?_ (not_not.mpr rfl)
        simp [freads]
    · rw [if_neg place]
      exact (Ends.ok (a := ()) rfl rfl).congr (iff_of_true trivial fun there => absurd there place)
  have laid (m : Machine (Devices ε)) : Ends (layTables f) m
      (¬((ehdr f).phnum ≠ 0 ∧ ((ehdr f).phoff = 0 ∨ (ehdr f).phentsize.toNat < sizeofPhdr) ∨ (ehdr f).shentsize.toNat < sizeofShdr))
      fun _ m' => m' = m := by
    unfold layTables
    split
    · next beyond => exact ⟨fun no => absurd beyond no, fun _ => ⟨.crash, rfl⟩⟩
    · next inside => exact (Ends.ok (a := ()) rfl rfl).congr (iff_of_true trivial inside)
  unfold readfileElf
  refine ((Ends.fread f _ _ m).bind fun _ m₁ same₁ => (Ends.fread f _ _ m₁).bind fun _ m₂ same₂ => (programs m₂).bind fun _ m₃ same₃ =>
    (laid m₃).bind (d := ((segments f = [] → NamesRead f) ∧ Takes l f m) ∧ (chunks f ≠ [] → SymbolsRead f (shdata f)))
      fun _ m₄ same₄ => ?_).congr ?_
  · rw [same₄, same₃, same₂, same₁]
    exact loadHeaders_ends board held named wf freemem
  · have header : freads f 0 sizeofEhdr = true := by
      have long := wf.header
      simp [freads, sizeofEhdr] at long ⊢
      exact long
    have some (filled : (ehdr f).shnum ≠ 0) :
        freads f (ehdr f).shoff.toNat ((ehdr f).shentsize.toNat * (ehdr f).shnum.toNat) = true ∧
          ¬(ehdr f).shentsize.toNat < sizeofShdr := by
      obtain ⟨size, inside⟩ := wf.sections filled
      have positive : (ehdr f).shnum.toNat ≠ 0 := fun zero => filled (BitVec.eq_of_toNat_eq zero)
      rw [size, freads, Bool.and_eq_true, decide_eq_true_iff, decide_eq_true_iff]
      unfold sizeofShdr at inside ⊢
      omega
    constructor
    · rintro ⟨-, sections, programs, -, ⟨names, takes⟩, symbols⟩
      refine ⟨⟨fun zero => ?_, programs, names, symbols⟩, takes⟩
      rw [zero] at sections
      simp [freads] at sections
    · rintro ⟨filled, takes⟩
      obtain ⟨reads, entry⟩ := some filled.sections
      refine ⟨header, reads, filled.programs, ?_, ⟨filled.names, takes⟩, filled.symbols⟩
      rintro (⟨any, none | short⟩ | short)
      · exact (wf.programs any).1 none
      · rw [(wf.programs any).2.1] at short
        exact absurd short (Nat.lt_irrefl _)
      · exact entry short

theorem loadcode_ends (board : Board l.debug e blocks holds) (held : holds m.dev.rest) (named : l.filename = true)
    (wf : WellFormed f) (startaddr : Word) :
    Ends (loadcode l f startaddr) m (NoEmptyTable f ∧ Takes l f m) fun _ m' =>
      Stored l.debug e blocks holds m m' (lastStored f (chunks f)) := by
  have magic : f.take 4 = elfMagic := by
    have ident := congrArg (List.take 4) wf.ident
    rwa [List.take_take] at ident
  have first : byteAt f 0 = 0x7f := by
    have head := congrArg (List.getD · 0 0) magic
    match f, head with
    | _ :: _, head => exact head
  have other : ¬(sizeofCoffFilehdr ≤ f.length ∧ elfShortH f 0 = 0x17a) := by
    rintro ⟨-, coff⟩
    have high := congrArg (BitVec.extractLsb' 8 8) coff
    rw [elfShortH, first, BitVec.extractLsb'_append_eq_left] at high
    exact absurd high (by decide)
  have identified : identifyfile l f startaddr = readfileElf l f startaddr := by
    unfold identifyfile
    rw [if_neg other, if_pos ⟨wf.header, magic⟩, if_neg (not_not.mpr wf.executable)]
  unfold loadcode
  rw [identified]
  refine ((readfileElf_ends board held named wf startaddr).bind (d := True) fun _ m₁ stored => ?_).congr (and_iff_left trivial)
  exact .ok rfl stored

end


/-! ### What has to be in the memory -/

/-- What belongs at an address, with what stood there before: a byte of the file, a zero behind the part of the segment that is
in the file, or what stood there. -/
def due (f : File) (x : Word) (before : Byte) : Byte :=
  match (segments f).find? fun ph => ph.Covers x with
  | none => before
  | some ph => if (x - ph.paddr).toNat < ph.filesz.toNat then byteAt f (ph.offset.toNat + (x - ph.paddr).toNat) else 0

section
variable {ε : Type} {l : LoadConfig (Devices ε)} {e : Endian} {blocks : Nat → Option Word} {holds : ε → Prop}
  {m m₁ m' : Machine (Devices ε)} {f : File} {x : Word}

/-- The segments are in the blocks of memories. -/
def InMemory (l : LoadConfig (Devices ε)) (blocks : Nat → Option Word) (f : File) (m : Machine (Devices ε)) : Prop :=
  ∀ ph ∈ segments f, ∀ x, ph.Covers x → inBlock l.debug blocks m.dev x = true

/-- The segments hold their parts of the file, what lies behind these is cleared, and nothing else has changed. -/
structure Exact (l : LoadConfig (Devices ε)) (e : Endian) (f : File) (m m' : Machine (Devices ε)) : Prop where
  filled : ∀ ph ∈ segments f, ∀ k < ph.filesz.toNat,
    contents l.debug.cpu e m'.dev (ph.paddr + BitVec.ofNat 32 k) = byteAt f (ph.offset.toNat + k)
  cleared : ∀ ph ∈ segments f, ∀ k, ph.filesz.toNat ≤ k → k < ph.memsz.toNat →
    contents l.debug.cpu e m'.dev (ph.paddr + BitVec.ofNat 32 k) = 0
  kept : ∀ x, (∀ ph ∈ segments f, ¬ph.Covers x) → contents l.debug.cpu e m'.dev x = contents l.debug.cpu e m.dev x

/-- The program is loaded into the blocks of memories, and exactly, whatever stands behind the blocks. -/
structure LoadsExactly (l : LoadConfig (Devices ε)) (e : Endian) (blocks : Nat → Option Word) (f : File) (startaddr : Word)
    (m : Machine (Devices ε)) : Prop where
  memory : InMemory l blocks f m
  loads : ∀ m₁, Alike l.debug e blocks m m₁ → ∃ freemem m', loadcode l f startaddr m₁ = .ok (freemem, m') ∧ Exact l e f m₁ m'

/-- No byte is stored behind the block of a memory. Every byte that is stored last at its address, and is not of the chunk's segment,
is the one that belongs there, and so is every byte of a block at which nothing is stored. -/
structure Fits (l : LoadConfig (Devices ε)) (e : Endian) (blocks : Nat → Option Word) (f : File) (m : Machine (Devices ε)) : Prop where
  inside : ∀ ch ∈ chunks f, ∀ x, ch.Stores f x → inMemory l.debug blocks m.dev x = true → inBlock l.debug blocks m.dev x = true
  beyond : ∀ pre ch post, chunks f = pre ++ ch :: post → ∀ x, inBlock l.debug blocks m.dev x = true → ch.Stores f x →
    ch.own ≤ (x - ch.addr).toNat → (∀ later ∈ post, ¬later.Stores f x) →
    byteAt f (ch.offset.toNat + (x - ch.addr).toNat) = due f x (contents l.debug.cpu e m.dev x)
  missed : ∀ x, inBlock l.debug blocks m.dev x = true → (∀ ch ∈ chunks f, ¬ch.Stores f x) →
    contents l.debug.cpu e m.dev x = due f x (contents l.debug.cpu e m.dev x)

theorem add_sub_toNat (a : Word) {k : Nat} (small : k < 2 ^ 32) : (a + BitVec.ofNat 32 k - a).toNat = k := by
  rw [BitVec.add_comm, BitVec.add_sub_cancel, BitVec.toNat_ofNat, Nat.mod_eq_of_lt small]

theorem add_ofNat_sub (a x : Word) : a + BitVec.ofNat 32 (x - a).toNat = x := by
  rw [BitVec.ofNat_toNat, BitVec.setWidth_eq, BitVec.add_comm, BitVec.sub_add_cancel]

theorem find_covers (wf : WellFormed f) {ph : Phdr} (inside : ph ∈ segments f) (covers : ph.Covers x) :
    (segments f).find? (fun ph => ph.Covers x) = some ph := by
  cases found : (segments f).find? fun ph => ph.Covers x with
  | none => exact absurd (decide_eq_true covers) (List.find?_eq_none.mp found ph inside)
  | some q =>
    have qCovers : q.Covers x := by simpa using List.find?_some found
    by_contra differ
    have : Std.Symm fun a b : Phdr => ∀ x, ¬(a.Covers x ∧ b.Covers x) := ⟨fun a b none x both => none x both.symm⟩
    exact wf.apart.forall (List.mem_of_find?_eq_some found) inside (fun same => differ (congrArg some same)) x ⟨qCovers, covers⟩

theorem due_covers (wf : WellFormed f) {ph : Phdr} (inside : ph ∈ segments f) (covers : ph.Covers x) (before : Byte) :
    due f x before = if (x - ph.paddr).toNat < ph.filesz.toNat then byteAt f (ph.offset.toNat + (x - ph.paddr).toNat) else 0 := by
  unfold due
  rw [find_covers wf inside covers]

theorem due_outside (outside : ∀ ph ∈ segments f, ¬ph.Covers x) (before : Byte) : due f x before = before := by
  unfold due
  rw [List.find?_eq_none.mpr fun ph inside covers => outside ph inside (of_decide_eq_true covers)]

theorem exact_iff_due (wf : WellFormed f) :
    Exact l e f m m' ↔ ∀ x, contents l.debug.cpu e m'.dev x = due f x (contents l.debug.cpu e m.dev x) := by
  constructor
  · intro exact' x
    by_cases covered : ∃ ph ∈ segments f, ph.Covers x
    · obtain ⟨ph, inside, covers⟩ := covered
      rw [due_covers wf inside covers]
      split
      · next within =>
        have byte := exact'.filled ph inside _ within
        rwa [add_ofNat_sub] at byte
      · next behind =>
        have byte := exact'.cleared ph inside _ (Nat.le_of_not_lt behind) covers
        rwa [add_ofNat_sub] at byte
    · have outside : ∀ ph ∈ segments f, ¬ph.Covers x := fun ph inside covers => covered ⟨ph, inside, covers⟩
      rw [due_outside outside]
      exact exact'.kept x outside
  · intro all
    have at' (ph : Phdr) {k : Nat} (less : k < ph.memsz.toNat) :
        ph.Covers (ph.paddr + BitVec.ofNat 32 k) ∧ (ph.paddr + BitVec.ofNat 32 k - ph.paddr).toNat = k := by
      have place := add_sub_toNat ph.paddr (Nat.lt_trans less ph.memsz.isLt)
      exact ⟨by unfold Phdr.Covers; rwa [place], place⟩
    refine ⟨fun ph inside k within => ?_, fun ph inside k behind less => ?_, fun x outside => ?_⟩
    · obtain ⟨covers, place⟩ := at' ph (Nat.lt_of_lt_of_le within (wf.filled ph inside).2)
      rw [all, due_covers wf inside covers, place, if_pos within]
    · obtain ⟨covers, place⟩ := at' ph less
      rw [all, due_covers wf inside covers, place, if_neg (Nat.not_lt.mpr behind)]
    · rw [all, due_outside outside]

theorem bytes_getD {ch : Chunk} (stores : ch.Stores f x) :
    (ch.bytes f).getD (x - ch.addr).toNat 0 = byteAt f (ch.offset.toNat + (x - ch.addr).toNat) := by
  unfold Chunk.Stores Chunk.bytes at stores
  rw [List.length_take] at stores
  unfold byteAt Chunk.bytes
  rw [List.getD_eq_getElem?_getD, List.getD_eq_getElem?_getD, List.getElem?_take_of_lt (by omega), List.getElem?_drop]

theorem lastStored_split {pre post : List Chunk} {ch : Chunk} (stores : ch.Stores f x) (later : ∀ c ∈ post, ¬c.Stores f x) (b : Byte) :
    lastStored f (pre ++ ch :: post) x b = byteAt f (ch.offset.toNat + (x - ch.addr).toNat) := by
  have step : lastStored f (pre ++ ch :: post) x b = lastStored f post x
      ((ch.bytes f).getD (x - ch.addr).toNat (lastStored f pre x b)) := by
    unfold lastStored
    rw [List.foldl_append, List.foldl_cons]
  rw [step, lastStored_none later, ← bytes_getD stores, List.getD_eq_getElem _ _ stores, List.getD_eq_getElem _ _ stores]

/-- The first bytes of a chunk belong where they are stored. -/
theorem due_own (wf : WellFormed f) {ch : Chunk} (inside : ch ∈ chunks f) (own : (x - ch.addr).toNat < ch.own) (before : Byte) :
    due f x before = byteAt f (ch.offset.toNat + (x - ch.addr).toNat) := by
  unfold chunks at inside
  split at inside
  · obtain ⟨s, -, rfl⟩ := List.mem_map.mp inside
    cases own
  · obtain ⟨ph, known, rfl⟩ := List.mem_map.mp inside
    have covers : ph.Covers x := Nat.lt_of_lt_of_le own (wf.filled ph known).2
    exact (due_covers wf known covers before).trans (if_pos own)

theorem exact_of_fits (board : Board l.debug e blocks holds) (held : holds m.dev.rest) (wf : WellFormed f)
    (memory : InMemory l blocks f m) (fits : Fits l e blocks f m) (alike : Alike l.debug e blocks m m₁)
    (stored : Stored l.debug e blocks holds m₁ m' (lastStored f (chunks f))) : Exact l e f m₁ m' := by
  refine (exact_iff_due wf).mpr fun x => ?_
  have same : inMemory l.debug blocks m₁.dev x = inMemory l.debug blocks m.dev x := board.inMemory (alike.held held) held x
  have outside (behind : ¬inBlock l.debug blocks m.dev x = true) : ∀ ph ∈ segments f, ¬ph.Covers x :=
    fun ph known covers => behind (memory ph known x covers)
  rw [stored.bytes, same]
  split
  · next there =>
    by_cases block : inBlock l.debug blocks m.dev x = true
    · rw [alike.same x block]
      rcases lastStored_cases f (chunks f) x (contents l.debug.cpu e m.dev x) with
        ⟨none, kept⟩ | ⟨pre, ch, post, is, stores, later, last⟩
      · rw [kept]
        exact fits.missed x block none
      · rw [last, bytes_getD stores]
        by_cases own : (x - ch.addr).toNat < ch.own
        · exact (due_own wf (is ▸ List.mem_append_right pre List.mem_cons_self) own _).symm
        · exact fits.beyond pre ch post is x block stores (Nat.le_of_not_lt own) later
    · rw [due_outside (outside block)]
      exact lastStored_none (fun ch known stores => block (fits.inside ch known x stores there)) _
  · next nowhere => rw [due_outside (outside fun block => nowhere (Debug.inMemory_of_inBlock block))]

theorem fits_of_exact (board : Board l.debug e blocks holds) (held : holds m.dev.rest) (wf : WellFormed f)
    (memory : InMemory l blocks f m)
    (all : ∀ m₁, Alike l.debug e blocks m m₁ → ∃ m', Stored l.debug e blocks holds m₁ m' (lastStored f (chunks f)) ∧ Exact l e f m₁ m') :
    Fits l e blocks f m := by
  obtain ⟨m', stored, exact'⟩ := all m (.refl l.debug e blocks m)
  have here (x : Word) (block : inBlock l.debug blocks m.dev x = true) :
      lastStored f (chunks f) x (contents l.debug.cpu e m.dev x) = due f x (contents l.debug.cpu e m.dev x) := by
    rw [← (exact_iff_due wf).mp exact' x, stored.bytes, if_pos (Debug.inMemory_of_inBlock block)]
  refine ⟨fun ch known x stores there => ?_, fun pre ch post is x block stores _ later => ?_, fun x block none => ?_⟩
  · by_contra behind
    -- the byte replaces another one that stands behind the block
    rcases lastStored_cases f (chunks f) x 0 with ⟨none, -⟩ | ⟨pre, last, post, is, stores', later, -⟩
    · exact none ch known stores
    obtain ⟨m₁, alike, other⟩ := Debug.exists_alike board held there behind (~~~byteAt f (last.offset.toNat + (x - last.addr).toNat))
    obtain ⟨m₂, stored₁, exact₁⟩ := all m₁ alike
    have kept := exact₁.kept x fun ph known covers => behind (memory ph known x covers)
    have same : inMemory l.debug blocks m₁.dev x = inMemory l.debug blocks m.dev x := board.inMemory (alike.held held) held x
    rw [stored₁.bytes, if_pos (same.trans there), is, lastStored_split stores' later, other] at kept
    have bit := congrArg (BitVec.getLsbD · 0) kept
    simp at bit
  · rw [← here x block, is, lastStored_split stores later]
  · rw [← here x block]
    exact (lastStored_none none _).symm

/-- Segments of whole words that are in the file altogether leave nothing to be desired. -/
theorem fits_of_words (wf : WellFormed f) (memory : InMemory l blocks f m) (some : segments f ≠ [])
    (words : ∀ ph ∈ segments f, ph.memsz = ph.filesz ∧ ph.filesz.toNat % 4 = 0 ∧ ph.filesz.toNat < 2 ^ 31) : Fits l e blocks f m := by
  have these : chunks f = (segments f).map Phdr.chunk := if_neg some
  have length (ph : Phdr) (inside : ph ∈ segments f) : (ph.chunk.bytes f).length = ph.filesz.toNat := by
    obtain ⟨-, whole, small⟩ := words ph inside
    have within := (wf.filled ph inside).1
    have int := BitVec.toInt_eq_toNat_of_lt (show 2 * ph.filesz.toNat < 2 ^ 32 by omega)
    unfold inFile at within
    rw [Chunk.bytes, List.length_take, List.length_drop]
    simp only [Phdr.chunk, wordCount, int, Int.toNat_natCast]
    omega
  have covers (ph : Phdr) (inside : ph ∈ segments f) (x : Word) : ph.chunk.Stores f x ↔ ph.Covers x := by
    unfold Chunk.Stores Phdr.Covers
    rw [length ph inside, (words ph inside).1]
    rfl
  refine ⟨fun ch known x stores _ => ?_, fun pre ch post is x _ stores beyond _ => ?_, fun x _ none => ?_⟩
  · obtain ⟨ph, inside, rfl⟩ := List.mem_map.mp (these ▸ known)
    exact memory ph inside x ((covers ph inside x).mp stores)
  · obtain ⟨ph, inside, rfl⟩ := List.mem_map.mp (these ▸ is ▸ List.mem_append_right pre (List.mem_cons_self (a := ch)))
    unfold Chunk.Stores at stores
    rw [length ph inside] at stores
    exact absurd stores (Nat.not_lt.mpr beyond)
  · exact (due_outside (fun ph inside covered =>
      none ph.chunk (these ▸ List.mem_map_of_mem inside) ((covers ph inside x).mpr covered)) _).symm

/-- A well-formed program is loaded exactly, if and only if no table that is read is empty, its segments are in the blocks of memories,
no byte is stored behind a block, what is stored beyond a segment's part of the file is what belongs there, so is what stands where
nothing is stored, and the devices take what is stored to them. -/
theorem loads_exactly_iff (board : Board l.debug e blocks holds) (held : holds m.dev.rest) (named : l.filename = true)
    (wf : WellFormed f) (startaddr : Word) :
    LoadsExactly l e blocks f startaddr m ↔ NoEmptyTable f ∧ InMemory l blocks f m ∧ Fits l e blocks f m ∧
      ∀ m₁, Alike l.debug e blocks m m₁ → Takes l f m₁ := by
  have ends (m₁ : Machine (Devices ε)) (alike : Alike l.debug e blocks m m₁) :=
    loadcode_ends board (alike.held held) named wf startaddr
  constructor
  · intro exactly
    have good (m₁ : Machine (Devices ε)) (alike : Alike l.debug e blocks m m₁) : NoEmptyTable f ∧ Takes l f m₁ := by
      obtain ⟨freemem, m', ran, -⟩ := exactly.loads m₁ alike
      by_contra bad
      obtain ⟨why, failed⟩ := (ends m₁ alike).fails bad
      rw [failed] at ran
      cases ran
    refine ⟨(good m (.refl l.debug e blocks m)).1, exactly.memory, ?_, fun m₁ alike => (good m₁ alike).2⟩
    refine fits_of_exact board held wf exactly.memory fun m₁ alike => ?_
    obtain ⟨freemem, m', ran, exact'⟩ := exactly.loads m₁ alike
    obtain ⟨a, m₂, ran', stored⟩ := (ends m₁ alike).returns (good m₁ alike)
    obtain ⟨rfl, rfl⟩ := Prod.mk.inj (Except.ok.inj (ran'.symm.trans ran))
    exact ⟨m₂, stored, exact'⟩
  · rintro ⟨filled, memory, fits, takes⟩
    refine ⟨memory, fun m₁ alike => ?_⟩
    obtain ⟨freemem, m', ran, stored⟩ := (ends m₁ alike).returns ⟨filled, takes m₁ alike⟩
    exact ⟨freemem, m', ran, exact_of_fits board held wf memory fits alike stored⟩

/-- Devices that ask for nothing take everything. -/
theorem takes_of_quiet (quiet : Debug.Quiet l.debug) (f : File) (m : Machine (Devices ε)) : Takes l f m := by
  unfold Takes
  induction storedBytes f (chunks f) generalizing m with
  | nil => exact ⟨_, rfl⟩
  | cons place bytes ih =>
    obtain ⟨m₁, first⟩ := quiet.setProgram8 place.1 place.2 m
    obtain ⟨r, rest⟩ := ih m₁
    exact ⟨r, (bind_of_ok first).trans rest⟩

end

/-! ### Small programs -/

/-- A file with one segment, which is loaded to address zero, and an empty section. -/
def image (data : File) : File :=
  [0x7f, 0x45, 0x4c, 0x46, 1, 2, 1, 0, 0, 0, 0, 0, 0, 0, 0, 0,
    0, 2, 0, 0x5c, 0, 0, 0, 1, 0, 0, 0, 0, 0, 0, 0, 52, 0, 0, 0, 84, 0, 0, 0, 0, 0, 52, 0, 32, 0, 1, 0, 40, 0, 1, 0, 0,
    0, 0, 0, 1, 0, 0, 0, 124, 0, 0, 0, 0, 0, 0, 0, 0, 0, 0, 0, BitVec.ofNat 8 data.length, 0, 0, 0, BitVec.ofNat 8 data.length,
    0, 0, 0, 7, 0, 0, 0, 4,
    0, 0, 0, 0, 0, 0, 0, 0, 0, 0, 0, 0, 0, 0, 0, 0, 0, 0, 0, 0, 0, 0, 0, 0, 0, 0, 0, 0, 0, 0, 0, 0, 0, 0, 0, 0, 0, 0, 0, 0] ++ data

/-- Programs go to a memory of twelve bytes, or to the device behind it. -/
def smallLoader : LoadConfig (Devices Byte) := ⟨Debug.smallBoard, true, fun _ freemem => pure freemem⟩

/-- The file has the one segment, and the section that is in no use. -/
structure OneSegment (f : File) (size : Word) : Prop where
  header : ehdr f = ⟨etExec, 52, 84, 32, 1, 40, 1, 0⟩
  ident : f.take 6 = elfMagic ++ [1, 2]
  length : f.length = 124 + size.toNat
  segment : segments f = [⟨ptLoad, 124, 0, size, size⟩]
  unused : shdata f = [⟨0, 0, 0, 0, 0, 0, 0⟩]

section
variable {f : File} {size : Word}

theorem OneSegment.only (one : OneSegment f size) {ph : Phdr} (inside : ph ∈ segments f) : ph = ⟨ptLoad, 124, 0, size, size⟩ := by
  rw [one.segment] at inside
  exact List.mem_singleton.mp inside

theorem OneSegment.wellFormed (one : OneSegment f size) : WellFormed f where
  header := by rw [one.length]; exact Nat.le_trans (show sizeofEhdr ≤ 124 by decide) (Nat.le_add_right _ _)
  ident := one.ident
  executable := by rw [one.header]
  sections _ := by rw [one.header, one.length]; exact ⟨rfl, Nat.le_add_right 124 _⟩
  programs _ := by
    rw [one.header, one.length]
    exact ⟨by decide, rfl, Nat.le_trans (show 84 ≤ 124 by decide) (Nat.le_add_right _ _)⟩
  names given := absurd (congrArg Ehdr.shstrndx one.header) given
  symbols s inside is := by
    rw [one.unused] at inside
    obtain rfl := List.mem_singleton.mp inside
    exact absurd is (by decide)
  filled ph inside := by
    obtain rfl := one.only inside
    exact ⟨Nat.le_of_eq one.length.symm, Nat.le_refl _⟩
  apart := by rw [one.segment]; exact List.pairwise_singleton _ _

theorem OneSegment.noEmptyTable (one : OneSegment f size) : NoEmptyTable f where
  sections := by rw [one.header]; decide
  programs _ := by rw [one.header]; decide
  names none := by rw [one.segment] at none; cases none
  symbols _ s inside is := by
    rw [one.unused] at inside
    obtain rfl := List.mem_singleton.mp inside
    exact absurd is (by decide)

theorem OneSegment.inMemory (one : OneSegment f size) (small : size.toNat ≤ 12) :
    InMemory smallLoader Debug.smallBlocks f Debug.smallMachine := by
  intro ph inside x covers
  obtain rfl := one.only inside
  have below : x.toNat < 12 := by
    have start : x - 0#32 = x := BitVec.sub_zero x
    exact Nat.lt_of_lt_of_le (start ▸ covers) small
  have all : ∀ k < 12, inBlock Debug.smallBoard Debug.smallBlocks Debug.smallMachine.dev (BitVec.ofNat 32 k) = true := by decide +kernel
  have here := all x.toNat below
  rwa [BitVec.ofNat_toNat, BitVec.setWidth_eq] at here

end

def threeWords : File := image [0x18, 0x60, 0x12, 0x34, 0xa8, 0x63, 0x56, 0x78, 0x15, 0, 0, 1]
def fiveBytes : File := image [0x15, 0, 0, 1, 0x77]

theorem threeWords_one : OneSegment threeWords 12 :=
  ⟨by decide +kernel, by decide +kernel, by decide +kernel, by decide +kernel, by decide +kernel⟩

theorem fiveBytes_one : OneSegment fiveBytes 5 :=
  ⟨by decide +kernel, by decide +kernel, by decide +kernel, by decide +kernel, by decide +kernel⟩

/-- A segment of three words, the last one at the end of the file, is loaded. -/
theorem loads_exactly_words : LoadsExactly smallLoader .little Debug.smallBlocks threeWords 0 Debug.smallMachine := by
  have one := threeWords_one
  have memory := one.inMemory (by decide)
  refine (loads_exactly_iff Debug.small_board trivial rfl one.wellFormed 0).mpr
    ⟨one.noEmptyTable, memory, fits_of_words one.wellFormed memory ?_ fun ph inside => ?_,
      fun m₁ _ => takes_of_quiet Debug.small_quiet _ m₁⟩
  · rw [one.segment]
    exact List.cons_ne_nil _ _
  · obtain rfl := one.only inside
    exact ⟨rfl, by decide, by decide⟩

/-- The last byte of a segment of five bytes, which is the last byte of the file, is not loaded. -/
theorem last_byte_lost : ¬ ∀ (l : LoadConfig (Devices Byte)) (e : Endian) (blocks : Nat → Option Word) (holds : Byte → Prop) (f : File)
    (m : Machine (Devices Byte)) (startaddr : Word), Board l.debug e blocks holds → holds m.dev.rest → l.filename = true →
    WellFormed f → InMemory l blocks f m → LoadsExactly l e blocks f startaddr m := by
  intro claim
  have one := fiveBytes_one
  have exactly := claim smallLoader .little Debug.smallBlocks (fun _ => True) fiveBytes Debug.smallMachine 0
    Debug.small_board trivial rfl one.wellFormed (one.inMemory (by decide))
  obtain ⟨freemem, m', ran, exact'⟩ := exactly.loads Debug.smallMachine (.refl _ _ _ _)
  obtain ⟨freemem', m'', ran', stored⟩ :=
    (loadcode_ends (l := smallLoader) (m := Debug.smallMachine) Debug.small_board trivial rfl one.wellFormed 0).returns
    ⟨one.noEmptyTable, takes_of_quiet Debug.small_quiet _ _⟩
  obtain ⟨rfl, rfl⟩ := Prod.mk.inj (Except.ok.inj (ran'.symm.trans ran))
  have wanted := exact'.filled ⟨ptLoad, 124, 0, 5, 5⟩ (by rw [one.segment]; exact List.mem_singleton_self _) 4 (by decide)
  have found := stored.bytes 4
  have zero : (if inMemory Debug.smallBoard Debug.smallBlocks Debug.smallMachine.dev 4 = true
      then lastStored fiveBytes (chunks fiveBytes) 4 (contents Debug.smallBoard.cpu .little Debug.smallMachine.dev 4)
      else contents Debug.smallBoard.cpu .little Debug.smallMachine.dev 4) = 0 := by decide +kernel
  have byte : byteAt fiveBytes 128 = 0x77 := by decide +kernel
  exact absurd (byte.symm.trans (wanted.symm.trans (found.trans zero))) (by decide)

end Or1ksim.Load
