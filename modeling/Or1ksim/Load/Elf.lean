import Or1ksim.Debug.WriteMem

/-!
# Loading a program

`cpu/common/parse.c` for ELF files: the headers, and the loops that store what the program headers, or else the
section headers, say. The bytes of a file are stored four at a time. There is no translation table: the simulator never
passes one. Labels have no part in the memory and are left out, but not the reads of their tables.
-/

namespace Or1ksim.Load

open Cpu (Word Sim Stop)
open Debug (DebugConfig setProgram8)

abbrev Byte := BitVec 8
abbrev Half := BitVec 16
abbrev File := List Byte

/-! ### Fields -/

def byteAt (f : File) (pos : Nat) : Byte := f.getD pos 0

/-- `ELF_SHORT_H`, and `COFF_SHORT_H`. -/
def elfShortH (f : File) (pos : Nat) : Half := byteAt f pos ++ byteAt f (pos + 1)

/-- `ELF_LONG_H`. -/
def elfLongH (f : File) (pos : Nat) : Word := Mem.bigWord (byteAt f) pos

def sizeofCoffFilehdr : Nat := 20
def sizeofEhdr : Nat := 52
def sizeofPhdr : Nat := 32
def sizeofShdr : Nat := 40

def elfMagic : File := [0x7f, 0x45, 0x4c, 0x46]
def etExec : Half := 2
def ptLoad : Word := 1
def shtProgbits : Word := 1
def shtSymtab : Word := 2
def shfAlloc : Word := 2
def shnUndef : Half := 0

/-- `struct elf32_hdr`. -/
structure Ehdr where
  type : Half
  phoff : Word
  shoff : Word
  phentsize : Half
  phnum : Half
  shentsize : Half
  shnum : Half
  shstrndx : Half
  deriving DecidableEq, Repr

def ehdr (f : File) : Ehdr where
  type := elfShortH f 16
  phoff := elfLongH f 28
  shoff := elfLongH f 32
  phentsize := elfShortH f 42
  phnum := elfShortH f 44
  shentsize := elfShortH f 46
  shnum := elfShortH f 48
  shstrndx := elfShortH f 50

/-- `struct elf32_phdr`. -/
structure Phdr where
  type : Word
  offset : Word
  paddr : Word
  filesz : Word
  memsz : Word
  deriving DecidableEq, Repr

def phdr (f : File) (pos : Nat) : Phdr where
  type := elfLongH f pos
  offset := elfLongH f (pos + 4)
  paddr := elfLongH f (pos + 12)
  filesz := elfLongH f (pos + 16)
  memsz := elfLongH f (pos + 20)

/-- `struct elf32_shdr`. -/
structure Shdr where
  type : Word
  flags : Word
  addr : Word
  offset : Word
  size : Word
  link : Word
  entsize : Word
  deriving DecidableEq, Repr

def shdr (f : File) (pos : Nat) : Shdr where
  type := elfLongH f (pos + 4)
  flags := elfLongH f (pos + 8)
  addr := elfLongH f (pos + 12)
  offset := elfLongH f (pos + 16)
  size := elfLongH f (pos + 20)
  link := elfLongH f (pos + 24)
  entsize := elfLongH f (pos + 36)

/-- `elf_phdata`. -/
def phdata (f : File) : List Phdr := (List.range (ehdr f).phnum.toNat).map fun i => phdr f ((ehdr f).phoff.toNat + sizeofPhdr * i)

/-- `elf_shdata`. -/
def shdata (f : File) : List Shdr := (List.range (ehdr f).shnum.toNat).map fun i => shdr f ((ehdr f).shoff.toNat + sizeofShdr * i)

/-! ### Storing -/

variable {δ : Type}

/-- Where programs are stored, whether `runtime.sim.filename` is set, and the loader of COFF files. -/
structure LoadConfig (δ : Type) where
  debug : DebugConfig δ
  filename : Bool
  readfileCoff : File → Word → Sim δ Word

/-- `translate`, without a table. -/
def translate (laddr : Word) : Word := laddr

/-- `or1ksim_insn_len`: always 4, whatever the instruction is. -/
def insnLen : Word := 4

/-- `addprogram`, which returns the new `freemem`. -/
def addprogram (l : LoadConfig δ) (freemem address insn : Word) : Sim δ Word := do
  let vaddr := if l.filename then translate freemem else translate address
  setProgram8 l.debug vaddr (insn.extractLsb' 24 8)
  setProgram8 l.debug (vaddr + 1) (insn.extractLsb' 16 8)
  setProgram8 l.debug (vaddr + 2) (insn.extractLsb' 8 8)
  setProgram8 l.debug (vaddr + 3) (insn.extractLsb' 0 8)
  pure (if l.filename then freemem + insnLen else freemem)

/-- The loop over the words of a segment or section. `fread` reads four bytes, or none. -/
def loadWords (l : LoadConfig δ) : File → Int → Word → Sim δ Word
  | a :: b :: c :: d :: rest, segsize, freemem =>
    if 0 < segsize then do
      let freemem ← addprogram l freemem freemem (a ++ b ++ c ++ d)
      loadWords l rest (segsize - 4) freemem
    else pure freemem
  | _, _, freemem => pure freemem

/-- A seek to the offset succeeds, and the size is an `int`. -/
def loadFrom (l : LoadConfig δ) (f : File) (offset size padd : Word) : Sim δ Word := loadWords l (f.drop offset.toNat) size.toInt padd

/-- `load_by_program_headers_elf`: the number of segments, and `freemem`. -/
def loadByProgramHeadersElf (l : LoadConfig δ) (f : File) : List Phdr → Nat → Word → Sim δ (Nat × Word)
  | [], loaded, freemem => pure (loaded, freemem)
  | ph :: rest, loaded, freemem =>
    if ph.type = ptLoad then do
      let freemem ← loadFrom l f ph.offset ph.filesz ph.paddr
      loadByProgramHeadersElf l f rest (loaded + 1) freemem
    else loadByProgramHeadersElf l f rest loaded freemem

/-- The physical address of a section: that of a segment around it, if there is one. -/
def sectionPadd (phs : List Phdr) (s : Shdr) : Word :=
  phs.foldl (fun padd ph =>
    if ph.offset ≠ 0 ∧ ph.offset.toNat ≤ s.offset.toNat ∧ ph.offset.toNat + ph.memsz.toNat > s.offset.toNat
    then ph.paddr + s.offset - ph.offset else padd) s.addr

def isProgbits (s : Shdr) : Bool := s.type = shtProgbits && s.flags &&& shfAlloc ≠ 0

def loadSections (l : LoadConfig δ) (f : File) (phs : List Phdr) : List Shdr → Nat → Word → Sim δ (Nat × Word)
  | [], loaded, freemem => pure (loaded, freemem)
  | s :: rest, loaded, freemem =>
    if isProgbits s then do
      let freemem ← loadFrom l f s.offset s.size (sectionPadd phs s)
      loadSections l f phs rest (loaded + 1) freemem
    else loadSections l f phs rest loaded freemem

/-! ### Reading -/

/-- `fread` of one item returns 1. It returns 0 for an empty item. -/
def freads (f : File) (offset size : Nat) : Bool := size ≠ 0 && offset + size ≤ f.length

def freadOrExit (f : File) (offset size : Nat) : Sim δ Unit := if freads f offset size then pure () else Cpu.stop .exit

/-- `load_by_section_headers_elf`. An index outside the table is a read outside the allocated memory. -/
def loadBySectionHeadersElf (l : LoadConfig δ) (f : File) (freemem : Word) : Sim δ (Nat × Word) := do
  if (ehdr f).shstrndx ≠ shnUndef then
    match (shdata f)[(ehdr f).shstrndx.toNat]? with
    | none => Cpu.stop .crash
    | some s => freadOrExit f s.offset.toNat s.size.toNat
  loadSections l f (phdata f) (shdata f) 0 freemem

/-- The tables of symbols and of their names. -/
def loadLabelsElf (f : File) : List Shdr → Sim δ Unit
  | [] => pure ()
  | s :: rest => do
    if s.type = shtSymtab then
      freadOrExit f s.offset.toNat s.size.toNat
      if s.entsize = 0 then Cpu.stop .crash
      if s.link.toNat ≤ (ehdr f).shnum.toNat then
        match (shdata f)[s.link.toNat]? with
        | none => Cpu.stop .crash
        | some str => freadOrExit f str.offset.toNat str.size.toNat
    loadLabelsElf f rest

/-- The program headers are read if there is a place for them. -/
def readPhdata (f : File) : Sim δ Unit :=
  if (ehdr f).phoff ≠ 0 then freadOrExit f (ehdr f).phoff.toNat ((ehdr f).phnum.toNat * (ehdr f).phentsize.toNat) else pure ()

/-- The structures are laid over the tables whatever the size of an entry is. What they would reach beyond the allocated memory
is not read. -/
def layTables (f : File) : Sim δ Unit :=
  if (ehdr f).phnum ≠ 0 ∧ ((ehdr f).phoff = 0 ∨ (ehdr f).phentsize.toNat < sizeofPhdr) ∨ (ehdr f).shentsize.toNat < sizeofShdr
  then Cpu.stop .crash else pure ()

/-- What `readfile_elf` does once the headers have been read. -/
def loadHeaders (l : LoadConfig δ) (f : File) (freemem : Word) : Sim δ Word := do
  let (loaded, freemem) ← loadByProgramHeadersElf l f (phdata f) 0 freemem
  let (loaded, freemem) ← if loaded = 0 then loadBySectionHeadersElf l f freemem else pure (loaded, freemem)
  if loaded ≠ 0 then loadLabelsElf f (shdata f)
  pure freemem

def readfileElf (l : LoadConfig δ) (f : File) (freemem : Word) : Sim δ Word := do
  freadOrExit f 0 sizeofEhdr
  freadOrExit f (ehdr f).shoff.toNat ((ehdr f).shentsize.toNat * (ehdr f).shnum.toNat)
  readPhdata f
  layTables f
  loadHeaders l f freemem

def identifyfile (l : LoadConfig δ) (f : File) (freemem : Word) : Sim δ Word :=
  if sizeofCoffFilehdr ≤ f.length ∧ elfShortH f 0 = 0x17a then l.readfileCoff f freemem
  else if sizeofEhdr ≤ f.length ∧ f.take 4 = elfMagic then
    if (ehdr f).type ≠ etExec then Cpu.stop .exit else readfileElf l f freemem
  else pure freemem

def loadcode (l : LoadConfig δ) (f : File) (startaddr : Word) : Sim δ Word := do
  let freemem ← identifyfile l f startaddr
  pure (translate freemem)

end Or1ksim.Load
