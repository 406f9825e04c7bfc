import Or1ksim.Lib.Chained
import Or1ksim.Mem.Transparent

/-!
# Breakpoints

The breakpoints of a debugger, in `debug/rsp-server.c`: a trap replaces an instruction of the memory,
and a hash table keeps the instruction. What `sscanf` makes of a packet is taken as given.
-/

namespace Or1ksim.Debug

open Cpu (Word Width Config Machine Sim DevEvent)
open Chained (Table)

variable {δ : Type}

def or1kTrapInstr : Word := 0x21000001

def mpHashSize : Nat := 1021

inductive MpType where
  | bpMemory | bpHardware | wpWrite | wpRead | wpAccess
  deriving DecidableEq, Repr

def MpType.ofCode : Nat → Option MpType
  | 0 => some .bpMemory
  | 1 => some .bpHardware
  | 2 => some .wpWrite
  | 3 => some .wpRead
  | 4 => some .wpAccess
  | _ => none

structure MpEntry where
  type : MpType
  addr : Nat
  instr : Word
  deriving DecidableEq, Repr

def MpEntry.key (mpe : MpEntry) : MpType × Nat := (mpe.type, mpe.addr)

def mpHash (key : MpType × Nat) : Nat := key.2 % mpHashSize

abbrev MpTable := Table MpEntry

def mpHashAdd (table : MpTable) (type : MpType) (addr : Nat) (instr : Word) : MpTable :=
  Chained.add mpHash MpEntry.key table ⟨type, addr, instr⟩

def mpHashLookup (table : MpTable) (type : MpType) (addr : Nat) : Option MpEntry :=
  Chained.lookup mpHash MpEntry.key table (type, addr)

def mpHashDelete (table : MpTable) (type : MpType) (addr : Nat) : Option MpEntry × MpTable :=
  Chained.delete mpHash MpEntry.key table (type, addr)

/-! ### The memory of the program -/

/-- What the debugger reaches besides the core: the functions that load a program into an area, where
these are not its `writefunc32`. -/
structure RspConfig (δ : Type) where
  cpu : Config δ
  writeprog32 : Nat → Option (Word → Word → δ → δ × List DevEvent)

def oraddr32 (addr : Nat) : Word := BitVec.ofNat 32 addr

/-- `eval_direct32`, with neither cache nor translation. -/
def evalDirect32 (c : Config δ) (memaddr : Word) : Sim δ Word :=
  if Cpu.has memaddr 3 then pure 0
  else do
    modify (Cpu.verifyMemoryarea c memaddr)
    let m ← get
    match c.area m with
    | none => pure 0
    | some mem =>
      match mem.readfunc .word with
      | none => pure 0
      | some readfunc32 => do
        let answer := readfunc32 (memaddr &&& mem.sizeMask m.dev) m.dev
        set { m with dev := answer.2.1 }
        Cpu.devEvents c answer.2.2
        pure answer.1

def setProgram32 (u : RspConfig δ) (memaddr : Word) (value : Word) : Sim δ Unit :=
  if Cpu.has memaddr 3 then pure ()
  else do
    modify (Cpu.verifyMemoryarea u.cpu memaddr)
    let m ← get
    match u.cpu.area m with
    | none => pure ()
    | some mem =>
      match m.curArea.bind u.writeprog32, mem.writefunc .word with
      | some writeprog32, _ => do
        let answer := writeprog32 (memaddr &&& mem.sizeMask m.dev) value m.dev
        set { m with dev := answer.1 }
        Cpu.devEvents u.cpu answer.2
      | none, some writefunc32 => do
        let answer := writefunc32 (memaddr &&& mem.sizeMask m.dev) value m.dev
        set { m with dev := answer.1 }
        Cpu.devEvents u.cpu answer.2
      | none, none => set (Cpu.exceptHandle .buserr m.curVadd m)

/-! ### Packets -/

/-- The numbers of a packet, in the order in which they stand. -/
structure MpPacket where
  type : Fin 10
  addr : Nat
  len : Fin 10
  deriving DecidableEq, Repr

/-- The table and the answer. A packet that is not recognized is `none`. -/
def rspRemoveMatchpoint (u : RspConfig δ) (packet : Option MpPacket) (table : MpTable) : Sim δ (MpTable × String) :=
  match packet with
  | none => pure (table, "E01")
  | some p =>
    match MpType.ofCode p.type with
    | some .bpMemory =>
      match mpHashDelete table .bpMemory p.addr with
      | (none, table) => pure (table, "OK")
      | (some mpe, table) => do
        modify (Cpu.icInv u.cpu (oraddr32 p.addr))
        setProgram32 u (oraddr32 p.addr) mpe.instr
        pure (table, "OK")
    | some _ => pure (table, "")
    | none => pure (table, "E01")

def rspInsertMatchpoint (u : RspConfig δ) (packet : Option MpPacket) (table : MpTable) : Sim δ (MpTable × String) :=
  match packet with
  | none => pure (table, "E01")
  | some p =>
    match MpType.ofCode p.type with
    | some .bpMemory => do
      let instr ← evalDirect32 u.cpu (oraddr32 p.addr)
      modify (Cpu.icInv u.cpu (oraddr32 p.addr))
      setProgram32 u (oraddr32 p.addr) or1kTrapInstr
      pure (mpHashAdd table .bpMemory p.addr instr, "OK")
    | some _ => pure (table, "")
    | none => pure (table, "E01")

/-! ### What a breakpoint does to the memory -/

section
open Mem (Devices Bytes Endian Space MemoryAt IsAligned Plain owner word simmemWrite simmemRead)

variable {ε : Type} {u : RspConfig (Devices ε)} {c : Config (Devices ε)} {e : Endian} {o : ε} {s : Machine (Devices ε)} {i : Nat}
  {m : Mem.MemConfig} {a : Cpu.Area (Devices ε)} {addr value : Word}

/-- `simmem_write32` as the function that loads a program. -/
def simmemProgram (e : Endian) (i : Nat) (addr value : Word) (d : Devices ε) : Devices ε × List DevEvent :=
  (d.setMem i (simmemWrite e .word addr value (d.mem i)), [])

theorem evalDirect32_memory (space : Space c e o) (rest : s.dev.rest = o) (here : MemoryAt c e s.dev addr i m)
    (aligned : IsAligned .word addr) : ∃ s', evalDirect32 c addr s = .ok (word c s.dev addr, s') ∧ s'.dev = s.dev := by
  obtain ⟨a, present, memory⟩ := here.memory
  have cur := Mem.area_verifyMemoryarea space rest addr
  have area : c.area (Cpu.verifyMemoryarea c addr s) = some a := by
    rw [Config.area, cur, here.found, Option.bind_some, present]
  have dev : (Cpu.verifyMemoryarea c addr s).dev = s.dev := rfl
  have reads : word c s.dev addr = (m.readfunc e i .word (addr &&& a.sizeMask s.dev) s.dev).1 := by
    unfold word Mem.peek
    rw [here.found, Option.bind_some, present]
    simp only [memory.reads]
    rfl
  unfold evalDirect32
  rw [if_neg (by rw [show Cpu.has addr 3 = false from aligned]; exact Bool.false_ne_true), Programs.modify_bind, Programs.get_bind, area]
  simp only [memory.reads, dev, Programs.set_bind]
  rw [reads]
  exact ⟨_, rfl, rfl⟩

theorem setProgram32_memory (value : Word) (space : Space u.cpu e o) (rest : s.dev.rest = o) (here : MemoryAt u.cpu e s.dev addr i m)
    (present : u.cpu.areas[i]? = some a) (programs : u.writeprog32 i = some (simmemProgram e i)) (aligned : IsAligned .word addr) :
    ∃ s', setProgram32 u addr value s = .ok ((), s') ∧
      s'.dev = s.dev.setMem i (simmemWrite e .word (addr &&& a.sizeMask s.dev) value (s.dev.mem i)) := by
  have cur := Mem.area_verifyMemoryarea space rest addr
  have found : (Cpu.verifyMemoryarea u.cpu addr s).curArea = some i := cur.trans here.found
  have area : u.cpu.area (Cpu.verifyMemoryarea u.cpu addr s) = some a := by
    rw [Config.area, found, Option.bind_some, present]
  have dev : (Cpu.verifyMemoryarea u.cpu addr s).dev = s.dev := rfl
  unfold setProgram32
  rw [if_neg (by rw [show Cpu.has addr 3 = false from aligned]; exact Bool.false_ne_true), Programs.modify_bind, Programs.get_bind, area]
  simp only [found, Option.bind_some, programs, dev, Programs.set_bind]
  exact ⟨_, rfl, rfl⟩

theorem icInv_dev (c : Config (Devices ε)) (addr : Word) (s : Machine (Devices ε)) : (Cpu.icInv c addr s).dev = s.dev := by
  unfold Cpu.icInv
  split <;> rfl

/-! ### Runs of packets -/

inductive Request where
  | insert (p : MpPacket)
  | remove (p : MpPacket)
  deriving DecidableEq, Repr

def Request.packet : Request → MpPacket
  | insert p => p
  | remove p => p

def Request.isInsert : Request → Bool
  | insert _ => true
  | remove _ => false

def Request.handle (u : RspConfig δ) (table : MpTable) : Request → Sim δ (MpTable × String)
  | insert p => rspInsertMatchpoint u (some p) table
  | remove p => rspRemoveMatchpoint u (some p) table

def handleAll (u : RspConfig δ) : List Request → MpTable → Sim δ MpTable
  | [], table => pure table
  | r :: rs, table => do
    let done ← r.handle u table
    handleAll u rs done.1

/-- Whether the last packet for an address inserts a breakpoint. -/
def planted (rs : List Request) (addr : Nat) : Bool :=
  rs.foldl (fun was r => if r.packet.addr = addr then r.isInsert else was) false

/-- A word of a memory that can be read, and that programs are loaded into as `memory_sec_end` says. -/
structure Breakable (u : RspConfig (Devices ε)) (e : Endian) (d : Devices ε) (addr : Nat) : Prop where
  small : addr < 2 ^ 32
  aligned : IsAligned .word (oraddr32 addr)
  memory : ∃ i m, MemoryAt u.cpu e d (oraddr32 addr) i m ∧ 0 < m.delayr ∧ u.writeprog32 i = some (simmemProgram e i)

/-- A byte of the word at an address. -/
def Spot (c : Config (Devices ε)) (d : Devices ε) (addr : Word) (i k : Nat) : Prop :=
  owner c d addr = some i ∧ ∃ a, c.areas[i]? = some a ∧ (addr &&& a.sizeMask d).toNat ≤ k ∧ k < (addr &&& a.sizeMask d).toNat + 4

/-- The table and the memory `mem`, behind packets that found the memory `mem₀`. -/
structure Overlay (u : RspConfig (Devices ε)) (e : Endian) (o : ε) (mem₀ mem : Nat → Bytes) (table : MpTable) : Prop where
  wf : Chained.WellFormed mpHash MpEntry.key table
  bpMemory : ∀ b, ∀ mpe ∈ table b, mpe.type = .bpMemory
  entry : ∀ addr mpe, mpHashLookup table .bpMemory addr = some mpe →
    Breakable u e ⟨mem₀, o⟩ addr ∧ word u.cpu ⟨mem, o⟩ (oraddr32 addr) = or1kTrapInstr ∧ mpe.instr = word u.cpu ⟨mem₀, o⟩ (oraddr32 addr)
  kept : ∀ a, IsAligned .word a → Plain u.cpu e ⟨mem₀, o⟩ a → mpHashLookup table .bpMemory a.toNat = none →
    word u.cpu ⟨mem, o⟩ a = word u.cpu ⟨mem₀, o⟩ a
  bytes : ∀ i k, (∀ addr, mpHashLookup table .bpMemory addr ≠ none → ¬ Spot u.cpu ⟨mem₀, o⟩ (oraddr32 addr) i k) → mem i k = mem₀ i k

theorem oraddr32_toNat {addr : Nat} (small : addr < 2 ^ 32) : (oraddr32 addr).toNat = addr := by
  unfold oraddr32
  rw [BitVec.toNat_ofNat, Nat.mod_eq_of_lt small]

theorem overlay_init (u : RspConfig (Devices ε)) (e : Endian) (o : ε) (mem : Nat → Bytes) : Overlay u e o mem mem Chained.empty where
  wf := Chained.wellFormed_empty _ _
  bpMemory _ _ none := absurd none List.not_mem_nil
  entry _ _ none := by cases none
  kept _ _ _ _ := rfl
  bytes _ _ _ := rfl

variable {mem mem₀ mem₁ : Nat → Bytes} {n : Nat} {table : MpTable}

theorem Breakable.moved (space : Space u.cpu e o) (on : Breakable u e ⟨mem, o⟩ n) (mem₁ : Nat → Bytes) : Breakable u e ⟨mem₁, o⟩ n := by
  obtain ⟨i, m, here, readable, programs⟩ := on.memory
  exact ⟨on.small, on.aligned, i, m, ⟨(Mem.owner_mem space mem₁ mem _).trans here.found, here.memory⟩, readable, programs⟩

theorem Breakable.plain (on : Breakable u e ⟨mem, o⟩ n) : Plain u.cpu e ⟨mem, o⟩ (oraddr32 n) := by
  obtain ⟨i, m, here, _, _⟩ := on.memory
  obtain ⟨a, present, memory⟩ := here.memory
  intro j b found present'
  obtain rfl := Option.some.inj (here.found.symm.trans found)
  obtain rfl := Option.some.inj (present.symm.trans present')
  exact .inl ⟨m, memory⟩

theorem spot_mem (space : Space c e o) {k : Nat} (spot : Spot c ⟨mem, o⟩ addr i k) (mem₁ : Nat → Bytes) : Spot c ⟨mem₁, o⟩ addr i k := by
  obtain ⟨found, a, present, inside⟩ := spot
  obtain ⟨_, _, window, _⟩ := space.window i a present
  refine ⟨(Mem.owner_mem space mem₁ mem addr).trans found, a, present, ?_⟩
  rwa [window.sizeMask mem₁, ← window.sizeMask mem]

/-- What a memory that can be read holds in the order of the host. -/
theorem word_load (space : Space c e o) (here : MemoryAt c e ⟨mem, o⟩ addr i m) (readable : 0 < m.delayr)
    (present : c.areas[i]? = some a) :
    word c ⟨mem, o⟩ addr = e.load (mem i) (addr &&& a.sizeMask ⟨mem, o⟩).toNat .word := by
  obtain ⟨a', present', memory⟩ := here.memory
  obtain rfl := Option.some.inj (present.symm.trans present')
  unfold word Mem.peek
  rw [here.found, Option.bind_some, present]
  simp only [memory.reads, Mem.MemConfig.readfunc, if_pos readable]
  cases e <;> rfl

/-- The debugger stores a word: it reads as stored, nothing else changes, and what it had in another
memory comes back byte by byte. -/
theorem setProgram32_breakable (space : Space u.cpu e o) (on : Breakable u e ⟨mem, o⟩ n) (dev : s.dev = ⟨mem, o⟩) (value : Word) :
    ∃ s' mem', setProgram32 u (oraddr32 n) value s = .ok ((), s') ∧ s'.dev = ⟨mem', o⟩ ∧
      (∀ b, IsAligned .word b → Plain u.cpu e ⟨mem, o⟩ b →
        word u.cpu ⟨mem', o⟩ b = if b = oraddr32 n then value else word u.cpu ⟨mem, o⟩ b) ∧
      (∀ j k, ¬ Spot u.cpu ⟨mem, o⟩ (oraddr32 n) j k → mem' j k = mem j k) ∧
      ∀ mem₁, value = word u.cpu ⟨mem₁, o⟩ (oraddr32 n) → ∀ j k, Spot u.cpu ⟨mem, o⟩ (oraddr32 n) j k → mem' j k = mem₁ j k := by
  obtain ⟨i, m, here, readable, programs⟩ := on.memory
  obtain ⟨a, present, memory⟩ := here.memory
  obtain ⟨_, _, window, _⟩ := space.window i a present
  obtain ⟨s', ran, after⟩ := setProgram32_memory (s := s) value space (by rw [dev]) (by rw [dev]; exact here) present programs on.aligned
  rw [dev] at after
  have own : Mem.wordAddr (oraddr32 n) = oraddr32 n := by
    apply BitVec.eq_of_toNat_eq
    rw [Mem.wordAddr_toNat]
    have := (Mem.isAligned_iff .word _).mp on.aligned
    simp only [Width.bytes] at this
    omega
  refine ⟨s', _, ran, after, fun b start plain => ?_, fun j k outside => ?_, fun mem₁ is j k inside => ?_⟩
  · refine (Mem.word_program space here present on.aligned value start plain).trans ?_
    rw [own]
    exact if_congr (and_iff_right readable) rfl rfl
  · show (if j = i then simmemWrite e .word _ value (mem i) else mem j) k = mem j k
    split
    · next same =>
      subst same
      refine if_neg fun written => outside ⟨here.found, a, present, ?_⟩
      cases e <;> exact written
    · rfl
  · obtain ⟨found, b, present', here'⟩ := inside
    obtain rfl := Option.some.inj (here.found.symm.trans found)
    obtain rfl := Option.some.inj (present.symm.trans present')
    have here₁ : MemoryAt u.cpu e ⟨mem₁, o⟩ (oraddr32 n) i m := ⟨(Mem.owner_mem space mem₁ mem _).trans here.found, here.memory⟩
    show (if i = i then simmemWrite e .word _ value (mem i) else mem i) k = mem₁ i k
    rw [if_pos rfl, is, word_load space here₁ readable present, window.sizeMask mem₁, ← window.sizeMask mem]
    have carried := Mem.store_load_word e (mem i) (mem₁ i) (oraddr32 n &&& a.sizeMask ⟨mem, o⟩).toNat k
    rw [if_pos here'] at carried
    cases e <;> exact carried

theorem mpHashLookup_add (table : MpTable) (n : Nat) (instr : Word) (k : Nat) :
    mpHashLookup (mpHashAdd table .bpMemory n instr) .bpMemory k =
      if k = n ∧ mpHashLookup table .bpMemory n = none then some ⟨.bpMemory, n, instr⟩ else mpHashLookup table .bpMemory k := by
  refine (Chained.lookup_add table _ _).trans (if_congr ?_ rfl rfl)
  constructor
  · rintro ⟨same, none⟩
    obtain rfl : k = n := congrArg Prod.snd same
    exact ⟨rfl, none⟩
  · rintro ⟨rfl, none⟩
    exact ⟨rfl, none⟩

theorem mpHashLookup_delete (wf : Chained.WellFormed mpHash MpEntry.key table) (n k : Nat) :
    mpHashLookup (mpHashDelete table .bpMemory n).2 .bpMemory k = if k = n then none else mpHashLookup table .bpMemory k := by
  refine (wf.lookup_delete _ _).trans (if_congr ⟨congrArg Prod.snd, ?_⟩ rfl rfl)
  rintro rfl
  rfl

theorem Overlay.insert (space : Space u.cpu e o) (overlay : Overlay u e o mem₀ mem table) {p : MpPacket} (bp : p.type = 0)
    (on : Breakable u e ⟨mem₀, o⟩ p.addr) (dev : s.dev = ⟨mem, o⟩) :
    ∃ table' s' mem', rspInsertMatchpoint u (some p) table s = .ok ((table', "OK"), s') ∧ s'.dev = ⟨mem', o⟩ ∧
      Overlay u e o mem₀ mem' table' ∧
      ∀ k, (mpHashLookup table' .bpMemory k).isSome = if p.addr = k then true else (mpHashLookup table .bpMemory k).isSome := by
  have here := on.moved space mem
  obtain ⟨i, m, at', _, _⟩ := here.memory
  obtain ⟨s₁, read, dev₁⟩ := evalDirect32_memory (s := s) space (by rw [dev]) (by rw [dev]; exact at') on.aligned
  obtain ⟨s₂, mem', stored, dev₂, words, bytes, _⟩ := setProgram32_breakable (s := Cpu.icInv u.cpu (oraddr32 p.addr) s₁) space here
    (by rw [icInv_dev, dev₁, dev]) or1kTrapInstr
  have added := mpHashLookup_add table p.addr (word u.cpu ⟨mem, o⟩ (oraddr32 p.addr))
  refine ⟨mpHashAdd table .bpMemory p.addr (word u.cpu ⟨mem, o⟩ (oraddr32 p.addr)), s₂, mem', ?_, dev₂,
    ⟨overlay.wf.add _, ?_, ?_, ?_, ?_⟩, ?_⟩
  · unfold rspInsertMatchpoint
    simp only [show MpType.ofCode p.type = some .bpMemory by rw [bp]; rfl, ← dev]
    exact (Programs.bind_of_ok read).trans ((Programs.modify_bind _ _ _).trans (Programs.bind_of_ok stored))
  · intro b mpe inside
    rcases Chained.mem_add inside with rfl | before
    · rfl
    · exact overlay.bpMemory b mpe before
  · intro k mpe found
    rw [added] at found
    split at found
    · next fresh =>
      obtain ⟨rfl, absent⟩ := fresh
      cases found
      refine ⟨on, (words _ on.aligned here.plain).trans (if_pos rfl), overlay.kept _ on.aligned on.plain ?_⟩
      rw [oraddr32_toNat on.small]
      exact absent
    · obtain ⟨old, trap, instr⟩ := overlay.entry k mpe found
      refine ⟨old, ?_, instr⟩
      rw [words _ old.aligned (old.moved space mem).plain, trap]
      split <;> rfl
  · intro a start plain absent
    rw [added] at absent
    split at absent
    · cases absent
    · next other =>
      rw [words a start (plain.mem space mem), if_neg, overlay.kept a start plain absent]
      rintro rfl
      rw [oraddr32_toNat on.small] at absent other
      exact other ⟨rfl, absent⟩
  · intro j k spots
    rw [bytes j k, overlay.bytes j k]
    · intro addr some
      refine spots addr ?_
      rw [added]
      split
      · exact Option.some_ne_none _
      · exact some
    · intro spot
      refine spots p.addr ?_ (spot_mem space spot mem₀)
      rw [added]
      split
      · exact Option.some_ne_none _
      · next other => exact fun absent => other ⟨rfl, absent⟩
  · intro k
    rw [added]
    by_cases same : p.addr = k
    · subst same
      rw [if_pos rfl]
      split
      · rfl
      · next other => exact Option.isSome_iff_ne_none.mpr fun absent => other ⟨rfl, absent⟩
    · rw [if_neg fun both => same both.1.symm, if_neg same]

theorem Overlay.remove (space : Space u.cpu e o) (overlay : Overlay u e o mem₀ mem table) {p : MpPacket} (bp : p.type = 0)
    (on : Breakable u e ⟨mem₀, o⟩ p.addr) (dev : s.dev = ⟨mem, o⟩) :
    ∃ table' s' mem', rspRemoveMatchpoint u (some p) table s = .ok ((table', "OK"), s') ∧ s'.dev = ⟨mem', o⟩ ∧
      Overlay u e o mem₀ mem' table' ∧
      ∀ k, (mpHashLookup table' .bpMemory k).isSome = if p.addr = k then false else (mpHashLookup table .bpMemory k).isSome := by
  have here := on.moved space mem
  have deleted := mpHashLookup_delete overlay.wf p.addr
  have gone (k : Nat) : (mpHashLookup (mpHashDelete table .bpMemory p.addr).2 .bpMemory k).isSome =
      if p.addr = k then false else (mpHashLookup table .bpMemory k).isSome := by
    rw [deleted]
    by_cases same : p.addr = k
    · rw [if_pos same.symm, if_pos same, Option.isSome_none]
    · rw [if_neg fun back => same back.symm, if_neg same]
  have wf : Chained.WellFormed mpHash MpEntry.key (mpHashDelete table .bpMemory p.addr).2 := overlay.wf.delete _
  have bpMemory (b : Nat) (mpe : MpEntry) (inside : mpe ∈ (mpHashDelete table .bpMemory p.addr).2 b) : mpe.type = .bpMemory :=
    overlay.bpMemory b mpe (Chained.mem_delete inside)
  cases found : mpHashLookup table .bpMemory p.addr with
  | none =>
    have same (k : Nat) : mpHashLookup (mpHashDelete table .bpMemory p.addr).2 .bpMemory k = mpHashLookup table .bpMemory k := by
      rw [deleted]
      split
      · next here => rw [here, found]
      · rfl
    have whole : mpHashDelete table .bpMemory p.addr = (none, (mpHashDelete table .bpMemory p.addr).2) := Prod.ext found rfl
    refine ⟨(mpHashDelete table .bpMemory p.addr).2, s, mem, ?_, dev,
      ⟨wf, bpMemory, fun k mpe => ?_, fun a start plain => ?_, fun j k spots => ?_⟩, gone⟩
    · unfold rspRemoveMatchpoint
      simp only [show MpType.ofCode p.type = some .bpMemory by rw [bp]; rfl]
      rw [whole]
      rfl
    · rw [same]
      exact overlay.entry k mpe
    · rw [same]
      exact overlay.kept a start plain
    · exact overlay.bytes j k fun addr some => spots addr (by rwa [same])
  | some mpe =>
    have whole : mpHashDelete table .bpMemory p.addr = (some mpe, (mpHashDelete table .bpMemory p.addr).2) := Prod.ext found rfl
    obtain ⟨_, _, instr⟩ := overlay.entry _ mpe found
    obtain ⟨s', mem', stored, dev', words, bytes, restored⟩ :=
      setProgram32_breakable (s := Cpu.icInv u.cpu (oraddr32 p.addr) s) space here
      (by rw [icInv_dev, dev]) mpe.instr
    refine ⟨(mpHashDelete table .bpMemory p.addr).2, s', mem', ?_, dev',
      ⟨wf, bpMemory, fun k other found => ?_, fun a start plain absent => ?_, fun j k spots => ?_⟩, gone⟩
    · unfold rspRemoveMatchpoint
      simp only [show MpType.ofCode p.type = some .bpMemory by rw [bp]; rfl]
      rw [whole]
      exact (Programs.modify_bind _ _ _).trans (Programs.bind_of_ok stored)
    · rw [deleted] at found
      split at found
      · cases found
      · next apart =>
        obtain ⟨old, trap, kept⟩ := overlay.entry k other found
        refine ⟨old, ?_, kept⟩
        rw [words _ old.aligned (old.moved space mem).plain, if_neg, trap]
        exact fun same => apart (by rw [← oraddr32_toNat old.small, same, oraddr32_toNat on.small])
    · rw [deleted] at absent
      rw [words a start (plain.mem space mem)]
      split
      · next here => rw [here, instr]
      · next apart =>
        rw [if_neg] at absent
        · exact overlay.kept a start plain absent
        · exact fun same => apart (by unfold oraddr32; rw [← same, BitVec.ofNat_toNat, BitVec.setWidth_eq])
    · by_cases spot : Spot u.cpu ⟨mem, o⟩ (oraddr32 p.addr) j k
      · exact restored mem₀ instr j k spot
      · rw [bytes j k spot]
        refine overlay.bytes j k fun addr some inside => ?_
        by_cases same : addr = p.addr
        · subst same
          exact spot (spot_mem space inside mem)
        · exact spots addr (by rwa [deleted, if_neg same]) inside

/-- What holds behind a run of packets. -/
structure BreakpointsTransparent (c : Config (Devices ε)) (e : Endian) (d₀ d : Devices ε) (table : MpTable) (rs : List Request) :
    Prop where
  /-- The table holds the breakpoints inserted and not removed since. -/
  inserted : ∀ addr, (mpHashLookup table .bpMemory addr).isSome = planted rs addr
  trapped : ∀ b, ∀ mpe ∈ table b, word c d (oraddr32 mpe.addr) = or1kTrapInstr ∧ mpe.instr = word c d₀ (oraddr32 mpe.addr)
  kept : ∀ a, IsAligned .word a → Plain c e d₀ a → (∀ b, ∀ mpe ∈ table b, oraddr32 mpe.addr ≠ a) → word c d a = word c d₀ a
  once : (((List.range mpHashSize).flatMap table).map MpEntry.key).Nodup
  nowhereElse : ∀ b, mpHashSize ≤ b → table b = []
  removed : (∀ addr, planted rs addr = false) → d = d₀

theorem Overlay.transparent (overlay : Overlay u e o mem₀ mem table) (rs : List Request)
    (inserted : ∀ addr, (mpHashLookup table .bpMemory addr).isSome = planted rs addr) :
    BreakpointsTransparent u.cpu e ⟨mem₀, o⟩ ⟨mem, o⟩ table rs := by
  have found (b : Nat) (mpe : MpEntry) (inside : mpe ∈ table b) : mpHashLookup table .bpMemory mpe.addr = some mpe := by
    have := overlay.wf.mem_iff.mp ⟨b, inside⟩
    unfold MpEntry.key at this
    rwa [overlay.bpMemory b mpe inside] at this
  refine ⟨inserted, fun b mpe inside => (overlay.entry _ mpe (found b mpe inside)).2, fun a start plain outside => ?_,
    overlay.wf.nodup_keys _,
    fun b large => ?_, fun none => ?_⟩
  · refine overlay.kept a start plain (Option.eq_none_iff_forall_not_mem.mpr fun mpe here => ?_)
    obtain ⟨key, inside⟩ := Chained.lookup_key here
    refine outside _ mpe inside ?_
    rw [show mpe.addr = a.toNat from congrArg Prod.snd key]
    unfold oraddr32
    rw [BitVec.ofNat_toNat, BitVec.setWidth_eq]
  · refine List.eq_nil_iff_forall_not_mem.mpr fun mpe inside => ?_
    have placed := overlay.wf.placed b mpe inside
    have small : mpHash mpe.key < mpHashSize := Nat.mod_lt _ (by decide)
    omega
  · congr 1
    funext i k
    refine overlay.bytes i k fun addr some => absurd ?_ some
    have := inserted addr
    rw [none addr] at this
    exact Option.not_isSome_iff_eq_none.mp (by rw [this]; exact Bool.false_ne_true)

theorem planted_append (rs : List Request) (r : Request) (addr : Nat) :
    planted (rs ++ [r]) addr = if r.packet.addr = addr then r.isInsert else planted rs addr := by
  unfold planted
  rw [List.foldl_append]
  rfl

theorem handleAll_overlay (space : Space u.cpu e o) (overlay : Overlay u e o mem₀ mem table) (dev : s.dev = ⟨mem, o⟩)
    (before rs : List Request) (inserted : ∀ addr, (mpHashLookup table .bpMemory addr).isSome = planted before addr)
    (on : ∀ r ∈ rs, r.packet.type = 0 ∧ Breakable u e ⟨mem₀, o⟩ r.packet.addr) :
    ∃ table' s' mem', handleAll u rs table s = .ok (table', s') ∧ s'.dev = ⟨mem', o⟩ ∧ Overlay u e o mem₀ mem' table' ∧
      ∀ addr, (mpHashLookup table' .bpMemory addr).isSome = planted (before ++ rs) addr := by
  induction rs generalizing table s mem before with
  | nil => exact ⟨table, s, mem, rfl, dev, overlay, by rwa [List.append_nil]⟩
  | cons r rs ih =>
    obtain ⟨bp, here⟩ := on r List.mem_cons_self
    have step : ∃ table' s' mem', r.handle u table s = .ok ((table', "OK"), s') ∧ s'.dev = ⟨mem', o⟩ ∧
        Overlay u e o mem₀ mem' table' ∧
        ∀ addr, (mpHashLookup table' .bpMemory addr).isSome = planted (before ++ [r]) addr := by
      simp only [planted_append, ← inserted]
      cases r with
      | insert p => exact overlay.insert space bp here dev
      | remove p => exact overlay.remove space bp here dev
    obtain ⟨table₁, s₁, mem₁, ran, dev₁, overlay₁, inserted₁⟩ := step
    obtain ⟨table', s', mem', rest, last⟩ := ih overlay₁ dev₁ (before ++ [r]) inserted₁ fun r' later =>
      on r' (List.mem_cons_of_mem _ later)
    rw [List.append_assoc, List.singleton_append] at last
    exact ⟨table', s', mem', (Programs.bind_of_ok ran).trans rest, last⟩

/-- Breakpoints of readable memory are transparent, behind any packets. -/
theorem breakpoints_transparent (space : Space u.cpu e o) (s : Machine (Devices ε)) (rest : s.dev.rest = o) (rs : List Request)
    (on : ∀ r ∈ rs, r.packet.type = 0 ∧ Breakable u e s.dev r.packet.addr) :
    ∃ table s', handleAll u rs Chained.empty s = .ok (table, s') ∧ BreakpointsTransparent u.cpu e s.dev s'.dev table rs := by
  subst rest
  obtain ⟨table, s', mem', ran, dev, overlay, inserted⟩ :=
    handleAll_overlay (s := s) space (overlay_init u e s.dev.rest s.dev.mem) rfl [] rs (fun _ => rfl) on
  refine ⟨table, s', ran, ?_⟩
  rw [dev]
  exact overlay.transparent rs inserted

end

section
open Mem (Devices MemConfig Space cachedConfig memoryArea owner word)

/-- The memories of a machine, each with the function that loads a program. -/
def memoryRsp (cpu : Config (Devices Unit)) : RspConfig (Devices Unit) :=
  { cpu, writeprog32 := fun i => some (simmemProgram .little i) }

def ones : Machine (Devices Unit) := Machine.bare ⟨fun _ _ => 1, ()⟩ 0 0x2000

theorem breakpoints_transparent_duplicate :
    ∃ table s', handleAll (memoryRsp (cachedConfig ⟨1, 1⟩ 6)) [.insert ⟨0, 4, 4⟩, .insert ⟨0, 4, 4⟩,
      .remove ⟨0, 4, 4⟩] Chained.empty ones =
        .ok (table, s') ∧
      BreakpointsTransparent (cachedConfig ⟨1, 1⟩ 6) .little ones.dev s'.dev table [.insert ⟨0, 4, 4⟩, .insert ⟨0, 4, 4⟩,
        .remove ⟨0, 4, 4⟩] := by
  have here : Breakable (memoryRsp (cachedConfig ⟨1, 1⟩ 6)) .little ones.dev 4 :=
    ⟨by decide, by decide, 0, ⟨1, 1⟩, ⟨by decide +kernel, _, rfl, Mem.memoryArea_isMemory _ _ _ _ _⟩, by decide, rfl⟩
  refine breakpoints_transparent (u := memoryRsp (cachedConfig ⟨1, 1⟩ 6))
    (Space.memory () rfl (by decide) (by decide)) ones rfl _ fun r is => ?_
  rcases List.mem_cons.mp is with rfl | is
  · exact ⟨rfl, here⟩
  · rcases List.mem_pair.mp is with rfl | rfl <;> exact ⟨rfl, here⟩

/-- A memory that cannot be read. -/
def writeOnly : RspConfig (Devices Unit) := memoryRsp (cachedConfig ⟨0, 1⟩ 6)

/-- A breakpoint in it, inserted and removed, leaves a zero. -/
theorem unreadable_not_restored :
    owner writeOnly.cpu ones.dev 4 = some 0 ∧
      ¬ ∃ table s', handleAll writeOnly [.insert ⟨0, 4, 4⟩, .remove ⟨0, 4, 4⟩] Chained.empty ones = .ok (table, s') ∧
        BreakpointsTransparent writeOnly.cpu .little ones.dev s'.dev table [.insert ⟨0, 4, 4⟩, .remove ⟨0, 4, 4⟩] := by
  refine ⟨by decide +kernel, ?_⟩
  rintro ⟨table, s', ran, transparent⟩
  have zeroed : (handleAll writeOnly [.insert ⟨0, 4, 4⟩, .remove ⟨0, 4, 4⟩] Chained.empty ones).toOption.map (fun r => r.2.dev.mem 0 4) =
      some 0 := by decide +kernel
  have same : s'.dev = ones.dev := transparent.removed fun addr => by
    by_cases here : 4 = addr
    · exact if_pos here
    · exact (if_neg here).trans (if_neg here)
  rw [ran] at zeroed
  have byte : s'.dev.mem 0 4 = 0 := Option.some.inj zeroed
  rw [same] at byte
  exact absurd byte (by decide)

end

end Or1ksim.Debug
