import Or1ksim.Debug.Matchpoints
import Or1ksim.Debug.ReadMem
import Or1ksim.Debug.RoundTrip
import Or1ksim.Mem.Contents

/-!
# Writing memory for the debugger

The packets `M` and `X` of `debug/rsp-server.c`. Their data stands behind a `:`, which is looked for in
the whole buffer, and is stored byte by byte until an address has no memory.
-/

namespace Or1ksim.Debug

open Serial (Buffer)
open Programs (bind_ok bind_of_ok)
open Cpu (Word Machine Sim Stop verifyMemoryarea runP noOperands)
open Mem (Devices Endian Space Window Mapped owner contents placed storageSize)

variable {δ : Type}

/-- The buffer of the packets: behind the data of the last one stand a zero and what earlier ones have left. -/
structure RspBuf where
  data : Buffer
  len : Nat
  fits : len < gdbBufMax
  ends : data len = 0

/-- `memchr (buf->data, ':', GDB_BUF_MAX)`. -/
def findColon (buf : RspBuf) : Option Nat := (List.range gdbBufMax).find? fun k => buf.data k == char ':'

/-- The length of the data behind an index, as an `int`. -/
def lenBehind (buf : RspBuf) (sep : Nat) : Word := BitVec.ofNat 32 buf.len - BitVec.ofNat 32 (sep + 1)

/-- A byte past the caches, if its address has memory. -/
def pokeByte (u : DebugConfig δ) (addr : Word) (value : Byte) : Sim δ Bool := do
  modify (verifyMemoryarea u.cpu addr)
  if (u.cpu.area (← get)).isNone then pure false
  else do
    runP u.cpu noOperands (Cpu.dcInv u.cpu addr)
    modify (Cpu.icInv u.cpu addr)
    setProgram8 u addr value
    pure true

/-- The loop over the bytes; `false` if it replies that there is no memory. -/
def pokeLoop (u : DebugConfig δ) (addr : Word) (value : Word → Byte) : Nat → Word → Sim δ Bool
  | 0, _ => pure true
  | more + 1, off => do
    if ← pokeByte u (addr + off) (value off) then pokeLoop u addr value more (off + 1) else pure false

/-- A byte of two digits, whatever they are. -/
def twoNybbles (x y : Byte) : Byte := (BitVec.ofInt 8 (hex x) <<< 4) ||| BitVec.ofInt 8 (hex y)

def symByte (buf : RspBuf) (sep : Nat) (off : Word) : Byte :=
  twoNybbles (buf.data (sep + 1 + dataIndex off 0)) (buf.data (sep + 1 + dataIndex off 1))

/-- `rsp_write_mem`, with the address and the length that `sscanf` finds, if it finds both. Without a `:`
in the buffer the data is looked for at the null pointer. -/
def rspWriteMem (u : DebugConfig δ) (scanned : Option (Word × Word)) (buf : RspBuf) : Sim δ (List Byte) :=
  match scanned with
  | none => pure e01
  | some (addr, len) =>
    match findColon buf with
    | none => Cpu.stop .crash
    | some sep =>
      if len * 2 ≠ lenBehind buf sep then pure e01
      else do
        if ← pokeLoop u addr (symByte buf sep) len.toInt.toNat 0 then pure okReply else pure e01

/-- The data behind an index, none of it if the index is behind the packet. -/
def dataBehind (buf : RspBuf) (sep : Nat) : List Byte := (List.range (buf.len - (sep + 1))).map fun j => buf.data (sep + 1 + j)

/-- `rsp_write_mem_bin`. -/
def rspWriteMemBin (u : DebugConfig δ) (scanned : Option (Word × Word)) (buf : RspBuf) : Sim δ (List Byte) :=
  match scanned with
  | none => pure e01
  | some (addr, len) =>
    match findColon buf with
    | none => Cpu.stop .crash
    | some sep => do
      let bindat := rspUnescape (dataBehind buf sep)
      let count := (min len.toInt bindat.length).toNat
      if ← pokeLoop u addr (fun off => bindat.getD off.toNat 0) count 0 then pure okReply else pure e01

/-! ### The areas -/

section
variable {ε : Type}

/-- The byte of an address is in the block that is allocated for a memory. `blocks` gives the sizes of the memories as they are
configured, and nothing for the area of a device. -/
def inBlock (u : DebugConfig (Devices ε)) (blocks : Nat → Option Word) (dev : Devices ε) (b : Word) : Bool :=
  (owner u.cpu dev b).any fun i =>
    (u.cpu.areas[i]?).any fun a => (blocks i).any fun size => (b &&& a.sizeMask dev).toNat < (storageSize size).toNat

/-- The address belongs to a memory, in its block or behind it. -/
def inMemory (u : DebugConfig (Devices ε)) (blocks : Nat → Option Word) (dev : Devices ε) (b : Word) : Bool :=
  (owner u.cpu dev b).any fun i => (blocks i).isSome

/-- What takes a byte for an area. -/
def byteWriter (u : DebugConfig (Devices ε)) (i : Nat) (a : Cpu.Area (Devices ε)) :
    Option (Word → Byte → Devices ε → Devices ε × List Cpu.DevEvent) :=
  (u.writeprog8 i).or (a.writefunc .byte)

/-- The areas of a board. A byte goes to a memory by `simmem_write8`, whether or not it can be written. One for a device changes
the device alone: `holds` tells which of the states of the devices occur, and in all of them the areas are the same. -/
structure Board (u : DebugConfig (Devices ε)) (e : Endian) (blocks : Nat → Option Word) (holds : ε → Prop) : Prop where
  space : ∀ o, holds o → Space u.cpu e o
  still : ∀ o o', holds o → holds o' → ∀ (i : Nat) (a : Cpu.Area (Devices ε)), u.cpu.areas[i]? = some a → ∀ k base, Window a o k base →
    Window a o' k base
  memory : ∀ i size, blocks i = some size →
    u.writeprog8 i = some fun addr value dev => (dev.setMem i (Mem.simmemWrite e .byte addr value (dev.mem i)), [])
  device : ∀ (i : Nat) (a : Cpu.Area (Devices ε)), u.cpu.areas[i]? = some a → blocks i = none → ∀ f, byteWriter u i a = some f →
    ∀ addr value dev, holds dev.rest →
    (f addr value dev).1.mem = dev.mem ∧ holds (f addr value dev).1.rest

/-- Some bytes from an address on, as far as they go to memories. -/
def stored (u : DebugConfig (Devices ε)) (blocks : Nat → Option Word) (dev : Devices ε) (addr : Word) (bytes : List Byte)
    (f : Word → Byte) :
    Word → Byte :=
  fun b => if inMemory u blocks dev b then placed addr bytes f b else f b

end

section
variable {ε : Type} {u : DebugConfig (Devices ε)} {e : Endian} {blocks : Nat → Option Word} {holds : ε → Prop} {o o' : ε}
  {mem mem' : Nat → Mem.Bytes} {dev : Devices ε} {addr b : Word} {value : Byte} {f : Word → Byte}

theorem inMemory_of_inBlock (inside : inBlock u blocks dev b = true) : inMemory u blocks dev b = true := by
  obtain ⟨i, found, inside⟩ := (Option.any_eq_true _ _).mp inside
  obtain ⟨a, -, inside⟩ := (Option.any_eq_true _ _).mp inside
  obtain ⟨size, known, -⟩ := (Option.any_eq_true _ _).mp inside
  exact (Option.any_eq_true _ _).mpr ⟨i, found, Option.isSome_iff_exists.mpr ⟨size, known⟩⟩

theorem Board.owner (board : Board u e blocks holds) (held : holds o) (held' : holds o') (b : Word) :
    owner u.cpu ⟨mem, o⟩ b = owner u.cpu ⟨mem', o'⟩ b := by
  have covers (i : Nat) : u.cpu.covers ⟨mem, o⟩ b i = u.cpu.covers ⟨mem', o'⟩ b i := by
    unfold Cpu.Config.covers
    cases present : u.cpu.areas[i]? with
    | none => rfl
    | some a =>
      obtain ⟨k, base, window, -⟩ := (board.space o held).window i a present
      have window' := board.still o o' held held' i a present k base window
      show a.covers _ b = a.covers _ b
      unfold Cpu.Area.covers
      rw [window.addrMask, window.addrCompare, window'.addrMask, window'.addrCompare]
  apply Option.ext
  intro i
  rw [Mem.owner_eq_some_iff (board.space o held), Mem.owner_eq_some_iff (board.space o' held'), covers]

theorem Board.inMemory (board : Board u e blocks holds) (held : holds o) (held' : holds o') (b : Word) :
    inMemory u blocks ⟨mem, o⟩ b = inMemory u blocks ⟨mem', o'⟩ b := by
  unfold Debug.inMemory
  rw [board.owner held held' b]

theorem Board.contents (board : Board u e blocks holds) (held : holds o) (held' : holds o') :
    contents u.cpu e ⟨mem, o⟩ = contents u.cpu e ⟨mem, o'⟩ := by
  funext b
  have owners : Mem.owner u.cpu ⟨mem, o⟩ b = Mem.owner u.cpu ⟨mem, o'⟩ b := board.owner held held' b
  unfold Mem.contents
  rw [owners]
  cases Mem.owner u.cpu ⟨mem, o'⟩ b with
  | none => rfl
  | some i =>
    dsimp only
    cases present : u.cpu.areas[i]? with
    | none => rfl
    | some a =>
      obtain ⟨k, base, window, -⟩ := (board.space o held).window i a present
      have window' := board.still o o' held held' i a present k base window
      dsimp only
      rw [window.sizeMask, window'.sizeMask]

end

/-! ### The loop over the bytes -/

section
variable {ε : Type} {u : DebugConfig (Devices ε)} {e : Endian} {blocks : Nat → Option Word} {holds : ε → Prop}
  {m m₁ m' : Machine (Devices ε)} {addr : Word} {value : Byte}

theorem dcInv_dev (c : Cpu.Config δ) (a : Word) (s : Machine δ) :
    ∃ s', runP c noOperands (Cpu.dcInv c a) s = .ok ((), s') ∧ s'.dev = s.dev := by
  rw [Cpu.dcInv, Cpu.runP_view]
  cases present : Cpu.has s.view.upr Cpu.uprDcp with
  | false => exact ⟨s, rfl, rfl⟩
  | true =>
    cases on : Cpu.has s.view.sr Cpu.srDce with
    | false => exact ⟨_, rfl, rfl⟩
    | true =>
      simp only [Bool.not_true, Bool.false_eq_true, if_false]
      cases c.dc.findWay s.view.dc a with
      | none => exact ⟨s, rfl, rfl⟩
      | some way => exact ⟨_, rfl, rfl⟩

theorem area_verify (space : Space u.cpu e m.dev.rest) (addr : Word) :
    u.cpu.area (verifyMemoryarea u.cpu addr m) = (owner u.cpu m.dev addr).bind (u.cpu.areas[·]?) := by
  rw [Cpu.Config.area, Mem.area_verifyMemoryarea space rfl]

theorem area_isNone (space : Space u.cpu e m.dev.rest) :
    (u.cpu.area (verifyMemoryarea u.cpu addr m)).isNone = true ↔ ¬ Mapped u.cpu m.dev addr := by
  rw [area_verify space]
  unfold Mapped
  cases found : Mem.owner u.cpu m.dev addr with
  | none => exact iff_of_true rfl (by simp)
  | some i =>
    obtain ⟨a, present, _⟩ := Mem.owner_present found
    rw [Option.bind_some, present]
    simp

/-- Some bytes have gone to the areas from an address on. -/
structure Taken (u : DebugConfig (Devices ε)) (e : Endian) (blocks : Nat → Option Word) (holds : ε → Prop) (addr : Word)
    (bytes : List Byte)
    (m m' : Machine (Devices ε)) : Prop where
  held : holds m'.dev.rest
  contents : contents u.cpu e m'.dev = stored u blocks m.dev addr bytes (contents u.cpu e m.dev)

/-- A byte for a device leaves the memories as they are. -/
theorem taken_of_device (board : Board u e blocks holds) (held : holds m.dev.rest) {i : Nat}
    (found : Mem.owner u.cpu m.dev addr = some i) (device : blocks i = none) {mem : Nat → Mem.Bytes} {rest : ε}
    (same : mem = m.dev.mem) (after : holds rest) (is : m'.dev = ⟨mem, rest⟩) : Taken u e blocks holds addr [value] m m' := by
  have kind : inMemory u blocks m.dev addr = false := by
    unfold inMemory
    rw [found, Option.any_some, device]
    rfl
  refine ⟨by rw [is]; exact after, ?_⟩
  rw [is, same, board.contents after held]
  funext b
  unfold stored
  split
  · next inside => exact (Mem.placed_one.trans (if_neg fun same => by rw [same, kind] at inside; cases inside)).symm
  · rfl

theorem setProgram8_taken (board : Board u e blocks holds) (held : holds m.dev.rest) (mapped : Mapped u.cpu m.dev addr)
    (ran : setProgram8 u addr value m = .ok ((), m')) : Taken u e blocks holds addr [value] m m' := by
  have space := board.space m.dev.rest held
  obtain ⟨i, found⟩ := Option.isSome_iff_exists.mp mapped
  obtain ⟨a, present, -⟩ := Mem.owner_present found
  have cur : (verifyMemoryarea u.cpu addr m).curArea = some i := (Mem.area_verifyMemoryarea space rfl addr).trans found
  have area : u.cpu.area (verifyMemoryarea u.cpu addr m) = some a := by rw [area_verify space, found, Option.bind_some, present]
  have dev : (verifyMemoryarea u.cpu addr m).dev = m.dev := rfl
  unfold setProgram8 at ran
  rw [Programs.modify_bind, Programs.get_bind, area] at ran
  simp only [cur, Option.bind_some, dev] at ran
  cases known : blocks i with
  | some size =>
    have kind : inMemory u blocks m.dev addr = true := by
      unfold inMemory
      rw [found, Option.any_some, known]
      rfl
    rw [board.memory i size known] at ran
    cases ran
    refine ⟨held, ?_⟩
    refine (Mem.contents_program8 (space : Space u.cpu e m.dev.rest) found present value).trans (funext fun b => ?_)
    unfold stored
    split
    · rfl
    · next other =>
      exact Mem.placed_one.trans (if_neg fun same => other (by rw [same]; exact kind))
  | none =>
    have writer (f : Word → Byte → Devices ε → Devices ε × List Cpu.DevEvent) (is : byteWriter u i a = some f)
        {s t : Machine (Devices ε)} (dev : s.dev = (f (addr &&& a.sizeMask m.dev) value m.dev).1)
        (done : Cpu.devEvents u.cpu (f (addr &&& a.sizeMask m.dev) value m.dev).2 s = .ok ((), t)) :
        Taken u e blocks holds addr [value] m t := by
      obtain ⟨same, after⟩ := board.device i a present known f is (addr &&& a.sizeMask m.dev) value m.dev held
      exact taken_of_device board held found known same after ((Cpu.devEvents_dev done).trans dev)
    cases prog : u.writeprog8 i with
    | some writeprog8 =>
      rw [prog] at ran
      simp only [Programs.set_bind] at ran
      exact writer writeprog8 (by unfold byteWriter; rw [prog]; rfl) rfl ran
    | none =>
      rw [prog] at ran
      cases write : a.writefunc .byte with
      | some writefunc =>
        rw [write] at ran
        simp only [Programs.set_bind] at ran
        exact writer writefunc (by unfold byteWriter; rw [prog]; exact write) rfl ran
      | none =>
        rw [write] at ran
        cases ran
        exact taken_of_device board held found known rfl held (Mem.Calm.exceptHandle _ _ _).dev

theorem pokeByte_cases (board : Board u e blocks holds) (held : holds m.dev.rest) {there : Bool}
    (ran : pokeByte u addr value m = .ok (there, m')) :
    there = decide (Mapped u.cpu m.dev addr) ∧ (there = true → Taken u e blocks holds addr [value] m m') ∧
      (there = false → m'.dev = m.dev) := by
  unfold pokeByte at ran
  rw [Programs.modify_bind, Programs.get_bind] at ran
  split at ran
  · next missing =>
    cases ran
    exact ⟨(decide_eq_false ((area_isNone (board.space _ held)).mp missing)).symm, nofun, fun _ => rfl⟩
  · next there =>
    have mapped := not_not.mp (mt (area_isNone (board.space _ held)).mpr there)
    obtain ⟨m₁, flushed, dev₁⟩ := dcInv_dev u.cpu addr (verifyMemoryarea u.cpu addr m)
    have dev₂ : (Cpu.icInv u.cpu addr m₁).dev = m.dev := (icInv_dev _ _ _).trans dev₁
    rw [bind_of_ok flushed, Programs.modify_bind] at ran
    obtain ⟨_, m₂, stores, ran⟩ := bind_ok ran
    cases ran
    refine ⟨(decide_eq_true mapped).symm, fun _ => ?_, nofun⟩
    have taken := setProgram8_taken board (by rw [dev₂]; exact held) (by rw [dev₂]; exact mapped) stores
    exact ⟨taken.held, by rw [taken.contents, dev₂]⟩

/-- The first bytes of the loop. -/
def loopBytes (value : Word → Byte) (n : Nat) : List Byte := (List.range n).map fun j => value (BitVec.ofNat 32 j)

theorem loopBytes_length (value : Word → Byte) (n : Nat) : (loopBytes value n).length = n := by
  unfold loopBytes
  rw [List.length_map, List.length_range]

theorem getElem_loopBytes (value : Word → Byte) (n j : Nat) (inside : j < (loopBytes value n).length) :
    (loopBytes value n)[j] = value (BitVec.ofNat 32 j) := by
  simp only [loopBytes, List.getElem_map, List.getElem_range]

theorem loopBytes_succ (value : Word → Byte) (n : Nat) : loopBytes value (n + 1) = loopBytes value n ++ [value (BitVec.ofNat 32 n)] := by
  unfold loopBytes
  rw [List.range_succ, List.map_append]
  rfl

/-- The addresses below a count have areas. -/
def AllMapped (u : DebugConfig (Devices ε)) (dev : Devices ε) (addr : Word) (n : Nat) : Prop :=
  ∀ j < n, Mapped u.cpu dev (addr + BitVec.ofNat 32 j)

/-- The first address without an area, below a count. -/
structure FirstMissing (u : DebugConfig (Devices ε)) (dev : Devices ε) (addr : Word) (n k : Nat) : Prop where
  inside : k < n
  missing : ¬ Mapped u.cpu dev (addr + BitVec.ofNat 32 k)
  before : AllMapped u dev addr k

theorem FirstMissing.not_all {dev : Devices ε} {n k : Nat} (first : FirstMissing u dev addr n k) : ¬ AllMapped u dev addr n :=
  fun all => first.missing (all k first.inside)

theorem FirstMissing.unique {dev : Devices ε} {n k k' : Nat} (first : FirstMissing u dev addr n k)
    (first' : FirstMissing u dev addr n k') : k = k' := by
  rcases Nat.lt_trichotomy k k' with less | same | more
  · exact absurd (first'.before k less) first.missing
  · exact same
  · exact absurd (first.before k' more) first'.missing

theorem Board.mapped (board : Board u e blocks holds) (held : holds m.dev.rest) (held' : holds m'.dev.rest) (b : Word) :
    Mapped u.cpu m.dev b ↔ Mapped u.cpu m'.dev b := by
  have owners : Mem.owner u.cpu m.dev b = Mem.owner u.cpu m'.dev b := board.owner held held' b
  unfold Mapped
  rw [owners]

theorem Taken.snoc (board : Board u e blocks holds) (held : holds m.dev.rest) {value : Word → Byte} {n : Nat} (small : n < 2 ^ 32)
    (first : Taken u e blocks holds addr (loopBytes value n) m m₁)
    (next : Taken u e blocks holds (addr + BitVec.ofNat 32 n) [value (BitVec.ofNat 32 n)] m₁ m') :
    Taken u e blocks holds addr (loopBytes value (n + 1)) m m' := by
  refine ⟨next.held, ?_⟩
  rw [next.contents, first.contents]
  funext b
  have same : inMemory u blocks m₁.dev b = inMemory u blocks m.dev b := board.inMemory first.held held b
  unfold stored
  rw [same]
  split
  · next inside =>
    rw [loopBytes_succ, Mem.placed_append (by rw [loopBytes_length]; exact small), loopBytes_length, Mem.placed_one, Mem.placed_one]
    simp only [inside, if_true]
  · rfl

/-- The loop, from the byte that it has reached: it goes on to its end where all of the addresses have areas, and to the first one
that has none otherwise. -/
theorem pokeLoop_from (board : Board u e blocks holds) (held : holds m.dev.rest) (value : Word → Byte) {n more : Nat}
    (small : n + more ≤ 2 ^ 32) (mapped : AllMapped u m.dev addr n)
    (taken : Taken u e blocks holds addr (loopBytes value n) m m₁) {all : Bool}
    (ran : pokeLoop u addr value more (BitVec.ofNat 32 n) m₁ = .ok (all, m')) :
    all = true ∧ AllMapped u m.dev addr (n + more) ∧ Taken u e blocks holds addr (loopBytes value (n + more)) m m' ∨
      all = false ∧ ∃ k, FirstMissing u m.dev addr (n + more) k ∧ Taken u e blocks holds addr (loopBytes value k) m m' := by
  induction more generalizing n m₁ with
  | zero =>
    cases ran
    exact .inl ⟨rfl, mapped, taken⟩
  | succ more ih =>
    unfold pokeLoop at ran
    obtain ⟨there, m₂, byte, ran⟩ := bind_ok ran
    obtain ⟨is, stores, same⟩ := pokeByte_cases board taken.held byte
    have here := board.mapped taken.held held (addr + BitVec.ofNat 32 n)
    cases there with
    | true =>
      rw [if_pos rfl, show BitVec.ofNat 32 n + 1 = BitVec.ofNat 32 (n + 1) from (BitVec.ofNat_add n 1).symm] at ran
      have next := taken.snoc board held (by omega) (stores rfl)
      rw [← Nat.succ_add_eq_add_succ]
      refine ih (by omega) (fun j inside => ?_) next ran
      rcases Nat.lt_succ_iff_lt_or_eq.mp inside with before | rfl
      · exact mapped j before
      · exact here.mp (of_decide_eq_true is.symm)
    | false =>
      rw [if_neg Bool.false_ne_true] at ran
      cases ran
      refine .inr ⟨rfl, n, ⟨by omega, mt here.mpr (of_decide_eq_false is.symm), mapped⟩, ?_⟩
      exact ⟨by rw [same rfl]; exact taken.held, by rw [same rfl]; exact taken.contents⟩

theorem pokeLoop_cases (board : Board u e blocks holds) (held : holds m.dev.rest) (value : Word → Byte) {n : Nat}
    (small : n ≤ 2 ^ 32) {all : Bool} (ran : pokeLoop u addr value n 0 m = .ok (all, m')) :
    all = true ∧ AllMapped u m.dev addr n ∧ Taken u e blocks holds addr (loopBytes value n) m m' ∨
      all = false ∧ ∃ k, FirstMissing u m.dev addr n k ∧ Taken u e blocks holds addr (loopBytes value k) m m' := by
  have none : Taken u e blocks holds addr (loopBytes value 0) m m := ⟨held, funext fun b => (ite_self _).symm⟩
  have whole := pokeLoop_from board held value (by rw [Nat.zero_add]; exact small)
    (fun j before => absurd before (Nat.not_lt_zero j)) none ran
  rwa [Nat.zero_add] at whole

end

/-! ### The data of a packet -/

/-- What was received. -/
def RspBuf.packet (buf : RspBuf) : List Byte := (List.range buf.len).map buf.data

/-- The bytes that the pairs of digits of a text spell. -/
def decodeDigits (text : List Byte) : List Byte :=
  (List.range (text.length / 2)).map fun j => BitVec.ofInt 8 (16 * hex (text.getD (2 * j) 0) + hex (text.getD (2 * j + 1) 0))

section
variable {buf : RspBuf} {sep : Nat} {len : Word}

theorem findColon_some (found : findColon buf = some sep) : buf.data sep = char ':' ∧ ∀ k < sep, buf.data k ≠ char ':' := by
  obtain ⟨here, _, before⟩ := List.find?_range_eq_some.mp found
  exact ⟨beq_iff_eq.mp here, fun k less same => by simpa [same] using before k less⟩

theorem dataBehind_length (buf : RspBuf) (sep : Nat) : (dataBehind buf sep).length = buf.len - (sep + 1) := by
  unfold dataBehind
  rw [List.length_map, List.length_range]

theorem getD_dataBehind {j : Nat} (inside : j < buf.len - (sep + 1)) : (dataBehind buf sep).getD j 0 = buf.data (sep + 1 + j) := by
  rw [List.getD_eq_getElem _ _ (by rw [dataBehind_length]; exact inside)]
  unfold dataBehind
  rw [List.getElem_map, List.getElem_range]

theorem packet_split (inside : sep < buf.len) : buf.packet = (List.range sep).map buf.data ++ buf.data sep :: dataBehind buf sep := by
  obtain ⟨rest, size⟩ := Nat.exists_eq_add_of_lt inside
  unfold RspBuf.packet dataBehind
  rw [size, show sep + rest + 1 - (sep + 1) = rest by omega, Nat.add_assoc, List.range_add, List.map_append, List.range_succ_eq_map]
  simp only [List.map_cons, List.map_map]
  congr 2
  refine List.map_congr_left fun j _ => ?_
  exact congrArg buf.data (by simp only [Function.comp]; omega)

theorem of_packet_split {before text : List Byte} {ch : Byte} (split : buf.packet = before ++ ch :: text) :
    before.length < buf.len ∧ buf.data before.length = ch ∧ text = dataBehind buf before.length ∧
      before = (List.range before.length).map buf.data := by
  have size := congrArg List.length split
  unfold RspBuf.packet at size
  rw [List.length_map, List.length_range, List.length_append, List.length_cons] at size
  have inside : before.length < buf.len := by omega
  have same := split.symm.trans (packet_split inside)
  obtain ⟨front, back⟩ := List.append_inj same (by rw [List.length_map, List.length_range])
  obtain ⟨here, rest⟩ := List.cons.inj back
  exact ⟨inside, here.symm, rest, front⟩

theorem lenBehind_toNat (inside : sep < buf.len) : (lenBehind buf sep).toNat = buf.len - (sep + 1) := by
  have fits := buf.fits
  unfold gdbBufMax numRegs at fits
  unfold lenBehind
  rw [BitVec.toNat_sub, BitVec.toNat_ofNat, BitVec.toNat_ofNat]
  omega

theorem double_toNat (same : len * 2 = lenBehind buf sep) (inside : sep < buf.len) : len.toNat * 2 % 2 ^ 32 = buf.len - (sep + 1) := by
  rw [← lenBehind_toNat inside, ← same, BitVec.toNat_mul]
  rfl

/-- The length that was checked, if it is not negative. -/
theorem checked_length (same : len * 2 = lenBehind buf sep) (inside : sep < buf.len) (least : 0 ≤ len.toInt) :
    len.toInt = len.toInt.toNat ∧ 2 * len.toInt.toNat = buf.len - (sep + 1) := by
  have double := double_toNat same inside
  have whole := BitVec.toInt_eq_toNat_cond len
  have small := len.isLt
  split at whole <;> omega

theorem twoNybbles_eq {x y : Byte} (first : 0 ≤ hex x) (second : 0 ≤ hex y) : twoNybbles x y = BitVec.ofInt 8 (16 * hex x + hex y) := by
  have all : ∀ a b : Fin 16, (BitVec.ofInt 8 (a.val : Int) <<< 4) ||| BitVec.ofInt 8 (b.val : Int) =
      BitVec.ofInt 8 (16 * (a.val : Int) + b.val) := by
    decide +kernel
  have top := (hex_bounds x).2
  have top' := (hex_bounds y).2
  have value := all ⟨(hex x).toNat, by omega⟩ ⟨(hex y).toNat, by omega⟩
  unfold twoNybbles
  simp only [Int.toNat_of_nonneg first, Int.toNat_of_nonneg second] at value
  exact value

theorem symByte_eq {j : Nat} (small : j < 2 ^ 30) :
    symByte buf sep (BitVec.ofNat 32 j) = twoNybbles (buf.data (sep + 1 + 2 * j)) (buf.data (sep + 1 + (2 * j + 1))) := by
  have place : (BitVec.ofNat 32 j).toNat = j := by rw [BitVec.toNat_ofNat, Nat.mod_eq_of_lt (by omega)]
  unfold symByte
  rw [dataIndex_eq (by omega), dataIndex_eq (by omega), place]
  rfl

/-- The bytes that are stored are those of the digits. -/
theorem loopBytes_symByte {n : Nat} (size : 2 * n = buf.len - (sep + 1)) (digits : ∀ ch ∈ dataBehind buf sep, 0 ≤ hex ch) :
    loopBytes (symByte buf sep) n = decodeDigits (dataBehind buf sep) := by
  have fits := buf.fits
  unfold gdbBufMax numRegs at fits
  have digit (i : Nat) (inside : i < buf.len - (sep + 1)) : 0 ≤ hex (buf.data (sep + 1 + i)) :=
    digits _ (List.mem_map.mpr ⟨i, List.mem_range.mpr inside, rfl⟩)
  unfold loopBytes decodeDigits
  rw [dataBehind_length, ← size, Nat.mul_div_cancel_left n (by decide)]
  refine List.map_congr_left fun j inside => ?_
  have less := List.mem_range.mp inside
  rw [symByte_eq (by omega), getD_dataBehind (by omega), getD_dataBehind (by omega),
    twoNybbles_eq (digit _ (by omega)) (digit _ (by omega))]

theorem loopBytes_getD (bytes : List Byte) (len : Word) :
    loopBytes (fun off => bytes.getD off.toNat 0) (min len.toInt bytes.length).toNat = bytes.take len.toInt.toNat := by
  have small := len.toInt_lt
  apply List.ext_getElem
  · rw [loopBytes_length, List.length_take]
    omega
  · intro j inside inside'
    rw [loopBytes_length] at inside
    have place : (BitVec.ofNat 32 j).toNat = j := by rw [BitVec.toNat_ofNat, Nat.mod_eq_of_lt (by omega)]
    rw [getElem_loopBytes, List.getElem_take, place, List.getD_eq_getElem _ _ (by omega)]

end

/-! ### What the client relies on -/

section
variable {ε : Type} {u : DebugConfig (Devices ε)} {e : Endian} {blocks : Nat → Option Word} {holds : ε → Prop}
  {scanned : Option (Word × Word)} {buf : RspBuf} {m m₁ m' : Machine (Devices ε)} {addr len : Word} {sep n : Nat}

/-- A machine that differs only in what stands behind the blocks of the memories. -/
structure Alike (u : DebugConfig (Devices ε)) (e : Endian) (blocks : Nat → Option Word) (m m₁ : Machine (Devices ε)) : Prop where
  only : ∃ mem, m₁ = { m with dev := ⟨mem, m.dev.rest⟩ }
  same : ∀ b, inBlock u blocks m.dev b = true → contents u.cpu e m₁.dev b = contents u.cpu e m.dev b

/-- The addresses below a count are in the blocks of memories. -/
def AllInBlocks (u : DebugConfig (Devices ε)) (blocks : Nat → Option Word) (dev : Devices ε) (addr : Word) (n : Nat) : Prop :=
  ∀ j < n, inBlock u blocks dev (addr + BitVec.ofNat 32 j) = true

/-- A write of memory that is refused changes none, whatever stands behind the blocks. One that is accepted has as many digits as it
says, and stores their bytes in the blocks and nothing else. -/
structure WriteMemSafe (u : DebugConfig (Devices ε)) (e : Endian) (blocks : Nat → Option Word) (scanned : Option (Word × Word))
    (buf : RspBuf)
    (m : Machine (Devices ε)) : Prop where
  refused : ∀ m₁ m', Alike u e blocks m m₁ → rspWriteMem u scanned buf m₁ = .ok (e01, m') →
    contents u.cpu e m'.dev = contents u.cpu e m₁.dev
  accepted : ∀ m', rspWriteMem u scanned buf m = .ok (okReply, m') → ∃ addr len before text, scanned = some (addr, len) ∧
    buf.packet = before ++ char ':' :: text ∧ text.length = 2 * len.toInt ∧ (∀ ch ∈ text, 0 ≤ hex ch) ∧
    AllInBlocks u blocks m.dev addr len.toInt.toNat ∧
    contents u.cpu e m'.dev = placed addr (decodeDigits text) (contents u.cpu e m.dev)

/-- The same for a write of binary data. -/
structure WriteMemBinSafe (u : DebugConfig (Devices ε)) (e : Endian) (blocks : Nat → Option Word) (scanned : Option (Word × Word))
    (buf : RspBuf)
    (m : Machine (Devices ε)) : Prop where
  refused : ∀ m₁ m', Alike u e blocks m m₁ → rspWriteMemBin u scanned buf m₁ = .ok (e01, m') →
    contents u.cpu e m'.dev = contents u.cpu e m₁.dev
  accepted : ∀ m', rspWriteMemBin u scanned buf m = .ok (okReply, m') → ∃ addr len before escaped, scanned = some (addr, len) ∧
    buf.packet = before ++ char ':' :: escaped ∧ char ':' ∉ before ∧
    AllInBlocks u blocks m.dev addr ((rspUnescape escaped).take len.toInt.toNat).length ∧
    contents u.cpu e m'.dev = placed addr ((rspUnescape escaped).take len.toInt.toNat) (contents u.cpu e m.dev)

/-- The first bytes stand in the blocks of the memories already, unless they go to devices. -/
def Stands (u : DebugConfig (Devices ε)) (e : Endian) (blocks : Nat → Option Word) (dev : Devices ε) (addr : Word) (value : Word → Byte)
    (n : Nat) : Prop :=
  ∀ j < n, inMemory u blocks dev (addr + BitVec.ofNat 32 j) = true →
    inBlock u blocks dev (addr + BitVec.ofNat 32 j) = true ∧ contents u.cpu e dev (addr + BitVec.ofNat 32 j) = value (BitVec.ofNat 32 j)

/-- If the length agrees with the data, then either all of it goes to the blocks of memories, the `:` is in the packet, the length
is not negative and only digits are behind the `:`, or there is an address without an area, and the bytes in front of the first one
stand in the blocks already or go to devices. -/
def WriteMemFits (u : DebugConfig (Devices ε)) (e : Endian) (blocks : Nat → Option Word) (scanned : Option (Word × Word)) (buf : RspBuf)
    (m : Machine (Devices ε)) : Prop :=
  ∀ addr len sep, scanned = some (addr, len) → findColon buf = some sep → len * 2 = lenBehind buf sep →
    (AllMapped u m.dev addr len.toInt.toNat →
      AllInBlocks u blocks m.dev addr len.toInt.toNat ∧ sep < buf.len ∧ 0 ≤ len.toInt ∧ ∀ ch ∈ dataBehind buf sep, 0 ≤ hex ch) ∧
    ∀ k, FirstMissing u m.dev addr len.toInt.toNat k → Stands u e blocks m.dev addr (symByte buf sep) k

/-- The number of bytes that a packet of binary data stores. -/
def binCount (buf : RspBuf) (len : Word) (sep : Nat) : Nat := (min len.toInt (rspUnescape (dataBehind buf sep)).length).toNat

def binByte (buf : RspBuf) (sep : Nat) (off : Word) : Byte := (rspUnescape (dataBehind buf sep)).getD off.toNat 0

/-- Either all of the data goes to the blocks of memories and the `:` is in the packet, or there is an address without an area, and
the bytes in front of the first one stand in the blocks already or go to devices. -/
def WriteMemBinFits (u : DebugConfig (Devices ε)) (e : Endian) (blocks : Nat → Option Word) (scanned : Option (Word × Word))
    (buf : RspBuf) (m : Machine (Devices ε)) : Prop :=
  ∀ addr len sep, scanned = some (addr, len) → findColon buf = some sep →
    (AllMapped u m.dev addr (binCount buf len sep) → AllInBlocks u blocks m.dev addr (binCount buf len sep) ∧ sep < buf.len) ∧
    ∀ k, FirstMissing u m.dev addr (binCount buf len sep) k → Stands u e blocks m.dev addr (binByte buf sep) k

/-- The program does not end while a packet is handled, whatever stands behind the blocks. -/
def Answered (u : DebugConfig (Devices ε)) (e : Endian) (blocks : Nat → Option Word) (m : Machine (Devices ε))
    (handler : Sim (Devices ε) (List Byte)) : Prop :=
  ∀ m₁, Alike u e blocks m m₁ → ∃ r, handler m₁ = .ok r

theorem e01_ne_ok : e01 ≠ okReply := by decide

/-- The loop, with the reply that follows it. -/
def storeReply (u : DebugConfig δ) (addr : Word) (value : Word → Byte) (n : Nat) : Sim δ (List Byte) := do
  if ← pokeLoop u addr value n 0 then pure okReply else pure e01

theorem rspWriteMem_checked (found : findColon buf = some sep) (same : len * 2 = lenBehind buf sep) :
    rspWriteMem u (some (addr, len)) buf = storeReply u addr (symByte buf sep) len.toInt.toNat := by
  unfold rspWriteMem
  simp only [found]
  rw [if_neg (not_not.mpr same)]
  rfl

theorem rspWriteMemBin_found (found : findColon buf = some sep) :
    rspWriteMemBin u (some (addr, len)) buf = storeReply u addr (binByte buf sep) (binCount buf len sep) := by
  unfold rspWriteMemBin
  simp only [found]
  rfl

theorem count_le (n : Nat) (len : Word) (most : (n : Int) ≤ max 0 len.toInt) : n ≤ 2 ^ 32 := by
  have small := len.toInt_lt
  omega

theorem binCount_le (buf : RspBuf) (len : Word) (sep : Nat) : binCount buf len sep ≤ 2 ^ 32 :=
  count_le _ len (by unfold binCount; omega)

theorem Alike.refl (u : DebugConfig (Devices ε)) (e : Endian) (blocks : Nat → Option Word) (m : Machine (Devices ε)) :
    Alike u e blocks m m :=
  ⟨⟨m.dev.mem, rfl⟩, fun _ _ => rfl⟩

theorem Alike.rest (alike : Alike u e blocks m m₁) : m₁.dev.rest = m.dev.rest := by
  obtain ⟨mem, rfl⟩ := alike.only
  rfl

theorem Alike.held (alike : Alike u e blocks m m₁) (held : holds m.dev.rest) : holds m₁.dev.rest := by
  rw [alike.rest]
  exact held

theorem FirstMissing.of_mapped {dev dev' : Devices ε} {k : Nat} (same : ∀ b, Mapped u.cpu dev b ↔ Mapped u.cpu dev' b)
    (first : FirstMissing u dev addr n k) : FirstMissing u dev' addr n k :=
  ⟨first.inside, mt (same _).mpr first.missing, fun j before => (same _).mp (first.before j before)⟩

/-- What a reply tells about the areas, and what has been stored with it. -/
theorem storeReply_cases (board : Board u e blocks holds) (held : holds m.dev.rest) {value : Word → Byte} (small : n ≤ 2 ^ 32)
    {r : List Byte} (ran : storeReply u addr value n m = .ok (r, m')) :
    r = okReply ∧ AllMapped u m.dev addr n ∧ Taken u e blocks holds addr (loopBytes value n) m m' ∨
      r = e01 ∧ ∃ k, FirstMissing u m.dev addr n k ∧ Taken u e blocks holds addr (loopBytes value k) m m' := by
  obtain ⟨all, t, loop, reply⟩ := bind_ok ran
  rcases pokeLoop_cases board held value small loop with ⟨rfl, mapped, taken⟩ | ⟨rfl, k, first, taken⟩
  · rw [if_pos rfl] at reply
    cases reply
    exact .inl ⟨rfl, mapped, taken⟩
  · rw [if_neg Bool.false_ne_true] at reply
    cases reply
    exact .inr ⟨rfl, k, first, taken⟩

theorem stored_self {dev : Devices ε} {value : Word → Byte} {j k : Nat} {f : Word → Byte} (less : j < k) (small : k ≤ 2 ^ 32)
    (there : inMemory u blocks dev (addr + BitVec.ofNat 32 j) = true) :
    stored u blocks dev addr (loopBytes value k) f (addr + BitVec.ofNat 32 j) = value (BitVec.ofNat 32 j) := by
  have inside : j < (loopBytes value k).length := by rw [loopBytes_length]; exact less
  refine (if_pos there).trans ((Mem.placed_self inside (by rw [loopBytes_length]; exact small)).trans ?_)
  exact getElem_loopBytes value k j inside

/-- Some other byte may stand at the address of a memory. -/
theorem exists_other (board : Board u e blocks holds) (held : holds m.dev.rest) {b : Word}
    (there : inMemory u blocks m.dev b = true) (v : Byte) :
    ∃ mem, contents u.cpu e ⟨mem, m.dev.rest⟩ = placed b [v] (contents u.cpu e m.dev) := by
  obtain ⟨i, found, -⟩ := (Option.any_eq_true _ _).mp there
  obtain ⟨a, present, -⟩ := Mem.owner_present found
  exact ⟨_, Mem.contents_program8 (board.space _ held) (found : Mem.owner u.cpu ⟨m.dev.mem, m.dev.rest⟩ b = some i) present v⟩

/-- Whatever stands behind the block of a memory. -/
theorem exists_alike (board : Board u e blocks holds) (held : holds m.dev.rest) {b : Word}
    (there : inMemory u blocks m.dev b = true) (behind : ¬inBlock u blocks m.dev b = true) (v : Byte) :
    ∃ m₁, Alike u e blocks m m₁ ∧ contents u.cpu e m₁.dev b = v := by
  obtain ⟨mem, other⟩ := exists_other board held there v
  refine ⟨{ m with dev := ⟨mem, m.dev.rest⟩ }, ⟨⟨mem, rfl⟩, fun c inside => ?_⟩, ?_⟩
  · show contents u.cpu e ⟨mem, m.dev.rest⟩ c = _
    rw [other]
    exact Mem.placed_one.trans (if_neg fun same => behind (by rw [← same]; exact inside))
  · show contents u.cpu e ⟨mem, m.dev.rest⟩ b = _
    rw [other]
    exact Mem.placed_one.trans (if_pos rfl)

/-- A refused packet changes memory, unless its bytes stand there already. -/
theorem stands_of_refused (board : Board u e blocks holds) (held : holds m.dev.rest) {value : Word → Byte} (small : n ≤ 2 ^ 32)
    (answers : Answered u e blocks m (storeReply u addr value n))
    (refused : ∀ m₁ m', Alike u e blocks m m₁ → storeReply u addr value n m₁ = .ok (e01, m') →
      contents u.cpu e m'.dev = contents u.cpu e m₁.dev)
    {k : Nat} (first : FirstMissing u m.dev addr n k) : Stands u e blocks m.dev addr value k := by
  have found (m₁ : Machine (Devices ε)) (alike : Alike u e blocks m m₁) {j : Nat} (less : j < k)
      (there : inMemory u blocks m.dev (addr + BitVec.ofNat 32 j) = true) :
      contents u.cpu e m₁.dev (addr + BitVec.ofNat 32 j) = value (BitVec.ofNat 32 j) := by
    have held₁ := alike.held held
    obtain ⟨⟨r, m'⟩, ran⟩ := answers m₁ alike
    have first₁ := first.of_mapped (board.mapped held held₁)
    rcases storeReply_cases board held₁ small ran with ⟨-, mapped, -⟩ | ⟨rfl, k', first', taken⟩
    · exact absurd mapped first₁.not_all
    · rw [first'.unique first₁] at taken
      have same : inMemory u blocks m₁.dev (addr + BitVec.ofNat 32 j) = true := (board.inMemory held₁ held _).trans there
      rw [← refused m₁ m' alike ran, taken.contents, stored_self less (Nat.le_trans (Nat.le_of_lt first.inside) small) same]
  intro j less there
  refine ⟨?_, found m (.refl u e blocks m) less there⟩
  by_contra behind
  -- another byte behind the block is overwritten
  obtain ⟨m₁, alike, not⟩ := exists_alike board held there behind (~~~value (BitVec.ofNat 32 j))
  have bit := congrArg (BitVec.getLsbD · 0) (not.symm.trans (found m₁ alike less there))
  simp at bit

theorem refused_of_stands (board : Board u e blocks holds) (held : holds m.dev.rest) {value : Word → Byte} (small : n ≤ 2 ^ 32)
    (stands : ∀ k, FirstMissing u m.dev addr n k → Stands u e blocks m.dev addr value k) (alike : Alike u e blocks m m₁)
    (ran : storeReply u addr value n m₁ = .ok (e01, m')) : contents u.cpu e m'.dev = contents u.cpu e m₁.dev := by
  have held₁ := alike.held held
  rcases storeReply_cases board held₁ small ran with ⟨ok, -⟩ | ⟨-, k, first₁, taken⟩
  · exact absurd ok e01_ne_ok
  · have stands := stands k (first₁.of_mapped (board.mapped held₁ held))
    rw [taken.contents]
    funext b
    unfold stored
    split
    · next there =>
      refine Mem.placed_eq_of fun j inside is => ?_
      rw [loopBytes_length] at inside
      subst is
      obtain ⟨block, stood⟩ := stands j inside ((board.inMemory held held₁ _).trans there)
      rw [getElem_loopBytes, alike.same _ block, stood]
    · rfl

theorem stored_inBlocks {dev : Devices ε} {value : Word → Byte} {f : Word → Byte} (all : AllInBlocks u blocks dev addr n) :
    stored u blocks dev addr (loopBytes value n) f = placed addr (loopBytes value n) f := by
  funext b
  unfold stored
  split
  · rfl
  · next outside =>
    refine (Mem.placed_eq_of fun j inside is => absurd ?_ outside).symm
    rw [loopBytes_length] at inside
    rw [is]
    exact inMemory_of_inBlock (all j inside)

/-- Where all addresses have areas the packet is accepted, if it is answered at all. -/
theorem Answered.accepted (board : Board u e blocks holds) (held : holds m.dev.rest) {value : Word → Byte} (small : n ≤ 2 ^ 32)
    (answers : Answered u e blocks m (storeReply u addr value n)) (mapped : AllMapped u m.dev addr n) :
    ∃ m', storeReply u addr value n m = .ok (okReply, m') := by
  obtain ⟨⟨r, m'⟩, ran⟩ := answers m (.refl u e blocks m)
  rcases storeReply_cases board held small ran with ⟨rfl, -⟩ | ⟨-, k, first, -⟩
  · exact ⟨m', ran⟩
  · exact absurd mapped first.not_all

theorem WriteMemFits.safe (board : Board u e blocks holds) (held : holds m.dev.rest) (fits : WriteMemFits u e blocks scanned buf m) :
    WriteMemSafe u e blocks scanned buf m := by
  rcases scanned with _ | ⟨addr, len⟩
  · exact ⟨fun m₁ m' _ ran => by cases ran; rfl, fun m' ran => absurd (Prod.mk.inj (Except.ok.inj ran)).1 e01_ne_ok⟩
  cases found : findColon buf with
  | none =>
    have crashes (s : Machine (Devices ε)) : rspWriteMem u (some (addr, len)) buf s = .error .crash := by
      unfold rspWriteMem
      simp only [found]
      rfl
    exact ⟨fun m₁ m' _ ran => (by rw [crashes] at ran; cases ran), fun m' ran => (by rw [crashes] at ran; cases ran)⟩
  | some sep =>
    by_cases same : len * 2 = lenBehind buf sep
    · have small := count_le len.toInt.toNat len (by omega)
      obtain ⟨whole, part⟩ := fits addr len sep rfl found same
      constructor
      · intro m₁ m' alike ran
        rw [rspWriteMem_checked found same] at ran
        exact refused_of_stands board held small part alike ran
      · intro m' ran
        rw [rspWriteMem_checked found same] at ran
        rcases storeReply_cases board held small ran with ⟨-, mapped, taken⟩ | ⟨refused, -⟩
        · obtain ⟨blocks, inside, least, digits⟩ := whole mapped
          obtain ⟨value, size⟩ := checked_length same inside least
          refine ⟨addr, len, _, dataBehind buf sep, rfl,
            by rw [← (findColon_some found).1]; exact packet_split inside, ?_, digits, blocks, ?_⟩
          · rw [dataBehind_length]
            omega
          · rw [taken.contents, stored_inBlocks blocks, loopBytes_symByte size digits]
        · exact absurd refused.symm e01_ne_ok
    · have refuses (s : Machine (Devices ε)) : rspWriteMem u (some (addr, len)) buf s = .ok (e01, s) := by
        unfold rspWriteMem
        simp only [found]
        rw [if_pos same]
        rfl
      refine ⟨fun m₁ m' _ ran => ?_, fun m' ran => ?_⟩
      · rw [refuses] at ran
        cases ran
        rfl
      · rw [refuses] at ran
        exact absurd (Prod.mk.inj (Except.ok.inj ran)).1 e01_ne_ok

theorem WriteMemSafe.fits (board : Board u e blocks holds) (held : holds m.dev.rest)
    (answers : findColon buf ≠ none → Answered u e blocks m (rspWriteMem u scanned buf)) (safe : WriteMemSafe u e blocks scanned buf m) :
    WriteMemFits u e blocks scanned buf m := by
  rintro addr len sep rfl found same
  have small := count_le len.toInt.toNat len (by omega)
  have answers := answers (by rw [found]; nofun)
  obtain ⟨refused, accepted⟩ := safe
  rw [rspWriteMem_checked found same] at answers refused accepted
  refine ⟨fun mapped => ?_, fun k first => stands_of_refused board held small answers refused first⟩
  obtain ⟨m', ran⟩ := answers.accepted board held small mapped
  obtain ⟨addr', len', before, text, is, split, long, digits, blocks, _⟩ := accepted m' ran
  cases is
  obtain ⟨colon, first⟩ := findColon_some found
  obtain ⟨inside, here, rfl, _⟩ := of_packet_split split
  have least : sep ≤ before.length := Nat.le_of_not_lt fun less => first _ less here
  have sepInside : sep < buf.len := by omega
  rw [dataBehind_length] at long
  have double := double_toNat same sepInside
  have value := BitVec.toInt_eq_toNat_cond len
  have fits := buf.fits
  unfold gdbBufMax numRegs at fits
  have place : before.length = sep := by split at value <;> omega
  rw [place] at digits
  exact ⟨blocks, sepInside, by omega, digits⟩

theorem binCount_length : binCount buf len sep = ((rspUnescape (dataBehind buf sep)).take len.toInt.toNat).length := by
  unfold binCount
  rw [List.length_take]
  omega

theorem WriteMemBinFits.safe (board : Board u e blocks holds) (held : holds m.dev.rest)
    (fits : WriteMemBinFits u e blocks scanned buf m) :
    WriteMemBinSafe u e blocks scanned buf m := by
  rcases scanned with _ | ⟨addr, len⟩
  · exact ⟨fun m₁ m' _ ran => by cases ran; rfl, fun m' ran => absurd (Prod.mk.inj (Except.ok.inj ran)).1 e01_ne_ok⟩
  cases found : findColon buf with
  | none =>
    have crashes (s : Machine (Devices ε)) : rspWriteMemBin u (some (addr, len)) buf s = .error .crash := by
      unfold rspWriteMemBin
      simp only [found]
      rfl
    exact ⟨fun m₁ m' _ ran => (by rw [crashes] at ran; cases ran), fun m' ran => (by rw [crashes] at ran; cases ran)⟩
  | some sep =>
    have small := binCount_le buf len sep
    obtain ⟨whole, part⟩ := fits addr len sep rfl found
    constructor
    · intro m₁ m' alike ran
      rw [rspWriteMemBin_found found] at ran
      exact refused_of_stands board held small part alike ran
    · intro m' ran
      rw [rspWriteMemBin_found found] at ran
      rcases storeReply_cases board held small ran with ⟨-, mapped, taken⟩ | ⟨refused, -⟩
      · obtain ⟨blocks, inside⟩ := whole mapped
        obtain ⟨colon, first⟩ := findColon_some found
        refine ⟨addr, len, _, dataBehind buf sep, rfl, by rw [← colon]; exact packet_split inside, fun within => ?_, ?_, ?_⟩
        · obtain ⟨k, less, here⟩ := List.mem_map.mp within
          exact first k (List.mem_range.mp less) here
        · rw [← binCount_length]
          exact blocks
        · rw [taken.contents, stored_inBlocks blocks]
          exact congrArg (placed addr · (contents u.cpu e m.dev)) (loopBytes_getD (rspUnescape (dataBehind buf sep)) len)
      · exact absurd refused.symm e01_ne_ok

theorem WriteMemBinSafe.fits (board : Board u e blocks holds) (held : holds m.dev.rest)
    (answers : findColon buf ≠ none → Answered u e blocks m (rspWriteMemBin u scanned buf))
    (safe : WriteMemBinSafe u e blocks scanned buf m) :
    WriteMemBinFits u e blocks scanned buf m := by
  rintro addr len sep rfl found
  have small := binCount_le buf len sep
  have answers := answers (by rw [found]; nofun)
  obtain ⟨refused, accepted⟩ := safe
  rw [rspWriteMemBin_found found] at answers refused accepted
  refine ⟨fun mapped => ?_, fun k first => stands_of_refused board held small answers refused first⟩
  obtain ⟨m', ran⟩ := answers.accepted board held small mapped
  obtain ⟨addr', len', before, escaped, is, split, fresh, blocks, _⟩ := accepted m' ran
  cases is
  obtain ⟨colon, first⟩ := findColon_some found
  obtain ⟨inside, here, rfl, spelled⟩ := of_packet_split split
  have least : sep ≤ before.length := Nat.le_of_not_lt fun less => first _ less here
  have place : before.length = sep := by
    refine Nat.le_antisymm (Nat.le_of_not_lt fun less => fresh ?_) least
    rw [spelled]
    exact List.mem_map.mpr ⟨sep, List.mem_range.mpr less, colon⟩
  rw [place] at inside blocks
  exact ⟨by rw [binCount_length]; exact blocks, inside⟩

/-- Writes of memory are all or nothing, and those that are accepted are well formed, exactly under the condition of each packet. -/
theorem writes_safe_iff (board : Board u e blocks holds) (held : holds m.dev.rest) (scanned : Option (Word × Word)) (buf : RspBuf)
    (answers : findColon buf ≠ none → Answered u e blocks m (rspWriteMem u scanned buf))
    (answersBin : findColon buf ≠ none → Answered u e blocks m (rspWriteMemBin u scanned buf)) :
    (WriteMemSafe u e blocks scanned buf m ↔ WriteMemFits u e blocks scanned buf m) ∧
      (WriteMemBinSafe u e blocks scanned buf m ↔ WriteMemBinFits u e blocks scanned buf m) :=
  ⟨⟨fun safe => safe.fits board held answers, fun fits => fits.safe board held⟩,
    ⟨fun safe => safe.fits board held answersBin, fun fits => fits.safe board held⟩⟩

/-! ### Boards whose devices ask for nothing -/

/-- A byte makes no area ask for anything. -/
def Quiet (u : DebugConfig (Devices ε)) : Prop :=
  ∀ (i : Nat) (a : Cpu.Area (Devices ε)), u.cpu.areas[i]? = some a → ∀ f, byteWriter u i a = some f → ∀ addr value dev,
    (f addr value dev).2 = []

theorem Quiet.setProgram8 (quiet : Quiet u) (addr : Word) (value : Byte) (s : Machine (Devices ε)) :
    ∃ t, setProgram8 u addr value s = .ok ((), t) := by
  unfold Debug.setProgram8
  rw [Programs.modify_bind, Programs.get_bind]
  cases area : u.cpu.area (verifyMemoryarea u.cpu addr s) with
  | none => exact ⟨_, rfl⟩
  | some a =>
    obtain ⟨i, cur, present⟩ := Option.bind_eq_some_iff.mp area
    have asks (f : Word → Byte → Devices ε → Devices ε × List Cpu.DevEvent) (is : byteWriter u i a = some f) (addr : Word)
      (dev : Devices ε) :
        (f addr value dev).2 = [] := quiet i a present f is addr value dev
    unfold byteWriter at asks
    simp only [cur, Option.bind_some]
    cases prog : u.writeprog8 i with
    | some writeprog8 =>
      simp only [Programs.set_bind, asks writeprog8 (by rw [prog]; rfl)]
      exact ⟨_, rfl⟩
    | none =>
      cases write : a.writefunc .byte with
      | some writefunc =>
        simp only [Programs.set_bind, asks writefunc (by rw [prog]; exact write)]
        exact ⟨_, rfl⟩
      | none => exact ⟨_, rfl⟩

theorem Quiet.pokeLoop (quiet : Quiet u) (addr : Word) (value : Word → Byte) (more : Nat) (off : Word) (s : Machine (Devices ε)) :
    ∃ r, pokeLoop u addr value more off s = .ok r := by
  induction more generalizing off s with
  | zero => exact ⟨_, rfl⟩
  | succ more ih =>
    have byte : ∃ r, pokeByte u (addr + off) (value off) s = .ok r := by
      unfold pokeByte
      rw [Programs.modify_bind, Programs.get_bind]
      split
      · exact ⟨_, rfl⟩
      · obtain ⟨t, flushed, -⟩ := dcInv_dev u.cpu (addr + off) (verifyMemoryarea u.cpu (addr + off) s)
        obtain ⟨t', done⟩ := quiet.setProgram8 (addr + off) (value off) (Cpu.icInv u.cpu (addr + off) t)
        rw [bind_of_ok flushed, Programs.modify_bind, bind_of_ok done]
        exact ⟨_, rfl⟩
    obtain ⟨⟨there, t⟩, ran⟩ := byte
    unfold Debug.pokeLoop
    rw [bind_of_ok ran]
    cases there with
    | true => exact ih (off + 1) t
    | false => exact ⟨_, rfl⟩

theorem Quiet.storeReply (quiet : Quiet u) (addr : Word) (value : Word → Byte) (n : Nat) :
    Answered u e blocks m (storeReply u addr value n) := by
  intro m₁ _
  obtain ⟨⟨all, t⟩, ran⟩ := quiet.pokeLoop addr value n 0 m₁
  unfold Debug.storeReply
  rw [bind_of_ok ran]
  cases all <;> exact ⟨_, rfl⟩

/-- Every packet with a `:` in the buffer is answered. -/
theorem Quiet.answered (quiet : Quiet u) (found : findColon buf ≠ none) :
    Answered u e blocks m (rspWriteMem u scanned buf) ∧ Answered u e blocks m (rspWriteMemBin u scanned buf) := by
  obtain ⟨sep, found⟩ := Option.ne_none_iff_exists'.mp found
  rcases scanned with _ | ⟨addr, len⟩
  · exact ⟨fun m₁ _ => ⟨_, rfl⟩, fun m₁ _ => ⟨_, rfl⟩⟩
  refine ⟨?_, by rw [rspWriteMemBin_found found]; exact quiet.storeReply _ _ _⟩
  by_cases same : len * 2 = lenBehind buf sep
  · rw [rspWriteMem_checked found same]
    exact quiet.storeReply _ _ _
  · intro m₁ _
    unfold rspWriteMem
    simp only [found]
    rw [if_pos same]
    exact ⟨_, rfl⟩

/-- A packet as the first one. -/
def RspBuf.first (text : String) (fits : text.length < gdbBufMax) : RspBuf where
  data k := (text.toList.map char).getD k 0
  len := text.length
  fits := fits
  ends := by rw [List.getD_eq_default _ _ (by rw [List.length_map]; exact Nat.le_refl _)]

end

/-! ### A board with a memory and a register -/

section

/-- A memory of 12 bytes in a window of 16, and behind it a device with a register of one byte. -/
def smallBoard : DebugConfig (Devices Byte) :=
  { cpu := Cpu.Config.bare [] [Mem.memoryArea .little 0 ⟨1, 1⟩ 0 4,
      { addrMask := fun _ => ~~~Aligned.low 32 4
        addrCompare := fun _ => 0x10
        sizeMask := fun _ => Aligned.low 32 4
        valid := fun _ => true
        delayr := fun _ => 1
        delayw := fun _ => 1
        readfunc := fun _ => none
        writefunc := fun
          | .byte => some fun _ value dev => ({ dev with rest := value }, [])
          | _ => none }]
    writeprog8 := fun i => if i = 0 then some fun addr value dev =>
      (dev.setMem 0 (Mem.simmemWrite .little .byte addr value (dev.mem 0)), []) else none
    resetHooks := fun dev => (dev, [])
    checkInt := 0
    or32BigEndian := false }

def smallBlocks (i : Nat) : Option Word := if i = 0 then some 12 else none

def smallMachine : Machine (Devices Byte) := Cpu.Machine.bare ⟨fun _ _ => 0, 0⟩ 0 0x2000

theorem small_areas {i : Nat} {a : Cpu.Area (Devices Byte)} (present : smallBoard.cpu.areas[i]? = some a) :
    i = 0 ∧ a = smallBoard.cpu.areas[0] ∨ i = 1 ∧ a = smallBoard.cpu.areas[1] := by
  obtain ⟨inside, rfl⟩ := List.getElem?_eq_some_iff.mp present
  have two : i < 2 := inside
  obtain rfl | rfl : i = 0 ∨ i = 1 := by omega
  · exact .inl ⟨rfl, rfl⟩
  · exact .inr ⟨rfl, rfl⟩

theorem small_window (o : Byte) {i : Nat} {a : Cpu.Area (Devices Byte)} (present : smallBoard.cpu.areas[i]? = some a) :
    Window a o 4 (BitVec.ofNat 32 (16 * i)) := by
  rcases small_areas present with ⟨rfl, rfl⟩ | ⟨rfl, rfl⟩
  · exact ⟨by decide, fun _ => rfl, fun _ => rfl, fun _ => rfl, fun _ => rfl⟩
  · exact ⟨by decide, fun _ => rfl, fun _ => rfl, fun _ => rfl, fun _ => rfl⟩

theorem small_board : Board smallBoard .little smallBlocks fun _ => True where
  space o _ := by
    refine ⟨fun i a present => ⟨4, _, small_window o present, fun _ _ => by decide⟩, fun mem addr i j first second => ?_⟩
    obtain ⟨a, presentI, coversI⟩ := (Option.any_eq_true _ _).mp first
    obtain ⟨b, presentJ, coversJ⟩ := (Option.any_eq_true _ _).mp second
    unfold Cpu.Area.covers at coversI coversJ
    rw [(small_window o presentI).addrMask, (small_window o presentI).addrCompare] at coversI
    rw [(small_window o presentJ).addrMask, (small_window o presentJ).addrCompare] at coversJ
    have same := (of_decide_eq_true coversI).symm.trans (of_decide_eq_true coversJ)
    rcases small_areas presentI with ⟨rfl, -⟩ | ⟨rfl, -⟩ <;> rcases small_areas presentJ with ⟨rfl, -⟩ | ⟨rfl, -⟩
    · rfl
    · exact absurd same (by decide)
    · exact absurd same (by decide)
    · rfl
  still o o' _ _ i a present k base window :=
    ⟨window.small, fun mem => by rw [← window.addrMask mem, (small_window o present).addrMask, (small_window o' present).addrMask],
      fun mem => by rw [← window.addrCompare mem, (small_window o present).addrCompare, (small_window o' present).addrCompare],
      fun mem => by rw [← window.sizeMask mem, (small_window o present).sizeMask, (small_window o' present).sizeMask],
      fun mem => (small_window o' present).valid mem⟩
  memory i size known := by
    unfold smallBlocks at known
    split at known
    · next zero =>
      subst zero
      rfl
    · cases known
  device i a present unknown f is addr value dev _ := by
    rcases small_areas present with ⟨rfl, rfl⟩ | ⟨rfl, rfl⟩
    · cases unknown
    · cases is
      exact ⟨rfl, trivial⟩

theorem small_quiet : Quiet smallBoard := by
  intro i a present f is addr value dev
  rcases small_areas present with ⟨rfl, rfl⟩ | ⟨rfl, rfl⟩
  · cases is
    rfl
  · cases is
    rfl

/-- The packet `M2,2:a7b8` stores its two bytes. -/
theorem writes_safe_bytes : WriteMemSafe smallBoard .little smallBlocks (some (2, 2)) (.first "M2,2:a7b8" (by decide)) smallMachine := by
  have there : findColon (.first "M2,2:a7b8" (by decide)) = some 4 := by decide +kernel
  refine (writes_safe_iff (m := smallMachine) small_board trivial _ _ (fun found => (small_quiet.answered found).1)
    fun found => (small_quiet.answered found).2).1.mpr fun addr len sep is colon _ => ?_
  cases is
  obtain rfl : 4 = sep := Option.some.inj (there.symm.trans colon)
  refine ⟨fun _ => ⟨?_, by decide, by decide, by decide +kernel⟩, fun k first => absurd ?_ first.missing⟩
  · intro j less
    obtain rfl | rfl : j = 0 ∨ j = 1 := by
      have : j < 2 := less
      omega
    · decide +kernel
    · decide +kernel
  · obtain rfl | rfl : k = 0 ∨ k = 1 := by
      have : k < 2 := first.inside
      omega
    · decide +kernel
    · decide +kernel

theorem ram_only {i : Nat} {a : Cpu.Area (Devices Unit)} (present : ramDebug.cpu.areas[i]? = some a) : i = 0 :=
  Nat.lt_one_iff.mp (List.getElem?_eq_some_iff.mp present).1

def ramBlocks (i : Nat) : Option Word := if i = 0 then some 16 else none

theorem ram_board : Board ramDebug .little ramBlocks fun _ => True where
  space _ _ := Space.memory () rfl (by decide) (by decide)
  still _ _ _ _ _ _ _ _ _ window := window
  memory i size known := by
    unfold ramBlocks at known
    split at known
    · next first =>
      subst first
      rfl
    · cases known
  device i a present none := by
    cases ram_only present
    cases none

theorem ram_quiet : Quiet ramDebug := by
  intro i a present f is addr value dev
  cases ram_only present
  cases is
  rfl

/-- The packet `Mf,2:0102` is refused when its first byte has been stored. -/
theorem refused_write_stored : ¬ ∀ (u : DebugConfig (Devices Unit)) (blocks : Nat → Option Word) (holds : Unit → Prop)
    (scanned : Option (Word × Word)) (buf : RspBuf) (m : Machine (Devices Unit)), Board u .little blocks holds → holds m.dev.rest →
    WriteMemSafe u .little blocks scanned buf m := by
  intro claim
  have safe := claim ramDebug ramBlocks (fun _ => True) (some (0xf, 2)) (.first "Mf,2:0102" (by decide)) ramMachine ram_board trivial
  have found : findColon (.first "Mf,2:0102" (by decide)) = some 4 := by decide +kernel
  have missing : FirstMissing ramDebug ramMachine.dev 0xf 2 1 := by
    refine ⟨by decide, by decide +kernel, fun j first => ?_⟩
    obtain rfl : j = 0 := Nat.lt_one_iff.mp first
    decide +kernel
  have fits := safe.fits ram_board trivial fun colon => (ram_quiet.answered colon).1
  have stands := (fits 0xf 2 4 rfl found (by decide +kernel)).2 1 missing 0 (by decide) (by decide +kernel)
  exact absurd stands.2 (by decide +kernel)

end

end Or1ksim.Debug
