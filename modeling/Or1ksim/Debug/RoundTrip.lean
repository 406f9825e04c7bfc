import Or1ksim.Debug.Transfer
import Or1ksim.Mem.Space

/-!
# Memory and registers through JTAG

The ports of the WishBone and of the processor: bytes of memories, which are written as a program is
loaded, and special purpose registers that only keep their value.
-/

namespace Or1ksim.Debug

open Serial (Buffer Shows msbFirst length_msbFirst)
open Cpu (Word Machine Sim SprNo setSpr)
open Mem (Devices Space IsMemory MemoryAt MemConfig Endian Window peek owner)

/-! ### Bytes of a request -/

theorem getD_dataBits (block : List (BitVec 8)) {i j : Nat} (inside : i < block.length) (bit : j < 8) :
    (dataBits block).getD (8 * i + j) false = (block.getD i 0).getLsbD (7 - j) := by
  induction block generalizing i with
  | nil => cases inside
  | cons byte block ih =>
    show (msbFirst 8 byte ++ dataBits block).getD (8 * i + j) false = _
    cases i with
    | zero =>
      rw [List.getD_append _ _ _ _ (by rw [length_msbFirst]; omega), Serial.getD_msbFirst _ (by omega), Nat.mul_zero, Nat.zero_add]
      rfl
    | succ i =>
      rw [List.getD_append_right _ _ _ _ (by rw [length_msbFirst]; omega), length_msbFirst,
        show 8 * (i + 1) + j - 8 = 8 * i + j by omega, ih (by rw [List.length_cons] at inside; omega)]
      rfl

theorem dataByte_of_carries {jreg : Buffer} {block : List (BitVec 8)} (carries : Carries jreg block) {i : Nat}
    (inside : i < block.length) :
    dataByte jreg i = block.getD i 0 := by
  have byte : Shows jreg (8 * i + 5) 8 (block.getD i 0) := by
    intro k small
    have here := Buffer.getD_bits jreg 5 (show 8 * i + k < 8 * block.length by omega)
    rw [carries, getD_dataBits block inside small, show 5 + (8 * i + k) = 8 * i + 5 + k by omega] at here
    exact here.symm
  exact byte.unique (shows_dataByte jreg i)

theorem ulong_large {δ : Type} (u : DebugConfig δ) : 2 ^ 32 ≤ u.ulong := by
  unfold DebugConfig.ulong
  split <;> decide

/-! ### The WishBone -/

section
variable {ε : Type} {u : DebugConfig (Devices ε)} {e : Endian} {o : ε} {m m' : Machine (Devices ε)} {d : DebugState} {jreg : Buffer}

/-- Memories load programs with `simmem_write8`, whether they can be written or not. -/
def Loads (u : DebugConfig (Devices ε)) (e : Endian) : Prop :=
  ∀ i a mem, u.cpu.areas[i]? = some a → IsMemory e i a mem →
    u.writeprog8 i = some fun addr value dev => (dev.setMem i (Mem.simmemWrite e .byte addr value (dev.mem i)), [])

/-- The bytes from `start` on are in memories that can be read and written. -/
def RamRange (u : DebugConfig (Devices ε)) (e : Endian) (dev : Devices ε) (start len : Nat) : Prop :=
  start + len ≤ 2 ^ 32 ∧ ∀ j < len, ∃ i mem, MemoryAt u.cpu e dev (oraddr (start + j)) i mem ∧ mem.IsRam

/-- Only the memories and the area that was found last differ. -/
structure Poked (m m' : Machine (Devices ε)) : Prop where
  rest : m'.dev.rest = m.dev.rest
  machine : ∃ cur, m' = { m with dev := m'.dev, curArea := cur }

theorem Poked.refl (m : Machine (Devices ε)) : Poked m m := ⟨rfl, m.curArea, rfl⟩

theorem Poked.trans {m₁ m₂ m₃ : Machine (Devices ε)} (first : Poked m₁ m₂) (second : Poked m₂ m₃) : Poked m₁ m₃ := by
  obtain ⟨cur, same⟩ := first.machine
  obtain ⟨cur', same'⟩ := second.machine
  refine ⟨second.rest.trans first.rest, cur', ?_⟩
  rw [same', same]

theorem Poked.owner (space : Space u.cpu e o) (rest : m.dev.rest = o) (poked : Poked m m') (b : Word) :
    Mem.owner u.cpu m'.dev b = Mem.owner u.cpu m.dev b := by
  have rest' : m'.dev.rest = o := poked.rest.trans rest
  rw [show m'.dev = ⟨m'.dev.mem, o⟩ by rw [← rest'], show m.dev = ⟨m.dev.mem, o⟩ by rw [← rest]]
  exact Mem.owner_mem space _ _ b

theorem Poked.memoryAt (space : Space u.cpu e o) (rest : m.dev.rest = o) (poked : Poked m m') {b : Word} {i : Nat} {mem : MemConfig}
    (here : MemoryAt u.cpu e m.dev b i mem) : MemoryAt u.cpu e m'.dev b i mem :=
  ⟨(poked.owner space rest b).trans here.found, here.memory⟩

theorem Poked.ramRange (space : Space u.cpu e o) (rest : m.dev.rest = o) (poked : Poked m m') {start len : Nat}
    (range : RamRange u e m.dev start len) : RamRange u e m'.dev start len := by
  refine ⟨range.1, fun j small => ?_⟩
  obtain ⟨i, mem, here, ram⟩ := range.2 j small
  exact ⟨i, mem, poked.memoryAt space rest here, ram⟩

theorem bigRead_byte (f : Mem.Bytes) (n : Nat) (value : BitVec Cpu.Width.byte.bits) (k : Nat) :
    Mem.bigRead (Mem.bigWrite f n .byte value) k .byte = if k = n then value else Mem.bigRead f k .byte := Mem.bigWrite_byte f n value k

/-- A byte of a memory after a byte was written to a memory. -/
theorem peek_write (space : Space u.cpu e o) {mem : Nat → Mem.Bytes} {addr b : Word} {i j : Nat} {config config' : MemConfig}
    {a : Cpu.Area (Devices ε)} (present : u.cpu.areas[i]? = some a) (here : MemoryAt u.cpu e ⟨mem, o⟩ addr i config) (ram : config.IsRam)
    (value : BitVec Cpu.Width.byte.bits) (there : MemoryAt u.cpu e ⟨mem, o⟩ b j config') :
    peek u.cpu .byte (Devices.setMem ⟨mem, o⟩ i (Mem.simmemWrite e .byte (addr &&& a.sizeMask ⟨mem, o⟩) value (mem i))) b =
      if b = addr then value else peek u.cpu .byte ⟨mem, o⟩ b := by
  have moved (bytes : Mem.Bytes) : owner u.cpu (Devices.setMem ⟨mem, o⟩ i bytes) b = some j :=
    (Mem.owner_mem space _ mem b).trans there.found
  by_cases same : j = i
  · subst same
    obtain ⟨a', k, base, present', memory, window, words⟩ := here.window space
    obtain rfl : a = a' := Option.some.inj (present.symm.trans present')
    obtain ⟨offset, _, _⟩ := window.offset words (Mem.aligned_byte addr)
    refine (Mem.peek_memory (moved _) present memory window words (Mem.aligned_byte b)).trans ?_
    rw [Mem.peek_memory there.found present memory window words (Mem.aligned_byte b), if_pos ram.1, if_pos ram.1, if_pos rfl,
      Mem.cells_simmemWrite e (Mem.aligned_byte _), window.sizeMask, offset, bigRead_byte]
    refine if_congr ⟨fun place => ?_, fun equal => by rw [equal]⟩ rfl rfl
    exact window.eq_of_mod (here.covers space present) (there.covers space present) place
  · obtain ⟨a', k, base, present', memory, window, words⟩ := there.window space
    refine (Mem.peek_memory (moved _) present' memory window words (Mem.aligned_byte b)).trans ?_
    have other : b ≠ addr := by
      rintro rfl
      exact same (Option.some.inj (there.found.symm.trans here.found))
    rw [Mem.peek_memory there.found present' memory window words (Mem.aligned_byte b), if_neg same, if_neg other]

/-- What a read of a byte returns. -/
def byteAt (u : DebugConfig (Devices ε)) (dev : Devices ε) (addr : Word) : BitVec 8 := peek u.cpu .byte dev addr

/-- `set_program8` of a byte in a memory. -/
theorem setProgram8_ram (space : Space u.cpu e o) (loads : Loads u e) (rest : m.dev.rest = o) {addr : Word} {i : Nat}
    {config : MemConfig} (here : MemoryAt u.cpu e m.dev addr i config) (ram : config.IsRam) (value : BitVec 8) :
    ∃ m', setProgram8 u addr value m = .ok ((), m') ∧ Poked m m' ∧
      ∀ b j config', MemoryAt u.cpu e m.dev b j config' → byteAt u m'.dev b = if b = addr then value else byteAt u m.dev b := by
  obtain ⟨a, present, memory⟩ := here.memory
  have cur : (Cpu.verifyMemoryarea u.cpu addr m).curArea = some i := (Mem.area_verifyMemoryarea space rest addr).trans here.found
  have area : u.cpu.area (Cpu.verifyMemoryarea u.cpu addr m) = some a := by rw [Cpu.Config.area, cur, Option.bind_some, present]
  have dev : (Cpu.verifyMemoryarea u.cpu addr m).dev = m.dev := rfl
  unfold setProgram8
  rw [Programs.modify_bind, Programs.get_bind, area]
  simp only [cur, Option.bind_some, loads i a config present memory, dev, Programs.set_bind, Cpu.devEvents, Programs.pure_apply]
  refine ⟨_, rfl, ⟨rfl, some i, rfl⟩, fun b j config' there => ?_⟩
  have mem : m.dev = ⟨m.dev.mem, o⟩ := by rw [← rest]
  rw [mem] at here there ⊢
  exact peek_write space present here ram value there

theorem evalDirect8_memory (space : Space u.cpu e o) (rest : m.dev.rest = o) {addr : Word} {i : Nat} {config : MemConfig}
    (here : MemoryAt u.cpu e m.dev addr i config) :
    ∃ cur, evalDirect8 u addr m = .ok (byteAt u m.dev addr, { m with curArea := cur }) := by
  obtain ⟨a, present, memory⟩ := here.memory
  have cur : (Cpu.verifyMemoryarea u.cpu addr m).curArea = some i := (Mem.area_verifyMemoryarea space rest addr).trans here.found
  have area : u.cpu.area (Cpu.verifyMemoryarea u.cpu addr m) = some a := by rw [Cpu.Config.area, cur, Option.bind_some, present]
  have dev : (Cpu.verifyMemoryarea u.cpu addr m).dev = m.dev := rfl
  refine ⟨some i, ?_⟩
  unfold evalDirect8 byteAt peek
  rw [Programs.modify_bind, Programs.get_bind, area, here.found]
  simp only [Option.bind_some, present, memory.reads, dev, MemConfig.readfunc, Programs.set_bind, Cpu.devEvents,
    Programs.pure_bind_apply]
  rw [← cur]
  rfl

/-- A byte of `wishbone_read` from a memory. -/
theorem wishboneByte_memory (space : Space u.cpu e o) (rest : m.dev.rest = o) {i : Nat} (inside : i < d.size.val) {j : Nat}
    {config : MemConfig} (here : MemoryAt u.cpu e m.dev (oraddr (d.addr + i)) j config) (status : Status) :
    ∃ cur, wishboneByte u d i status m = .ok ((byteAt u m.dev (oraddr (d.addr + i)), status), { m with curArea := cur }) := by
  obtain ⟨a, present, _⟩ := here.memory
  let m₁ := Cpu.verifyMemoryarea u.cpu (oraddr (d.addr + i)) m
  have cur : m₁.curArea = some j := (Mem.area_verifyMemoryarea space rest _).trans here.found
  have mapped : (u.cpu.area m₁).isNone = false := by
    rw [Cpu.Config.area, cur, Option.bind_some, present]
    rfl
  obtain ⟨cur', read⟩ := evalDirect8_memory (m := m₁) space rest here
  refine ⟨cur', ?_⟩
  unfold wishboneByte
  rw [if_pos inside, Programs.modify_bind, Programs.get_bind, if_neg (by rw [mapped]; exact Bool.false_ne_true)]
  exact (Programs.bind_of_ok read).trans rfl

theorem readBytes_ram (space : Space u.cpu e o) (more i : Nat) (fits : i + more ≤ d.size.val) (rest : m.dev.rest = o)
    (range : RamRange u e m.dev d.addr d.size.val) (status : Status) :
    ∃ cur, readBytes u d more i status m =
      .ok (((List.range' i more).map fun j => byteAt u m.dev (oraddr (d.addr + j)), status), { m with curArea := cur }) := by
  induction more generalizing i m with
  | zero => exact ⟨m.curArea, rfl⟩
  | succ more ih =>
    obtain ⟨j, config, here, _⟩ := range.2 i (by omega)
    obtain ⟨cur, first⟩ := wishboneByte_memory (d := d) (i := i) space rest (by omega) here status
    obtain ⟨cur', later⟩ := ih (m := { m with curArea := cur }) (i + 1) (by omega) rest range
    refine ⟨cur', ?_⟩
    rw [readBytes]
    exact (Programs.bind_of_ok first).trans ((Programs.bind_of_ok later).trans rfl)

/-- The bytes that were written, from `i` on. -/
theorem wishboneWriteLoop_ram (jreg : Buffer) (space : Space u.cpu e o) (loads : Loads u e) (more i : Nat) (fits : i + more ≤ d.size.val)
    (rest : m.dev.rest = o) (range : RamRange u e m.dev d.addr d.size.val) (status : Status) :
    ∃ m', wishboneWriteLoop u d jreg more i status m = .ok (status, m') ∧ Poked m m' ∧
      ∀ b j config, MemoryAt u.cpu e m.dev b j config → byteAt u m'.dev b =
        if d.addr + i ≤ b.toNat ∧ b.toNat < d.addr + i + more then dataByte jreg (b.toNat - d.addr) else byteAt u m.dev b := by
  induction more generalizing i m with
  | zero =>
    refine ⟨m, rfl, .refl m, fun b j config _ => ?_⟩
    rw [if_neg (by omega)]
  | succ more ih =>
    obtain ⟨j, config, here, ram⟩ := range.2 i (by omega)
    obtain ⟨a, present, _⟩ := here.memory
    let m₁ := Cpu.verifyMemoryarea u.cpu (oraddr (d.addr + i)) m
    have cur : m₁.curArea = some j := (Mem.area_verifyMemoryarea space rest _).trans here.found
    have mapped : (u.cpu.area m₁).isNone = false := by
      rw [Cpu.Config.area, cur, Option.bind_some, present]
      rfl
    obtain ⟨m₂, wrote, poked, bytes⟩ := setProgram8_ram (m := m₁) space loads rest here ram (dataByte jreg i)
    have looked : Poked m m₁ := ⟨rfl, m₁.curArea, rfl⟩
    have poked₁ := looked.trans poked
    obtain ⟨m', ran, poked', bytes'⟩ := ih (m := m₂) (i + 1) (by omega) (poked₁.rest.trans rest) (poked₁.ramRange space rest range)
    refine ⟨m', ?_, poked₁.trans poked', fun b j config there => ?_⟩
    · rw [wishboneWriteLoop, if_pos (show i < d.size.val by omega), Programs.modify_bind, Programs.get_bind,
        if_neg (by rw [mapped]; exact Bool.false_ne_true)]
      exact (Programs.bind_of_ok wrote).trans ran
    · rw [bytes' b j config (poked₁.memoryAt space rest there), bytes b j config there]
      have place : b = oraddr (d.addr + i) ↔ b.toNat = d.addr + i := by
        have small := range.1
        rw [← BitVec.toNat_inj, oraddr, BitVec.toNat_ofNat, Nat.mod_eq_of_lt (by omega)]
      by_cases now : b.toNat = d.addr + i
      · rw [if_neg (by omega), if_pos (place.mpr now), if_pos (by omega), now, Nat.add_sub_cancel_left]
      · rw [if_neg (mt place.mp now)]
        refine if_congr ⟨fun inside => ⟨by omega, by omega⟩, fun inside => ⟨by omega, by omega⟩⟩ rfl rfl

/-- The blocks of a range of memory. -/
def ramBlock (u : DebugConfig (Devices ε)) (start size : Nat) (m : Machine (Devices ε)) (k : Nat) : List (BitVec 8) :=
  (List.range size).map fun i => byteAt u m.dev (oraddr (start + k * size + i))

theorem RamRange.sub {dev : Devices ε} {start n size k : Nat} (range : RamRange u e dev start (n * size)) (inside : k < n) :
    RamRange u e dev (start + k * size) size := by
  have last : (k + 1) * size ≤ n * size := Nat.mul_le_mul_right size inside
  rw [Nat.succ_mul] at last
  have small := range.1
  refine ⟨by omega, fun i within => ?_⟩
  rw [Nat.add_assoc]
  exact range.2 (k * size + i) (by omega)

theorem RamRange.lt_ulong {dev : Devices ε} {start size : Nat} (range : RamRange u e dev start size) (positive : 0 < size) :
    start < u.ulong := by
  have large := ulong_large u
  have small := range.1
  omega

theorem moduleWrite_ram (jreg : Buffer) (space : Space u.cpu e o) (loads : Loads u e) (wishbone : d.modId = .wishbone)
    (rest : m.dev.rest = o) (range : RamRange u e m.dev d.addr d.size.val) :
    ∃ m', moduleWrite u d jreg d.size.val jsOk m = .ok (({ d with addr := (d.addr + d.size) % u.ulong }, jsOk), m') ∧ Poked m m' ∧
      ∀ b j config, MemoryAt u.cpu e m.dev b j config → byteAt u m'.dev b =
        if d.addr ≤ b.toNat ∧ b.toNat < d.addr + d.size.val then dataByte jreg (b.toNat - d.addr) else byteAt u m.dev b := by
  obtain ⟨m', ran, poked, bytes⟩ := wishboneWriteLoop_ram (d := d) jreg space loads d.size.val 0 (by omega) rest range jsOk
  refine ⟨m', ?_, poked, bytes⟩
  simp only [moduleWrite, wishbone, wishboneWrite]
  refine (Programs.bind_of_ok ran).trans ?_
  rw [if_pos rfl]
  rfl

theorem moduleBytes_ram (space : Space u.cpu e o) (wishbone : d.modId = .wishbone) (rest : m.dev.rest = o)
    (range : RamRange u e m.dev d.addr d.size.val) :
    ∃ cur, moduleBytes u d m = .ok (({ d with addr := (d.addr + d.size) % u.ulong },
      (List.range d.size.val).map fun i => byteAt u m.dev (oraddr (d.addr + i)), jsOk), { m with curArea := cur }) := by
  obtain ⟨cur, ran⟩ := readBytes_ram space d.size.val 0 (by omega) rest range jsOk
  refine ⟨cur, ?_⟩
  simp only [moduleBytes, wishbone]
  refine (Programs.bind_of_ok ran).trans ?_
  dsimp only
  rw [if_pos rfl, List.range_eq_range']
  rfl

/-- A block that was written to a memory is the one that was sent, and the others stay. -/
theorem ramBlock_write {start n size k : Nat} {block : List (BitVec 8)} (range : RamRange u e m.dev start (n * size))
    (length : block.length = size) (carries : Carries jreg block)
    (bytes : ∀ b j config, MemoryAt u.cpu e m.dev b j config → byteAt u m'.dev b =
      if start + k * size ≤ b.toNat ∧ b.toNat < start + k * size + size then dataByte jreg (b.toNat - (start + k * size))
      else byteAt u m.dev b) {j : Nat} (small : j < n) :
    ramBlock u start size m' j = if j = k then block else ramBlock u start size m j := by
  have byte (i : Nat) (within : i < size) : byteAt u m'.dev (oraddr (start + j * size + i)) =
      if j = k then dataByte jreg i else byteAt u m.dev (oraddr (start + j * size + i)) := by
    have sub := range.sub small
    obtain ⟨l, config, here, _⟩ := sub.2 i within
    have place : (oraddr (start + j * size + i)).toNat = start + j * size + i := by
      have := sub.1
      rw [oraddr, BitVec.toNat_ofNat, Nat.mod_eq_of_lt (by omega)]
    rw [bytes _ l config here, place]
    rcases Nat.lt_trichotomy j k with before | same | behind
    · have last : (j + 1) * size ≤ k * size := Nat.mul_le_mul_right size before
      rw [Nat.succ_mul] at last
      rw [if_neg (by omega), if_neg (by omega)]
    · rw [same, if_pos (by omega), if_pos rfl, Nat.add_sub_cancel_left]
    · have last : (k + 1) * size ≤ j * size := Nat.mul_le_mul_right size behind
      rw [Nat.succ_mul] at last
      rw [if_neg (by omega), if_neg (by omega)]
  unfold ramBlock
  split
  · next same =>
    apply List.ext_getElem
    · rw [List.length_map, List.length_range, length]
    · intro i _ within
      rw [List.getElem_map, List.getElem_range, byte i (by omega), if_pos same, dataByte_of_carries carries within,
        List.getD_eq_getElem _ _ within]
  · next other =>
    refine List.map_congr_left fun i member => ?_
    rw [byte i (List.mem_range.mp member), if_neg other]

/-- The WishBone over a range of memory. -/
def ramPort (space : Space u.cpu e o) (loads : Loads u e) (start : Nat) (size : Fin (2 ^ 16 + 1)) (positive : 0 < size.val) (n : Nat) :
    Port u .wishbone size (fun k => (start + k * size.val) % u.ulong) n where
  Ready m := m.dev.rest = o ∧ RamRange u e m.dev start (n * size.val)
  block := ramBlock u start size.val
  Rest m m' := m.dev.rest = o → Poked m m' ∧ ∀ b i config, MemoryAt u.cpu e m.dev b i config →
    (b.toNat < start ∨ start + n * size.val ≤ b.toNat) → byteAt u m'.dev b = byteAt u m.dev b
  refl m := fun _ => ⟨.refl m, fun _ _ _ _ _ => rfl⟩
  trans first second := by
    intro rest
    obtain ⟨poked, same⟩ := first rest
    obtain ⟨poked', same'⟩ := second (poked.rest.trans rest)
    refine ⟨poked.trans poked', fun b i config here out => ?_⟩
    rw [same' b i config (poked.memoryAt space rest here) out, same b i config here out]
  length m k := by rw [ramBlock, List.length_map, List.length_range]
  writes := by
    intro m d jreg k bytes inside ready wishbone same here length carries
    obtain ⟨rest, range⟩ := ready
    have sub := range.sub inside
    rw [Nat.mod_eq_of_lt (sub.lt_ulong positive)] at here
    rw [← here, ← same] at sub
    obtain ⟨m', wrote, poked, changed⟩ := moduleWrite_ram jreg space loads wishbone rest sub
    rw [here, same] at changed
    refine ⟨m', ?_, ⟨poked.rest.trans rest, poked.ramRange space rest range⟩, fun _ => ⟨poked, fun b i config there out => ?_⟩,
      fun j small => ramBlock_write range length carries changed small⟩
    · rw [wrote, here, same, Nat.succ_mul, ← Nat.add_assoc]
    · have last : (k + 1) * size.val ≤ n * size.val := Nat.mul_le_mul_right size.val inside
      rw [Nat.succ_mul] at last
      have := Nat.zero_le (k * size.val)
      rw [changed b i config there, if_neg (by omega)]
  reads := by
    intro m d k inside ready wishbone same here
    obtain ⟨rest, range⟩ := ready
    have sub := range.sub inside
    rw [Nat.mod_eq_of_lt (sub.lt_ulong positive)] at here
    rw [← here, ← same] at sub
    obtain ⟨cur, got⟩ := moduleBytes_ram space wishbone rest sub
    refine ⟨{ m with curArea := cur }, ?_, ⟨rest, range⟩, fun _ => ⟨⟨rfl, cur, rfl⟩, fun _ _ _ _ _ => rfl⟩, fun _ _ => rfl⟩
    rw [got, here, same, Nat.succ_mul, ← Nat.add_assoc]
    rfl

end

/-! ### Special purpose registers -/

section
variable {δ : Type} {u : DebugConfig δ} {jreg : Buffer} {m : Machine δ} {d : DebugState}

/-- A register that only keeps what is written to it. -/
structure PlainSpr (c : Cpu.Config δ) (regno : SprNo) : Prop where
  writes : ∀ value m, Cpu.mtspr c regno value m = .ok ((), setSpr regno value m)
  reads : ∀ m, Cpu.mfspr c regno m = m.sprs regno

/-- The registers that `mtspr` or `mfspr` treats by themselves. -/
def treatedSprs : List SprNo :=
  [Cpu.sprTtcr, Cpu.sprTtmr, Cpu.sprDcbpr, Cpu.sprDcbfr, Cpu.sprDcbir, Cpu.sprDcbwr, Cpu.sprDcblr, Cpu.sprIcbpr, Cpu.sprIcbir,
    Cpu.sprIcblr, Cpu.sprSr, Cpu.sprNpc, Cpu.sprPicsr, Cpu.sprPicmr, Cpu.sprPmr, Cpu.sprFpcsr]

theorem PlainSpr.of_default (c : Cpu.Config δ) {regno : SprNo} (other : regno ∉ treatedSprs) (dtlb : ¬ (0x0a00 ≤ regno ∧ regno < 0x0dff))
    (itlb : ¬ (0x1200 ≤ regno ∧ regno < 0x15ff)) (link : Cpu.gprLink regno = none) : PlainSpr c regno := by
  simp only [treatedSprs, List.mem_cons, List.not_mem_nil, or_false, not_or] at other
  constructor
  · intro value m
    unfold Cpu.mtspr
    rw [Programs.get_bind, Programs.modify_bind]
    simp only [other, if_false]
    rw [Programs.modify_apply]
    unfold Cpu.mtsprDefault
    simp only [if_neg dtlb, if_neg itlb, link]
  · intro m
    unfold Cpu.mfspr
    simp only [other, if_false, link]
def sprBlock (u : DebugConfig δ) (start : Nat) (m : Machine δ) (k : Nat) : List (BitVec 8) :=
  (List.range 4).map (sprByte u (m.sprs (BitVec.ofNat 16 (start + k))))

/-- Four bytes of a word, in the order of their shifts. -/
theorem byte_of_four (b : Nat → BitVec 8) (s : Nat → Nat) (apart : ∀ i < 4, ∀ j < 4, i ≠ j → s i + 8 ≤ s j ∨ s j + 8 ≤ s i)
    (fits : ∀ i < 4, s i + 8 ≤ 32) {i : Nat} (inside : i < 4) :
    ((((((0 : Word) ||| ((b 0).setWidth 32 <<< s 0)) ||| ((b 1).setWidth 32 <<< s 1)) ||| ((b 2).setWidth 32 <<< s 2)) |||
      ((b 3).setWidth 32 <<< s 3)) >>> s i).setWidth 8 = b i := by
  apply BitVec.eq_of_getLsbD_eq
  intro j small
  have one (k : Nat) (within : k < 4) : ((b k).setWidth 32 <<< s k).getLsbD (s i + j) = (decide (k = i) && (b i).getLsbD j) := by
    have := fits i inside
    rw [BitVec.getLsbD_shiftLeft, BitVec.getLsbD_setWidth]
    by_cases same : k = i
    · subst same
      simp [show s k + j < 32 by omega, show j < 32 by omega]
    · rcases apart k within i inside same with low | high
      · rw [BitVec.getLsbD_of_ge (b k) _ (by omega)]
        simp [same]
      · simp [same, show s i + j < s k by omega]
  rw [BitVec.getLsbD_setWidth, BitVec.getLsbD_ushiftRight, decide_eq_true small]
  simp only [BitVec.getLsbD_or, one 0 (by decide), one 1 (by decide), one 2 (by decide), one 3 (by decide), Bool.true_and]
  rcases (by omega : i = 0 ∨ i = 1 ∨ i = 2 ∨ i = 3) with rfl | rfl | rfl | rfl <;> simp

/-- `spr_write` puts the bytes where `spr_read` takes them from. -/
theorem sprByte_sprWriteLoop (u : DebugConfig δ) (jreg : Buffer) {i : Nat} (inside : i < 4) :
    sprByte u (sprWriteLoop u jreg 4 0 0) i = dataByte jreg i := by
  unfold sprByte
  rw [if_pos inside]
  by_cases big : u.or32BigEndian = true
  · rw [if_pos big]
    have placed := byte_of_four (dataByte jreg) (fun k => 8 * k) (by omega) (by omega) inside
    simp only [sprWriteLoop, big, if_true]
    exact placed
  · rw [if_neg big]
    have placed := byte_of_four (dataByte jreg) (fun k => 24 - 8 * k) (by omega) (by omega) inside
    simp only [sprWriteLoop, big]
    exact placed

theorem sprBlock_write {start n k : Nat} (fits : start + n ≤ maxSprs) (inside : k < n) {block : List (BitVec 8)}
    (length : block.length = 4) (carries : Carries jreg block) {j : Nat} (small : j < n) :
    sprBlock u start (setSpr (BitVec.ofNat 16 (start + k)) (sprWriteLoop u jreg 4 0 0) m) j =
      if j = k then block else sprBlock u start m j := by
  have limit : start + n ≤ 0x10000 := fits
  unfold sprBlock
  split
  · next same =>
    have value : (setSpr (BitVec.ofNat 16 (start + k)) (sprWriteLoop u jreg 4 0 0) m).sprs (BitVec.ofNat 16 (start + j)) =
        sprWriteLoop u jreg 4 0 0 := if_pos (by rw [same])
    rw [value]
    apply List.ext_getElem
    · rw [List.length_map, List.length_range, length]
    · intro i _ within
      rw [List.getElem_map, List.getElem_range, sprByte_sprWriteLoop u jreg (by omega), dataByte_of_carries carries within,
        List.getD_eq_getElem _ _ within]
  · next other =>
    have differ : BitVec.ofNat 16 (start + j) ≠ BitVec.ofNat 16 (start + k) := by
      intro equal
      have := congrArg BitVec.toNat equal
      rw [BitVec.toNat_ofNat, BitVec.toNat_ofNat, Nat.mod_eq_of_lt (by omega), Nat.mod_eq_of_lt (by omega)] at this
      omega
    have value : (setSpr (BitVec.ofNat 16 (start + k)) (sprWriteLoop u jreg 4 0 0) m).sprs (BitVec.ofNat 16 (start + j)) =
        m.sprs (BitVec.ofNat 16 (start + j)) := if_neg differ
    rw [value]

theorem regno_lt_ulong (u : DebugConfig δ) {start n k : Nat} (fits : start + n ≤ maxSprs) (inside : k < n) : start + k < u.ulong := by
  have limit : start + n ≤ 0x10000 := fits
  have large := ulong_large u
  omega

theorem sprs_trans {out : SprNo → Prop} {m m₁ m₂ : Machine δ}
    (first : (∃ sprs, m₁ = { m with sprs }) ∧ ∀ regno, out regno → m₁.sprs regno = m.sprs regno)
    (second : (∃ sprs, m₂ = { m₁ with sprs }) ∧ ∀ regno, out regno → m₂.sprs regno = m₁.sprs regno) :
    (∃ sprs, m₂ = { m with sprs }) ∧ ∀ regno, out regno → m₂.sprs regno = m.sprs regno := by
  obtain ⟨⟨_, rfl⟩, same⟩ := first
  obtain ⟨⟨sprs, rfl⟩, same'⟩ := second
  exact ⟨⟨sprs, rfl⟩, fun regno is => (same' regno is).trans (same regno is)⟩

/-- The processor over registers that only keep their values. -/
def sprPort (u : DebugConfig δ) (start n : Nat) (fits : start + n ≤ maxSprs) (plain : ∀ k < n,
    PlainSpr u.cpu (BitVec.ofNat 16 (start + k)))
    (size : Fin (2 ^ 16 + 1)) (four : size.val = 4) : Port u .cpu0 size (fun k => (start + k) % u.ulong) n where
  Ready _ := True
  block := sprBlock u start
  Rest m m' := (∃ sprs, m' = { m with sprs }) ∧ ∀ regno, (∀ k < n, regno ≠ BitVec.ofNat 16 (start + k)) → m'.sprs regno = m.sprs regno
  refl m := ⟨⟨m.sprs, rfl⟩, fun _ _ => rfl⟩
  trans := sprs_trans
  length m k := by rw [sprBlock, List.length_map, List.length_range, four]
  writes := by
    intro m d jreg k bytes inside _ cpu0 same here length carries
    rw [Nat.mod_eq_of_lt (regno_lt_ulong u fits inside)] at here
    rw [four] at length
    refine ⟨setSpr (BitVec.ofNat 16 (start + k)) (sprWriteLoop u jreg 4 0 0) m, ?_, trivial,
      ⟨⟨_, rfl⟩, fun regno out => if_neg (out k inside)⟩,
      fun j small => sprBlock_write fits inside length carries small⟩
    simp only [moduleWrite, cpu0, sprWrite, same, four, here]
    refine (Programs.bind_of_ok ((plain k inside).writes _ m)).trans ?_
    rw [if_pos trivial]
    rfl
  reads := by
    intro m d k inside _ cpu0 same here
    rw [Nat.mod_eq_of_lt (regno_lt_ulong u fits inside)] at here
    refine ⟨m, ?_, trivial, ⟨⟨m.sprs, rfl⟩, fun _ _ => rfl⟩, fun _ _ => rfl⟩
    simp only [moduleBytes, cpu0, same, four, here, Programs.get_bind, (plain k inside).reads m]
    rfl

end

/-! ### Round trips -/

section
variable {ε : Type} {u : DebugConfig (Devices ε)} {e : Endian} {o : ε} {m m' : Machine (Devices ε)} {d : DebugState} {t : Transfer}

namespace Transfer

/-- The blocks are in memory that can be read and written. -/
structure RamFits (u : DebugConfig (Devices ε)) (e : Endian) (o : ε) (m : Machine (Devices ε)) (t : Transfer) : Prop where
  space : Space u.cpu e o
  loads : Loads u e
  rest : m.dev.rest = o
  write : validateWbFields t.writeType t.addr.toNat t.size = true
  read : validateWbFields t.readType t.addr.toNat t.size = true
  range : RamRange u e m.dev t.addr.toNat (t.blocks.length * t.size.val)

/-- The blocks are registers without side effects. -/
structure SprFits (u : DebugConfig (Devices ε)) (t : Transfer) : Prop where
  write : validateSprFields t.writeType t.size = true
  read : validateSprFields t.readType t.size = true
  below : t.addr.toNat < maxSprs
  fits : t.addr.toNat + t.blocks.length ≤ maxSprs
  plain : ∀ k < t.blocks.length, PlainSpr u.cpu (BitVec.ofNat 16 (t.addr.toNat + k))

def Fits (u : DebugConfig (Devices ε)) (e : Endian) (o : ε) (m : Machine (Devices ε)) (t : Transfer) : ModId → Prop
  | .wishbone => t.RamFits u e o m
  | .cpu0 => t.SprFits u
  | .cpu1 | .undefined => False

/-- The blocks are stored one behind the other, and nothing else has changed. -/
def Stored (u : DebugConfig (Devices ε)) (e : Endian) (m : Machine (Devices ε)) (t : Transfer) (module : ModId)
    (m' : Machine (Devices ε)) : Prop :=
  match module with
  | .wishbone => Poked m m' ∧ (∀ k < t.blocks.length, ramBlock u t.addr.toNat t.size.val m' k = t.blocks.getD k []) ∧
      ∀ b i config, MemoryAt u.cpu e m.dev b i config →
        (b.toNat < t.addr.toNat ∨ t.addr.toNat + t.blocks.length * t.size.val ≤ b.toNat) → byteAt u m'.dev b = byteAt u m.dev b
  | .cpu0 => (∃ sprs, m' = { m with sprs }) ∧ (∀ k < t.blocks.length, sprBlock u t.addr.toNat m' k = t.blocks.getD k []) ∧
      ∀ regno, (∀ k < t.blocks.length, regno ≠ BitVec.ofNat 16 (t.addr.toNat + k)) → m'.sprs regno = m.sprs regno
  | .cpu1 | .undefined => False

theorem ram_stored (formed : t.Formed) (debug : d.instr = some jiDebug) (wishbone : d.modId = .wishbone) (fits : t.RamFits u e o m) :
    ∃ d' m', shifts u t.requests d m = .ok ((d', t.responses d), m') ∧ t.Stored u e m .wishbone m' := by
  have positive : 0 < t.size.val := Nat.succ_pos _
  have defines (d : DebugState) (wishbone : d.modId = .wishbone) (accType : AccType)
    (either : accType = t.writeType ∨ accType = t.readType) :
      defineWrite d (some accType) t.addr t.len =
        { d with writeDefinedP := true, accType, addr := (t.addr.toNat + 0 * t.size.val) % u.ulong, size := t.size } := by
    have valid : validateWbFields accType t.addr.toNat t.size = true := by
      rcases either with rfl | rfl
      · exact fits.write
      · exact fits.read
    have small : t.addr.toNat < u.ulong := Nat.lt_of_lt_of_le t.addr.isLt (ulong_large u)
    rw [Nat.zero_mul, Nat.add_zero, Nat.mod_eq_of_lt small]
    unfold defineWrite
    simp only [wishbone]
    exact if_pos valid
  obtain ⟨d', m', ran, changed, blocks⟩ :=
    run formed (ramPort fits.space fits.loads t.addr.toNat t.size positive t.blocks.length) debug wishbone
    defines ⟨fits.rest, fits.range⟩
  obtain ⟨poked, outside⟩ := changed fits.rest
  exact ⟨d', m', ran, poked, blocks, outside⟩

theorem spr_stored (formed : t.Formed) (debug : d.instr = some jiDebug) (cpu0 : d.modId = .cpu0) (fits : t.SprFits u) :
    ∃ d' m', shifts u t.requests d m = .ok ((d', t.responses d), m') ∧ t.Stored u e m .cpu0 m' := by
  have four : t.size.val = 4 := by
    have valid := fits.write
    unfold validateSprFields at valid
    exact (of_decide_eq_true valid).2
  have defines (d : DebugState) (cpu0 : d.modId = .cpu0) (accType : AccType) (either : accType = t.writeType ∨ accType = t.readType) :
      defineWrite d (some accType) t.addr t.len =
        { d with writeDefinedP := true, accType, addr := (t.addr.toNat + 0) % u.ulong, size := t.size } := by
    have valid : validateSprFields accType t.size = true := by
      rcases either with rfl | rfl
      · exact fits.write
      · exact fits.read
    have small : t.addr.toNat < u.ulong := Nat.lt_of_lt_of_le t.addr.isLt (ulong_large u)
    rw [Nat.add_zero, Nat.mod_eq_of_lt small]
    unfold defineWrite
    simp only [cpu0]
    refine (if_pos valid).trans ?_
    rw [Nat.mod_eq_of_lt fits.below]
    rfl
  obtain ⟨d', m', ran, ⟨only, outside⟩, blocks⟩ :=
    run formed (sprPort u t.addr.toNat t.blocks.length fits.fits fits.plain t.size four) debug cpu0
    defines trivial
  exact ⟨d', m', ran, only, blocks, outside⟩

theorem stored (formed : t.Formed) (debug : d.instr = some jiDebug) (fits : t.Fits u e o m d.modId) :
    ∃ d' m', shifts u t.requests d m = .ok ((d', t.responses d), m') ∧ t.Stored u e m d.modId m' := by
  cases module : d.modId with
  | wishbone =>
    rw [module] at fits
    exact ram_stored formed debug module fits
  | cpu0 =>
    rw [module] at fits
    exact spr_stored formed debug module fits
  | cpu1 | undefined =>
    rw [module] at fits
    exact fits.elim

end Transfer

/-- What is written is read back, and every status is JS_OK exactly if the host has zeros under it. -/
theorem transfer_round_trips_iff (formed : t.Formed) (debug : d.instr = some jiDebug) (fits : t.Fits u e o m d.modId) :
    t.RoundTrips u d m (t.Stored u e m d.modId) ↔ t.Clean := by
  obtain ⟨d', m', ran, stored⟩ := Transfer.stored formed debug fits
  exact Transfer.roundTrips_iff formed ran stored

end

/-! ### A byte of a small memory -/

open Mem (memoryArea)

/-- A memory of 16 bytes at address zero. -/
def ramDebug : DebugConfig (Devices Unit) :=
  { cpu := Cpu.Config.bare [] [memoryArea .little 0 ⟨1, 1⟩ 0 4]
    writeprog8 := fun i => if i = 0 then some fun addr value dev =>
      (dev.setMem 0 (Mem.simmemWrite .little .byte addr value (dev.mem 0)), []) else none
    resetHooks := fun dev => (dev, [])
    checkInt := 0
    or32BigEndian := false }

def ramMachine : Machine (Devices Unit) := Cpu.Machine.bare ⟨fun _ _ => 0, ()⟩ 0 0x2000

def ramSelected : DebugState := ⟨some jiDebug, .wishbone, false, .write8, 0, 0⟩

def defineRegister (accType : AccType) (addr : Word) (len : BitVec 16) : Buffer :=
  request ([false, false, false, true, false] ++ msbFirst 4 accType.code ++ msbFirst 32 addr ++ msbFirst 16 len)

def goRegister (block : List (BitVec 8)) : Buffer := request (List.replicate 5 false ++ dataBits block)

/-- A byte at address 5. The register that reads it back may have an ignored bit. -/
def oneByte (ignored : Bool) : Transfer :=
  { writeType := .write8
    readType := .read8
    addr := 5
    len := 0
    blocks := [[0xa7]]
    writeDefine := defineRegister .write8 5 0
    writeGos := [goRegister [0xa7]]
    readDefine := defineRegister .read8 5 0
    readGos := [(goRegister []).merge 45 [ignored]] }

theorem oneByte_formed (ignored : Bool) : (oneByte ignored).Formed := by
  have writes : IsWriteCommand (defineRegister .write8 5 0) .write8 5 0 :=
    ⟨by decide +kernel, by decide +kernel, by decide +kernel, by decide +kernel, by decide +kernel, by decide +kernel⟩
  have reads : IsWriteCommand (defineRegister .read8 5 0) .read8 5 0 :=
    ⟨by decide +kernel, by decide +kernel, by decide +kernel, by decide +kernel, by decide +kernel, by decide +kernel⟩
  have write : IsGoWrite (sizeOf 0) (goRegister [0xa7]) [0xa7] :=
    ⟨⟨by decide +kernel, by decide +kernel, by decide +kernel⟩, rfl, by unfold Carries; decide +kernel⟩
  refine ⟨rfl, rfl, writes, .cons write .nil, reads, fun jreg member => ?_, rfl⟩
  rw [List.mem_singleton.mp member]
  cases ignored with
  | false => exact ⟨by decide +kernel, by decide +kernel, by decide +kernel⟩
  | true => exact ⟨by decide +kernel, by decide +kernel, by decide +kernel⟩

theorem oneByte_fits (ignored : Bool) : (oneByte ignored).Fits ramDebug .little () ramMachine .wishbone := by
  have only : ∀ i a, ramDebug.cpu.areas[i]? = some a → i = 0 := by
    intro i a present
    obtain ⟨inside, _⟩ := List.getElem?_eq_some_iff.mp present
    exact Nat.lt_one_iff.mp inside
  have write : validateWbFields .write8 5 1 = true := by decide
  have read : validateWbFields .read8 5 1 = true := by decide
  refine ⟨Space.memory () rfl (by decide) (by decide), fun i a mem present _ => ?_, rfl, write, read, show 5 + 1 * 1 ≤ 2 ^ 32 by decide,
    fun j small => ?_⟩
  · obtain rfl := only i a present
    rfl
  · have first : j = 0 := Nat.lt_one_iff.mp small
    subst first
    have found : owner ramDebug.cpu ramMachine.dev (oraddr 5) = some 0 := by decide +kernel
    exact ⟨0, ⟨1, 1⟩, ⟨found, _, rfl, Mem.memoryArea_isMemory .little 0 _ _ _⟩, by decide⟩

theorem transfer_round_trips_byte :
    (oneByte false).RoundTrips ramDebug ramSelected ramMachine ((oneByte false).Stored ramDebug .little ramMachine .wishbone) := by
  refine (transfer_round_trips_iff (o := ()) (oneByte_formed false) rfl (oneByte_fits false)).mpr ?_
  intro request member
  have all : ∀ request ∈ (oneByte false).requests, ∀ i < 4, (request.2 - 36 + i) / 8 = (request.2 - 36) / 8 →
      request.1.bit (request.2 - 36 + i) = false := by decide +kernel
  exact all request member

/-- The byte comes back, with a status that has the bit of an overrun. -/
theorem ignored_bit_of_read :
    ¬ ∀ (u : DebugConfig (Devices Unit)) (e : Endian) (m : Machine (Devices Unit)) (d : DebugState) (t : Transfer),
    t.Formed → d.instr = some jiDebug → t.Fits u e () m d.modId → t.RoundTrips u d m (t.Stored u e m d.modId) := by
  intro claim
  have fits := oneByte_fits true
  have formed := oneByte_formed true
  obtain ⟨d', m', ran, stored⟩ := Transfer.stored (d := ramSelected) formed rfl fits
  have clean := (Transfer.roundTrips_iff formed ran stored).mp
    (claim ramDebug .little ramMachine ramSelected (oneByte true) formed rfl fits)
  have dirty : ¬ ∀ request ∈ (oneByte true).requests, ∀ i < 4, (request.2 - 36 + i) / 8 = (request.2 - 36) / 8 →
      request.1.bit (request.2 - 36 + i) = false := by decide +kernel
  exact dirty clean

end Or1ksim.Debug
