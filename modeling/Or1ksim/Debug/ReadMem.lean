import Or1ksim.Cpu.Direct
import Or1ksim.Debug.Packets
import Or1ksim.Lib.Access
import Or1ksim.Lib.Overflow

/-!
# Reading memory for the debugger

The packet `m` of `debug/rsp-server.c`. Its reply is put into the buffer of the packet, two digits a
byte, and the length that it asks for is an `int` from the client. It is doubled to be compared with
the buffer, and the double need not be an `int`.
-/

namespace Or1ksim.Debug

open Serial (Buffer Access)
open Programs (bind_ok bind_of_ok)
open Cpu (Word Machine Sim Stop Config verifyMemoryarea evalDirect)

variable {δ : Type}

/-- The byte at an address, without translation, or `none` if there is no memory. -/
def readByte (c : Config δ) (addr : Word) : Sim δ (Option Byte) := do
  modify (verifyMemoryarea c addr)
  let m ← get
  if (c.area m).isNone then pure none
  else
    let ch ← evalDirect c .byte addr false false
    pure (some ch)

/-- The index `off * 2 + i` of an `int`; a negative one is beyond any buffer. -/
def dataIndex (off : Word) (i : Nat) : Nat := (off * 2 + BitVec.ofNat 32 i).toNat

/-- The loop that refills the buffer; `none` if it replies that there is no memory. -/
def refillLoop (c : Config δ) (addr : Word) : Nat → Word → Access (Machine δ) Stop (Option Word)
  | 0, off => pure (some off)
  | more + 1, off => do
    match ← Access.lift (readByte c (addr + off)) with
    | none => pure none
    | some ch =>
      Access.edit [dataIndex off 0] fun b => b.put (dataIndex off 0) (hexchar (ch.extractLsb' 4 4))
      Access.edit [dataIndex off 1] fun b => b.put (dataIndex off 1) (hexchar (ch.extractLsb' 0 4))
      refillLoop c addr more (off + 1)

/-- The length when it was compared with the buffer. -/
def truncated (len : Word) : Word :=
  if (gdbBufMax : Int) ≤ (len * 2).toInt then BitVec.ofNat 32 ((gdbBufMax - 1) / 2) else len

/-- `rsp_read_mem`, with the address and the length that `sscanf` finds, if it finds both. It answers at
which offset it has ended the string in the buffer, or `none` if it replies with an error instead. -/
def rspReadMem (c : Config δ) (scanned : Option (Word × Word)) : Access (Machine δ) Stop (Option Word) :=
  match scanned with
  | none => pure none
  | some (addr, len) => do
    match ← refillLoop c addr (truncated len).toInt.toNat 0 with
    | none => pure none
    | some off =>
      Access.edit [dataIndex off 0] fun b => b.put (dataIndex off 0) 0
      pure (some off)

/-- The data of the reply. A string in the buffer ends at its first zero. -/
def readMemReply : Option Word × Buffer → List Byte
  | (none, _) => e01
  | (some off, b) => ((List.range (dataIndex off 0)).map b).takeWhile (· ≠ 0)

/-! ### The bytes of the memory -/

/-- The bytes from an offset on, if each of them has memory. -/
def memBytes (c : Config δ) (addr : Word) : Nat → Word → Sim δ (Option (List Byte))
  | 0, _ => pure (some [])
  | more + 1, off => do
    match ← readByte c (addr + off) with
    | none => pure none
    | some ch =>
      match ← memBytes c addr more (off + 1) with
      | none => pure none
      | some bytes => pure (some (ch :: bytes))

def HasBytes (c : Config δ) (addr : Word) (count : Nat) (off : Word) (m : Machine δ) : Prop :=
  ∃ bytes m', memBytes c addr count off m = .ok (some bytes, m')

def digits (bytes : List Byte) : List Byte := bytes.flatMap fun ch => [hexchar (ch.extractLsb' 4 4), hexchar (ch.extractLsb' 0 4)]

section
variable {c : Config δ} {addr off : Word} {more count : Nat} {m m' : Machine δ} {bytes : List Byte}

theorem memBytes_succ : memBytes c addr (more + 1) off m = .ok (some bytes, m') ↔
    ∃ ch rest mid, bytes = ch :: rest ∧ readByte c (addr + off) m = .ok (some ch, mid) ∧
      memBytes c addr more (off + 1) mid = .ok (some rest, m') := by
  constructor
  · intro ran
    obtain ⟨answer, mid, first, ran⟩ := bind_ok ran
    cases answer with
    | none => cases ran
    | some ch =>
      obtain ⟨answer, mid', later, ran⟩ := bind_ok ran
      cases answer with
      | none => cases ran
      | some rest =>
        cases ran
        exact ⟨ch, rest, mid, rfl, first, later⟩
  · rintro ⟨ch, rest, mid, rfl, first, later⟩
    refine (bind_of_ok first).trans ?_
    exact (bind_of_ok later).trans rfl

theorem memBytes_length (ran : memBytes c addr count off m = .ok (some bytes, m')) : bytes.length = count := by
  induction count generalizing off m bytes with
  | zero =>
    cases ran
    rfl
  | succ count ih =>
    obtain ⟨ch, rest, mid, rfl, _, later⟩ := memBytes_succ.mp ran
    rw [List.length_cons, ih later]

theorem HasBytes.le {least : Nat} (has : HasBytes c addr count off m) (le : least ≤ count) : HasBytes c addr least off m := by
  induction least generalizing off m count with
  | zero => exact ⟨[], m, rfl⟩
  | succ least ih =>
    obtain ⟨count, rfl⟩ := Nat.exists_eq_add_of_lt le
    obtain ⟨bytes, m', ran⟩ := has
    obtain ⟨ch, rest, mid, rfl, first, later⟩ := memBytes_succ.mp ran
    have has' : HasBytes c addr (least + count) (off + 1) mid := ⟨rest, m', later⟩
    obtain ⟨some', last, ran'⟩ := ih has' (Nat.le_add_right _ _)
    exact ⟨ch :: some', last, memBytes_succ.mpr ⟨ch, some', mid, rfl, first, ran'⟩⟩

/-! ### What the loop puts into the buffer -/

def putDigits (b : Buffer) (off : Word) (ch : Byte) : Buffer :=
  (b.put (dataIndex off 0) (hexchar (ch.extractLsb' 4 4))).put (dataIndex off 1) (hexchar (ch.extractLsb' 0 4))

def filled (b : Buffer) : Word → List Byte → Buffer
  | _, [] => b
  | off, ch :: bytes => filled (putDigits b off ch) (off + 1) bytes

theorem dataIndex_eq {i : Nat} (inside : 2 * off.toNat + i < 2 ^ 32) : dataIndex off i = 2 * off.toNat + i := by
  unfold dataIndex
  rw [BitVec.toNat_add, BitVec.toNat_mul, BitVec.toNat_ofNat, show (2 : Word).toNat = 2 from rfl]
  omega

theorem toNat_succ (inside : off.toNat + 1 < 2 ^ 32) : (off + 1).toNat = off.toNat + 1 := by
  rw [BitVec.toNat_add]
  exact Nat.mod_eq_of_lt inside

theorem digits_ne_zero : ∀ ch ∈ digits bytes, ch ≠ 0 := by
  have digit : ∀ d : BitVec 4, hexchar d ≠ 0 := by decide
  intro ch inside
  obtain ⟨byte, _, two⟩ := List.mem_flatMap.mp inside
  rcases List.mem_pair.mp two with rfl | rfl <;> exact digit _

theorem digits_length (bytes : List Byte) : (digits bytes).length = 2 * bytes.length := by
  induction bytes with
  | nil => rfl
  | cons ch bytes ih =>
    show (digits bytes).length + 1 + 1 = 2 * (bytes.length + 1)
    omega

theorem put_digits (b : Buffer) (ch : Byte) (inside : 2 * off.toNat + 1 < 2 ^ 32) :
    (List.range (2 * (off.toNat + 1))).map (putDigits b off ch) = (List.range (2 * off.toNat)).map b ++ digits [ch] := by
  have high : dataIndex off 0 = 2 * off.toNat + 0 := dataIndex_eq (by omega)
  have low : dataIndex off 1 = 2 * off.toNat + 1 := dataIndex_eq (by omega)
  have before : (List.range (2 * off.toNat)).map (putDigits b off ch) = (List.range (2 * off.toNat)).map b := by
    apply List.map_congr_left
    intro k inside
    have below := List.mem_range.mp inside
    unfold putDigits
    rw [Buffer.put_other _ _ (by omega), Buffer.put_other _ _ (by omega)]
  rw [Nat.mul_add, List.range_add, List.map_append, before]
  congr 1
  show [putDigits b off ch (2 * off.toNat + 0), putDigits b off ch (2 * off.toNat + 1)] = _
  unfold putDigits
  rw [high, low, Buffer.put_self, Buffer.put_other _ _ (by omega), Buffer.put_self]
  rfl

theorem filled_eq (b : Buffer) (inside : 2 * (off.toNat + bytes.length) < 2 ^ 32) :
    (List.range (2 * (off.toNat + bytes.length))).map (filled b off bytes) = (List.range (2 * off.toNat)).map b ++ digits bytes := by
  induction bytes generalizing b off with
  | nil => exact (List.append_nil _).symm
  | cons ch bytes ih =>
    rw [List.length_cons] at inside ⊢
    have next : (off + 1).toNat = off.toNat + 1 := toNat_succ (by omega)
    have rest : (List.range (2 * ((off + 1).toNat + bytes.length))).map (filled (putDigits b off ch) (off + 1) bytes) =
        (List.range (2 * (off + 1).toNat)).map (putDigits b off ch) ++ digits bytes := ih (putDigits b off ch) (by omega)
    rw [next, put_digits b ch (by omega)] at rest
    rw [show off.toNat + (bytes.length + 1) = off.toNat + 1 + bytes.length by omega]
    exact rest.trans (List.append_assoc _ _ _)

/-! ### The loop -/

variable {b b' : Buffer} {ended : Option Word}

theorem run_put (i : Nat) (value : Byte) (b : Buffer) :
    (Access.edit [i] fun b => b.put i value : Access (Machine δ) Stop Unit).run b = pure ((), b.put i value) :=
  Access.run_edit ((Access.KeepsTo.id _).put (List.mem_singleton.mpr rfl) value) b

theorem mem_put_bind {α : Type} {i : Nat} {value : Byte} {f : Unit → Access (Machine δ) Stop α} {k : Nat} :
    k ∈ ((Access.edit [i] fun b => b.put i value) >>= f).touched b m ↔ k = i ∨ k ∈ (f ()).touched (b.put i value) m := by
  rw [Access.mem_bind, run_put, Access.touched_edit, List.mem_singleton]
  refine or_congr_right ⟨?_, fun later => ⟨_, _, _, rfl, later⟩⟩
  rintro ⟨a, b', s', ran, later⟩
  cases ran
  exact later

theorem run_refill_succ (b : Buffer) :
    (refillLoop c addr (more + 1) off).run b = readByte c (addr + off) >>= fun answer =>
      match answer with
      | none => pure (none, b)
      | some ch => (refillLoop c addr more (off + 1)).run (putDigits b off ch) := by
  rw [refillLoop]
  rw [Access.run_bind, Access.run_lift, bind_assoc]
  refine bind_congr fun answer => ?_
  cases answer with
  | none => rfl
  | some ch =>
    rw [pure_bind]
    show (Access.edit _ _ >>= fun _ => Access.edit _ _ >>= fun _ => refillLoop c addr more (off + 1)).run b = _
    rw [Access.run_bind, run_put, pure_bind, Access.run_bind, run_put, pure_bind]
    rfl

theorem refill_filled (ran : memBytes c addr more off m = .ok (some bytes, m')) (b : Buffer) :
    (refillLoop c addr more off).run b m = .ok ((some (off + BitVec.ofNat 32 more), filled b off bytes), m') := by
  induction more generalizing off b m bytes with
  | zero =>
    cases ran
    rw [BitVec.add_zero]
    rfl
  | succ more ih =>
    obtain ⟨ch, rest, mid, rfl, first, later⟩ := memBytes_succ.mp ran
    rw [run_refill_succ, bind_of_ok first]
    have next := ih later (putDigits b off ch)
    rwa [BitVec.add_assoc, show 1 + BitVec.ofNat 32 more = BitVec.ofNat 32 (more + 1) by rw [BitVec.ofNat_add, BitVec.add_comm]; rfl]
      at next

theorem refill_ended (ran : (refillLoop c addr more off).run b m = .ok ((ended, b'), m')) :
    ended = none ∨ ∃ bytes, memBytes c addr more off m = .ok (some bytes, m') := by
  induction more generalizing off b m with
  | zero =>
    cases ran
    exact .inr ⟨[], rfl⟩
  | succ more ih =>
    rw [run_refill_succ] at ran
    obtain ⟨answer, mid, first, ran⟩ := bind_ok ran
    cases answer with
    | none =>
      cases ran
      exact .inl rfl
    | some ch =>
      rcases ih ran with none | ⟨rest, later⟩
      · exact .inl none
      · exact .inr ⟨ch :: rest, memBytes_succ.mpr ⟨ch, rest, mid, rfl, first, later⟩⟩

theorem mem_refill_succ {k : Nat} : k ∈ (refillLoop c addr (more + 1) off).touched b m ↔
    ∃ ch mid, readByte c (addr + off) m = .ok (some ch, mid) ∧
      ((k = dataIndex off 0 ∨ k = dataIndex off 1) ∨ k ∈ (refillLoop c addr more (off + 1)).touched (putDigits b off ch) mid) := by
  have later (ch : Byte) (mid : Machine δ) :
      k ∈ (Access.edit [dataIndex off 0] (fun b => b.put (dataIndex off 0) (hexchar (ch.extractLsb' 4 4))) >>= fun _ =>
        Access.edit [dataIndex off 1] (fun b => b.put (dataIndex off 1) (hexchar (ch.extractLsb' 0 4))) >>= fun _ =>
        refillLoop c addr more (off + 1)).touched b mid ↔
      (k = dataIndex off 0 ∨ k = dataIndex off 1) ∨ k ∈ (refillLoop c addr more (off + 1)).touched (putDigits b off ch) mid := by
    rw [mem_put_bind, mem_put_bind, or_assoc]
    rfl
  rw [refillLoop]
  rw [Access.mem_bind, Access.touched_lift, Access.run_lift]
  constructor
  · rintro (none | ⟨answer, b', mid, first, here⟩)
    · cases none
    · obtain ⟨answer', mid', first, same⟩ := bind_ok first
      cases same
      cases answer with
      | none => cases here
      | some ch => exact ⟨ch, mid, first, (later ch mid).mp here⟩
  · rintro ⟨ch, mid, first, here⟩
    exact .inr ⟨some ch, b, mid, bind_of_ok first, (later ch mid).mpr here⟩

/-- The loop writes the digits of an offset if there is memory up to it. -/
theorem mem_refill {k : Nat} : k ∈ (refillLoop c addr more off).touched b m ↔
    ∃ i < more, HasBytes c addr (i + 1) off m ∧
      (k = dataIndex (off + BitVec.ofNat 32 i) 0 ∨ k = dataIndex (off + BitVec.ofNat 32 i) 1) := by
  induction more generalizing off b m with
  | zero => exact ⟨fun none => absurd none List.not_mem_nil, fun ⟨i, inside, _⟩ => absurd inside (Nat.not_lt_zero i)⟩
  | succ more ih =>
    rw [mem_refill_succ]
    have shift (i : Nat) : off + 1 + BitVec.ofNat 32 i = off + BitVec.ofNat 32 (i + 1) := by
      rw [BitVec.add_assoc, BitVec.ofNat_add, BitVec.add_comm 1]
      rfl
    constructor
    · rintro ⟨ch, mid, first, here | later⟩
      · rw [← BitVec.add_zero off] at here
        exact ⟨0, Nat.succ_pos _, ⟨[ch], mid, memBytes_succ.mpr ⟨ch, [], mid, rfl, first, rfl⟩⟩, here⟩
      · obtain ⟨i, inside, ⟨bytes, m', ran⟩, at_⟩ := ih.mp later
        rw [shift] at at_
        exact ⟨i + 1, Nat.succ_lt_succ inside, ⟨ch :: bytes, m', memBytes_succ.mpr ⟨ch, bytes, mid, rfl, first, ran⟩⟩, at_⟩
    · rintro ⟨i, inside, ⟨bytes, m', ran⟩, at_⟩
      obtain ⟨ch, rest, mid, rfl, first, later⟩ := memBytes_succ.mp ran
      refine ⟨ch, mid, first, ?_⟩
      cases i with
      | zero =>
        rw [BitVec.add_zero] at at_
        exact .inl at_
      | succ i =>
        rw [← shift] at at_
        exact .inr (ih.mpr ⟨i, Nat.lt_of_succ_lt_succ inside, ⟨rest, m', later⟩, at_⟩)

/-! ### The request -/

variable {len : Word}

/-- How often the loop is run. -/
def loopCount (len : Word) : Nat := (truncated len).toInt.toNat

theorem loopCount_lt (len : Word) : loopCount len < 2 ^ 31 := by
  have high := (truncated len).toInt_lt
  unfold loopCount
  omega

theorem toInt_double (len : Word) : (len * 2).toInt =
    if len.toInt < -2 ^ 30 then len.toInt * 2 + 2 ^ 32 else if len.toInt < 2 ^ 30 then len.toInt * 2 else len.toInt * 2 - 2 ^ 32 := by
  have low := len.le_toInt
  have high := len.toInt_lt
  have product : len * 2 = BitVec.ofInt 32 (len.toInt * 2) := by
    rw [BitVec.ofInt_mul, BitVec.ofInt_toInt]
    rfl
  rw [product, Overflow.toInt_wrapped (by decide) (by omega) (by omega)]
  split_ifs <;> omega

theorem loopCount_eq (len : Word) : loopCount len =
    if len.toInt < -2 ^ 31 + 141 then 0 else if len.toInt < -2 ^ 30 then 140 else if len.toInt < 2 ^ 30 then (min len.toInt 140).toNat
    else len.toInt.toNat := by
  have double := toInt_double len
  have low := len.le_toInt
  have high := len.toInt_lt
  have most : (BitVec.ofNat 32 ((gdbBufMax - 1) / 2)).toInt = 140 := by decide
  have size : (gdbBufMax : Int) = 281 := rfl
  unfold loopCount truncated
  split
  · rw [most]
    split_ifs at double ⊢ <;> omega
  · split_ifs at double ⊢ <;> omega

theorem readMem_filled (ran : memBytes c addr (loopCount len) 0 m = .ok (some bytes, m')) (b : Buffer) :
    ∃ answer, (rspReadMem c (some (addr, len))).run b m = .ok (answer, m') ∧ readMemReply answer = digits bytes := by
  have small := loopCount_lt len
  have long := memBytes_length ran
  have stop : dataIndex (0 + BitVec.ofNat 32 (loopCount len)) 0 = 2 * loopCount len := by
    rw [dataIndex_eq] <;> rw [zero_add, BitVec.toNat_ofNat] <;> omega
  have before : (List.range (2 * loopCount len)).map (filled b 0 bytes) = digits bytes := by
    have fits : 2 * ((0 : Word).toNat + bytes.length) < 2 ^ 32 := by
      rw [long]
      show 2 * (0 + loopCount len) < 2 ^ 32
      omega
    have all := filled_eq b fits
    rw [show (0 : Word).toNat = 0 from rfl, Nat.zero_add, long] at all
    exact all
  refine ⟨(some (0 + BitVec.ofNat 32 (loopCount len)), (filled b 0 bytes).put (2 * loopCount len) 0), ?_, ?_⟩
  · have loop : (refillLoop c addr (truncated len).toInt.toNat 0).run b m = _ := refill_filled ran b
    unfold rspReadMem
    rw [Access.run_bind, bind_of_ok loop]
    dsimp only
    rw [Access.run_bind, run_put, stop]
    rfl
  · have text : (List.range (2 * loopCount len)).map ((filled b 0 bytes).put (2 * loopCount len) 0) = digits bytes := by
      rw [← before]
      apply List.map_congr_left
      intro k inside
      have below := List.mem_range.mp inside
      exact Buffer.put_other _ _ (by omega)
    rw [readMemReply, stop, text, List.takeWhile_eq_self_iff]
    exact fun ch inside => decide_eq_true (digits_ne_zero ch inside)

theorem readMem_ended {answer : Option Word × Buffer} (ran : (rspReadMem c (some (addr, len))).run b m = .ok (answer, m')) :
    readMemReply answer = e01 ∨ ∃ bytes, memBytes c addr (loopCount len) 0 m = .ok (some bytes, m') := by
  unfold rspReadMem at ran
  rw [Access.run_bind] at ran
  obtain ⟨⟨ended, b'⟩, mid, loop, ran⟩ := bind_ok ran
  rcases refill_ended loop with rfl | ⟨bytes, read⟩
  · cases ran
    exact .inl rfl
  · cases ended with
    | none =>
      cases ran
      exact .inl rfl
    | some off =>
      dsimp only at ran
      rw [Access.run_bind, run_put] at ran
      cases ran
      exact .inr ⟨bytes, read⟩

theorem mem_readMem {k : Nat} : k ∈ (rspReadMem c (some (addr, len))).touched b m ↔
    (∃ i < loopCount len, HasBytes c addr (i + 1) 0 m ∧
      (k = dataIndex (BitVec.ofNat 32 i) 0 ∨ k = dataIndex (BitVec.ofNat 32 i) 1)) ∨
    HasBytes c addr (loopCount len) 0 m ∧ k = dataIndex (BitVec.ofNat 32 (loopCount len)) 0 := by
  unfold rspReadMem
  rw [Access.mem_bind, mem_refill]
  simp only [zero_add]
  refine or_congr_right ⟨?_, ?_⟩
  · rintro ⟨ended, b', mid, loop, here⟩
    rcases refill_ended loop with rfl | ⟨bytes, read⟩
    · cases here
    · rw [refill_filled read b] at loop
      cases loop
      rcases mem_put_bind.mp here with here | none
      · rw [zero_add] at here
        exact ⟨⟨bytes, mid, read⟩, here⟩
      · cases none
  · rintro ⟨⟨bytes, m', read⟩, rfl⟩
    refine ⟨_, _, _, refill_filled read b, mem_put_bind.mpr (.inl ?_)⟩
    rw [zero_add]

theorem readMem_below {k : Nat} (inside : k ∈ (rspReadMem c (some (addr, len))).touched b m) :
    ∃ i ≤ loopCount len, HasBytes c addr i 0 m ∧ k ≤ 2 * i := by
  have small := loopCount_lt len
  have at_ {i j : Nat} (least : i < 2 ^ 31) (least' : j < 2) : dataIndex (BitVec.ofNat 32 i) j = 2 * i + j := by
    rw [dataIndex_eq] <;> rw [BitVec.toNat_ofNat] <;> omega
  rcases mem_readMem.mp inside with ⟨i, less, has, rfl | rfl⟩ | ⟨has, rfl⟩
  · exact ⟨i + 1, less, has, by rw [at_ (by omega) (by omega)]; omega⟩
  · exact ⟨i + 1, less, has, by rw [at_ (by omega) (by omega)]; omega⟩
  · exact ⟨loopCount len, Nat.le_refl _, has, by rw [at_ small (by omega)]; omega⟩

/-- The end of the buffer is written if there is memory for more bytes than it has room for. -/
theorem readMem_end (long : 141 ≤ loopCount len) (has : HasBytes c addr 141 0 m) :
    gdbBufMax ∈ (rspReadMem c (some (addr, len))).touched b m :=
  mem_readMem.mpr (.inl ⟨140, long, has, .inr rfl⟩)

end

/-! ### What the client relies on -/

/-- The request keeps to the buffer, and the reply has as many bytes as were asked for, or as fit. -/
structure ReadMemSafe (c : Config δ) (scanned : Option (Word × Word)) (b : Buffer) (m : Machine δ) : Prop where
  inside : ∀ k ∈ (rspReadMem c scanned).touched b m, k < gdbBufMax
  replies : ∀ answer m', (rspReadMem c scanned).run b m = .ok (answer, m') →
    readMemReply answer = e01 ∨ ∃ addr len bytes, scanned = some (addr, len) ∧
      memBytes c addr (min len.toInt ((gdbBufMax - 1) / 2 : Nat)).toNat 0 m = .ok (some bytes, m') ∧ readMemReply answer = digits bytes

/-- The double of the length is an `int`, or it becomes so small that the length stays negative, or there
is not memory for one byte more than the reply can have, or for as many if the length is negative. -/
def ReadMemFits (c : Config δ) (scanned : Option (Word × Word)) (m : Machine δ) : Prop :=
  ∀ addr len, scanned = some (addr, len) →
    (-2 ^ 30 ≤ len.toInt ∧ len.toInt < 2 ^ 30) ∨ len.toInt < -2 ^ 31 + 141 ∨
      ¬ HasBytes c addr (if 0 ≤ len.toInt then 141 else 140) 0 m

variable {c : Config δ} {addr len : Word} {scanned : Option (Word × Word)} {b : Buffer} {m : Machine δ}

theorem readMemSafe_of_count (count : loopCount len = (min len.toInt 140).toNat) : ReadMemSafe c (some (addr, len)) b m where
  inside k here := by
    obtain ⟨i, most, _, below⟩ := readMem_below here
    show k < 281
    omega
  replies answer m' ran := by
    rcases readMem_ended ran with error | ⟨bytes, read⟩
    · exact .inl error
    · obtain ⟨answer', ran', reply⟩ := readMem_filled read b
      rw [ran'] at ran
      cases ran
      rw [count] at read
      exact .inr ⟨addr, len, bytes, rfl, read, reply⟩

/-- No reply has digits if there is not memory for all of them. -/
theorem readMemSafe_of_missing {count : Nat} (most : count ≤ 141) (least : count ≤ loopCount len)
    (missing : ¬ HasBytes c addr count 0 m) : ReadMemSafe c (some (addr, len)) b m where
  inside k here := by
    obtain ⟨i, _, has, below⟩ := readMem_below here
    have fewer : i < count := by
      by_contra more
      exact missing (has.le (Nat.le_of_not_lt more))
    show k < 281
    omega
  replies answer m' ran := by
    rcases readMem_ended ran with error | ⟨bytes, read⟩
    · exact .inl error
    · exact absurd (HasBytes.le ⟨bytes, m', read⟩ least) missing

theorem not_readMemSafe_of_negative (negative : len.toInt < 0) (count : loopCount len = 140) (has : HasBytes c addr 140 0 m) :
    ¬ ReadMemSafe c (some (addr, len)) b m := by
  intro safe
  obtain ⟨bytes, m', read⟩ := has
  have long := digits_length bytes
  rw [memBytes_length read] at long
  rw [← count] at read
  obtain ⟨answer, ran, reply⟩ := readMem_filled read b
  rcases safe.replies answer m' ran with error | ⟨addr', len', bytes', same, read', reply'⟩
  · rw [← reply, error] at long
    exact absurd long (by decide)
  · cases same
    have none : bytes'.length = 0 := by
      rw [memBytes_length read']
      omega
    rw [← reply, reply', digits_length, none] at long
    exact absurd long (by decide)

/-- A request keeps to its buffer and replies with what was asked for exactly when its length can be
doubled, or when memory is missing. -/
theorem readMem_safe_iff (c : Config δ) (scanned : Option (Word × Word)) (b : Buffer) (m : Machine δ) :
    ReadMemSafe c scanned b m ↔ ReadMemFits c scanned m := by
  rcases scanned with _ | ⟨addr, len⟩
  · constructor
    · intro _ addr len none
      cases none
    · intro _
      refine ⟨fun k here => absurd here List.not_mem_nil, fun answer m' ran => ?_⟩
      cases ran
      exact .inl rfl
  · have count := loopCount_eq len
    have low := len.le_toInt
    constructor
    · intro safe addr' len' same
      cases same
      by_contra none
      obtain ⟨wide, none⟩ := not_or.mp none
      obtain ⟨long, has⟩ := not_or.mp none
      rw [not_not] at has
      split at has
      · have more : 141 ≤ loopCount len := by split_ifs at count <;> omega
        exact absurd (safe.inside gdbBufMax (readMem_end more has)) (Nat.lt_irrefl _)
      · have cut : loopCount len = 140 := by split_ifs at count <;> omega
        exact not_readMemSafe_of_negative (by omega) cut has safe
    · intro fits
      rcases fits addr len rfl with ⟨least, most⟩ | short | missing
      · exact readMemSafe_of_count (by split_ifs at count <;> omega)
      · exact readMemSafe_of_count (by split_ifs at count; omega)
      · by_cases same : loopCount len = (min len.toInt 140).toNat
        · exact readMemSafe_of_count same
        · split at missing
          · exact readMemSafe_of_missing (Nat.le_refl _) (by split_ifs at count <;> omega) missing
          · exact readMemSafe_of_missing (by decide) (by split_ifs at count <;> omega) missing

/-- A memory of zeros over the whole address space. -/
def Area.zeros : Cpu.Area Unit :=
  { addrMask := fun _ => 0
    addrCompare := fun _ => 0
    sizeMask := fun _ => -1
    valid := fun _ => true
    delayr := fun _ => 1
    delayw := fun _ => 1
    readfunc := fun _ => some fun _ d => (0, d, [])
    writefunc := fun _ => some fun _ _ d => (d, []) }

def zerosConfig : Config Unit := Config.bare [] [Area.zeros]

def zerosMachine : Machine Unit := Machine.bare () 0 0x100

theorem zeros_hasBytes : HasBytes zerosConfig 0 141 0 zerosMachine := by
  have ended : ((memBytes zerosConfig 0 141 0 zerosMachine).toOption.bind Prod.fst).isSome = true := by decide +kernel
  cases ran : memBytes zerosConfig 0 141 0 zerosMachine with
  | error e =>
    rw [ran] at ended
    cases ended
  | ok answer =>
    rw [ran] at ended
    rcases answer with ⟨_ | bytes, m'⟩
    · cases ended
    · exact ⟨bytes, m', ran⟩

/-- The packet `m0,40000000`. -/
theorem readMem_not_safe :
    ¬ ∀ (c : Config Unit) (scanned : Option (Word × Word)) (b : Buffer) (m : Machine Unit), ReadMemSafe c scanned b m := by
  intro safe
  have inside := (safe zerosConfig (some (0, 0x40000000)) (fun _ => 0) zerosMachine).inside gdbBufMax
  exact absurd (inside (readMem_end (by decide +kernel) zeros_hasBytes)) (Nat.lt_irrefl _)

end Or1ksim.Debug
