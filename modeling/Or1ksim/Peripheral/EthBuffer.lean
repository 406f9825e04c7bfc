import Or1ksim.Lib.Access
import Or1ksim.Mem.Memory
import Or1ksim.Peripheral.Eth

/-!
# The local buffers of the Ethernet controller

A packet is copied through a local buffer of `ETH_MAXPL` bytes, four bytes at a time. The length of a
packet that is sent is a field of 16 bits, and that of one which is received is an `int32_t` of the file.
-/

namespace Or1ksim.Eth

open Peripheral (ULong testFlag clearFlag clearFlags getField setField setFlag testFlag_clearFlag testFlag_clearFlags testFlag_setField
  getField_lt getField_setField getField_clearFlag testFlag_setField_fits)
open Serial (Buffer Access)
open Serial.Access (Below mem_bind)
open Mem (Endian)

/-! ### Words in the buffer -/

def four (i : Nat) : List Nat := [4 * i, 4 * i + 1, 4 * i + 2, 4 * i + 3]

def putWord (i : Nat) (w : Word) (b : Buffer) : Buffer :=
  (((b.put (4 * i) (w.extractLsb' 24 8)).put (4 * i + 1) (w.extractLsb' 16 8)).put (4 * i + 2) (w.extractLsb' 8 8)).put (4 * i + 3)
    (w.extractLsb' 0 8)

def takeWord (i : Nat) (b : Buffer) : Word :=
  at8 (b (4 * i)) 24 ||| at8 (b (4 * i + 1)) 16 ||| at8 (b (4 * i + 2)) 8 ||| at8 (b (4 * i + 3)) 0

/-- The address of a word of a packet. -/
def place (bdAddr : ULong) (i : Nat) : Word := (bdAddr + BitVec.ofNat 64 (4 * i)).setWidth 32

/-- How often a loop over the words of a packet is run. -/
def wordCount (length : Nat) : Nat := (length + 3) / 4

/-- Something that can be undefined. -/
def orStop (f : Dev → Option Dev) : Programs.Sim Dev Unit Unit := fun d =>
  match f d with
  | some d => .ok ((), d)
  | none => .error ()

/-! ### Sending -/

/-- The loop that copies words to the buffer. -/
def storeWords (word : Nat → Word) : Nat → Nat → Access Dev Unit Unit
  | 0, _ => pure ()
  | more + 1, i => do
    Access.edit (four i) (putWord i (word i))
    storeWords word more (i + 1)

/-- `eth_write_packet` reads the packet from the buffer. -/
def writePacket (c : Config) (length : Nat) : Access Dev Unit (List Byte) :=
  match c.rtxType with
  | .unknown => pure []
  | .file | .tap => Access.view (List.range length) fun b => (List.range length).map b

/-- What `eth_flush_bd` does when the packet is in the buffer. -/
def flushed (c : Config) (o : Outside) (bdInfo : ULong) (packet : List Byte) (d : Dev) : Option Dev := do
  let success := c.rtxType ≠ .unknown && o.sends
  let bdInfo := sentInfo bdInfo success
  let flag := if success then intTxb else intTxe
  let d := { d with sent := if success then d.sent ++ [packet] else d.sent, intSource := setFlag d.intSource flag }
  let d ← setBd d d.txBdIndex bdInfo
  let d := if testFlag d.intMask flag && testFlag bdInfo bdIrq then raiseInterrupt d else d
  pure (advanceTx bdInfo d)

/-- A packet goes through the buffer. -/
def flushBuffered (c : Config) (o : Outside) (d : Dev) (bdInfo bdAddr : ULong) : Access Dev Unit Unit := do
  let length := (getField bdInfo bdLengthOffset bdLengthWidth).toNat
  storeWords (fun i => evalDirect32 c o.mem d (place bdAddr i)) (wordCount length) 0
  let packet ← writePacket c length
  Access.lift (orStop (flushed c o bdInfo packet))

/-- `eth_flush_bd` with its buffer. -/
def flushBdLocal (c : Config) (o : Outside) : Access Dev Unit Unit := do
  let d ← Access.lift get
  match bd d d.txBdIndex, bd d (d.txBdIndex + 1) with
  | some bdInfo, some bdAddr => flushBuffered c o d bdInfo bdAddr
  | _, _ => Access.lift (orStop fun _ => none)

/-! ### Receiving -/

def etherHdrLen : Int := 14

/-- The length in front of a packet, in the order of the host. -/
def lengthWord (e : Endian) (file : List Byte) : Int := (e.load (fun k => file.getD k 0) 0 .word).toInt

/-- `eth_read_file_packet`: what it returns, and the rest of the file. -/
def readFilePacket (e : Endian) (file : List Byte) : Access Dev Unit (Int × List Byte) :=
  if file.length = 0 then pure (0, [])
  else if file.length < 4 then pure (-1, [])
  else
    let packetLength := lengthWord e file
    let rest := file.drop 4
    if packetLength < etherHdrLen then pure (-1, rest)
    else do
      let nread := min packetLength.toNat rest.length
      Access.edit (List.range nread) fun b k => if k < nread then rest.getD k 0 else b k
      if (nread : Int) ≠ packetLength then pure (-1, rest.drop nread) else pure (packetLength, rest.drop nread)

/-- The loop that copies words to memory. -/
def loadWords (c : Config) (bdAddr : ULong) : Nat → Nat → Access Dev Unit Unit
  | 0, _ => pure ()
  | more + 1, i => do
    let word ← Access.view (four i) (takeWord i)
    Access.lift (modify fun d => setDirect32 c d (place bdAddr i, word))
    loadWords c bdAddr more (i + 1)

/-- Whether the packet in the buffer is for the controller. -/
def forUsLocal (d : Dev) : Access Dev Unit Bool :=
  if testFlag d.moder moderPro then pure true else Access.view (List.range 6) fun b => forUs d ((List.range 6).map b)

/-- A packet of a file goes through the buffer. -/
def fillBuffered (c : Config) (e : Endian) (file : List Byte) (d : Dev) (bdInfo bdAddr : ULong) : Access Dev Unit (List Byte) := do
  let read ← readFilePacket e file
  if read.1 ≤ 0 then pure read.2
  else do
    let ours ← forUsLocal d
    if !ours then pure read.2
    else do
      loadWords c bdAddr (wordCount read.1.toNat) 0
      Access.lift (orStop (filled (filledInfo c bdInfo read.1.toNat)))
      pure read.2

/-- `eth_fill_bd` with its buffer, for a file. It answers with the rest of the file. -/
def fillBdLocal (c : Config) (e : Endian) (file : List Byte) : Access Dev Unit (List Byte) := do
  let d ← Access.lift get
  match bd d d.rxBdIndex, bd d (d.rxBdIndex + 1) with
  | some bdInfo, some bdAddr => fillBuffered c e file d bdInfo bdAddr
  | _, _ => do
    Access.lift (orStop fun _ => none)
    pure file

/-! ### What is sent -/

section
variable {c : Config} {o : Outside} {d : Dev} {b : Buffer}

theorem storeWords_below {len : Nat} (word : Nat → Word) (more i : Nat) (fits : 4 * (i + more) ≤ len) :
    Below len (storeWords word more i) := by
  induction more generalizing i with
  | zero => exact .pure _ _
  | succ more ih =>
    refine .bind (fun _ _ k inside => ?_) fun _ => ih (i + 1) (by omega)
    rw [Access.touched_edit] at inside
    simp only [four, List.mem_cons, List.not_mem_nil, or_false] at inside
    omega

theorem loadWords_below {len : Nat} (bdAddr : ULong) (more i : Nat) (fits : 4 * (i + more) ≤ len) :
    Below len (loadWords c bdAddr more i) := by
  induction more generalizing i with
  | zero => exact .pure _ _
  | succ more ih =>
    refine .bind (fun _ _ k inside => ?_) fun _ => .bind (.lift _ _) fun _ => ih (i + 1) (by omega)
    rw [Access.touched_view] at inside
    simp only [four, List.mem_cons, List.not_mem_nil, or_false] at inside
    omega

theorem writePacket_below {len length : Nat} (fits : length ≤ len) : Below len (writePacket c length) := by
  unfold writePacket
  cases c.rtxType with
  | unknown => exact .pure _ _
  | file | tap => exact fun _ _ k inside => Nat.lt_of_lt_of_le (List.mem_range.mp inside) fits

/-- Whatever the descriptor says, its packet keeps to the buffer. -/
theorem flushBdLocal_below (c : Config) (o : Outside) : Below maxPl (flushBdLocal c o) := by
  refine .bind (.lift _ _) fun d => ?_
  cases bd d d.txBdIndex with
  | none => exact .lift _ _
  | some bdInfo =>
    cases bd d (d.txBdIndex + 1) with
    | none => exact .lift _ _
    | some bdAddr =>
      have small : (getField bdInfo bdLengthOffset 16).toNat < 2 ^ 16 := getField_lt bdInfo bdLengthOffset (by decide)
      have count : 4 * (0 + wordCount (getField bdInfo bdLengthOffset bdLengthWidth).toNat) ≤ maxPl := by
        unfold wordCount maxPl
        show 4 * (0 + ((getField bdInfo bdLengthOffset 16).toNat + 3) / 4) ≤ 65536
        omega
      refine .bind (storeWords_below _ _ 0 count) fun _ => .bind (writePacket_below ?_) fun _ => .lift _ _
      show (getField bdInfo bdLengthOffset 16).toNat ≤ 65536
      omega

end

/-! ### What a file holds -/

/-- The length of the next packet of a file, if it is long enough to have a header. -/
def fileLength (e : Endian) (file : List Byte) : Option Nat :=
  if file.length < 4 ∨ lengthWord e file < etherHdrLen then none else some (lengthWord e file).toNat

/-- The next packet of a file. -/
def fileRead (e : Endian) (file : List Byte) : ReadResult :=
  if file.length = 0 then .nothing
  else
    match fileLength e file with
    | none => .failed
    | some length => if length ≤ file.length - 4 then .packet ((file.drop 4).take length) else .failed

/-- The buffer when a packet has been read, as far as the file has it. -/
def received (file : List Byte) (length : Nat) (b : Buffer) : Buffer := fun k =>
  if k < min length (file.length - 4) then (file.drop 4).getD k 0 else b k

section
variable {c : Config} {e : Endian} {file : List Byte} {d d' : Dev} {b b' : Buffer} {length : Nat} {info addr : ULong}

theorem fileLength_some (is : fileLength e file = some length) :
    4 ≤ file.length ∧ etherHdrLen ≤ lengthWord e file ∧ lengthWord e file = length := by
  unfold fileLength at is
  split at is
  · cases is
  · next long =>
    obtain ⟨whole, header⟩ := not_or.mp long
    cases is
    unfold etherHdrLen at header ⊢
    omega

theorem fileRead_packet (is : fileLength e file = some length) (whole : length ≤ file.length - 4) :
    fileRead e file = .packet ((file.drop 4).take length) := by
  obtain ⟨long, _, _⟩ := fileLength_some is
  unfold fileRead
  rw [if_neg (by omega), is]
  exact if_pos whole

theorem fileRead_packet_length {bytes : List Byte} (is : fileRead e file = .packet bytes) : fileLength e file = some bytes.length ∧
    bytes.length ≤ file.length - 4 ∧ bytes = (file.drop 4).take bytes.length := by
  unfold fileRead at is
  split at is
  · cases is
  · cases size : fileLength e file with
    | none =>
      rw [size] at is
      cases is
    | some length =>
      rw [size] at is
      dsimp only at is
      split at is
      · next whole =>
        cases is
        have same : ((file.drop 4).take length).length = length := by
          rw [List.length_take, List.length_drop]
          omega
        rw [same]
        exact ⟨rfl, whole, rfl⟩
      · cases is

/-- Without a length that is large enough nothing is read. -/
theorem readFilePacket_none (none : fileLength e file = none) :
    ∃ r : Int × List Byte, r.1 ≤ 0 ∧ (readFilePacket e file : Access Dev Unit _) = pure r := by
  unfold fileLength at none
  unfold readFilePacket
  split at none
  · next short =>
    by_cases empty : file.length = 0
    · exact ⟨(0, []), by decide, if_pos empty⟩
    · rw [if_neg empty]
      by_cases few : file.length < 4
      · exact ⟨(-1, []), by decide, if_pos few⟩
      · rw [if_neg few]
        exact ⟨(-1, file.drop 4), (by decide : (-1 : Int) ≤ 0), if_pos (short.resolve_left few)⟩
  · cases none

theorem readFilePacket_some (is : fileLength e file = some length) :
    (readFilePacket e file : Access Dev Unit _) = Access.edit (List.range (min length (file.length - 4)))
    (received file length) >>= fun _ =>
      pure (if length ≤ file.length - 4 then (length : Int) else -1, (file.drop 4).drop (min length (file.length - 4))) := by
  obtain ⟨long, header, same⟩ := fileLength_some is
  have returned : (((min length (file.length - 4) : Nat) : Int) ≠ length) ↔ ¬ length ≤ file.length - 4 := by omega
  unfold readFilePacket received
  rw [if_neg (by omega), if_neg (by omega)]
  dsimp only
  rw [if_neg (by omega), same, Int.toNat_natCast, List.length_drop]
  refine congrArg _ (funext fun _ => ?_)
  by_cases whole : length ≤ file.length - 4
  · rw [if_neg (mt returned.mp (not_not.mpr whole)), if_pos whole]
  · rw [if_pos (returned.mpr whole), if_neg whole]

theorem mem_readFilePacket {k : Nat} : k ∈ (readFilePacket e file : Access Dev Unit _).touched b d ↔
    ∃ length, fileLength e file = some length ∧ k < min length (file.length - 4) := by
  cases is : fileLength e file with
  | none =>
    obtain ⟨r, _, same⟩ := readFilePacket_none is
    rw [same, Access.touched_pure]
    exact iff_of_false List.not_mem_nil fun ⟨_, absent, _⟩ => by cases absent
  | some length =>
    rw [readFilePacket_some is, mem_bind, Access.touched_edit, List.mem_range]
    refine ⟨fun inside => ⟨length, rfl, inside.resolve_right fun ⟨_, _, _, _, nothing⟩ => List.not_mem_nil nothing⟩, ?_⟩
    rintro ⟨other, same, inside⟩
    cases same
    exact .inl inside

theorem received_keeps (file : List Byte) (length : Nat) :
    Access.KeepsTo (List.range (min length (file.length - 4))) (received file length) where
  elsewhere b k outside := if_neg fun inside => outside (List.mem_range.mpr inside)
  reads b b' _ k inside := by
    unfold received
    rw [if_pos (List.mem_range.mp inside), if_pos (List.mem_range.mp inside)]

theorem readFilePacket_run (is : fileLength e file = some length) (b : Buffer) :
    (readFilePacket e file : Access Dev Unit _).run b =
      pure ((if length ≤ file.length - 4 then (length : Int) else -1, (file.drop 4).drop (min length (file.length - 4))),
        received file length b) := by
  rw [readFilePacket_some is, Access.run_bind, Access.run_edit (received_keeps file length)]
  rfl

theorem readFilePacket_returned {r : Int × List Byte} (ran : (readFilePacket e file : Access Dev Unit _).run b d = .ok ((r, b'), d')) :
    r.1 ≤ 0 ∨ ∃ length : Nat, fileLength e file = some length ∧ r.1 = length ∧ length ≤ file.length - 4 := by
  cases is : fileLength e file with
  | none =>
    obtain ⟨r', negative, same⟩ := readFilePacket_none is
    rw [same] at ran
    cases ran
    exact .inl negative
  | some length =>
    rw [readFilePacket_run is] at ran
    cases ran
    dsimp only
    split
    · next whole => exact .inr ⟨length, rfl, rfl, whole⟩
    · exact .inl (by decide)

theorem forUsLocal_below (d : Dev) : Below maxPl (forUsLocal d : Access Dev Unit _) := by
  unfold forUsLocal
  split
  · exact .pure _ _
  · exact fun _ _ k inside => Nat.lt_trans (List.mem_range.mp inside) (by decide)

theorem fillBdLocal_inside_iff (first : bd d d.rxBdIndex = some info) (second : bd d (d.rxBdIndex + 1) = some addr) :
    (∀ k ∈ (fillBdLocal c e file).touched b d, k < maxPl) ↔ ∀ length, fileLength e file = some length →
      min length (file.length - 4) ≤ maxPl := by
  constructor
  · intro inside length is
    by_contra long
    refine Nat.lt_irrefl _ (inside maxPl (mem_bind.mpr (.inr ⟨d, b, d, rfl, ?_⟩)))
    simp only [first, second]
    exact mem_bind.mpr (.inl (mem_readFilePacket.mpr ⟨length, is, by omega⟩))
  · intro small k inside
    rcases mem_bind.mp inside with none | ⟨v, b', d', ran, later⟩
    · cases none
    · cases ran
      simp only [first, second] at later
      rcases mem_bind.mp later with read | ⟨r, b', d', ran, later⟩
      · obtain ⟨length, is, less⟩ := mem_readFilePacket.mp read
        exact Nat.lt_of_lt_of_le less (small length is)
      · rcases readFilePacket_returned ran with negative | ⟨length, is, same, whole⟩
        · rw [if_pos negative] at later
          cases later
        · have most := small length is
          have count : 4 * (0 + wordCount r.1.toNat) ≤ maxPl := by
            rw [same, Int.toNat_natCast]
            unfold wordCount maxPl at *
            omega
          have below : Below maxPl (if r.1 ≤ 0 then pure r.2 else forUsLocal d >>= fun ours =>
              if !ours then pure r.2 else loadWords c addr (wordCount r.1.toNat) 0 >>= fun _ =>
                Access.lift (orStop (filled (filledInfo c info r.1.toNat))) >>= fun _ => pure r.2 : Access Dev Unit (List Byte)) := by
            split
            · exact .pure _ _
            · refine .bind (forUsLocal_below d) fun ours => ?_
              split
              · exact .pure _ _
              · exact .bind (loadWords_below addr _ 0 count) fun _ => .bind (.lift _ _) fun _ => .pure _ _
          exact below b' d' k later

/-! ### The length of a packet that was received -/

/-- The flags of a descriptor that are cleared when it is filled. -/
def rxCleared : List Nat := [rxBdMiss, rxBdInvalid, rxBdDribble, rxBdUverrun, rxBdCollision, rxBdToobig, rxBdTooshort, bdReady]

/-- The length in a descriptor is that of the packet with its CRC, and nothing else is changed with it. -/
structure LengthStored (c : Config) (info : ULong) (length : Nat) : Prop where
  field : (getField (filledInfo c info length) bdLengthOffset bdLengthWidth).toNat = length + if c.dummyCrc then 4 else 0
  others : ∀ flag, flag < bdLengthOffset ∨ bdLengthOffset + bdLengthWidth ≤ flag →
    testFlag (filledInfo c info length) flag = (testFlag info flag && decide (flag ∉ rxCleared))

/-- The length is stored exactly if it fits its field with the CRC. -/
theorem lengthStored_iff (c : Config) (info : ULong) (length : Nat) :
    LengthStored c info length ↔ (length + if c.dummyCrc then 4 else 0) < 2 ^ 16 := by
  constructor
  · intro stored
    rw [← stored.field]
    exact getField_lt _ _ (by decide)
  · intro small
    generalize crc : (length + if c.dummyCrc then 4 else 0) = value at small
    have number : (BitVec.ofNat 64 value).toNat = value := by
      rw [BitVec.toNat_ofNat]
      exact Nat.mod_eq_of_lt (by omega)
    have info' : filledInfo c info length =
        clearFlag (setField (clearFlags info [rxBdMiss, rxBdInvalid, rxBdDribble, rxBdUverrun, rxBdCollision, rxBdToobig,
          rxBdTooshort]) 16 16
          (BitVec.ofNat 64 value)) bdReady := by
      rw [← crc]
      rfl
    have fits : (BitVec.ofNat 64 value).toNat < 2 ^ 16 := by rwa [number]
    refine ⟨?_, fun flag outside => ?_⟩
    · show (getField (filledInfo c info length) 16 16).toNat = _
      rw [info', getField_clearFlag _ (by decide) (by decide), getField_setField _ fits (by decide), number, crc]
    · have other : ¬(16 ≤ flag ∧ flag < 16 + 16) := by
        rintro ⟨above, below⟩
        exact outside.elim (Nat.not_lt.mpr above) (Nat.not_le.mpr below)
      rw [info', testFlag_clearFlag, testFlag_setField_fits _ fits (by decide), if_neg other, testFlag_clearFlags]
      unfold rxCleared
      simp only [List.mem_cons, List.not_mem_nil, or_false, not_or, ne_eq, Bool.decide_and, Bool.and_assoc]

end

/-! ### With buffers and without -/

section
variable {c : Config} {o : Outside} {e : Endian} {file : List Byte} {d : Dev} {b : Buffer}

/-- A buffer when some words have been copied to it. -/
def filledWords (word : Nat → Word) (n : Nat) (b : Buffer) : Buffer :=
  fun k => if k < 4 * n then (wordBytes (word (k / 4))).getD (k % 4) 0 else b k

theorem filledWords_zero (word : Nat → Word) (b : Buffer) : filledWords word 0 b = b := by
  funext k
  exact if_neg (by omega)

theorem putWord_filledWords (word : Nat → Word) (n : Nat) (b : Buffer) :
    putWord n (word n) (filledWords word n b) = filledWords word (n + 1) b := by
  funext k
  unfold putWord filledWords Buffer.put
  rcases (by omega : k = 4 * n + 3 ∨ k = 4 * n + 2 ∨ k = 4 * n + 1 ∨ k = 4 * n ∨ k < 4 * n ∨ 4 * (n + 1) ≤ k) with rfl | rfl | rfl |
    rfl | less | more
  · rw [if_pos rfl, if_pos (by omega), show (4 * n + 3) / 4 = n by omega, show (4 * n + 3) % 4 = 3 by omega]
    rfl
  · rw [if_neg (by omega), if_pos rfl, if_pos (by omega), show (4 * n + 2) / 4 = n by omega, show (4 * n + 2) % 4 = 2 by omega]
    rfl
  · rw [if_neg (by omega), if_neg (by omega), if_pos rfl, if_pos (by omega),
      show (4 * n + 1) / 4 = n by omega, show (4 * n + 1) % 4 = 1 by omega]
    rfl
  · rw [if_neg (by omega), if_neg (by omega), if_neg (by omega), if_pos rfl, if_pos (by omega), show 4 * n / 4 = n by omega,
      show 4 * n % 4 = 0 by omega]
    rfl
  · rw [if_neg (by omega), if_neg (by omega), if_neg (by omega), if_neg (by omega), if_pos (show k < 4 * (n + 1) by omega)]
    exact if_pos less
  · rw [if_neg (by omega), if_neg (by omega), if_neg (by omega), if_neg (by omega), if_neg (show ¬ k < 4 * (n + 1) by omega)]
    exact if_neg (by omega)

theorem putWord_keeps (i : Nat) (w : Word) : Access.KeepsTo (four i) (putWord i w) := by
  unfold putWord four
  exact ((((Access.KeepsTo.id _).put (by simp) _).put (by simp) _).put (by simp) _).put (by simp) _

theorem storeWords_run (word : Nat → Word) (more i : Nat) (b : Buffer) :
    (storeWords word more i).run (filledWords word i b) d = .ok (((), filledWords word (i + more) b), d) := by
  induction more generalizing i with
  | zero => rfl
  | succ more ih =>
    rw [storeWords, Access.run_bind, Access.run_edit (putWord_keeps i _), putWord_filledWords]
    show (storeWords word more (i + 1)).run (filledWords word (i + 1) b) d = _
    rw [ih, Nat.add_assoc, Nat.add_comm 1 more]

theorem flatMap_wordBytes (word : Nat → Word) (n : Nat) :
    (List.range n).flatMap (fun i => wordBytes (word i)) = (List.range (4 * n)).map fun k =>
    (wordBytes (word (k / 4))).getD (k % 4) 0 := by
  induction n with
  | zero => rfl
  | succ n ih =>
    rw [List.range_succ, List.flatMap_append, ih, Nat.mul_succ, List.range_add, List.map_append]
    congr 1
    simp only [List.flatMap_cons, List.flatMap_nil, List.append_nil, List.map_map]
    show wordBytes (word n) = [_, _, _, _]
    simp only [Function.comp, show (4 * n + 0) / 4 = n by omega, show (4 * n + 1) / 4 = n by omega, show (4 * n + 2) / 4 = n by omega,
      show (4 * n + 3) / 4 = n by omega, show (4 * n + 0) % 4 = 0 by omega, show (4 * n + 1) % 4 = 1 by omega,
      show (4 * n + 2) % 4 = 2 by omega, show (4 * n + 3) % 4 = 3 by omega]
    rfl

theorem map_filledWords (word : Nat → Word) (length : Nat) (b : Buffer) :
    (List.range length).map (filledWords word (wordCount length) b) =
      ((List.range (wordCount length)).flatMap fun i => wordBytes (word i)).take length := by
  rw [flatMap_wordBytes, ← List.map_take, List.take_range]
  unfold wordCount
  rw [Nat.min_eq_left (by omega)]
  refine List.map_congr_left fun k inside => if_pos ?_
  have := List.mem_range.mp inside
  omega

theorem flushBd_eq : flushBd c o d = (bd d d.txBdIndex).bind fun bdInfo => (bd d (d.txBdIndex + 1)).bind fun bdAddr =>
    flushed c o bdInfo (((wordPlaces bdAddr (getField bdInfo bdLengthOffset bdLengthWidth).toNat).flatMap fun addr =>
      wordBytes (evalDirect32 c o.mem d addr)).take (getField bdInfo bdLengthOffset bdLengthWidth).toNat) d := rfl

theorem writePacket_run (c : Config) (length : Nat) (b : Buffer) : ∃ packet, (writePacket c length).run b d = .ok ((packet, b), d) ∧
    (c.rtxType ≠ .unknown → packet = (List.range length).map b) := by
  have reads : Access.ReadsOnly (List.range length) fun b => (List.range length).map b := fun b b' agree => List.map_congr_left agree
  unfold writePacket
  cases c.rtxType with
  | unknown => exact ⟨[], rfl, fun other => absurd rfl other⟩
  | file | tap =>
    refine ⟨_, ?_, fun _ => rfl⟩
    rw [Access.run_view reads]
    rfl

theorem flushed_unknown (unknown : c.rtxType = .unknown) (bdInfo : ULong) (packet packet' : List Byte) :
    flushed c o bdInfo packet d = flushed c o bdInfo packet' d := by
  unfold flushed
  rw [unknown]
  rfl

/-- How a step that can be undefined ends. -/
def ended {α : Type} (a : α) (b : Buffer) : Option Dev → Except Unit ((α × Buffer) × Dev)
  | some d => .ok ((a, b), d)
  | none => .error ()

theorem orStop_run (f : Dev → Option Dev) (b : Buffer) (d : Dev) : (Access.lift (orStop f)).run b d = ended () b (f d) := by
  show (orStop f >>= fun a => pure (a, b)) d = _
  cases is : f d with
  | none =>
    show (match f d with | some d => Except.ok ((), d) | none => Except.error ()).bind _ = _
    rw [is]
    rfl
  | some d' =>
    have ran : orStop f d = .ok ((), d') := by
      unfold orStop
      rw [is]
    exact (Programs.bind_of_ok ran).trans rfl

theorem get_run {α : Type} {f : Dev × Buffer → Programs.Sim Dev Unit α} (b : Buffer) (d : Dev) :
    ((Access.lift get : Access Dev Unit Dev).run b >>= f) d = f (d, b) d := rfl

theorem pure_run {α β : Type} {f : α × Buffer → Programs.Sim Dev Unit β} {a : α} :
    ((pure a : Access Dev Unit α).run b >>= f) d = f (a, b) d := rfl

theorem orStop_then {α : Type} (f : Dev → Option Dev) (a : α) (b : Buffer) (d : Dev) :
    (Access.lift (orStop f) >>= fun _ => pure a).run b d = ended a b (f d) := by
  rw [Access.run_bind]
  show ((Access.lift (orStop f)).run b d >>= fun r => ((pure a : Access Dev Unit α).run r.1.2) r.2) = _
  rw [orStop_run]
  cases f d <;> rfl

theorem flushBuffered_run (c : Config) (o : Outside) (d : Dev) (b : Buffer) (bdInfo bdAddr : ULong) :
    ∃ b', (flushBuffered c o d bdInfo bdAddr).run b d = ended () b' (flushed c o bdInfo (((wordPlaces bdAddr
      (getField bdInfo bdLengthOffset bdLengthWidth).toNat).flatMap fun addr => wordBytes (evalDirect32 c o.mem d addr)).take
        (getField bdInfo bdLengthOffset bdLengthWidth).toNat) d) := by
  generalize long : (getField bdInfo bdLengthOffset bdLengthWidth).toNat = length
  let word : Nat → Word := fun i => evalDirect32 c o.mem d (place bdAddr i)
  obtain ⟨packet, wrote, is⟩ := writePacket_run (d := d) c length (filledWords word (wordCount length) b)
  have store := storeWords_run (d := d) word (wordCount length) 0 b
  rw [Nat.zero_add, filledWords_zero] at store
  have same : flushed c o bdInfo packet d = flushed c o bdInfo (((wordPlaces bdAddr length).flatMap fun addr =>
      wordBytes (evalDirect32 c o.mem d addr)).take length) d := by
    by_cases unknown : c.rtxType = .unknown
    · exact flushed_unknown unknown bdInfo _ _
    · rw [is unknown, map_filledWords]
      unfold wordPlaces
      rw [List.flatMap_map]
      rfl
  refine ⟨filledWords word (wordCount length) b, ?_⟩
  unfold flushBuffered
  simp only [long]
  rw [Access.run_bind, Programs.bind_of_ok store, Access.run_bind, Programs.bind_of_ok wrote, orStop_run, same]

/-- The transmitter with its buffer does what it does without. -/
theorem flushBdLocal_run (c : Config) (o : Outside) (d : Dev) (b : Buffer) :
    ∃ b', (flushBdLocal c o).run b d = ended () b' (flushBd c o d) := by
  rw [flushBd_eq]
  unfold flushBdLocal
  rw [Access.run_bind, get_run b d]
  cases bd d d.txBdIndex with
  | none => exact ⟨b, orStop_run _ b d⟩
  | some bdInfo =>
    cases bd d (d.txBdIndex + 1) with
    | none => exact ⟨b, orStop_run _ b d⟩
    | some bdAddr => exact flushBuffered_run c o d b bdInfo bdAddr

theorem takeWord_reads (i : Nat) : Access.ReadsOnly (four i) (takeWord i) := by
  intro b b' agree
  unfold takeWord
  rw [agree (4 * i) (by simp [four]), agree (4 * i + 1) (by simp [four]), agree (4 * i + 2) (by simp [four]),
    agree (4 * i + 3) (by simp [four])]

theorem loadWords_run (bdAddr : ULong) (more i : Nat) (b : Buffer) (d : Dev) :
    (loadWords c bdAddr more i).run b d =
      .ok (((), b), (List.range' i more).foldl (fun d j => setDirect32 c d (place bdAddr j, takeWord j b)) d) := by
  induction more generalizing i d with
  | zero => rfl
  | succ more ih =>
    rw [loadWords, Access.run_bind, Access.run_view (takeWord_reads i)]
    show (loadWords c bdAddr more (i + 1)).run b (setDirect32 c d (place bdAddr i, takeWord i b)) = _
    rw [ih]
    rfl

/-- The words of a packet that a buffer of zeros holds. -/
theorem transfer_eq (bdAddr : ULong) (bytes : List Byte) (d : Dev) : transfer c bdAddr bytes d =
    (List.range' 0 (wordCount bytes.length)).foldl (fun d j =>
      setDirect32 c d (place bdAddr j, takeWord j fun k => bytes.getD k 0)) d := by
  unfold transfer wordPlaces packetWords
  rw [List.zip_map', List.foldl_map, List.range_eq_range']
  rfl

theorem forUs_congr {bytes bytes' : List Byte} (same : ∀ i < 6, bytes.getD i 0 = bytes'.getD i 0) : forUs d bytes = forUs d bytes' := by
  have heads : bytes.getD 0 0 = bytes'.getD 0 0 ∧ bytes.getD 1 0 = bytes'.getD 1 0 ∧ bytes.getD 2 0 = bytes'.getD 2 0 ∧
      bytes.getD 3 0 = bytes'.getD 3 0 ∧ bytes.getD 4 0 = bytes'.getD 4 0 ∧ bytes.getD 5 0 = bytes'.getD 5 0 :=
    ⟨same 0 (by decide), same 1 (by decide), same 2 (by decide), same 3 (by decide), same 4 (by decide), same 5 (by decide)⟩
  obtain ⟨h0, h1, h2, h3, h4, h5⟩ := heads
  unfold forUs
  simp only [List.range_succ, List.range_zero, List.nil_append, List.cons_append, List.all_cons, List.all_nil, h0, h1, h2, h3, h4, h5]

theorem forUsLocal_run (d : Dev) (bytes : List Byte) :
    (forUsLocal d).run (fun k => bytes.getD k 0) d = .ok ((forUs d bytes, fun k => bytes.getD k 0), d) := by
  have reads : Access.ReadsOnly (List.range 6) fun b => forUs d ((List.range 6).map b) :=
    fun b b' agree => congrArg (forUs d) (List.map_congr_left agree)
  unfold forUsLocal
  by_cases pro : testFlag d.moder moderPro = true
  · rw [if_pos pro]
    have all : forUs d bytes = true := by
      unfold forUs
      rw [pro, Bool.true_or, Bool.true_or]
    rw [all]
    rfl
  · rw [if_neg pro, Access.run_view reads]
    refine congrArg (fun ours => Except.ok ((ours, fun k => bytes.getD k 0), d)) (forUs_congr fun i small => ?_)
    rw [List.getD_eq_getElem _ _ (by rw [List.length_map, List.length_range]; exact small), List.getElem_map, List.getElem_range]

theorem received_zeros {length : Nat} (whole : length ≤ file.length - 4) :
    received file length (fun _ => 0) = fun k => ((file.drop 4).take length).getD k 0 := by
  funext k
  unfold received
  rw [Nat.min_eq_left whole]
  split
  · next inside => rw [List.getD_eq_getElem?_getD, List.getD_eq_getElem?_getD, List.getElem?_take_of_lt inside]
  · next outside => rw [List.getD_eq_default _ _ (by rw [List.length_take]; omega)]

theorem readPacket_noPacket (filed : c.rtxType = .file) {r : ReadResult} (no : r = .nothing ∨ r = .failed) :
    (readPacket c r d).1 ≤ 0 ∧ (readPacket c r d).2.2 = d := by
  unfold readPacket
  rw [filed]
  rcases no with rfl | rfl
  · exact ⟨Int.le_refl 0, rfl⟩
  · exact ⟨show (-1 : Int) ≤ 0 by decide, rfl⟩

theorem fillBuffered_run (filed : c.rtxType = .file) (fits : ∀ length,
    fileLength e file = some length → length ≤ file.length - 4 → length ≤ maxPl)
    (info addr : ULong) : ∃ rest b', (fillBuffered c e file d info addr).run (fun _ => 0) d = ended rest b' (
      let read := readPacket c (fileRead e file) d
      if read.1 ≤ 0 then some read.2.2
      else if maxPl < read.2.1.length then none
      else if !forUs read.2.2 read.2.1 then some read.2.2
      else filled (filledInfo c info read.2.1.length) (transfer c addr read.2.1 read.2.2)) := by
  unfold fillBuffered
  cases is : fileLength e file with
  | none =>
    obtain ⟨r, negative, same⟩ := readFilePacket_none is
    have noPacket := readPacket_noPacket (d := d) (r := fileRead e file) filed (by
      unfold fileRead
      rw [is]
      by_cases empty : file.length = 0
      · exact .inl (if_pos empty)
      · exact .inr (if_neg empty))
    refine ⟨r.2, fun _ => 0, ?_⟩
    rw [same, Access.run_bind, pure_run]
    dsimp only
    rw [if_pos negative, if_pos noPacket.1, noPacket.2]
    rfl
  | some length =>
    obtain ⟨long, header, number⟩ := fileLength_some is
    have positive : ¬ (length : Int) ≤ 0 := by
      unfold etherHdrLen at header
      omega
    rw [Access.run_bind, readFilePacket_run is]
    show ∃ rest b', (Access.run (if (if length ≤ file.length - 4 then (length : Int) else -1) ≤ 0 then pure _ else _)
      (received file length fun _ => 0)) d = _
    by_cases whole : length ≤ file.length - 4
    · have small := fits length is whole
      have size : ((file.drop 4).take length).length = length := by
        rw [List.length_take, List.length_drop]
        omega
      have read : readPacket c (fileRead e file) d = ((length : Int), (file.drop 4).take length, d) := by
        rw [fileRead_packet is whole]
        unfold readPacket
        rw [filed]
        dsimp only
        rw [size]
      rw [if_pos whole, if_neg positive, read, received_zeros whole]
      dsimp only
      rw [if_neg positive, size, if_neg (by omega), Int.toNat_natCast, Access.run_bind, Programs.bind_of_ok (forUsLocal_run d _)]
      dsimp only
      cases ours : forUs d ((file.drop 4).take length) with
      | false => exact ⟨_, _, rfl⟩
      | true =>
        have words := loadWords_run (c := c) addr (wordCount length) 0 (fun k => ((file.drop 4).take length).getD k 0) d
        have moved := transfer_eq (c := c) addr ((file.drop 4).take length) d
        rw [size] at moved
        rw [← moved] at words
        refine ⟨(file.drop 4).drop (min length (file.length - 4)), fun k => ((file.drop 4).take length).getD k 0, ?_⟩
        rw [if_neg (by decide), if_neg (by decide), Access.run_bind, Programs.bind_of_ok words, orStop_then]
    · have noPacket := readPacket_noPacket (d := d) (r := fileRead e file) filed (.inr (by
        unfold fileRead
        rw [if_neg (by omega), is]
        exact if_neg whole))
      rw [if_neg whole, if_pos noPacket.1, noPacket.2]
      exact ⟨_, _, rfl⟩

/-- The receiver with a buffer of zeros does what it does without, for a packet that fits. -/
theorem fillBdLocal_run (filed : c.rtxType = .file) (fits : ∀ length,
    fileLength e file = some length → length ≤ file.length - 4 → length ≤ maxPl) :
    ∃ rest b', (fillBdLocal c e file).run (fun _ => 0) d = ended rest b' (fillBd c { o with read := fileRead e file } d) := by
  unfold fillBdLocal
  rw [Access.run_bind, get_run _ d]
  unfold fillBd
  cases bd d d.rxBdIndex with
  | none => exact ⟨file, fun _ => 0, rfl⟩
  | some bdInfo =>
    cases bd d (d.rxBdIndex + 1) with
    | none => exact ⟨file, fun _ => 0, rfl⟩
    | some bdAddr => exact fillBuffered_run filed fits bdInfo bdAddr

end

/-! ### The buffers -/

/-- No packet leaves its buffer, and the descriptor of one that is received has its length. -/
structure BuffersSafe (c : Config) (e : Endian) (file : List Byte) (o : Outside) (d : Dev) : Prop where
  sends : ∀ b, ∀ k ∈ (flushBdLocal c o).touched b d, k < maxPl
  fills : ∀ b, ∀ k ∈ (fillBdLocal c e file).touched b d, k < maxPl
  length : ∀ info addr bytes, bd d d.rxBdIndex = some info → bd d (d.rxBdIndex + 1) = some addr → fileRead e file = .packet bytes →
    forUs d bytes = true → LengthStored c info bytes.length

/-- The file has no more bytes of its next packet than the buffer, and the length of one that is received fits 16 bits with the CRC. -/
def PacketFits (c : Config) (e : Endian) (file : List Byte) (d : Dev) : Prop :=
  ∀ info addr length, bd d d.rxBdIndex = some info → bd d (d.rxBdIndex + 1) = some addr → fileLength e file = some length →
    min length (file.length - 4) ≤ maxPl ∧
      (length ≤ file.length - 4 → forUs d ((file.drop 4).take length) = true → (length + if c.dummyCrc then 4 else 0) < 2 ^ 16)

theorem fillBdLocal_undefined {c : Config} {e : Endian} {file : List Byte} {d : Dev} {b : Buffer} {k : Nat}
    (undefined : bd d d.rxBdIndex = none ∨ bd d (d.rxBdIndex + 1) = none) : k ∉ (fillBdLocal c e file).touched b d := by
  intro inside
  rcases mem_bind.mp inside with nothing | ⟨v, b', d', ran, later⟩
  · cases nothing
  · cases ran
    cases first : bd d d.rxBdIndex with
    | none =>
      simp only [first] at later
      rcases mem_bind.mp later with nothing | ⟨_, _, _, _, nothing⟩ <;> cases nothing
    | some info =>
      have second := undefined.resolve_left (by rw [first]; exact Option.some_ne_none info)
      simp only [first, second] at later
      rcases mem_bind.mp later with nothing | ⟨_, _, _, _, nothing⟩ <;> cases nothing

/-- The packets keep to their buffers, and the lengths are those of the packets, exactly if what the file holds fits. -/
theorem buffers_safe_iff (c : Config) (e : Endian) (file : List Byte) (o : Outside) (d : Dev) :
    BuffersSafe c e file o d ↔ PacketFits c e file d := by
  constructor
  · intro safe info addr length first second is
    refine ⟨(fillBdLocal_inside_iff first second).mp (safe.fills fun _ => 0) length is, fun whole ours => ?_⟩
    have long : ((file.drop 4).take length).length = length := by
      rw [List.length_take, List.length_drop]
      omega
    have stored := safe.length info addr _ first second (fileRead_packet is whole) ours
    rw [long] at stored
    exact (lengthStored_iff c info length).mp stored
  · intro fits
    refine ⟨fun b => flushBdLocal_below c o b d, fun b k inside => ?_, ?_⟩
    · cases first : bd d d.rxBdIndex with
      | none => exact absurd inside (fillBdLocal_undefined (.inl first))
      | some info =>
        cases second : bd d (d.rxBdIndex + 1) with
        | none => exact absurd inside (fillBdLocal_undefined (.inr second))
        | some addr =>
          exact (fillBdLocal_inside_iff first second).mpr (fun length is => (fits info addr length first second is).1) k inside
    · intro info addr bytes first second read ours
      obtain ⟨is, whole, same⟩ := fileRead_packet_length read
      refine (lengthStored_iff c info bytes.length).mpr ((fits info addr _ first second is).2 whole ?_)
      rw [← same]
      exact ours

/-- A controller that takes every packet, and has room for it. -/
def promiscuous : Dev := { reset fileMac default with moder := 0xa021, bdRam := fun _ => 0x8000 }

/-- A packet of 65533 bytes, whose length with the CRC is 65537. -/
theorem length_overflows : ¬ ∀ (c : Config) (e : Endian) (file : List Byte) (o : Outside) (d : Dev), BuffersSafe c e file o d := by
  intro claim
  let file : List Byte := [0xfd, 0xff, 0x00, 0x00] ++ List.replicate 65533 0xff
  have fits := (buffers_safe_iff _ _ _ _ _).mp (claim { fileMac with dummyCrc := true } .little file sending promiscuous)
  have long : file.length = 65537 := by
    rw [List.length_append, List.length_replicate]
    rfl
  have word : lengthWord .little file = 65533 := by
    show ((0x00#8 ++ 0x00#8 ++ 0xff#8 ++ 0xfd#8 : BitVec 32)).toInt = 65533
    decide
  have is : fileLength .little file = some 65533 := by
    unfold fileLength
    rw [word, long]
    rfl
  exact absurd ((fits 0x8000 0x8000 65533 rfl rfl is).2 (by rw [long]) rfl) (by decide)

end Or1ksim.Eth
