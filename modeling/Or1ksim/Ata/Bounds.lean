import Or1ksim.Ata.Transfer

/-!
# The end of the disk

Only the first sector of a transfer is compared with the size of the disk. A transfer that starts on the disk and runs over its end
goes on behind it.
-/

namespace Or1ksim.Ata

/-- An access to the data port. -/
inductive DataAccess where
  | read
  | write (value : Half)

def Device.data (h : Host) (d : Device) : DataAccess → Device
  | .read => (dataRead h d).2
  | .write value => dataWrite h value d

/-- The command that leaves a function to be called. -/
def EndTransfer.command : EndTransfer → Command
  | .readSect => .readSectors
  | .writeSect => .writeSectors

/-- How many sectors have been touched after so many words, for a transfer that is long enough: one that is read is touched before its
words are taken, one that is written after they have been given. -/
def EndTransfer.touches : EndTransfer → Nat → Nat
  | .readSect, words => words / 256 + 1
  | .writeSect, words => words / 256

/-- The device as the command and the accesses after it leave it. -/
def Device.transferred (h : Host) (d : Device) (l : List DataAccess) : Device := l.foldl (Device.data h) (ataDeviceExecuteCmd h d)

def Device.start (d : Device) : Nat := (ataCalcLba d).toNat

/-- Nothing behind the disk is touched, and a transfer that would leave the disk has ended with an error when no more data is asked
for. -/
def StaysOnDisk (h : Host) (d : Device) (l : List DataAccess) : Prop :=
  (∀ position ∈ (d.transferred h l).stream.touched.drop d.stream.touched.length, position + 512 ≤ d.conf.sizeSect.toNat * 512) ∧
    (d.conf.packet = false → d.conf.sizeSect.toNat < d.start + sectorCountOf d → ¬has (d.transferred h l).status srDrq →
      has (d.transferred h l).status srErr ∧ (d.transferred h l).error = errIdnf)

/-- Where the sectors of a transfer are. -/
def positions (start count : Nat) : List Nat := (List.range count).map fun k => (start + k) * 512 % 2 ^ 32

/-- `n` sectors are moved from one on, and `j` words have been. -/
structure Moving (kind : EndTransfer) (before : List Nat) (start n j : Nat) (d : Device) : Prop where
  touched : d.stream.touched = before ++ positions start (min n (kind.touches j))
  asks : has d.status srDrq = decide (j < 256 * n)
  cnt : j < 256 * n → d.dbufCnt.toNat = 256 - j % 256
  lba : j < 256 * n → d.lba.toNat = (start + kind.touches j) * 512 % 2 ^ 32
  nrSect : j < 256 * n → d.nrSect = n - kind.touches j
  endTFunc : j < 256 * n → d.endTFunc = some kind

section
variable {h : Host} {kind : EndTransfer} {before : List Nat} {start n j : Nat} {d : Device}

theorem positions_succ (start count : Nat) : positions start (count + 1) =
    positions start count ++ [(start + count) * 512 % 2 ^ 32] := by
  unfold positions
  rw [List.range_succ, List.map_append, List.map_singleton]

/-- The function that is called at the end of a sector. -/
def EndTransfer.run : EndTransfer → Device → Device
  | .readSect => ataReadSect
  | .writeSect => ataWriteSect

theorem EndTransfer.touches_next (kind : EndTransfer) (full : j % 256 = 255) : kind.touches (j + 1) = kind.touches j + 1 := by
  have next : (j + 1) / 256 = j / 256 + 1 := by omega
  cases kind with
  | readSect => exact congrArg (· + 1) next
  | writeSect => exact next

theorem EndTransfer.touches_same (kind : EndTransfer) (more : j % 256 ≠ 255) : kind.touches (j + 1) = kind.touches j := by
  have same : (j + 1) / 256 = j / 256 := by omega
  cases kind with
  | readSect => exact congrArg (· + 1) same
  | writeSect => exact same

theorem advance_run (last : d.dbufCnt - 1 = 0) (then_ : d.endTFunc = some kind) : advance d = kind.run d.emptied := by
  cases kind with
  | readSect => exact advance_read last then_
  | writeSect => exact advance_write last then_

/-- The next sector of a transfer is touched. -/
theorem run_moving (some_ : d.nrSect ≠ 0) (touched : d.stream.touched = before ++ positions start (kind.touches j))
    (full : j % 256 = 255)
    (within : j < 256 * n) (lba : d.lba.toNat = (start + kind.touches j) * 512 % 2 ^ 32) (nrSect : d.nrSect = n - kind.touches j)
    (endTFunc : d.endTFunc = some kind) : Moving kind before start n (j + 1) (kind.run d) := by
  have next := kind.touches_next full
  have start_ : (j + 1) % 256 = 0 := by omega
  have here : min n (kind.touches j + 1) = kind.touches j + 1 := Nat.min_eq_right (by omega)
  have places : d.stream.touched ++ [d.lba.toNat] = before ++ positions start (kind.touches j + 1) := by
    rw [touched, lba, positions_succ, List.append_assoc]
  have onward : (d.lba + BitVec.ofNat 32 bytesPerSector).toNat = (start + kind.touches (j + 1)) * 512 % 2 ^ 32 := by
    rw [BitVec.toNat_add, lba, next, show (BitVec.ofNat 32 bytesPerSector).toNat = 512 from rfl, ← Nat.add_assoc, Nat.succ_mul,
      Nat.mod_add_mod]
  have fewer : d.nrSect - 1 = n - kind.touches (j + 1) := by rw [nrSect, next, Nat.sub_sub]
  cases kind with
  | readSect =>
    show Moving .readSect before start n (j + 1) (ataReadSect d)
    unfold ataReadSect
    rw [if_neg some_]
    refine { touched := ?_, asks := ?_, cnt := fun _ => ?_, lba := fun _ => onward, nrSect := fun _ => fewer,
             endTFunc := fun _ => endTFunc }
    · rw [next, here]
      exact places
    · have more : j + 1 < 256 * n := by
        have : EndTransfer.readSect.touches j = j / 256 + 1 := rfl
        omega
      rw [decide_eq_true more]
      show has (srDrdy ||| srDrq) srDrq = true
      decide
    · rw [start_]
      rfl
  | writeSect =>
    show Moving .writeSect before start n (j + 1) (ataWriteSect d)
    unfold ataWriteSect
    rw [if_neg some_]
    refine { touched := ?_, asks := ?_, cnt := fun _ => ?_, lba := fun _ => onward, nrSect := fun _ => fewer,
             endTFunc := fun _ => endTFunc }
    · rw [next, here]
      exact places
    · have whole : EndTransfer.writeSect.touches j = j / 256 := rfl
      show has (if d.nrSect - 1 = 0 then srDrdy ||| srDsc ||| srBsy else srDrdy ||| srDrq ||| srDsc ||| srBsy) srDrq = _
      by_cases last : d.nrSect - 1 = 0
      · rw [if_pos last, decide_eq_false (by omega)]
        decide
      · rw [if_neg last, decide_eq_true (by omega)]
        decide
    · rw [start_]
      rfl

/-- A word is moved. -/
theorem Moving.advance (moving : Moving kind before start n j d) (within : j < 256 * n) :
    Moving kind before start n (j + 1) (advance d) := by
  have low : j % 256 < 256 := Nat.mod_lt _ (by decide)
  have upTo : kind.touches j ≤ n := by
    cases kind with
    | readSect => show j / 256 + 1 ≤ n; omega
    | writeSect => show j / 256 ≤ n; omega
  have touched := moving.touched
  rw [Nat.min_eq_right upTo] at touched
  by_cases full : j % 256 = 255
  · rw [advance_run ((cnt_last low (moving.cnt within)).mpr full) (moving.endTFunc within)]
    by_cases none : d.nrSect = 0
    · have nrSect := moving.nrSect within
      cases kind with
      | readSect =>
        have whole : EndTransfer.readSect.touches j = j / 256 + 1 := rfl
        have last : ¬j + 1 < 256 * n := by omega
        have silent : has d.emptied.status srDrq = false := has_and_apart rfl
        show Moving .readSect before start n (j + 1) (ataReadSect d.emptied)
        unfold ataReadSect
        rw [if_pos (show d.emptied.nrSect = 0 from none)]
        refine { touched := ?_, asks := ?_, cnt := fun more => absurd more last, lba := fun more => absurd more last,
                 nrSect := fun more => absurd more last, endTFunc := fun more => absurd more last }
        · rw [EndTransfer.touches_next _ full, Nat.min_eq_left (by omega), show n = EndTransfer.readSect.touches j by omega]
          exact touched
        · rw [silent, decide_eq_false last]
      | writeSect =>
        have whole : EndTransfer.writeSect.touches j = j / 256 := rfl
        omega
    · exact run_moving none touched full within (moving.lba within) (moving.nrSect within) (moving.endTFunc within)
  · have notLast := mt (cnt_last low (moving.cnt within)).mp full
    have same := kind.touches_same full
    have nextWord : (j + 1) % 256 = j % 256 + 1 := by omega
    rw [advance_more notLast]
    refine { touched := ?_, asks := ?_, cnt := fun _ => ?_, lba := fun _ => ?_, nrSect := fun _ => ?_,
             endTFunc := fun _ => moving.endTFunc within }
    · rw [same]
      exact moving.touched
    · show has d.status srDrq = _
      rw [moving.asks, decide_eq_true within, decide_eq_true (by omega)]
    · show (d.dbufCnt - 1).toNat = _
      rw [cnt_lower low (moving.cnt within), nextWord]
      omega
    · rw [same]
      exact moving.lba within
    · rw [same]
      exact moving.nrSect within

/-- An access to the data port moves a word of a transfer that is not over. -/
theorem Moving.data (moving : Moving kind before start n j d) (within : j < 256 * n) (a : DataAccess) :
    Moving kind before start n (j + 1) (d.data h a) := by
  have asks : has d.status srDrq := by rw [moving.asks, decide_eq_true within]
  cases a with
  | read =>
    show Moving kind before start n (j + 1) (dataRead h d).2
    unfold dataRead
    rw [if_pos asks]
    exact moving.advance within
  | write value =>
    have filled : Moving kind before start n j (d.filled h value) :=
      ⟨moving.touched, moving.asks, moving.cnt, moving.lba, moving.nrSect, moving.endTFunc⟩
    have moved := filled.advance within
    show Moving kind before start n (j + 1) (dataWrite h value d)
    unfold dataWrite
    rw [if_pos asks]
    exact ⟨moved.touched, moved.asks, moved.cnt, moved.lba, moved.nrSect, moved.endTFunc⟩

/-- Without a request for data the data port does nothing. -/
theorem data_silent (silent : has d.status srDrq = false) (a : DataAccess) : d.data h a = d := by
  have asks : ¬has d.status srDrq := by rw [silent]; decide
  cases a with
  | read =>
    show (dataRead h d).2 = d
    unfold dataRead
    rw [if_neg asks]
  | write value => exact if_neg asks

theorem foldl_silent (silent : has d.status srDrq = false) (l : List DataAccess) : l.foldl (Device.data h) d = d := by
  induction l with
  | nil => rfl
  | cons a l ih => rw [List.foldl_cons, data_silent silent, ih]

theorem Moving.foldl (moving : Moving kind before start n j d) (upTo : j ≤ 256 * n) (l : List DataAccess) :
    Moving kind before start n (min (j + l.length) (256 * n)) (l.foldl (Device.data h) d) := by
  induction l generalizing j d with
  | nil => rwa [List.length_nil, Nat.add_zero, Nat.min_eq_left upTo]
  | cons a l ih =>
    rw [List.foldl_cons, List.length_cons, ← Nat.add_assoc, Nat.add_right_comm]
    by_cases within : j < 256 * n
    · exact ih (moving.data within a) within
    · have over_ : j = 256 * n := by omega
      have silent : has d.status srDrq = false := by rw [moving.asks, decide_eq_false within]
      have same := ih moving upTo
      rw [data_silent silent]
      rw [Nat.min_eq_right (by omega)] at same ⊢
      exact same

end

/-! ### What is touched -/

section
variable {h : Host} {kind : EndTransfer} {d : Device}

theorem sizeSect_small (c : Conf) : c.sizeSect.toNat * 512 + 512 ≤ 2 ^ 32 := by
  unfold Conf.sizeSect
  rw [BitVec.toNat_udiv, show (BitVec.ofNat 32 bytesPerSector).toNat = 512 from rfl]
  have := c.size.isLt
  omega

/-- A transfer whose first sector is on the disk starts. -/
theorem starts (command : Command.of d.command = kind.command) (plain : d.conf.packet = false)
    (first : d.start < d.conf.sizeSect.toNat) :
    Moving kind d.stream.touched d.start (sectorCountOf d) 0 (ataDeviceExecuteCmd h d) := by
  have positive := sectorCount_positive d
  have more : 0 < 256 * sectorCountOf d := by omega
  have onDisk : ¬d.conf.sizeSect ≤ ataCalcLba d := by
    rw [BitVec.le_def]
    exact Nat.not_le.mpr first
  have offset : (ataCalcLba d * BitVec.ofNat 32 bytesPerSector).toNat = d.start * 512 % 2 ^ 32 := by
    rw [BitVec.toNat_mul]
    rfl
  have packet : ¬d.conf.packet := by rw [plain]; decide
  cases kind with
  | readSect =>
    have next : (ataCalcLba d * BitVec.ofNat 32 bytesPerSector + BitVec.ofNat 32 bytesPerSector).toNat =
        (d.start + 1) * 512 % 2 ^ 32 := by
      rw [BitVec.toNat_add, offset, show (BitVec.ofNat 32 bytesPerSector).toNat = 512 from rfl, Nat.succ_mul, Nat.mod_add_mod]
    have some_ : ¬sectorCountOf d = 0 := by omega
    rw [executeCmd_readSectors command]
    unfold ataReadSectorsCmd ataReadSect
    rw [if_neg packet, if_neg onDisk, if_neg some_]
    refine { touched := ?_, asks := ?_, cnt := fun _ => rfl, lba := fun _ => next, nrSect := fun _ => rfl, endTFunc := fun _ => rfl }
    · rw [show min (sectorCountOf d) (EndTransfer.readSect.touches 0) = 0 + 1 from Nat.min_eq_right positive, positions_succ]
      show d.stream.touched ++ [(ataCalcLba d * BitVec.ofNat 32 bytesPerSector).toNat] = _
      rw [offset]
      rfl
    · rw [decide_eq_true more]
      show has (srDrdy ||| srDrq) srDrq = true
      decide
  | writeSect =>
    rw [executeCmd_writeSectors command]
    unfold ataWriteSectors
    rw [if_neg packet, if_neg onDisk]
    refine { touched := ?_, asks := ?_, cnt := fun _ => rfl, lba := fun _ => offset, nrSect := fun _ => rfl, endTFunc := fun _ => rfl }
    · rw [show min (sectorCountOf d) (EndTransfer.writeSect.touches 0) = 0 from Nat.min_eq_right (Nat.zero_le _)]
      exact (List.append_nil _).symm
    · rw [decide_eq_true more]
      show has (srBsy ||| srDrdy ||| srDrq) srDrq = true
      decide

theorem sectors_inside_iff {start size : Nat} (count : Nat) (first : start < size) (small : size * 512 + 512 ≤ 2 ^ 32) :
    (∀ position ∈ positions start count, position + 512 ≤ size * 512) ↔ start + count ≤ size := by
  unfold positions
  constructor
  · intro inside
    by_contra beyond
    have within : size - start < count := by omega
    have last := inside _ (List.mem_map_of_mem (List.mem_range.mpr within))
    rw [show start + (size - start) = size by omega, Nat.mod_eq_of_lt (by omega)] at last
    omega
  · intro fits position mem
    obtain ⟨k, low, rfl⟩ := List.mem_map.mp mem
    have below : (start + k + 1) * 512 ≤ size * 512 := sector_le (by have := List.mem_range.mp low; omega)
    rw [Nat.succ_mul] at below
    exact Nat.le_trans (Nat.add_le_add_right (Nat.mod_le _ _) _) below

theorem touches_upTo (kind : EndTransfer) (n words : Nat) : min n (kind.touches (min words (256 * n))) = min n (kind.touches words) := by
  cases kind with
  | readSect => show min n (min words (256 * n) / 256 + 1) = min n (words / 256 + 1); omega
  | writeSect => show min n (min words (256 * n) / 256) = min n (words / 256); omega

/-- A command that fails leaves the data port silent. -/
theorem transferred_failed {status error : Byte} (l : List DataAccess) (stream : (ataDeviceExecuteCmd h d).stream = d.stream)
    (same : (ataDeviceExecuteCmd h d).status = status) (silent : has status srDrq = false)
    (told : (ataDeviceExecuteCmd h d).error = error) :
    (d.transferred h l).stream = d.stream ∧ (d.transferred h l).status = status ∧ (d.transferred h l).error = error := by
  unfold Device.transferred
  rw [foldl_silent (by rw [same, silent])]
  exact ⟨stream, same, told⟩

/-- A transfer stays on the disk unless it starts there, has sectors behind it and gets that far. -/
theorem staysOnDisk_iff (command : Command.of d.command = kind.command) (l : List DataAccess) :
    StaysOnDisk h d l ↔ d.conf.packet ∨ d.conf.sizeSect.toNat ≤ d.start ∨ d.start + sectorCountOf d ≤ d.conf.sizeSect.toNat ∨
      kind.touches l.length ≤ d.conf.sizeSect.toNat - d.start := by
  have nothing : ∀ status error : Byte, (d.transferred h l).stream = d.stream ∧ (d.transferred h l).status = status ∧
      (d.transferred h l).error = error → (d.conf.packet = false → has status srErr ∧ error = errIdnf) → StaysOnDisk h d l := by
    intro status error ⟨stream, same, told⟩ failed
    refine ⟨fun position mem => ?_, fun plain _ _ => ?_⟩
    · rw [stream, List.drop_length] at mem
      exact absurd mem List.not_mem_nil
    · rw [same, told]
      exact failed plain
  cases packet : d.conf.packet with
  | true =>
    refine ⟨fun _ => .inl rfl, fun _ => nothing (srErr ||| srDrdy) errAbt (transferred_failed l ?_ ?_ (by decide) ?_)
      fun plain => absurd (packet.symm.trans plain) (by decide)⟩
    all_goals
      cases kind with
      | readSect =>
        rw [executeCmd_readSectors command]
        unfold ataReadSectorsCmd
        rw [if_pos packet]
        rfl
      | writeSect =>
        rw [executeCmd_writeSectors command]
        unfold ataWriteSectors
        rw [if_pos packet]
        rfl
  | false =>
    have plain : ¬d.conf.packet := by rw [packet]; decide
    by_cases first : d.start < d.conf.sizeSect.toNat
    · have moving := Moving.foldl (h := h) (starts (h := h) command packet first) (Nat.zero_le _) l
      have touched := moving.touched
      rw [Nat.zero_add, touches_upTo] at touched
      have inside := sectors_inside_iff (min (sectorCountOf d) (kind.touches l.length)) first (sizeSect_small d.conf)
      have asks := moving.asks
      rw [Nat.zero_add] at asks
      unfold StaysOnDisk Device.transferred
      rw [touched, List.drop_left, inside, asks]
      constructor
      · intro ⟨fits, _⟩
        rcases Nat.le_total (sectorCountOf d) (kind.touches l.length) with all | part
        · rw [Nat.min_eq_left all] at fits
          exact .inr (.inr (.inl fits))
        · rw [Nat.min_eq_right part] at fits
          exact .inr (.inr (.inr (by omega)))
      · rintro (no | beyond | fits | short)
        · exact absurd no (by decide)
        · omega
        · exact ⟨Nat.le_trans (Nat.add_le_add_left (Nat.min_le_left _ _) _) fits, fun _ leaves => by omega⟩
        · refine ⟨by omega, fun _ leaves over_ => ?_⟩
          have more : min l.length (256 * sectorCountOf d) < 256 * sectorCountOf d := by
            cases kind with
            | readSect => have : EndTransfer.readSect.touches l.length = l.length / 256 + 1 := rfl; omega
            | writeSect => have : EndTransfer.writeSect.touches l.length = l.length / 256 := rfl; omega
          exact absurd (decide_eq_true more) over_
    · refine ⟨fun _ => .inr (.inl (Nat.le_of_not_lt first)), fun _ => nothing (srDrdy ||| srErr) errIdnf
        (transferred_failed l ?_ ?_ (by decide) ?_) fun _ => ⟨by decide, rfl⟩⟩
      all_goals
        have beyond : d.conf.sizeSect ≤ ataCalcLba d := by
          rw [BitVec.le_def]
          exact Nat.le_of_not_lt first
        cases kind with
        | readSect =>
          rw [executeCmd_readSectors command]
          unfold ataReadSectorsCmd
          rw [if_neg plain, if_pos beyond]
        | writeSect =>
          rw [executeCmd_writeSectors command]
          unfold ataWriteSectors
          rw [if_neg plain, if_pos beyond]
          rfl

end

/-- A disk of two sectors, with the registers at the second one of them and a command in the register. -/
def small (count command : Byte) : Device :=
  { conf := { connected := true, size := 1024, packet := false, heads := 1, sectors := 2 }
    stream := { length := 1024, image := fun _ => 0, touched := [] }
    deviceHead := dhrLba, sectorNumber := 1, sectorCount := count, command }

theorem small_stays : StaysOnDisk ⟨false, fun _ _ => 0⟩ (small 1 0x30) (List.replicate 512 (.write 0)) :=
  (@staysOnDisk_iff _ .writeSect _ (by decide) _).mpr (.inr (.inr (.inl (by decide))))

/-- Two sectors are written from the last one on: the second one lands behind the disk. -/
theorem small_leaves : ¬StaysOnDisk ⟨false, fun _ _ => 0⟩ (small 2 0x30) (List.replicate 512 (.write 0)) := by
  intro ⟨inside, _⟩
  have moving := Moving.foldl (h := ⟨false, fun _ _ => 0⟩)
    (@starts ⟨false, fun _ _ => 0⟩ .writeSect (small 2 0x30) (by decide) rfl (by decide)) (by decide)
    (List.replicate 512 (.write 0))
  have touched := moving.touched
  rw [Nat.zero_add, List.length_replicate] at touched
  have last := inside 1024 (by
    unfold Device.transferred
    rw [touched]
    decide)
  exact absurd last (by decide)

end Or1ksim.Ata
