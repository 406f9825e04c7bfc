import Or1ksim.Ata.Address
import Or1ksim.Ata.Devices

/-!
# Transfers

What the data port gives after a command to read sectors, and what becomes of what it is given after one to write them.
-/

namespace Or1ksim.Ata

/-- The registers of a device with a disk name sectors that are all on it. -/
structure Device.Ready (d : Device) (sector n : Nat) : Prop where
  connected : d.conf.connected
  plain : d.conf.packet = false
  selected : d.selected
  mode : d.lbaMode
  first : (ataCalcLba d).toNat = sector
  count : sectorCountOf d = n
  fits : sector + n ≤ d.conf.sizeSect.toNat

/-- The word of the data port for a place in the file. -/
def Host.wordAt (h : Host) (image : Nat → Byte) (sector i : Nat) : Half :=
  h.dataWord (image (sector * 512 + 2 * i)) (image (sector * 512 + 2 * i + 1))

/-! ### Words and bytes -/

theorem high_append (a b : Byte) : (a ++ b : Half).extractLsb' 8 8 = a := by
  apply BitVec.eq_of_getLsbD_eq
  intro i inside
  rw [BitVec.getLsbD_extractLsb', BitVec.getLsbD_append]
  simp [inside]

theorem low_append (a b : Byte) : (a ++ b : Half).extractLsb' 0 8 = b := by
  apply BitVec.eq_of_getLsbD_eq
  intro i inside
  rw [BitVec.getLsbD_extractLsb', BitVec.getLsbD_append]
  simp [inside]

theorem append_halves (x : Half) : (x.extractLsb' 8 8 ++ x.extractLsb' 0 8 : Half) = x := by
  apply BitVec.eq_of_getLsbD_eq
  intro i inside
  rw [BitVec.getLsbD_append, BitVec.getLsbD_extractLsb', BitVec.getLsbD_extractLsb']
  by_cases low : i < 8
  · simp [low]
  · simp [low, show i - 8 < 8 by omega, show 8 + (i - 8) = i by omega]

/-- A word that is stored is the one that is read there. -/
theorem dataWord_stored (h : Host) (value : Half) (dbuf : Nat → Byte) (p : Nat) :
    h.dataWord (h.storeHalf (le16 value) dbuf p (2 * p)) (h.storeHalf (le16 value) dbuf p (2 * p + 1)) = value := by
  have first : ∀ a b : Byte, Function.update (Function.update dbuf (2 * p) a) (2 * p + 1) b (2 * p) = a := fun a b => by
    rw [Function.update_of_ne (by omega), Function.update_self]
  unfold Host.storeHalf Host.dataWord Host.half le16 bswap16
  rw [first, Function.update_self]
  cases h.bigEndian with
  | false =>
    rw [if_neg (by decide), if_neg (by decide), if_neg (by decide), high_append, low_append, high_append, low_append, append_halves]
  | true =>
    rw [if_pos rfl, if_pos rfl, if_pos rfl, high_append, low_append, high_append, low_append, append_halves]

theorem storeHalf_other {h : Host} {x : Half} {dbuf : Nat → Byte} {p k : Nat} (first : k ≠ 2 * p) (second : k ≠ 2 * p + 1) :
    h.storeHalf x dbuf p k = dbuf k := by
  unfold Host.storeHalf
  rw [Function.update_of_ne second, Function.update_of_ne first]

/-! ### A sector of the file -/

section
variable {f : Stream} {dbuf : Nat → Byte} {base k : Nat}

theorem fwrite_length (fits : base + 512 ≤ f.length) : (f.fwrite base dbuf).length = f.length :=
  Nat.max_eq_left fits

theorem fwrite_within (low : k < 512) : (f.fwrite base dbuf).image (base + k) = dbuf k := by
  have place : base ≤ base + k ∧ base + k < base + bytesPerSector := ⟨Nat.le_add_right _ _, Nat.add_lt_add_left low _⟩
  unfold Stream.fwrite
  dsimp only
  rw [if_pos place, Nat.add_sub_cancel_left]

theorem fwrite_apart (inside : k < f.length) (apart : k < base ∨ base + 512 ≤ k) : (f.fwrite base dbuf).image k = f.image k := by
  have away : ¬(base ≤ k ∧ k < base + bytesPerSector) := by
    rintro ⟨from_, to_⟩
    rcases apart with before | behind
    · exact absurd from_ (Nat.not_le.mpr before)
    · exact absurd to_ (Nat.not_lt.mpr behind)
  unfold Stream.fwrite
  dsimp only
  rw [if_neg away, if_pos inside]

theorem sector_le {a b : Nat} (le : a ≤ b) : a * 512 ≤ b * 512 := Nat.mul_le_mul_right _ le

end

/-! ### What does not disturb a transfer -/

/-- All that a transfer uses is the same. -/
structure SameTransfer (d d' : Device) : Prop where
  conf : d'.conf = d.conf
  stream : d'.stream = d.stream
  dbuf : d'.dbuf = d.dbuf
  ptr : d'.dbufPtr = d.dbufPtr
  cnt : d'.dbufCnt = d.dbufCnt
  lba : d'.lba = d.lba
  nrSect : d'.nrSect = d.nrSect
  endTFunc : d'.endTFunc = d.endTFunc
  asks : has d'.status srDrq = has d.status srDrq

/-- A word has been stored. -/
def Device.filled (h : Host) (value : Half) (d : Device) : Device := { d with dbuf := h.storeHalf (le16 value) d.dbuf d.dbufPtr }

/-- The last word of the buffer has gone. -/
def Device.emptied (d : Device) : Device :=
  { d with dbufPtr := d.dbufPtr + 1, dbufCnt := d.dbufCnt - 1, status := d.status &&& ~~~srDrq }

theorem advance_more {d : Device} (more : d.dbufCnt - 1 ≠ 0) :
    advance d = { d with dbufPtr := d.dbufPtr + 1, dbufCnt := d.dbufCnt - 1 } := by
  unfold advance
  exact if_neg more

theorem advance_read {d : Device} (last : d.dbufCnt - 1 = 0) (then_ : d.endTFunc = some .readSect) :
    advance d = ataReadSect d.emptied := by
  unfold advance
  dsimp only
  rw [if_pos last]
  unfold endTransfer Device.emptied
  dsimp only
  rw [then_]

theorem advance_write {d : Device} (last : d.dbufCnt - 1 = 0) (then_ : d.endTFunc = some .writeSect) :
    advance d = ataWriteSect d.emptied := by
  unfold advance
  dsimp only
  rw [if_pos last]
  unfold endTransfer Device.emptied
  dsimp only
  rw [then_]

theorem cnt_lower {x : Half} {r : Nat} (low : r < 256) (cnt : x.toNat = 256 - r) : (x - 1).toNat = 255 - r := by
  rw [BitVec.toNat_sub_of_le (by show 1 ≤ x.toNat; omega), cnt]
  show 256 - r - 1 = _
  omega

theorem cnt_last {x : Half} {r : Nat} (low : r < 256) (cnt : x.toNat = 256 - r) : x - 1 = 0 ↔ r = 255 := by
  have lower := cnt_lower low cnt
  constructor
  · intro zero
    rw [zero, show (0 : Half).toNat = 0 from rfl] at lower
    omega
  · intro full
    apply BitVec.eq_of_toNat_eq
    rw [lower, full]
    rfl

/-- `n` sectors are read from one on, and `j` words have been taken. -/
structure ReadAt (origin : Stream) (sector n j : Nat) (d : Device) : Prop where
  image : d.stream.image = origin.image
  length : d.stream.length = origin.length
  asks : has d.status srDrq = decide (j < 256 * n)
  ptr : j < 256 * n → d.dbufPtr = j % 256
  cnt : j < 256 * n → d.dbufCnt.toNat = 256 - j % 256
  dbuf : j < 256 * n → ∀ k < 512, d.dbuf k = origin.image ((sector + j / 256) * 512 + k)
  lba : j < 256 * n → d.lba.toNat = (sector + j / 256 + 1) * 512
  nrSect : j < 256 * n → d.nrSect = n - j / 256 - 1
  endTFunc : j < 256 * n → d.endTFunc = some .readSect

/-- `n` sectors are written from one on, and these words have been given for them. -/
structure WriteAt (h : Host) (origin : Stream) (sector n : Nat) (words : List Half) (d : Device) : Prop where
  length : d.stream.length = origin.length
  outside : ∀ p < origin.length, p < sector * 512 ∨ (sector + words.length / 256) * 512 ≤ p → d.stream.image p = origin.image p
  inside : ∀ i < words.length / 256 * 256, words[i]? = some (h.wordAt d.stream.image sector i)
  asks : has d.status srDrq = decide (words.length < 256 * n)
  ptr : words.length < 256 * n → d.dbufPtr = words.length % 256
  cnt : words.length < 256 * n → d.dbufCnt.toNat = 256 - words.length % 256
  dbuf : words.length < 256 * n → ∀ i < words.length % 256, words[words.length / 256 * 256 + i]? = some (h.wordAt d.dbuf 0 i)
  lba : words.length < 256 * n → d.lba.toNat = (sector + words.length / 256) * 512
  nrSect : words.length < 256 * n → d.nrSect = n - words.length / 256
  endTFunc : words.length < 256 * n → d.endTFunc = some .writeSect

section
variable {h : Host} {origin : Stream} {sector n j : Nat} {d d' : Device}

theorem ReadAt.same (at_ : ReadAt origin sector n j d) (same : SameTransfer d d') : ReadAt origin sector n j d' where
  image := by rw [same.stream, at_.image]
  length := by rw [same.stream, at_.length]
  asks := by rw [same.asks, at_.asks]
  ptr more := by rw [same.ptr, at_.ptr more]
  cnt more := by rw [same.cnt, at_.cnt more]
  dbuf more := by rw [same.dbuf]; exact at_.dbuf more
  lba more := by rw [same.lba, at_.lba more]
  nrSect more := by rw [same.nrSect, at_.nrSect more]
  endTFunc more := by rw [same.endTFunc, at_.endTFunc more]

/-- A sector is read into the buffer. -/
theorem readSect_at {q : Nat} (more : q < n) (image : d.stream.image = origin.image) (length : d.stream.length = origin.length)
    (covers : (sector + n) * 512 ≤ origin.length) (small : (sector + n) * 512 < 2 ^ 32) (lba : d.lba.toNat = (sector + q) * 512)
    (nrSect : d.nrSect = n - q) (endTFunc : d.endTFunc = some .readSect) : ReadAt origin sector n (256 * q) (ataReadSect d) := by
  have positive : ¬d.nrSect = 0 := by omega
  have whole : 256 * q / 256 = q := by omega
  have start : 256 * q % 256 = 0 := by omega
  have inside : decide (256 * q < 256 * n) = true := decide_eq_true (by omega)
  have next : (sector + q + 1) * 512 ≤ (sector + n) * 512 := Nat.mul_le_mul_right _ (by omega)
  unfold ataReadSect
  rw [if_neg positive]
  refine { image, length, asks := ?_, ptr := fun _ => ?_, cnt := fun _ => ?_, dbuf := fun _ k low => ?_, lba := fun _ => ?_,
           nrSect := fun _ => ?_, endTFunc := fun _ => endTFunc }
  · rw [inside]
    show has (srDrdy ||| srDrq) srDrq = true
    decide
  · exact start.symm
  · rw [start]
    rfl
  · show d.stream.fread d.lba.toNat d.dbuf k = _
    unfold Stream.fread
    rw [if_pos ⟨low, by omega⟩, image, lba, whole]
  · show (d.lba + BitVec.ofNat 32 bytesPerSector).toNat = _
    rw [BitVec.toNat_add, lba, whole, show (BitVec.ofNat 32 bytesPerSector).toNat = 512 from rfl]
    omega
  · show d.nrSect - 1 = _
    rw [nrSect, whole]

/-- A word is taken. -/
theorem ReadAt.next (at_ : ReadAt origin sector n j d) (more : j < 256 * n) (covers : (sector + n) * 512 ≤ origin.length)
    (small : (sector + n) * 512 < 2 ^ 32) : (dataRead h d).1 = h.wordAt origin.image sector j ∧
      ReadAt origin sector n (j + 1) (dataRead h d).2 := by
  have asks : has d.status srDrq := by rw [at_.asks, decide_eq_true more]
  have low : j % 256 < 256 := Nat.mod_lt _ (by decide)
  unfold dataRead
  rw [if_pos asks]
  constructor
  · have first : (sector + j / 256) * 512 + 2 * (j % 256) = sector * 512 + 2 * j := by omega
    show h.dataWord _ _ = h.dataWord _ _
    rw [at_.ptr more, at_.dbuf more _ (by omega), at_.dbuf more _ (by omega), ← Nat.add_assoc, first]
  show ReadAt origin sector n (j + 1) (advance d)
  by_cases full : j % 256 = 255
  · have last := (cnt_last low (at_.cnt more)).mpr full
    rw [advance_read last (at_.endTFunc more)]
    by_cases rest : j / 256 + 1 < n
    · have there := readSect_at (d := d.emptied) rest at_.image at_.length covers small (by rw [← Nat.add_assoc]; exact at_.lba more)
        (by rw [← Nat.sub_sub]; exact at_.nrSect more) (at_.endTFunc more)
      rwa [show 256 * (j / 256 + 1) = j + 1 by omega] at there
    · have none : d.emptied.nrSect = 0 := by
        show d.nrSect = 0
        rw [at_.nrSect more]
        omega
      have over_ : ¬j + 1 < 256 * n := by omega
      unfold ataReadSect
      rw [if_pos none]
      have silent : has d.emptied.status srDrq = false := has_and_apart rfl
      exact { image := at_.image, length := at_.length, asks := by rw [silent, decide_eq_false over_], ptr := fun t => absurd t over_,
              cnt := fun t => absurd t over_, dbuf := fun t => absurd t over_, lba := fun t => absurd t over_,
              nrSect := fun t => absurd t over_, endTFunc := fun t => absurd t over_ }
  · have notLast := mt (cnt_last low (at_.cnt more)).mp full
    have sameSector : (j + 1) / 256 = j / 256 := by omega
    have nextWord : (j + 1) % 256 = j % 256 + 1 := by omega
    rw [advance_more notLast]
    refine { image := at_.image, length := at_.length, asks := ?_, ptr := fun _ => ?_, cnt := fun _ => ?_, dbuf := fun _ => ?_,
             lba := fun _ => ?_, nrSect := fun _ => ?_, endTFunc := fun _ => at_.endTFunc more }
    · show has d.status srDrq = _
      rw [asks, decide_eq_true (by omega)]
    · show d.dbufPtr + 1 = _
      rw [at_.ptr more, nextWord]
    · show (d.dbufCnt - 1).toNat = _
      rw [cnt_lower low (at_.cnt more), nextWord]
      omega
    · rw [sameSector]
      exact at_.dbuf more
    · rw [sameSector]
      exact at_.lba more
    · rw [sameSector]
      exact at_.nrSect more

variable {words : List Half}

theorem WriteAt.same (at_ : WriteAt h origin sector n words d) (same : SameTransfer d d') : WriteAt h origin sector n words d' where
  length := by rw [same.stream, at_.length]
  outside := by rw [same.stream]; exact at_.outside
  inside := by rw [same.stream]; exact at_.inside
  asks := by rw [same.asks, at_.asks]
  ptr more := by rw [same.ptr, at_.ptr more]
  cnt more := by rw [same.cnt, at_.cnt more]
  dbuf more := by rw [same.dbuf]; exact at_.dbuf more
  lba more := by rw [same.lba, at_.lba more]
  nrSect more := by rw [same.nrSect, at_.nrSect more]
  endTFunc more := by rw [same.endTFunc, at_.endTFunc more]

/-- The buffer is full and goes to its sector. -/
theorem writeSect_at (length : d.stream.length = origin.length)
    (outside : ∀ p < origin.length, p < sector * 512 ∨ (sector + words.length / 256) * 512 ≤ p → d.stream.image p = origin.image p)
    (inside : ∀ i < words.length / 256 * 256, words[i]? = some (h.wordAt d.stream.image sector i)) (full : words.length % 256 = 255)
    (value : Half) (dbuf : ∀ i < 256, (words ++ [value])[words.length / 256 * 256 + i]? = some (h.wordAt d.dbuf 0 i))
    (more : words.length < 256 * n) (covers : (sector + n) * 512 ≤ origin.length) (small : (sector + n) * 512 < 2 ^ 32)
    (lba : d.lba.toNat = (sector + words.length / 256) * 512) (nrSect : d.nrSect = n - words.length / 256)
    (endTFunc : d.endTFunc = some .writeSect) : WriteAt h origin sector n (words ++ [value]) (ataWriteSect d) := by
  have positive : ¬d.nrSect = 0 := by omega
  have count : (words ++ [value]).length = words.length + 1 := by rw [List.length_append, List.length_singleton]
  have whole : (words.length + 1) / 256 = words.length / 256 + 1 := by omega
  have start : (words.length + 1) % 256 = 0 := by omega
  have next : (sector + words.length / 256 + 1) * 512 ≤ (sector + n) * 512 := sector_le (by omega)
  replace covers := Nat.le_trans next covers
  replace small := Nat.lt_of_le_of_lt next small
  clear next
  have fits : (sector + words.length / 256) * 512 + 512 ≤ d.stream.length := by rw [← Nat.succ_mul, length]; exact covers
  unfold ataWriteSect
  rw [if_neg positive]
  constructor
  case length =>
    show (d.stream.fwrite d.lba.toNat d.dbuf).length = _
    rw [lba, fwrite_length fits, length]
  case outside =>
    intro p below apart
    rw [count, whole] at apart
    show (d.stream.fwrite d.lba.toNat d.dbuf).image p = _
    rw [lba]
    rcases apart with before | behind
    · rw [fwrite_apart (length ▸ below) (.inl (Nat.lt_of_lt_of_le before (sector_le (Nat.le_add_right _ _))))]
      exact outside p below (.inl before)
    · rw [fwrite_apart (length ▸ below) (.inr (by rw [← Nat.succ_mul]; exact behind))]
      exact outside p below (.inr (Nat.le_trans (sector_le (by omega)) behind))
  case inside =>
    intro i low
    rw [count, whole] at low
    show _ = some (h.wordAt (d.stream.fwrite d.lba.toNat d.dbuf).image sector i)
    rw [lba]
    by_cases old : i < words.length / 256 * 256
    · have kept := inside i old
      have before : sector * 512 + 2 * i + 1 < (sector + words.length / 256) * 512 := by
        rw [Nat.add_mul, Nat.add_assoc]
        exact Nat.add_lt_add_left (by omega) _
      have before' := Nat.lt_of_succ_lt before
      have below : sector * 512 + 2 * i + 1 < d.stream.length := by
        exact Nat.lt_of_lt_of_le before (Nat.le_trans (Nat.le_add_right _ _) fits)
      unfold Host.wordAt at kept ⊢
      rw [List.getElem?_append_left (by omega), kept, fwrite_apart (Nat.lt_of_succ_lt below) (.inl before'),
        fwrite_apart below (.inl before)]
    · obtain ⟨r, rfl⟩ := Nat.exists_eq_add_of_le (Nat.le_of_not_lt old)
      have place : sector * 512 + 2 * (words.length / 256 * 256 + r) = (sector + words.length / 256) * 512 + 2 * r := by ring
      have new := dbuf r (by omega)
      unfold Host.wordAt at new ⊢
      rw [Nat.zero_mul, Nat.zero_add] at new
      rw [new, place, fwrite_within (by omega), Nat.add_assoc _ (2 * r) 1, fwrite_within (by omega)]
  case asks =>
    show has (if d.nrSect - 1 = 0 then srDrdy ||| srDsc ||| srBsy else srDrdy ||| srDrq ||| srDsc ||| srBsy) srDrq = _
    rw [count]
    by_cases last : d.nrSect - 1 = 0
    · rw [if_pos last, decide_eq_false (by omega)]
      decide
    · rw [if_neg last, decide_eq_true (by omega)]
      decide
  case ptr =>
    intro _
    rw [count]
    exact start.symm
  case cnt =>
    intro _
    rw [count, start]
    rfl
  case dbuf =>
    intro _ i low
    rw [count, start] at low
    exact absurd low (Nat.not_lt_zero _)
  case lba =>
    intro _
    show (d.lba + BitVec.ofNat 32 bytesPerSector).toNat = _
    rw [BitVec.toNat_add, lba, count, whole, show (BitVec.ofNat 32 bytesPerSector).toNat = 512 from rfl, ← Nat.succ_mul]
    exact Nat.mod_eq_of_lt small
  case nrSect =>
    intro _
    show d.nrSect - 1 = _
    rw [nrSect, count, whole]
    omega
  case endTFunc => exact fun _ => endTFunc

/-- A word is given. -/
theorem WriteAt.next (at_ : WriteAt h origin sector n words d) (more : words.length < 256 * n)
    (covers : (sector + n) * 512 ≤ origin.length)
    (small : (sector + n) * 512 < 2 ^ 32) (value : Half) : WriteAt h origin sector n (words ++ [value]) (dataWrite h value d) := by
  have asks : has d.status srDrq := by rw [at_.asks, decide_eq_true more]
  have low : words.length % 256 < 256 := Nat.mod_lt _ (by decide)
  have stored : ∀ i ≤ words.length % 256, (words ++ [value])[words.length / 256 * 256 + i]? =
      some (h.wordAt (h.storeHalf (le16 value) d.dbuf d.dbufPtr) 0 i) := by
    intro i upTo
    rw [at_.ptr more]
    unfold Host.wordAt
    rw [Nat.zero_mul, Nat.zero_add]
    by_cases old : i < words.length % 256
    · have kept := at_.dbuf more i old
      have inside : words.length / 256 * 256 + i < words.length := by
        have whole := Nat.div_add_mod' words.length 256
        clear covers small
        omega
      unfold Host.wordAt at kept
      rw [Nat.zero_mul, Nat.zero_add] at kept
      rw [List.getElem?_append_left inside, kept, storeHalf_other (by omega) (by omega), storeHalf_other (by omega) (by omega)]
    · have last : i = words.length % 256 := by omega
      rw [last, dataWord_stored, Nat.div_add_mod', List.getElem?_concat_length]
  unfold dataWrite
  rw [if_pos asks]
  have same : SameTransfer (advance (d.filled h value)) { advance (d.filled h value) with dataportI := value } :=
    ⟨rfl, rfl, rfl, rfl, rfl, rfl, rfl, rfl, rfl⟩
  refine WriteAt.same ?_ same
  by_cases full : words.length % 256 = 255
  · have last := (cnt_last low (at_.cnt more)).mpr full
    rw [advance_write (d := d.filled h value) last (at_.endTFunc more)]
    exact writeSect_at (d := (d.filled h value).emptied) at_.length at_.outside at_.inside full value
      (fun i small => stored i (by omega)) more covers small (at_.lba more)
      (at_.nrSect more) (at_.endTFunc more)
  · have notLast := mt (cnt_last low (at_.cnt more)).mp full
    have count : (words ++ [value]).length = words.length + 1 := by rw [List.length_append, List.length_singleton]
    have sameSector : (words.length + 1) / 256 = words.length / 256 := by omega
    have nextWord : (words.length + 1) % 256 = words.length % 256 + 1 := by omega
    rw [advance_more (d := d.filled h value) notLast]
    constructor
    case length => exact at_.length
    case outside => rw [count, sameSector]; exact at_.outside
    case inside =>
      rw [count, sameSector]
      intro i low
      rw [List.getElem?_append_left (by omega)]
      exact at_.inside i low
    case asks =>
      show has d.status srDrq = _
      rw [asks, count, decide_eq_true (by omega)]
    case ptr =>
      intro _
      show d.dbufPtr + 1 = _
      rw [at_.ptr more, count, nextWord]
    case cnt =>
      intro _
      show (d.dbufCnt - 1).toNat = _
      rw [cnt_lower low (at_.cnt more), count, nextWord]
      omega
    case dbuf =>
      intro _ i low
      rw [count, nextWord] at low
      rw [count, sameSector]
      exact stored i (by omega)
    case lba => intro _; rw [count, sameSector]; exact at_.lba more
    case nrSect => intro _; rw [count, sameSector]; exact at_.nrSect more
    case endTFunc => exact fun _ => at_.endTFunc more

/-! ### Commands -/

/-- All the sectors of a disk are in its file. -/
theorem sizeSect_covered (sound : d.Sound) (connected : d.conf.connected) : d.conf.sizeSect.toNat * 512 ≤ d.stream.length ∧
    d.conf.sizeSect.toNat * 512 < 2 ^ 32 := by
  have covered := sound.covered connected
  have size : d.conf.sizeSect.toNat = d.conf.size.toNat / 512 := by
    unfold Conf.sizeSect
    rw [BitVec.toNat_udiv]
    rfl
  have below := Nat.div_mul_le_self d.conf.size.toNat 512
  rw [size]
  exact ⟨Nat.le_trans below covered, Nat.lt_of_le_of_lt below d.conf.size.isLt⟩

theorem sectorCount_positive (d : Device) : 1 ≤ sectorCountOf d := by
  unfold sectorCountOf
  split_ifs with zero
  · decide
  · exact Nat.one_le_iff_ne_zero.mpr fun none => zero (BitVec.eq_of_toNat_eq none)

theorem executeCmd_readSectors (command : Command.of d.command = .readSectors) : ataDeviceExecuteCmd h d = ataReadSectorsCmd d := by
  unfold ataDeviceExecuteCmd
  rw [command]

theorem executeCmd_writeSectors (command : Command.of d.command = .writeSectors) :
    ataDeviceExecuteCmd h d = schedAdd 40000 (ataWriteSectors d) := by
  unfold ataDeviceExecuteCmd
  rw [command]

section
variable {value : Half} (ready : d.Ready sector n)
include ready

theorem Device.Ready.onDisk : ¬d.conf.sizeSect ≤ ataCalcLba d ∧ 1 ≤ n := by
  have positive : 1 ≤ n := by
    rw [← ready.count]
    exact sectorCount_positive d
  refine ⟨fun beyond => ?_, positive⟩
  have fits := ready.fits
  rw [BitVec.le_def, ready.first] at beyond
  omega

theorem Device.Ready.bounds (sound : d.Sound) : (sector + n) * 512 ≤ d.stream.length ∧ (sector + n) * 512 < 2 ^ 32 := by
  obtain ⟨covered, small⟩ := sizeSect_covered sound ready.connected
  have upTo := sector_le ready.fits
  exact ⟨Nat.le_trans upTo covered, Nat.lt_of_le_of_lt upTo small⟩

theorem Device.Ready.offset (sound : d.Sound) : (ataCalcLba d * BitVec.ofNat 32 bytesPerSector).toNat = sector * 512 := by
  have small := Nat.lt_of_le_of_lt (sector_le (Nat.le_add_right sector n)) (ready.bounds sound).2
  rw [BitVec.toNat_mul, ready.first, show (BitVec.ofNat 32 bytesPerSector).toNat = 512 from rfl, Nat.mod_eq_of_lt small]

theorem Device.Ready.executes : ataDeviceWrite h .statusCommand value d =
    ataDeviceExecuteCmd h { d with command := value.setWidth 8 } := by
  have selected : ({ d with command := value.setWidth 8 } : Device).selected = true := ready.selected
  unfold ataDeviceWrite ataDeviceDoCommandRegister
  dsimp only
  rw [selected, Bool.true_or]
  exact if_pos rfl

theorem Device.Ready.commanded : Device.Ready { d with command := value.setWidth 8 } sector n :=
  ⟨ready.connected, ready.plain, ready.selected, ready.mode, ready.first, ready.count, ready.fits⟩

theorem Device.Ready.readSectorsCmd (sound : d.Sound) : ReadAt d.stream sector n 0 (ataReadSectorsCmd d) := by
  obtain ⟨onDisk, positive⟩ := ready.onDisk
  obtain ⟨covers, small⟩ := ready.bounds sound
  unfold ataReadSectorsCmd
  rw [if_neg (by rw [ready.plain]; decide), if_neg onDisk]
  exact readSect_at (q := 0) positive rfl rfl covers small (ready.offset sound) ready.count rfl

theorem Device.Ready.writeSectorsCmd (sound : d.Sound) : WriteAt h d.stream sector n [] (schedAdd 40000 (ataWriteSectors d)) := by
  obtain ⟨onDisk, positive⟩ := ready.onDisk
  have more : ([] : List Half).length < 256 * n := by show 0 < 256 * n; omega
  unfold ataWriteSectors
  rw [if_neg (by rw [ready.plain]; decide), if_neg onDisk]
  constructor
  case length => rfl
  case outside => exact fun _ _ _ => rfl
  case inside => exact fun i low => absurd low (Nat.not_lt_zero i)
  case asks =>
    rw [decide_eq_true more]
    show has (srBsy ||| srDrdy ||| srDrq) srDrq = true
    decide
  case ptr => exact fun _ => rfl
  case cnt => exact fun _ => rfl
  case dbuf => exact fun _ i low => absurd low (Nat.not_lt_zero i)
  case lba => exact fun _ => ready.offset sound
  case nrSect => exact fun _ => ready.count
  case endTFunc => exact fun _ => rfl

theorem Device.Ready.reads (sound : d.Sound) (command : Command.of (value.setWidth 8) = .readSectors) :
    ReadAt d.stream sector n 0 (ataDeviceWrite h .statusCommand value d) := by
  rw [ready.executes, executeCmd_readSectors command]
  exact ready.commanded.readSectorsCmd ⟨sound.buffered, sound.covered⟩

theorem Device.Ready.writes (sound : d.Sound) (command : Command.of (value.setWidth 8) = .writeSectors) :
    WriteAt h d.stream sector n [] (ataDeviceWrite h .statusCommand value d) := by
  rw [ready.executes, executeCmd_writeSectors command]
  exact ready.commanded.writeSectorsCmd ⟨sound.buffered, sound.covered⟩

end

end

end Or1ksim.Ata
