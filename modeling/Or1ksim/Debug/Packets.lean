import Or1ksim.Lib.Escape

/-!
# Packets

The framing of the remote serial protocol in `debug/rsp-server.c`: a packet is `$data#xy`, and `xy` is
the sum of the data. The characters from the client are a list, at whose end the connection fails.
-/

namespace Or1ksim.Debug

abbrev Byte := BitVec 8

/-- A character of C. -/
def char (c : Char) : Byte := BitVec.ofNat 8 c.toNat

/-- `NUM_REGS`. -/
def numRegs : Nat := 32 + 3

def gdbBufMax : Nat := numRegs * 8 + 1

/-- The values of `hexchars`. -/
def hexchar (digit : BitVec 4) : Byte :=
  if digit.toNat < 10 then char '0' + digit.setWidth 8 else char 'a' + (digit.setWidth 8 - 10)

def hex (c : Byte) : Int :=
  if char 'a' ≤ c ∧ c ≤ char 'f' then c.toNat - (char 'a').toNat + 10
  else if char '0' ≤ c ∧ c ≤ char '9' then c.toNat - (char '0').toNat
  else if char 'A' ≤ c ∧ c ≤ char 'F' then c.toNat - (char 'A').toNat + 10
  else -1

/-! ### Packets to the client -/

def e01 : List Byte := [char 'E', char '0', char '1']

def okReply : List Byte := [char 'O', char 'K']

def isEscaped (ch : Byte) : Bool := ch = char '$' ∨ ch = char '#' ∨ ch = char '*' ∨ ch = char '}'

/-- The body of a packet and its checksum. -/
def putBody : List Byte → Byte → List Byte × Byte
  | [], checksum => ([], checksum)
  | ch :: data, checksum =>
    if isEscaped ch then
      let ch := ch ^^^ 0x20
      let rest := putBody data (checksum + char '}' + ch)
      (char '}' :: ch :: rest.1, rest.2)
    else
      let rest := putBody data (checksum + ch)
      (ch :: rest.1, rest.2)

def putFrame (data : List Byte) : List Byte :=
  let body := putBody data 0
  char '$' :: body.1 ++ [char '#', hexchar (body.2.extractLsb' 4 4), hexchar (body.2.extractLsb' 0 4)]

/-- What is put out, until the client acknowledges it, and the characters that it sent behind that. -/
def putPacket (data : List Byte) : List Byte → List Byte × List Byte
  | [] => (putFrame data, [])
  | ch :: incoming =>
    if ch = char '+' then (putFrame data, incoming)
    else
      let again := putPacket data incoming
      (putFrame data ++ again.1, again.2)

/-! ### Packets from the client -/

/-- The characters behind the next start of a packet. -/
def awaitStart : List Byte → Option (List Byte)
  | [] => none
  | ch :: s => if ch = char '$' then some s else awaitStart s

/-- How the loop that reads a packet ends: the connection fails, the buffer is full, or at a `#`. -/
inductive BodyEnd where
  | closed
  | full (s : List Byte)
  | ended (data : List Byte) (checksum : Byte) (s : List Byte)
  deriving DecidableEq, Repr

def readBody : List Byte → List Byte → Byte → BodyEnd
  | [], data, _ => if data.length < gdbBufMax - 1 then .closed else .full []
  | ch :: s, data, checksum =>
    if data.length < gdbBufMax - 1 then
      if ch = char '$' then readBody s [] 0
      else if ch = char '#' then .ended data checksum s
      else readBody s (data ++ [ch]) (checksum + ch)
    else .full (ch :: s)

/-- What is made of the two digits, whatever they are. -/
def xmitcsum (x y : Byte) : Byte := BitVec.ofInt 8 (hex x * 16) + BitVec.ofInt 8 (hex y)

/-- The packet, the acknowledgements put out and the characters left. -/
structure Received where
  packet : Option (List Byte)
  acks : List Byte
  rest : List Byte
  deriving DecidableEq, Repr

theorem awaitStart_length {s s' : List Byte} (found : awaitStart s = some s') : s'.length < s.length := by
  induction s with
  | nil => cases found
  | cons ch s ih =>
    unfold awaitStart at found
    split at found
    · cases found
      exact Nat.lt_succ_self _
    · exact Nat.lt_succ_of_lt (ih found)

theorem readBody_full_length {s data s' : List Byte} {checksum : Byte} (is : readBody s data checksum = .full s') :
    s'.length ≤ s.length := by
  induction s generalizing data checksum with
  | nil =>
    unfold readBody at is
    split at is
    · cases is
    · cases is
      exact Nat.le_refl _
  | cons ch s ih =>
    unfold readBody at is
    split at is
    · split at is
      · exact Nat.le_succ_of_le (ih is)
      · split at is
        · cases is
        · exact Nat.le_succ_of_le (ih is)
    · cases is
      exact Nat.le_refl _

theorem readBody_ended_length {s data data' s' : List Byte} {checksum checksum' : Byte}
    (is : readBody s data checksum = .ended data' checksum' s') : s'.length ≤ s.length := by
  induction s generalizing data checksum with
  | nil =>
    unfold readBody at is
    split at is <;> cases is
  | cons ch s ih =>
    unfold readBody at is
    split at is
    · split at is
      · exact Nat.le_succ_of_le (ih is)
      · split at is
        · cases is
          exact Nat.le_succ _
        · exact Nat.le_succ_of_le (ih is)
    · cases is

def getPacket (s : List Byte) : Received :=
  match _ : awaitStart s with
  | none => ⟨none, [], []⟩
  | some s₁ =>
    match _ : readBody s₁ [] 0 with
    | .closed => ⟨none, [], []⟩
    | .full s₂ => getPacket s₂
    | .ended data checksum (x :: y :: s₂) =>
      if checksum ≠ xmitcsum x y then
        let next := getPacket s₂
        { next with acks := char '-' :: next.acks }
      else ⟨some data, [char '+'], s₂⟩
    | .ended _ _ _ => ⟨none, [], []⟩
  termination_by s.length
  decreasing_by
    · exact Nat.lt_of_le_of_lt (readBody_full_length ‹_›) (awaitStart_length ‹_›)
    · have shorter := readBody_ended_length ‹_›
      have := awaitStart_length ‹_›
      simp only [List.length_cons] at shorter
      omega

/-- `rsp_unescape`. Behind the data of a packet stands the end of a string. -/
def rspUnescape (data : List Byte) : List Byte := Escape.unescape (char '}') (· ^^^ 0x20) 0 data

/-! ### Digits and sums -/

def checksum (data : List Byte) : Byte := data.foldl (· + ·) 0

theorem foldl_add (data : List Byte) (c : Byte) : data.foldl (· + ·) c = c + checksum data := by
  unfold checksum
  induction data generalizing c with
  | nil => exact (BitVec.add_zero c).symm
  | cons ch data ih => rw [List.foldl_cons, List.foldl_cons, ih, ih (0 + ch), zero_add, BitVec.add_assoc]

theorem checksum_cons (ch : Byte) (data : List Byte) : checksum (ch :: data) = ch + checksum data := by
  unfold checksum
  rw [List.foldl_cons, foldl_add, zero_add]
  rfl

theorem checksum_toNat (data : List Byte) : (checksum data).toNat = (data.map BitVec.toNat).sum % 256 := by
  induction data with
  | nil => rfl
  | cons ch data ih =>
    rw [checksum_cons, BitVec.toNat_add, ih, List.map_cons, List.sum_cons]
    omega

theorem hex_bounds : ∀ c : Byte, -1 ≤ hex c ∧ hex c ≤ 15 := by decide +kernel

theorem hex_hexchar : ∀ digit : BitVec 4, hex (hexchar digit) = digit.toNat := by decide +kernel

theorem xmitcsum_digits {x y : Byte} (digitX : 0 ≤ hex x) (digitY : 0 ≤ hex y) : ((xmitcsum x y).toNat : Int) = 16 * hex x + hex y := by
  have := hex_bounds x
  have := hex_bounds y
  unfold xmitcsum
  rw [BitVec.toNat_add, BitVec.toNat_ofInt, BitVec.toNat_ofInt]
  omega

theorem xmitcsum_hexchars (c : Byte) : xmitcsum (hexchar (c.extractLsb' 4 4)) (hexchar (c.extractLsb' 0 4)) = c := by
  have value := xmitcsum_digits (x := hexchar (c.extractLsb' 4 4)) (y := hexchar (c.extractLsb' 0 4))
    (by rw [hex_hexchar]; exact Int.natCast_nonneg _) (by rw [hex_hexchar]; exact Int.natCast_nonneg _)
  apply BitVec.eq_of_toNat_eq
  rw [hex_hexchar, hex_hexchar, BitVec.extractLsb'_toNat, BitVec.extractLsb'_toNat] at value
  have := c.isLt
  omega

/-! ### What is accepted -/

theorem awaitStart_junk {junk : List Byte} (noStart : char '$' ∉ junk) (s : List Byte) :
    awaitStart (junk ++ char '$' :: s) = some s := by
  induction junk with
  | nil => exact if_pos rfl
  | cons ch junk ih =>
    rw [List.mem_cons, not_or] at noStart
    exact (if_neg (Ne.symm noStart.1)).trans (ih noStart.2)

/-- The data of a packet. -/
structure PacketData (data : List Byte) : Prop where
  noStart : char '$' ∉ data
  noEnd : char '#' ∉ data

theorem readBody_data {data before : List Byte} (text : PacketData data) (c : Byte) (s : List Byte)
    (fits : before.length + data.length < gdbBufMax - 1) :
    readBody (data ++ char '#' :: s) before c = .ended (before ++ data) (c + checksum data) s := by
  induction data generalizing before c with
  | nil =>
    rw [List.nil_append, List.append_nil]
    unfold readBody
    rw [List.length_nil, Nat.add_zero] at fits
    rw [if_pos fits, if_neg (by decide), if_pos rfl]
    exact congrArg (fun c => BodyEnd.ended before c s) (BitVec.add_zero c).symm
  | cons ch data ih =>
    have noStart := List.ne_and_not_mem_of_not_mem_cons text.noStart
    have noEnd := List.ne_and_not_mem_of_not_mem_cons text.noEnd
    rw [List.length_cons] at fits
    rw [List.cons_append]
    unfold readBody
    rw [if_pos (by omega), if_neg (Ne.symm noStart.1), if_neg (Ne.symm noEnd.1),
      ih ⟨noStart.2, noEnd.2⟩ _ (by rw [List.length_append, List.length_singleton]; omega), List.append_assoc, List.singleton_append,
      checksum_cons, BitVec.add_assoc]

/-! ### Frames -/

/-- The characters of a packet with any check. -/
def frame (data : List Byte) (x y : Byte) : List Byte := char '$' :: data ++ [char '#', x, y]

theorem getPacket_closed {s : List Byte} (closed : awaitStart s = none) : getPacket s = ⟨none, [], []⟩ := by
  rw [getPacket]
  split
  · rfl
  · next found => cases closed.symm.trans found

theorem getPacket_started {s s₁ : List Byte} (start : awaitStart s = some s₁) :
    getPacket s = match readBody s₁ [] 0 with
      | .closed => ⟨none, [], []⟩
      | .full s₂ => getPacket s₂
      | .ended data checksum (x :: y :: s₂) =>
        if checksum ≠ xmitcsum x y then { getPacket s₂ with acks := char '-' :: (getPacket s₂).acks }
        else ⟨some data, [char '+'], s₂⟩
      | .ended _ _ _ => ⟨none, [], []⟩ := by
  rw [getPacket]
  split
  · next closed => cases closed.symm.trans start
  · next found =>
    cases found.symm.trans start
    split
    · next body => rw [body]
    · next body => rw [body]
    · next body => rw [body]
    · next s₂ short body =>
      rw [body]
      match s₂ with
      | [] => rfl
      | [_] => rfl
      | x :: y :: s₂ => exact (short x y s₂ rfl).elim

theorem getPacket_frame {junk data : List Byte} (noStart : char '$' ∉ junk) (text : PacketData data)
    (fits : data.length < gdbBufMax - 1) (x y : Byte) (rest : List Byte) :
    getPacket (junk ++ (frame data x y ++ rest)) =
      if checksum data ≠ xmitcsum x y then { getPacket rest with acks := char '-' :: (getPacket rest).acks }
      else ⟨some data, [char '+'], rest⟩ := by
  have whole : frame data x y ++ rest = char '$' :: (data ++ char '#' :: x :: y :: rest) := by
    unfold frame
    rw [List.cons_append, List.cons_append, List.append_assoc]
    rfl
  have body : readBody (data ++ char '#' :: x :: y :: rest) [] 0 = .ended ([] ++ data) (0 + checksum data) (x :: y :: rest) :=
    readBody_data text 0 _ (by rw [List.length_nil, Nat.zero_add]; exact fits)
  rw [List.nil_append, zero_add] at body
  rw [whole, getPacket_started (awaitStart_junk noStart _), body]

/-- What stands before the body that the loop ends with. -/
theorem readBody_ended {s before data s' : List Byte} {c c' : Byte} (small : before.length ≤ gdbBufMax - 1)
    (is : readBody s before c = .ended data c' s') :
    data.length < gdbBufMax - 1 ∧
      ((∃ read, s = read ++ char '#' :: s' ∧ data = before ++ read ∧ c' = c + checksum read) ∨
        ∃ skipped, s = skipped ++ char '$' :: (data ++ char '#' :: s') ∧ c' = checksum data) := by
  induction s generalizing before c with
  | nil =>
    unfold readBody at is
    split at is <;> cases is
  | cons ch s ih =>
    unfold readBody at is
    split at is
    · next room =>
      split at is
      · next again =>
        obtain ⟨fits, ⟨read, rfl, rfl, sum⟩ | ⟨skipped, rfl, sum⟩⟩ := ih (Nat.zero_le _) is
        · exact ⟨fits, .inr ⟨[], by rw [again]; rfl, by rw [sum, zero_add]⟩⟩
        · exact ⟨fits, .inr ⟨ch :: skipped, rfl, sum⟩⟩
      · split at is
        · next ends =>
          cases is
          exact ⟨room, .inl ⟨[], by rw [ends]; rfl, (List.append_nil _).symm, (BitVec.add_zero _).symm⟩⟩
        · obtain ⟨fits, ⟨read, rfl, rfl, sum⟩ | ⟨skipped, rfl, sum⟩⟩ :=
            ih (by rw [List.length_append, List.length_singleton]; omega) is
          · refine ⟨fits, .inl ⟨ch :: read, rfl, List.append_assoc _ _ _, ?_⟩⟩
            rw [sum, checksum_cons, BitVec.add_assoc]
          · exact ⟨fits, .inr ⟨ch :: skipped, rfl, sum⟩⟩
    · cases is

theorem awaitStart_some {s s' : List Byte} (found : awaitStart s = some s') : ∃ junk, s = junk ++ char '$' :: s' := by
  induction s with
  | nil => cases found
  | cons ch s ih =>
    unfold awaitStart at found
    split at found
    · next start =>
      cases found
      exact ⟨[], by rw [start]; rfl⟩
    · obtain ⟨junk, rfl⟩ := ih found
      exact ⟨ch :: junk, rfl⟩

theorem readBody_full {s before s' : List Byte} {c : Byte} (is : readBody s before c = .full s') : ∃ read, s = read ++ s' := by
  induction s generalizing before c with
  | nil =>
    unfold readBody at is
    split at is
    · cases is
    · cases is
      exact ⟨[], rfl⟩
  | cons ch s ih =>
    unfold readBody at is
    split at is
    · split at is
      · obtain ⟨read, rfl⟩ := ih is
        exact ⟨ch :: read, rfl⟩
      · split at is
        · cases is
        · obtain ⟨read, rfl⟩ := ih is
          exact ⟨ch :: read, rfl⟩
    · cases is
      exact ⟨[], rfl⟩

/-- A packet that is accepted came as a frame, whose check is what is made of its two characters. -/
theorem getPacket_accepted {s data acks rest : List Byte} (accepted : getPacket s = ⟨some data, acks, rest⟩) :
    ∃ before x y, s = before ++ (frame data x y ++ rest) ∧ data.length < gdbBufMax - 1 ∧ checksum data = xmitcsum x y := by
  induction length : s.length using Nat.strong_induction_on generalizing s acks with
  | h n ih =>
    subst length
    cases start : awaitStart s with
    | none => cases (getPacket_closed start).symm.trans accepted
    | some s₁ =>
      rw [getPacket_started start] at accepted
      obtain ⟨junk, rfl⟩ := awaitStart_some start
      cases body : readBody s₁ [] 0 with
      | closed => cases (body ▸ accepted :)
      | full s₂ =>
        rw [body] at accepted
        obtain ⟨read, rfl⟩ := readBody_full body
        obtain ⟨before, x, y, rfl, found⟩ := ih s₂.length (by simp only [List.length_append, List.length_cons]; omega) accepted rfl
        exact ⟨junk ++ char '$' :: (read ++ before), x, y, by simp only [List.append_assoc, List.cons_append], found⟩
      | ended data' c s₂ =>
        rw [body] at accepted
        obtain ⟨fits, shape⟩ := readBody_ended (Nat.zero_le _) body
        match s₂ with
        | [] => cases accepted
        | [_] => cases accepted
        | x :: y :: s₃ =>
          dsimp only at accepted
          split at accepted
          · have inner : getPacket s₃ = ⟨some data, (getPacket s₃).acks, rest⟩ := by
              rw [Received.mk.injEq] at accepted
              rw [← accepted.1, ← accepted.2.2]
            obtain ⟨read, whole⟩ : ∃ read, s₁ = read ++ s₃ := by
              obtain ⟨read, rfl, -⟩ | ⟨skipped, rfl, -⟩ := shape
              · exact ⟨read ++ [char '#', x, y], by simp only [List.append_assoc, List.cons_append, List.nil_append]⟩
              · exact ⟨skipped ++ char '$' :: (data' ++ [char '#', x, y]),
                  by simp only [List.append_assoc, List.cons_append, List.nil_append]⟩
            subst whole
            obtain ⟨before, x, y, rfl, found⟩ := ih s₃.length (by simp only [List.length_append, List.length_cons]; omega) inner rfl
            exact ⟨junk ++ char '$' :: (read ++ before), x, y, by simp only [List.append_assoc, List.cons_append], found⟩
          · next matched =>
            rw [not_not] at matched
            cases accepted
            obtain ⟨read, rfl, rfl, sum⟩ | ⟨skipped, rfl, sum⟩ := shape
            · refine ⟨junk, x, y, ?_, fits, ?_⟩
              · unfold frame
                simp only [List.nil_append, List.cons_append, List.append_assoc]
              · rw [← matched, sum, zero_add]
            · refine ⟨junk ++ char '$' :: skipped, x, y, ?_, fits, ?_⟩
              · unfold frame
                simp only [List.nil_append, List.cons_append, List.append_assoc]
              · rw [← matched, sum]

/-! ### What is sent -/

/-- The data of a packet that is sent. -/
def escaped (bytes : List Byte) : List Byte := Escape.escape isEscaped (char '}') (· ^^^ 0x20) bytes

theorem putBody_eq (bytes : List Byte) (c : Byte) : putBody bytes c = (escaped bytes, c + checksum (escaped bytes)) := by
  induction bytes generalizing c with
  | nil => exact congrArg (Prod.mk _) (BitVec.add_zero c).symm
  | cons ch bytes ih =>
    unfold putBody escaped Escape.escape
    split
    · dsimp only
      rw [ih, checksum_cons, checksum_cons, BitVec.add_assoc, BitVec.add_assoc]
      rfl
    · dsimp only
      rw [ih, checksum_cons, BitVec.add_assoc]
      rfl

theorem escaped_text (bytes : List Byte) : PacketData (escaped bytes) := by
  have plain : ∀ a ∈ escaped bytes, a ≠ char '$' ∧ a ≠ char '#' := by
    intro a inside
    obtain rfl | plain | ⟨b, special, rfl⟩ := Escape.mem_escape inside
    · decide
    · constructor <;> rintro rfl <;> revert plain <;> decide
    · clear inside
      revert b
      decide +kernel
  exact ⟨fun start => (plain _ start).1 rfl, fun stop => (plain _ stop).2 rfl⟩

theorem rspUnescape_escaped (bytes : List Byte) : rspUnescape (escaped bytes) = bytes := by
  apply Escape.unescape_escape (by decide)
  intro a
  rw [BitVec.xor_assoc, BitVec.xor_self, BitVec.xor_zero]

theorem putFrame_eq (bytes : List Byte) :
    putFrame bytes = frame (escaped bytes) (hexchar ((checksum (escaped bytes)).extractLsb' 4 4))
      (hexchar ((checksum (escaped bytes)).extractLsb' 0 4)) := by
  unfold putFrame frame
  rw [putBody_eq, zero_add]

/-- However often it is repeated, a packet begins with its frame. -/
theorem putPacket_frame (bytes incoming : List Byte) : ∃ more, (putPacket bytes incoming).1 = putFrame bytes ++ more := by
  cases incoming with
  | nil => exact ⟨[], (List.append_nil _).symm⟩
  | cons ch incoming =>
    unfold putPacket
    split
    · exact ⟨[], (List.append_nil _).symm⟩
    · exact ⟨_, rfl⟩

theorem getPacket_putPacket {bytes junk : List Byte} (fits : (putBody bytes 0).1.length < gdbBufMax - 1) (noStart : char '$' ∉ junk)
    (incoming rest : List Byte) :
    ∃ data left, getPacket (junk ++ ((putPacket bytes incoming).1 ++ rest)) = ⟨some data, [char '+'], left⟩ ∧
      rspUnescape data = bytes := by
  obtain ⟨more, whole⟩ := putPacket_frame bytes incoming
  rw [putBody_eq] at fits
  refine ⟨escaped bytes, more ++ rest, ?_, rspUnescape_escaped bytes⟩
  rw [whole, List.append_assoc, putFrame_eq, getPacket_frame noStart (escaped_text bytes) fits, xmitcsum_hexchars]
  exact if_neg (not_not.mpr rfl)

/-! ### The check -/

/-- The check of a frame is two digits, and their value is the sum of the data. -/
structure Checked (data : List Byte) (x y : Byte) : Prop where
  first : 0 ≤ hex x
  second : 0 ≤ hex y
  sum : 16 * hex x + hex y = ((data.map BitVec.toNat).sum % 256 : Nat)

/-- No packet is lost or changed on its way, and what is accepted was sent as a frame. The check is made on
the value of any two characters, so a frame without digits is accepted when -1 in their place makes up its sum. -/
theorem packets_framed (junk rest : List Byte) (noStart : char '$' ∉ junk) :
    (∀ bytes incoming : List Byte, (putBody bytes 0).1.length < gdbBufMax - 1 →
      ∃ data left, getPacket (junk ++ ((putPacket bytes incoming).1 ++ rest)) = ⟨some data, [char '+'], left⟩ ∧
        rspUnescape data = bytes) ∧
    (∀ s data acks left : List Byte, getPacket s = ⟨some data, acks, left⟩ →
      ∃ before x y, s = before ++ (frame data x y ++ left) ∧ data.length < gdbBufMax - 1 ∧ checksum data = xmitcsum x y) ∧
    ∀ (data : List Byte) (x y : Byte), PacketData data →
      ((getPacket (junk ++ (frame data x y ++ rest)) = ⟨some data, [char '+'], rest⟩ → Checked data x y) ↔
        0 ≤ hex x ∧ 0 ≤ hex y ∨ gdbBufMax - 1 ≤ data.length ∨ checksum data ≠ xmitcsum x y) := by
  refine ⟨fun bytes incoming fits => getPacket_putPacket fits noStart incoming rest,
    fun s data acks left accepted => getPacket_accepted accepted, ?_⟩
  intro data x y text
  constructor
  · intro checked
    by_cases long : gdbBufMax - 1 ≤ data.length
    · exact .inr (.inl long)
    · by_cases matched : checksum data = xmitcsum x y
      · rw [getPacket_frame noStart text (Nat.lt_of_not_le long), if_neg (not_not.mpr matched)] at checked
        exact .inl ⟨(checked rfl).first, (checked rfl).second⟩
      · exact .inr (.inr matched)
  · intro condition accepted
    obtain ⟨-, -, -, -, fits, -⟩ := getPacket_accepted accepted
    rw [getPacket_frame noStart text fits] at accepted
    split at accepted
    · cases (List.cons.inj (congrArg Received.acks accepted)).1
    · next matched =>
      rw [not_not] at matched
      obtain ⟨first, second⟩ | long | mismatch := condition
      · refine ⟨first, second, ?_⟩
        rw [← xmitcsum_digits first second, ← matched, checksum_toNat]
      · exact absurd fits (Nat.not_lt_of_le long)
      · exact absurd matched mismatch

/-- Behind an acknowledgement. -/
theorem packets_framed_ok :
    ∃ data left, getPacket ([char '+'] ++ ((putPacket [char 'O', char 'K'] []).1 ++ [])) = ⟨some data, [char '+'], left⟩ ∧
      rspUnescape data = [char 'O', char 'K'] :=
  (packets_framed [char '+'] [] (by decide)).1 [char 'O', char 'K'] [] (by decide)

/-- `vy` has the sum 0xEF. -/
theorem bad_digits_accepted :
    ¬ ∀ (data : List Byte) (x y : Byte), (getPacket (frame data x y)).packet = some data → Checked data x y := by
  intro checked
  have accepted : getPacket (frame [char 'v', char 'y'] (char 'z') (char 'z')) = ⟨some [char 'v', char 'y'], [char '+'], []⟩ := by
    have := @getPacket_frame [] [char 'v', char 'y'] List.not_mem_nil ⟨by decide, by decide⟩ (by decide) (char 'z') (char 'z') []
    rw [List.nil_append, List.append_nil] at this
    rw [this]
    decide +kernel
  have := (checked _ _ _ (congrArg Received.packet accepted)).first
  revert this
  decide

end Or1ksim.Debug
