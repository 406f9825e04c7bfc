import Or1ksim.Lib.RingBuffer
import Or1ksim.Peripheral.Ps2kbd

/-!
# What is read at the data port

A port owes the reply to a command of the controller, then the responses of the keyboard, and then the scan codes of what is typed. The
code has them in one variable and a ring, and a command that has no reply, or a ring that is full, takes them from the guest.
-/

namespace Or1ksim.Kbd

open RingBuffer (Valid contents)

/-! ### The port -/

/-- The scan codes of a character: shift, the key and its release, and the release of shift. -/
def scanCodes (c : Byte) : List Byte :=
  match scanTable[c.toNat]? with
  | none => []
  | some (shift, code) =>
    if code = 0 then []
    else (if shift then [0x2a] else []) ++ [code, code ||| 0x80] ++ (if shift then [0xaa] else [])

/-- What a command of the controller is replied with. -/
def replyFor (ccmd : Nat) (ccmdbyte : Byte) : Option Byte :=
  if ccmd = ccmdRcb then some ccmdbyte else if ccmd = ccmdSt1 then some 0x55 else if ccmd = ccmdSt2 then some 0 else none

/-- What the keyboard responds to a command. -/
def responsesTo (kcmd : Byte) : List Byte := if kcmd = kcmdRst then [krespAck, krespRstok] else [krespAck]

/-- What is owed to the guest, with what was typed, taken and delivered. `foreign` says that `kresp` was set last for something else than
a response of the keyboard. -/
structure Port where
  reply : Option Byte
  responses : List Byte
  foreign : Bool
  codes : List Byte
  typed : List Byte
  accepted : List Byte
  delivered : List Byte
  deriving DecidableEq, Repr

def Port.empty : Port := ⟨none, [], false, [], [], [], []⟩

/-- A character is taken with all of its codes, or it is dropped. -/
def Port.type (c : Byte) (p : Port) : Port :=
  if p.codes.length + (scanCodes c).length ≤ kbdMaxBuf then
    { p with codes := p.codes ++ scanCodes c, typed := p.typed ++ [c], accepted := p.accepted ++ [c] }
  else { p with typed := p.typed ++ [c] }

/-- A read takes what it returns, and nothing else. -/
inductive Port.Read : Port → Byte → Port → Prop where
  | reply {p : Port} {v : Byte} (owed : p.reply = some v) : Read p v { p with reply := none, foreign := false }
  | response {p : Port} {v : Byte} {rest : List Byte} (last : p.reply = none) (owed : p.responses = v :: rest) :
      Read p v { p with responses := rest, foreign := false }
  | code {p : Port} {v : Byte} {rest : List Byte} (oldest : p.codes = v :: rest) :
      Read p v { p with codes := rest, delivered := p.delivered ++ [v] }

def Port.read (p : Port) : Port :=
  match p.reply, p.responses, p.codes with
  | some _, _, _ => { p with reply := none, foreign := false }
  | none, _ :: rest, _ => { p with responses := rest, foreign := false }
  | none, [], c :: rest => { p with codes := rest, delivered := p.delivered ++ [c] }
  | none, [], [] => p

inductive Event where
  | ctrl (value : Byte)
  | data (value : Byte)
  | read
  | job
  deriving DecidableEq, Repr

def step (k : KbdState) : Event → KbdState
  | .ctrl value => kbdWrite8 kbdCtrl value k
  | .data value => kbdWrite8 kbdData value k
  | .read => (kbdRead8 kbdData k).2
  | .job => kbdJob k

/-- What an event means for the port. The parameter of a command of the controller is no command of the keyboard. -/
def Port.step (k : KbdState) (p : Port) : Event → Port
  | .ctrl value =>
    { p with
      reply := replyFor value.toNat k.ccmdbyte
      foreign := p.foreign || (replyFor value.toNat k.ccmdbyte).isSome }
  | .data value =>
    if k.ccmd = ccmdWcb then { p with reply := none, foreign := true }
    else { p with reply := none, responses := responsesTo value, foreign := false }
  | .read => p.read
  | .job => k.rxfs.head?.elim p p.type

/-- The runs from a reset, with a text that is typed. -/
inductive Run (fine : Event → KbdState → Port → Prop) (text : List Byte) : KbdState → Port → Prop where
  | reset (slowdown : Int) (k : KbdState) : Run fine text (kbdReset text slowdown k) .empty
  | step {k : KbdState} {p : Port} (before : Run fine text k p) (e : Event) (ok : fine e k p) : Run fine text (Kbd.step k e) (p.step k e)

/-- A read finds no command left but one with a reply, which comes after all responses, and `kresp` set for a response. A character
is typed when the ring has room for all of its codes or for none. -/
def Fine : Event → KbdState → Port → Prop
  | .read, k, p => obf k = true → (k.ccmd ≠ 0 → p.reply ≠ none ∧ p.responses = []) ∧ (k.ccmd = 0 → k.kresp ≠ 0 → p.foreign = false)
  | .job, k, _ => ∀ c ∈ k.rxfs.head?, k.bufCount + (scanCodes c).length ≤ kbdMaxBuf ∨ k.bufCount = kbdMaxBuf
  | _, _, _ => True

/-! ### The ring -/

namespace KbdState

def items (k : KbdState) : List Byte := contents k.buf kbdMaxBuf k.bufTail k.bufCount

def Ring (k : KbdState) : Prop := Valid kbdMaxBuf k.bufHead k.bufTail k.bufCount

/-- What the keyboard has still to respond, as the code has it. -/
def answers (k : KbdState) : List Byte :=
  if k.kresp = 0 then [] else if k.kresp = 2 then [krespRstok] else responsesTo k.kcmd

end KbdState

/-- Everything but the ring is as before. -/
structure SameCommands (k k' : KbdState) : Prop where
  ccmd : k'.ccmd = k.ccmd
  kcmd : k'.kcmd = k.kcmd
  ccmdbyte : k'.ccmdbyte = k.ccmdbyte
  kresp : k'.kresp = k.kresp
  rxfs : k'.rxfs = k.rxfs

theorem SameCommands.refl (k : KbdState) : SameCommands k k := ⟨rfl, rfl, rfl, rfl, rfl⟩

theorem SameCommands.trans {k k' k'' : KbdState} (first : SameCommands k k') (second : SameCommands k' k'') : SameCommands k k'' :=
  ⟨second.ccmd.trans first.ccmd, second.kcmd.trans first.kcmd, second.ccmdbyte.trans first.ccmdbyte, second.kresp.trans first.kresp,
    second.rxfs.trans first.rxfs⟩

section
variable {k : KbdState}

theorem kbdPut_same (c : Byte) (k : KbdState) : SameCommands k (kbdPut c k) := by
  unfold kbdPut
  split <;> exact ⟨rfl, rfl, rfl, rfl, rfl⟩

theorem kbdPut_full (full : k.bufCount = kbdMaxBuf) (c : Byte) : kbdPut c k = k := if_pos full.ge

theorem kbdPut_room (ring : k.Ring) (room : k.bufCount < kbdMaxBuf) (c : Byte) :
    (kbdPut c k).Ring ∧ (kbdPut c k).items = k.items ++ [c] ∧ (kbdPut c k).bufCount = k.bufCount + 1 := by
  rw [kbdPut, if_neg (not_le.mpr room)]
  exact ⟨ring.push room, RingBuffer.contents_push ring room c, rfl⟩

theorem scanDecode_eq (c : Byte) (k : KbdState) : scanDecode c k = (scanCodes c).foldl (fun k c => kbdPut c k) k := by
  unfold scanDecode scanCodes
  cases scanTable[c.toNat]? with
  | none => rfl
  | some entry =>
    obtain ⟨shift, code⟩ := entry
    by_cases special : code = 0
    · simp only [if_pos special, List.foldl_nil]
    · simp only [if_neg special]
      cases shift <;> rfl

theorem puts_same (cs : List Byte) (k : KbdState) : SameCommands k (cs.foldl (fun k c => kbdPut c k) k) := by
  induction cs generalizing k with
  | nil => exact .refl k
  | cons c cs ih => exact (kbdPut_same c k).trans (ih _)

theorem puts_full (full : k.bufCount = kbdMaxBuf) (cs : List Byte) : cs.foldl (fun k c => kbdPut c k) k = k := by
  induction cs with
  | nil => rfl
  | cons c cs ih => rw [List.foldl_cons, kbdPut_full full, ih]

theorem puts_room {cs : List Byte} (ring : k.Ring) (room : k.bufCount + cs.length ≤ kbdMaxBuf) :
    (cs.foldl (fun k c => kbdPut c k) k).Ring ∧ (cs.foldl (fun k c => kbdPut c k) k).items = k.items ++ cs := by
  induction cs generalizing k with
  | nil => exact ⟨ring, (List.append_nil _).symm⟩
  | cons c cs ih =>
    rw [List.length_cons] at room
    obtain ⟨put, items, count⟩ := kbdPut_room ring (by omega) c
    obtain ⟨puts, all⟩ := ih put (by omega)
    refine ⟨puts, ?_⟩
    rw [List.foldl_cons, all, items, List.append_assoc, List.singleton_append]

end

/-! ### The code follows the port -/

/-- What is owed is what the code has. -/
structure Agrees (k : KbdState) (p : Port) : Prop where
  ring : k.Ring
  codes : p.codes = k.items
  reply : ∀ v, p.reply = some v → replyFor k.ccmd k.ccmdbyte = some v ∧ k.kresp ≠ 0
  responses : p.foreign = false → p.responses = k.answers
  foreign : p.foreign = true → k.kresp ≠ 0

theorem replyFor_some {ccmd : Nat} {ccmdbyte v : Byte} (some : replyFor ccmd ccmdbyte = some v) :
    ccmd ≠ 0 ∧ replyTo ccmd ccmdbyte = v := by
  unfold replyFor at some
  by_cases rcb : ccmd = ccmdRcb
  · subst rcb
    exact ⟨by decide, Option.some.inj some⟩
  · rw [if_neg rcb] at some
    by_cases st1 : ccmd = ccmdSt1
    · subst st1
      exact ⟨by decide, Option.some.inj some⟩
    · rw [if_neg st1] at some
      by_cases st2 : ccmd = ccmdSt2
      · subst st2
        exact ⟨by decide, Option.some.inj some⟩
      · rw [if_neg st2] at some
        cases some

section
variable {k : KbdState} {p : Port}

theorem obf_iff : obf k = true ↔ k.kresp ≠ 0 ∨ k.bufCount ≠ 0 := by
  unfold obf
  rw [Bool.or_eq_true, decide_eq_true_eq, decide_eq_true_eq]

/-- What a command of the controller changes. -/
theorem ctrl_state (value : Byte) (k : KbdState) : ∃ ccmdbyte effects, kbdWrite8 kbdCtrl value k = { k with
    ccmd := value.toNat, kresp := if (replyFor value.toNat k.ccmdbyte).isSome then 1 else k.kresp, ccmdbyte, effects } ∧
      ((replyFor value.toNat k.ccmdbyte).isSome → ccmdbyte = k.ccmdbyte) := by
  unfold kbdWrite8
  generalize value.toNat = ccmd
  by_cases rcb : ccmd = ccmdRcb
  · subst rcb
    exact ⟨_, _, rfl, fun _ => rfl⟩
  by_cases st1 : ccmd = ccmdSt1
  · subst st1
    exact ⟨_, _, rfl, fun _ => rfl⟩
  by_cases st2 : ccmd = ccmdSt2
  · subst st2
    exact ⟨_, _, rfl, fun _ => rfl⟩
  by_cases dki : ccmd = ccmdDki
  · subst dki
    exact ⟨_, _, rfl, fun some => nomatch some⟩
  have silent : (replyFor ccmd k.ccmdbyte).isSome = false := by
    rw [replyFor, if_neg rcb, if_neg st1, if_neg st2]
    rfl
  rw [silent, if_pos rfl]
  simp only [if_neg rcb, if_neg st1, if_neg st2, if_neg dki]
  by_cases eki : ccmd = ccmdEki
  · rw [if_pos eki]
    exact ⟨_, _, rfl, fun some => nomatch some⟩
  · rw [if_neg eki]
    exact ⟨_, _, rfl, fun some => nomatch some⟩

theorem data_state (value : Byte) (k : KbdState) : ∃ ccmdbyte, kbdWrite8 kbdData value k = { k with
    ccmd := 0, kresp := 1, kcmd := if k.ccmd = ccmdWcb then k.kcmd else value, ccmdbyte } := by
  unfold kbdWrite8
  rw [if_neg (by decide), if_pos rfl]
  by_cases wcb : k.ccmd = ccmdWcb
  · simp only [if_pos wcb]
    by_cases dk : k.kcmd = kcmdDk <;> by_cases ek : k.kcmd = kcmdEk <;> simp only [dk, ek, if_true, if_false] <;> exact ⟨_, rfl⟩
  · simp only [if_neg wcb]
    by_cases dk : value = kcmdDk <;> by_cases ek : value = kcmdEk <;> simp only [dk, ek, if_true, if_false] <;> exact ⟨_, rfl⟩

theorem Agrees.ctrl (agrees : Agrees k p) (value : Byte) : Agrees (step k (.ctrl value)) (p.step k (.ctrl value)) := by
  obtain ⟨ccmdbyte, effects, is, kept⟩ := ctrl_state value k
  have stepped : step k (.ctrl value) = _ := is
  rw [stepped]
  cases replied : replyFor value.toNat k.ccmdbyte with
  | some v =>
    rw [replied] at kept
    have after : p.step k (.ctrl value) = { p with reply := some v, foreign := true } := by
      show { p with reply := replyFor value.toNat k.ccmdbyte, foreign := p.foreign || (replyFor value.toNat k.ccmdbyte).isSome } = _
      rw [replied, Option.isSome_some, Bool.or_true]
    rw [after]
    refine ⟨agrees.ring, agrees.codes, fun w owed => ⟨?_, one_ne_zero⟩, fun none => (nomatch none), fun _ => one_ne_zero⟩
    rw [← owed, ← replied, kept rfl]
  | none =>
    have after : p.step k (.ctrl value) = { p with reply := none } := by
      show { p with reply := replyFor value.toNat k.ccmdbyte, foreign := p.foreign || (replyFor value.toNat k.ccmdbyte).isSome } = _
      rw [replied, Option.isSome_none, Bool.or_false]
    rw [after]
    exact ⟨agrees.ring, agrees.codes, fun w owed => (nomatch owed), agrees.responses, agrees.foreign⟩

theorem Agrees.data (agrees : Agrees k p) (value : Byte) : Agrees (step k (.data value)) (p.step k (.data value)) := by
  obtain ⟨ccmdbyte, is⟩ := data_state value k
  have stepped : step k (.data value) = _ := is
  rw [stepped, Port.step]
  by_cases wcb : k.ccmd = ccmdWcb
  · rw [if_pos wcb, if_pos wcb]
    exact ⟨agrees.ring, agrees.codes, fun w owed => (nomatch owed), fun none => (nomatch none), fun _ => one_ne_zero⟩
  · rw [if_neg wcb, if_neg wcb]
    exact ⟨agrees.ring, agrees.codes, fun w owed => (nomatch owed), fun _ => rfl, fun _ => one_ne_zero⟩

/-- A character is typed. -/
theorem Agrees.type (agrees : Agrees k p) {c : Byte} (room : k.bufCount + (scanCodes c).length ≤ kbdMaxBuf ∨ k.bufCount = kbdMaxBuf) :
    Agrees (scanDecode c k) (p.type c) := by
  have count : p.codes.length = k.bufCount := by
    rw [agrees.codes]
    exact RingBuffer.length_contents
  have same := puts_same (scanCodes c) k
  rw [← scanDecode_eq] at same
  have kept : (scanDecode c k).answers = k.answers := by
    unfold KbdState.answers
    rw [same.kresp, same.kcmd]
  unfold Port.type
  by_cases fits : k.bufCount + (scanCodes c).length ≤ kbdMaxBuf
  · obtain ⟨ring, items⟩ := puts_room agrees.ring fits
    rw [← scanDecode_eq] at ring items
    rw [count, if_pos fits]
    refine ⟨ring, ?_, fun v owed => ?_, fun home => (agrees.responses home).trans kept.symm, fun foreign => ?_⟩
    · rw [items, ← agrees.codes]
    · rw [same.ccmd, same.ccmdbyte, same.kresp]
      exact agrees.reply v owed
    · rw [same.kresp]
      exact agrees.foreign foreign
  · have unchanged := puts_full (room.resolve_left fits) (scanCodes c)
    rw [← scanDecode_eq] at unchanged
    rw [count, if_neg fits, unchanged]
    exact ⟨agrees.ring, agrees.codes, agrees.reply, agrees.responses, agrees.foreign⟩

theorem job_state (k : KbdState) : ∃ effects, kbdJob k =
    { k.rxfs.head?.elim k fun c => scanDecode c { k with rxfs := k.rxfs.tail } with effects } := by
  unfold kbdJob
  cases k.rxfs with
  | nil =>
    dsimp only
    split <;> exact ⟨_, rfl⟩
  | cons c rest =>
    dsimp only
    split <;> exact ⟨_, rfl⟩

theorem Agrees.job (agrees : Agrees k p) (fine : Fine .job k p) : Agrees (step k .job) (p.step k .job) := by
  obtain ⟨effects, is⟩ := job_state k
  have stepped : step k .job = _ := is
  rw [stepped, Port.step]
  have typed : Agrees (k.rxfs.head?.elim k fun c => scanDecode c { k with rxfs := k.rxfs.tail }) (k.rxfs.head?.elim p p.type) := by
    cases text : k.rxfs with
    | nil => exact agrees
    | cons c rest =>
      have room := fine c (by rw [text]; rfl)
      have before : Agrees { k with rxfs := rest } p := ⟨agrees.ring, agrees.codes, agrees.reply, agrees.responses, agrees.foreign⟩
      exact before.type room
  exact ⟨typed.ring, typed.codes, typed.reply, typed.responses, typed.foreign⟩

theorem read_reply {v : Byte} (owed : p.reply = some v) : p.read = { p with reply := none, foreign := false } := by
  unfold Port.read
  rw [owed]

theorem read_response {v : Byte} {rest : List Byte} (last : p.reply = none) (owed : p.responses = v :: rest) :
    p.read = { p with responses := rest, foreign := false } := by
  unfold Port.read
  rw [last, owed]

theorem read_code {v : Byte} {rest : List Byte} (last : p.reply = none) (silent : p.responses = []) (oldest : p.codes = v :: rest) :
    p.read = { p with codes := rest, delivered := p.delivered ++ [v] } := by
  unfold Port.read
  rw [last, silent, oldest]

theorem read_none (last : p.reply = none) (silent : p.responses = []) (empty : p.codes = []) : p.read = p := by
  unfold Port.read
  rw [last, silent, empty]

/-- Nothing is owed by the keyboard when there is no response. -/
theorem Agrees.silent (agrees : Agrees k p) (kresp : k.kresp = 0) : p.reply = none ∧ p.foreign = false ∧ p.responses = [] := by
  have home : p.foreign = false := Bool.eq_false_iff.mpr fun foreign => agrees.foreign foreign kresp
  refine ⟨Option.eq_none_iff_forall_ne_some.mpr fun v owed => (agrees.reply v owed).2 kresp, home, ?_⟩
  rw [agrees.responses home, KbdState.answers, if_pos kresp]

theorem Agrees.empty (agrees : Agrees k p) (count : k.bufCount = 0) : p.codes = [] := by
  rw [agrees.codes, KbdState.items, count]
  exact RingBuffer.contents_empty

theorem data_read (k : KbdState) : kbdRead8 kbdData k =
    (let k := k.emit .clearInterrupt
    if k.ccmd ≠ 0 then (replyTo k.ccmd k.ccmdbyte, { k with ccmd := 0, kresp := 0 })
    else if k.kresp ≠ 0 then
      if k.kresp = 2 then (krespRstok, { k with kresp := 0, kcmd := 0 })
      else if k.kcmd = kcmdRst then (krespAck, { k with kresp := 2, kcmd := 0 })
      else if k.kcmd = kcmdEcho then (krespEcho, { k with kresp := 0, kcmd := 0 })
      else (krespAck, { k with kresp := 0, kcmd := 0 })
    else if k.bufCount ≠ 0 then
      (k.buf k.bufTail, { k with bufTail := (k.bufTail + 1) % kbdMaxBuf, bufCount := k.bufCount - 1, kresp := 0 })
    else (0, { k with kresp := 0 })) := by
  rw [kbdRead8, if_neg (by decide), if_pos rfl]

theorem reply_read (ccmd : k.ccmd ≠ 0) : kbdRead8 kbdData k =
    (replyTo k.ccmd k.ccmdbyte, { k.emit .clearInterrupt with ccmd := 0, kresp := 0 }) :=
  (data_read k).trans (if_pos ccmd)

/-- A response is the first that the keyboard has left. -/
theorem response_read (ccmd : ¬k.ccmd ≠ 0) (kresp : k.kresp ≠ 0) :
    ∃ v left, kbdRead8 kbdData k = (v, { k.emit .clearInterrupt with kresp := left, kcmd := 0 }) ∧
    k.answers = v :: { k with kresp := left, kcmd := 0 }.answers := by
  have read := (data_read k).trans ((if_neg ccmd).trans (if_pos kresp))
  rw [KbdState.answers, if_neg kresp]
  by_cases second : k.kresp = 2
  · rw [if_pos second]
    exact ⟨_, _, read.trans (if_pos second), rfl⟩
  · rw [if_neg second, responsesTo]
    have read := read.trans (if_neg second)
    by_cases rst : k.kcmd = kcmdRst
    · rw [if_pos rst]
      exact ⟨_, _, read.trans (if_pos rst), rfl⟩
    · rw [if_neg rst]
      -- The command of the echo is that of the reset.
      have echo : ¬k.kcmd = kcmdEcho := rst
      exact ⟨_, _, read.trans ((if_neg rst).trans (if_neg echo)), rfl⟩

theorem code_read (ccmd : ¬k.ccmd ≠ 0) (kresp : ¬k.kresp ≠ 0) (count : k.bufCount ≠ 0) : kbdRead8 kbdData k =
    (k.buf k.bufTail, { k.emit .clearInterrupt with bufTail := (k.bufTail + 1) % kbdMaxBuf, bufCount := k.bufCount - 1, kresp := 0 }) :=
  (data_read k).trans ((if_neg ccmd).trans ((if_neg kresp).trans (if_pos count)))

theorem nothing_read (ccmd : ¬k.ccmd ≠ 0) (kresp : ¬k.kresp ≠ 0) (count : ¬k.bufCount ≠ 0) :
    kbdRead8 kbdData k = (0, { k.emit .clearInterrupt with kresp := 0 }) :=
  (data_read k).trans ((if_neg ccmd).trans ((if_neg kresp).trans (if_neg count)))

theorem items_pop (ring : k.Ring) (count : k.bufCount ≠ 0) :
    k.items = k.buf k.bufTail :: contents k.buf kbdMaxBuf ((k.bufTail + 1) % kbdMaxBuf) (k.bufCount - 1) ∧
      Valid kbdMaxBuf k.bufHead ((k.bufTail + 1) % kbdMaxBuf) (k.bufCount - 1) := by
  obtain ⟨n, is⟩ := Nat.exists_eq_succ_of_ne_zero count
  unfold KbdState.Ring at ring
  unfold KbdState.items
  rw [is] at ring ⊢
  exact ⟨RingBuffer.contents_pop ring.tail_lt n, ring.pop⟩

/-- A read answers as the port does, and leaves what the port leaves. -/
theorem Agrees.read (agrees : Agrees k p) (fine : Fine .read k p) : Agrees (step k .read) p.read ∧
    (obf k = true → p.Read (kbdRead8 kbdData k).1 p.read ∧ (step k .read).answers = p.read.responses) := by
  unfold step
  by_cases ccmd : k.ccmd ≠ 0
  · rw [reply_read ccmd]
    by_cases shown : obf k = true
    · obtain ⟨owed, none⟩ := (fine shown).1 ccmd
      obtain ⟨v, owed⟩ := Option.ne_none_iff_exists'.mp owed
      have value := (replyFor_some (agrees.reply v owed).1).2
      rw [read_reply owed]
      refine ⟨⟨agrees.ring, agrees.codes, fun w owed => (nomatch owed), fun _ => none, fun foreign => (nomatch foreign)⟩,
        fun _ => ⟨?_, none.symm⟩⟩
      show p.Read (replyTo k.ccmd k.ccmdbyte) _
      rw [value]
      exact .reply owed
    · obtain ⟨kresp, count⟩ := not_or.mp fun either => shown (obf_iff.mpr either)
      obtain ⟨last, home, silent⟩ := agrees.silent (not_not.mp kresp)
      rw [read_none last silent (agrees.empty (not_not.mp count))]
      refine ⟨⟨agrees.ring, agrees.codes, fun w owed => ?_, fun _ => silent, fun foreign => ?_⟩, fun on => absurd on shown⟩
      · rw [last] at owed
        cases owed
      · rw [home] at foreign
        cases foreign
  · have last : p.reply = none := Option.eq_none_iff_forall_ne_some.mpr fun v owed => ccmd (replyFor_some (agrees.reply v owed).1).1
    have unowed : ∀ {q : Port}, q.reply = none → ∀ {k' : KbdState} (v : Byte), q.reply = some v →
        replyFor k'.ccmd k'.ccmdbyte = some v ∧ k'.kresp ≠ 0 :=
      fun none _ v owed => by
        rw [none] at owed
        cases owed
    by_cases kresp : k.kresp ≠ 0
    · have home := (fine (obf_iff.mpr (.inl kresp))).2 (not_not.mp ccmd) kresp
      obtain ⟨v, left, read, answers⟩ := response_read ccmd kresp
      have owed := (agrees.responses home).trans answers
      rw [read, read_response last owed]
      exact ⟨⟨agrees.ring, agrees.codes, unowed last, fun _ => rfl, fun foreign => (nomatch foreign)⟩,
        fun _ => ⟨.response last owed, rfl⟩⟩
    · obtain ⟨-, home, silent⟩ := agrees.silent (not_not.mp kresp)
      have foreign : p.foreign = true → (0 : Nat) ≠ 0 := fun foreign => by
        rw [home] at foreign
        cases foreign
      by_cases count : k.bufCount ≠ 0
      · obtain ⟨items, ring⟩ := items_pop agrees.ring count
        have oldest := agrees.codes.trans items
        rw [code_read ccmd kresp count, read_code last silent oldest]
        exact ⟨⟨ring, rfl, unowed last, fun _ => silent, foreign⟩, fun _ => ⟨.code oldest, silent.symm⟩⟩
      · rw [nothing_read ccmd kresp count, read_none last silent (agrees.empty (not_not.mp count))]
        refine ⟨⟨agrees.ring, agrees.codes, unowed last, fun _ => silent, foreign⟩, fun on => ?_⟩
        exact absurd (obf_iff.mp on) (not_or.mpr ⟨kresp, count⟩)

/-! ### Whole runs -/

/-- In any order of events, whatever becomes of the responses. -/
theorem step_ring (ring : k.Ring) (e : Event) : (step k e).Ring := by
  cases e with
  | ctrl value =>
    obtain ⟨ccmdbyte, effects, is, -⟩ := ctrl_state value k
    have stepped : step k (.ctrl value) = _ := is
    rw [stepped]
    exact ring
  | data value =>
    obtain ⟨ccmdbyte, is⟩ := data_state value k
    have stepped : step k (.data value) = _ := is
    rw [stepped]
    exact ring
  | read =>
    unfold step
    by_cases ccmd : k.ccmd ≠ 0
    · rw [reply_read ccmd]
      exact ring
    · by_cases kresp : k.kresp ≠ 0
      · obtain ⟨v, left, read, -⟩ := response_read ccmd kresp
        rw [read]
        exact ring
      · by_cases count : k.bufCount ≠ 0
        · rw [code_read ccmd kresp count]
          exact (items_pop ring count).2
        · rw [nothing_read ccmd kresp count]
          exact ring
  | job =>
    have put : ∀ {k : KbdState} (c : Byte), k.Ring → (kbdPut c k).Ring := fun {k} c ring => by
      by_cases room : k.bufCount < kbdMaxBuf
      · exact (kbdPut_room ring room c).1
      · rw [kbdPut, if_pos (not_lt.mp room)]
        exact ring
    have puts : ∀ (cs : List Byte) {k : KbdState}, k.Ring → (cs.foldl (fun k c => kbdPut c k) k).Ring := fun cs => by
      induction cs with
      | nil => exact fun ring => ring
      | cons c cs ih => exact fun ring => ih (put c ring)
    obtain ⟨effects, is⟩ := job_state k
    have stepped : step k .job = _ := is
    have typed : (k.rxfs.head?.elim k fun c => scanDecode c { k with rxfs := k.rxfs.tail }).Ring := by
      cases k.rxfs with
      | nil => exact ring
      | cons c rest =>
        show (scanDecode c { k with rxfs := rest }).Ring
        rw [scanDecode_eq]
        exact puts (scanCodes c) ring
    rw [stepped]
    exact typed

theorem step_rxfs (k : KbdState) (p : Port) (e : Event) : (p.step k e).typed ++ (step k e).rxfs = p.typed ++ k.rxfs := by
  cases e with
  | ctrl value =>
    obtain ⟨ccmdbyte, effects, is, -⟩ := ctrl_state value k
    have stepped : step k (.ctrl value) = _ := is
    rw [stepped]
    rfl
  | data value =>
    obtain ⟨ccmdbyte, is⟩ := data_state value k
    have stepped : step k (.data value) = _ := is
    rw [stepped, Port.step]
    split <;> rfl
  | read =>
    have typed : p.read.typed = p.typed := by
      unfold Port.read
      split <;> rfl
    have rxfs : (kbdRead8 kbdData k).2.rxfs = k.rxfs := by
      by_cases ccmd : k.ccmd ≠ 0
      · rw [reply_read ccmd]
        rfl
      · by_cases kresp : k.kresp ≠ 0
        · obtain ⟨v, left, read, -⟩ := response_read ccmd kresp
          rw [read]
          rfl
        · by_cases count : k.bufCount ≠ 0
          · rw [code_read ccmd kresp count]
            rfl
          · rw [nothing_read ccmd kresp count]
            rfl
    show p.read.typed ++ (kbdRead8 kbdData k).2.rxfs = _
    rw [typed, rxfs]
  | job =>
    obtain ⟨effects, is⟩ := job_state k
    have stepped : step k .job = _ := is
    rw [stepped, Port.step]
    cases text : k.rxfs with
    | nil =>
      show p.typed ++ k.rxfs = _
      rw [text]
    | cons c rest =>
      have same := (puts_same (scanCodes c) { k with rxfs := rest }).rxfs
      rw [← scanDecode_eq] at same
      show (p.type c).typed ++ (scanDecode c { k with rxfs := rest }).rxfs = _
      have typed : (p.type c).typed = p.typed ++ [c] := by
        unfold Port.type
        split <;> rfl
      rw [same, typed, List.append_assoc, List.singleton_append]

/-- What was taken is delivered once, in order, and with nothing missing. -/
structure Port.Conserved (p : Port) : Prop where
  once : p.delivered ++ p.codes = p.accepted.flatMap scanCodes
  whole : p.accepted.Sublist p.typed

theorem Port.Conserved.step (conserved : p.Conserved) (k : KbdState) (e : Event) : (p.step k e).Conserved := by
  cases e with
  | ctrl value => exact ⟨conserved.once, conserved.whole⟩
  | data value =>
    rw [Port.step]
    split <;> exact ⟨conserved.once, conserved.whole⟩
  | read =>
    show p.read.Conserved
    obtain owed | last := p.reply.eq_none_or_eq_some.symm
    · obtain ⟨v, owed⟩ := owed
      rw [read_reply owed]
      exact ⟨conserved.once, conserved.whole⟩
    · cases owed : p.responses with
      | cons v rest =>
        rw [read_response last owed]
        exact ⟨conserved.once, conserved.whole⟩
      | nil =>
        cases oldest : p.codes with
        | nil =>
          rw [read_none last owed oldest]
          exact conserved
        | cons v rest =>
          rw [read_code last owed oldest]
          refine ⟨?_, conserved.whole⟩
          show (p.delivered ++ [v]) ++ rest = _
          rw [← conserved.once, oldest, List.append_assoc, List.singleton_append]
  | job =>
    rw [Port.step]
    cases k.rxfs.head? with
    | none => exact conserved
    | some c =>
      show (p.type c).Conserved
      unfold Port.type
      split
      · refine ⟨?_, conserved.whole.append (List.Sublist.refl [c])⟩
        rw [← List.append_assoc, conserved.once, List.flatMap_append, List.flatMap_singleton]
      · exact ⟨conserved.once, conserved.whole.trans (List.sublist_append_left _ _)⟩

end

theorem Run.ring {fine : Event → KbdState → Port → Prop} {text : List Byte} {k : KbdState} {p : Port} (run : Run fine text k p) :
    k.Ring := by
  induction run with
  | reset slowdown k => exact .empty (by decide)
  | step _ e _ ih => exact step_ring ih e

theorem Run.conserved {fine : Event → KbdState → Port → Prop} {text : List Byte} {k : KbdState} {p : Port} (run : Run fine text k p) :
    p.Conserved ∧ p.typed ++ k.rxfs = text := by
  induction run with
  | reset slowdown k => exact ⟨⟨rfl, List.Sublist.refl _⟩, rfl⟩
  | step _ e _ ih => exact ⟨ih.1.step _ e, (step_rxfs _ _ e).trans ih.2⟩

theorem Run.agrees {text : List Byte} {k : KbdState} {p : Port} (run : Run Fine text k p) : Agrees k p := by
  induction run with
  | reset slowdown k => exact ⟨.empty (by decide), rfl, fun v owed => (nomatch owed), fun _ => rfl, fun foreign => (nomatch foreign)⟩
  | step _ e ok ih =>
    cases e with
    | ctrl value => exact ih.ctrl value
    | data value => exact ih.data value
    | read => exact (ih.read ok).1
    | job => exact ih.job ok

/-- The ring is well formed, characters are delivered once and whole, and a read is answered with what is owed. -/
structure Served (text : List Byte) (k : KbdState) (p : Port) : Prop where
  ring : k.Ring
  typed : p.typed ++ k.rxfs = text
  whole : p.accepted.Sublist p.typed
  once : p.delivered ++ k.items = p.accepted.flatMap scanCodes
  answered : Fine .read k p → obf k = true →
    p.Read (kbdRead8 kbdData k).1 (p.step k .read) ∧ (step k .read).answers = (p.step k .read).responses

/-- In every state of a run whose steps are all fine. -/
theorem data_port_served {text : List Byte} {k : KbdState} {p : Port} (run : Run Fine text k p) : Served text k p := by
  have agrees := run.agrees
  obtain ⟨conserved, typed⟩ := run.conserved
  exact ⟨agrees.ring, typed, conserved.whole, agrees.codes ▸ conserved.once, fun fine => (agrees.read fine).2⟩

/-! ### The letter a -/

def freshKbd : KbdState where
  buf _ := 0
  bufCount := 0
  bufHead := 0
  bufTail := 0
  rxfs := []
  ccmd := 0
  kcmd := 0
  ccmdbyte := 0
  kresp := 0
  slowdown := 0
  effects := []

/-- The command byte is read, and then the letter. -/
theorem data_port_served_letter : ∃ k p, Run Fine [0x61] k p ∧ p.delivered = [] ∧ p.Read 0x1e (p.step k .read) := by
  have start : Run Fine [0x61] _ _ := .reset 1 freshKbd
  have asked := start.step (.ctrl 0x20) trivial
  have replied := asked.step .read (fun _ => ⟨fun _ => by decide, fun none => absurd none (by decide)⟩)
  have typed := replied.step .job (fun _ _ => .inl (by decide +revert +kernel))
  refine ⟨_, _, typed, by decide +kernel, ?_⟩
  exact ((data_port_served typed).answered (fun _ => ⟨fun ccmd => absurd rfl ccmd, fun _ kresp => absurd rfl kresp⟩)
    (by decide +kernel)).1

theorem Port.Read.oldest {p q : Port} {v : Byte} (read : p.Read v q) (last : p.reply = none) (silent : p.responses = []) :
    p.codes.head? = some v := by
  cases read with
  | reply owed =>
    rw [last] at owed
    cases owed
  | response _ owed =>
    rw [silent] at owed
    cases owed
  | code oldest => rw [oldest, List.head?_cons]

/-- The interface is disabled, the letter is typed, and a read returns zero. -/
theorem disabled_read_answers_zero : ¬ ∀ (text : List Byte) (k : KbdState) (p : Port), Run (fun _ _ _ => True) text k p → obf k = true →
    p.Read (kbdRead8 kbdData k).1 (p.step k .read) := by
  intro claim
  have start : Run (fun _ _ _ => True) [0x61] _ _ := .reset 1 freshKbd
  have typed := (start.step (.ctrl 0xad) trivial).step .job trivial
  have oldest := (claim _ _ _ typed (by decide +kernel)).oldest rfl rfl
  revert oldest
  decide +kernel

end Or1ksim.Kbd
