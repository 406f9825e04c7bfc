import Or1ksim.Peripheral.Transmit

/-!
# What the transmitter of the UART sends

Along every run in which no break ends while it is being sent, and no character is written over one that waits, the
characters that were accepted and not discarded are those that have been sent, followed by the one in the shift register
and by those in the buffer.
-/

namespace Or1ksim.Uart

open Peripheral (Effect Bus tally queued)
open Flags (has)

namespace Tx

/-- The characters in the buffer. -/
def queue (r : Tx) : List Byte := RingBuffer.contents r.txbuf r.fifoLen r.tail r.full.toNat

/-- The character in the shift register, when it is not a break that is being sent. -/
def shifting (r : Tx) : List Byte := if r.txsere || r.sbc then [] else [r.txser]

/-- What has been sent, and what is on its way. -/
def onWay (r : Tx) : List Byte := r.sent ++ r.shifting ++ r.queue

/-- The buffer is a ring of one place or of sixteen, and `LSR` says whether it is empty. -/
structure Ring (r : Tx) : Prop where
  fifoLen : r.fifoLen = 1 ∨ r.fifoLen = 16
  valid : RingBuffer.Valid r.fifoLen r.head r.tail r.full.toNat
  txbufe : r.txbufe = decide (r.full = 0)

/-- One job is queued, which depends on what the shift register holds. -/
structure Good (r : Tx) : Prop where
  ring : r.Ring
  sends : r.sends = if r.txsere && r.full ≠ 0 then 1 else 0
  clocks : r.clocks = if r.txsere || r.sbc then 0 else 1
  breaks : r.breaks = if !r.txsere && r.sbc then 1 else 0

/-- A job has left the queue. -/
structure Idle (r : Tx) : Prop where
  ring : r.Ring
  sends : r.sends = 0
  clocks : r.clocks = 0
  breaks : r.breaks = 0

variable {r : Tx}

theorem queue_empty (empty : r.full = 0) : r.queue = [] := by
  unfold queue
  rw [empty]
  rfl

theorem length_queue (r : Tx) : r.queue.length = r.full.toNat := RingBuffer.length_contents ..

theorem Ring.full_lt (ring : r.Ring) : r.full.toNat ≤ 16 := by
  have := ring.valid.full_le
  have := ring.fifoLen
  omega

theorem Ring.next_full (ring : r.Ring) : (r.full + 1).toNat = r.full.toNat + 1 := full_succ ring.full_lt

theorem Ring.queue_cons (ring : r.Ring) (some : r.full ≠ 0) : r.queue = r.txbuf r.tail :: r.send.queue := by
  unfold queue
  rw [← full_pred some, RingBuffer.contents_pop ring.valid.tail_lt]
  rfl

/-- The first character goes to the shift register; under a break it is lost there. -/
theorem Idle.send (idle : r.Idle) (some : r.full ≠ 0) :
    r.send.Good ∧ r.send.sent = r.sent ∧ r.send.sbc = r.sbc ∧ r.send.shifting ++ r.send.queue = if r.sbc then r.queue.tail
      else r.queue := by
  have ring := idle.ring.valid
  rw [← full_pred some] at ring
  have queue := idle.ring.queue_cons some
  refine ⟨⟨⟨idle.ring.fifoLen, ring.pop, ?_⟩, idle.sends, ?_, ?_⟩, rfl, rfl, ?_⟩
  · show (r.txbufe || decide (r.full - 1 = 0)) = decide (r.full - 1 = 0)
    rw [idle.ring.txbufe, decide_eq_false some, Bool.false_or]
  · show (if r.sbc then r.clocks else r.clocks + 1) = if false || r.sbc then 0 else 1
    rw [idle.clocks, Bool.false_or]
  · show (if r.sbc then r.breaks + 1 else r.breaks) = if true && r.sbc then 1 else 0
    rw [idle.breaks, Bool.true_and]
  · show (if false || r.sbc then [] else [r.txbuf r.tail]) ++ r.send.queue = _
    rw [queue, Bool.false_or]
    split <;> rfl

theorem Idle.shiftedOut (idle : r.Idle) : r.shiftedOut.Good ∧ r.shiftedOut.sent = r.sent ∧ r.shiftedOut.sbc = r.sbc ∧
    r.shiftedOut.shifting ++ r.shiftedOut.queue = if r.sbc then r.queue.tail else r.queue := by
  unfold Tx.shiftedOut
  by_cases empty : r.full = 0
  · rw [if_pos empty, queue_empty empty, List.tail_nil, ite_self]
    refine ⟨⟨⟨idle.ring.fifoLen, idle.ring.valid, idle.ring.txbufe⟩, ?_, idle.clocks, idle.breaks⟩, rfl, rfl, queue_empty empty⟩
    show r.sends = if true && decide (r.full ≠ 0) then 1 else 0
    rw [idle.sends, decide_eq_false (not_not.mpr empty)]
    rfl
  · rw [if_neg empty]
    exact idle.send empty

/-! ### Writes -/

theorem Good.write (good : r.Good) (value : Byte) (room : r.full.toNat < r.fifoLen) :
    (r.write value).Good ∧ (r.write value).onWay = r.onWay ++ [value] := by
  have some : r.full + 1 ≠ 0 := by
    intro empty
    have next := good.ring.next_full
    rw [empty] at next
    cases next
  have is : r.write value = { r with
      txbuf := put r.txbuf r.head value
      head := (r.head + 1) % r.fifoLen
      full := r.full + 1
      txbufe := false
      sends := if r.full = 0 && r.txsere then r.sends + 1 else r.sends } := if_pos room
  rw [is]
  refine ⟨⟨⟨good.ring.fifoLen, ?_, (decide_eq_false some).symm⟩, ?_, good.clocks, good.breaks⟩, ?_⟩
  · show RingBuffer.Valid r.fifoLen _ r.tail (r.full + 1).toNat
    rw [good.ring.next_full]
    exact good.ring.valid.push room
  · show (if r.full = 0 && r.txsere then r.sends + 1 else r.sends) = if r.txsere && decide (r.full + 1 ≠ 0) then 1 else 0
    rw [good.sends, decide_eq_true some, decide_not]
    generalize decide (r.full = 0) = empty
    cases r.txsere <;> cases empty <;> rfl
  · show r.sent ++ r.shifting ++ RingBuffer.contents (put r.txbuf r.head value) r.fifoLen r.tail (r.full + 1).toNat = _
    rw [good.ring.next_full, put_eq, RingBuffer.contents_push good.ring.valid room]
    exact (List.append_assoc ..).symm

/-- A character that is written over the oldest one in the buffer. -/
theorem Good.overwrite (good : r.Good) (value : Byte) (full : ¬r.full.toNat < r.fifoLen) :
    (r.write value).Good ∧ (r.write value).onWay = r.sent ++ r.shifting ++ value :: r.queue.tail := by
  have whole : r.full.toNat = r.fifoLen := Nat.le_antisymm good.ring.valid.full_le (Nat.le_of_not_lt full)
  have valid := good.ring.valid
  rw [whole] at valid
  have some : r.full ≠ 0 := by
    intro empty
    rw [empty] at whole
    exact absurd good.ring.valid.positive (Nat.not_lt.mpr (Nat.le_of_eq whole.symm))
  have is : r.write value = { r with txbuf := put r.txbuf r.head value, txbufe := false } := if_neg full
  rw [is]
  refine ⟨⟨⟨good.ring.fifoLen, good.ring.valid, (decide_eq_false some).symm⟩, good.sends, good.clocks, good.breaks⟩, ?_⟩
  show r.sent ++ r.shifting ++ RingBuffer.contents (put r.txbuf r.head value) r.fifoLen r.tail r.full.toNat = _
  unfold queue
  rw [whole, put_eq, RingBuffer.contents_overwrite valid]

theorem Good.reset (good : r.Good) {len : Nat} (size : len = 1 ∨ len = 16) :
    (r.reset len).Good ∧ (r.reset len).onWay = r.onWay.take (r.onWay.length - r.full.toNat) := by
  have positive : 0 < len := by omega
  refine ⟨⟨⟨size, RingBuffer.Valid.empty positive, rfl⟩, ?_, good.clocks, good.breaks⟩, ?_⟩
  · show r.sends - 1 = if r.txsere && false then 1 else 0
    rw [good.sends, Bool.and_false]
    split <;> rfl
  · unfold onWay
    rw [List.length_append, length_queue, Nat.add_sub_cancel, List.take_left]
    exact List.append_nil _

theorem Good.control (good : r.Good) {len : Nat} (size : len = 1 ∨ len = 16) {discards : Bool}
    (same : discards = false → len = r.fifoLen) :
    (r.control discards len).Good ∧ (r.control discards len).onWay = if discards then r.onWay.take (r.onWay.length - r.full.toNat)
      else r.onWay := by
  unfold Tx.control
  cases discards with
  | true => exact good.reset size
  | false =>
    rw [same rfl]
    exact ⟨good, rfl⟩

/-- The break control is not cleared while something is being sent. -/
theorem Good.setBreak (good : r.Good) {sbc : Bool} (ends : r.sbc = true → sbc = false → r.txsere = true) :
    (r.setBreak sbc).Good ∧ (r.setBreak sbc).onWay = if !r.sbc && sbc && !r.txsere then r.onWay.eraseIdx r.sent.length else r.onWay := by
  by_cases same : r.sbc = sbc
  · have is : r.setBreak sbc = r := if_pos same
    rw [is, same]
    refine ⟨good, (if_neg ?_).symm⟩
    cases sbc <;> simp
  · have is : r.setBreak sbc = { r with
        sbc
        clocks := if r.txsere then r.clocks else r.clocks - 1
        breaks := if sbc && !r.txsere then r.breaks + 1 else r.breaks
        sends := if !sbc && !r.txsere then r.sends + 1 else r.sends } := if_neg same
    rw [is]
    obtain ⟨ring, sends, clocks, breaks⟩ := good
    cases starts : sbc with
    | false =>
      have was : r.sbc = true := Bool.eq_true_of_not_eq_false fun clear => same (clear.trans starts.symm)
      have idle := ends was starts
      rw [was, idle] at clocks breaks
      refine ⟨⟨⟨ring.fifoLen, ring.valid, ring.txbufe⟩, ?_, ?_, ?_⟩, ?_⟩
      · simpa [idle] using sends
      · simpa [idle] using clocks
      · simpa [idle] using breaks
      · simp [onWay, queue, shifting, idle]
    | true =>
      have was : r.sbc = false := Bool.eq_false_of_not_eq_true fun set => same (set.trans starts.symm)
      rw [was] at clocks breaks
      cases idle : r.txsere with
      | true =>
        rw [idle] at clocks breaks
        refine ⟨⟨⟨ring.fifoLen, ring.valid, ring.txbufe⟩, ?_, ?_, ?_⟩, ?_⟩
        · simpa [idle] using sends
        · simpa [idle] using clocks
        · simpa [idle] using breaks
        · simp [onWay, queue, shifting, idle]
      | false =>
        -- the character in the shift register is lost
        rw [idle] at sends clocks breaks
        refine ⟨⟨⟨ring.fifoLen, ring.valid, ring.txbufe⟩, ?_, ?_, ?_⟩, ?_⟩
        · simpa [idle] using sends
        · simp [clocks]
        · simpa [idle] using breaks
        · simp [onWay, queue, shifting, was, idle, List.eraseIdx_append_of_length_le]

/-! ### Jobs -/

/-- A character of the buffer is lost when the break control is set. -/
def breakLoses (r r' : Tx) : Bool := r.sbc && r'.full ≠ r.full

theorem breakLoses_same {r' : Tx} (same : r'.full = r.full) : breakLoses r r' = false := by
  unfold breakLoses
  rw [decide_eq_false (not_not.mpr same), Bool.and_false]

theorem pred_ne (full : BitVec 32) : full - 1 ≠ full := by
  intro same
  have := congrArg (full - ·) same
  simp at this

theorem shiftedOut_full (r : Tx) : r.shiftedOut.full = if r.full = 0 then r.full else r.full - 1 := by
  unfold Tx.shiftedOut
  split <;> rfl

theorem breakLoses_taken {r' : Tx} (taken : r'.full = if r.full = 0 then r.full else r.full - 1) :
    breakLoses r r' = (r.sbc && r.full ≠ 0) := by
  unfold breakLoses
  rw [taken]
  by_cases empty : r.full = 0
  · rw [if_pos empty, decide_eq_false (not_not.mpr rfl), decide_eq_false (not_not.mpr empty)]
  · rw [if_neg empty, decide_eq_true (pred_ne r.full), decide_eq_true empty]

/-- What is on its way when the shift register takes the next character, under a break or not. -/
theorem onWay_taken {r' : Tx} (sent : r'.sent = r.sent) (shifting : r.shifting = [])
    (taken : r'.shifting ++ r'.queue = if r.sbc then r.queue.tail else r.queue) (loses : breakLoses r r' = (r.sbc && r.full ≠ 0)) :
    r'.onWay = if breakLoses r r' then r.onWay.eraseIdx r.sent.length else r.onWay := by
  unfold onWay
  rw [List.append_assoc, taken, sent, loses, shifting, List.append_nil]
  cases r.sbc with
  | false => rfl
  | true =>
    by_cases empty : r.full = 0
    · rw [queue_empty empty, decide_eq_false (not_not.mpr empty)]
      rfl
    · rw [decide_eq_true empty, List.eraseIdx_append_of_length_le (Nat.le_refl _), Nat.sub_self, List.eraseIdx_zero]
      rfl

theorem Good.txSend (good : r.Good) {m : Nat} (queued : r.sends = m + 1) : r.full ≠ 0 ∧ { r with sends := m }.send.Good ∧
    { r with sends := m }.send.onWay = if breakLoses r { r with sends := m }.send then r.onWay.eraseIdx r.sent.length else r.onWay := by
  have sends := good.sends
  rw [queued] at sends
  have waits : (r.txsere && decide (r.full ≠ 0)) = true := by
    by_contra not
    rw [if_neg not] at sends
    cases sends
  obtain ⟨idle, some⟩ := Bool.and_eq_true_iff.mp waits
  have some : r.full ≠ 0 := of_decide_eq_true some
  have clocks := good.clocks
  have breaks := good.breaks
  rw [idle] at clocks breaks
  rw [waits] at sends
  have next : Idle { r with sends := m } := ⟨⟨good.ring.fifoLen, good.ring.valid, good.ring.txbufe⟩, Nat.succ.inj sends, clocks, breaks⟩
  obtain ⟨after, sent, -, taken⟩ := next.send some
  refine ⟨some, after, onWay_taken sent ?_ taken (breakLoses_taken (if_neg some).symm)⟩
  unfold shifting
  rw [idle]
  rfl

theorem Good.charClock (good : r.Good) {m : Nat} (queued : r.clocks = m + 1) : { r with clocks := m }.charClock.Good ∧
    { r with clocks := m }.charClock.onWay = if breakLoses r { r with clocks := m }.charClock then r.onWay.eraseIdx r.sent.length
      else r.onWay := by
  have clocks := good.clocks
  rw [queued] at clocks
  have busy : (r.txsere || r.sbc) = false := by
    by_contra not
    rw [if_pos (Bool.eq_true_of_not_eq_false not)] at clocks
    cases clocks
  obtain ⟨busy', char⟩ := Bool.or_eq_false_iff.mp busy
  have sends := good.sends
  have breaks := good.breaks
  rw [busy'] at sends
  rw [char, Bool.and_false] at breaks
  rw [busy] at clocks
  have next : Idle { r with clocks := m, sent := r.sent ++ [r.txser] } :=
    ⟨⟨good.ring.fifoLen, good.ring.valid, good.ring.txbufe⟩, sends, Nat.succ.inj clocks, breaks⟩
  obtain ⟨after, sent, -, taken⟩ := next.shiftedOut
  have none : breakLoses r { r with clocks := m }.charClock = false := by
    unfold breakLoses
    rw [char, Bool.false_and]
  rw [none, if_neg Bool.false_ne_true]
  refine ⟨after, ?_⟩
  show { r with clocks := m, sent := r.sent ++ [r.txser] }.shiftedOut.onWay = _
  unfold onWay
  rw [List.append_assoc, taken, sent, if_neg (show ¬r.sbc = true by rw [char]; exact Bool.false_ne_true)]
  unfold shifting
  rw [busy]
  rfl

theorem Good.sendBreak (good : r.Good) {m : Nat} (queued : r.breaks = m + 1) : { r with breaks := m }.shiftedOut.Good ∧
    { r with breaks := m }.shiftedOut.onWay =
      if breakLoses r { r with breaks := m }.shiftedOut then r.onWay.eraseIdx r.sent.length else r.onWay := by
  have breaks := good.breaks
  rw [queued] at breaks
  have under : (!r.txsere && r.sbc) = true := by
    by_contra not
    rw [if_neg not] at breaks
    cases breaks
  obtain ⟨busy, control⟩ := Bool.and_eq_true_iff.mp under
  rw [Bool.not_eq_true'] at busy
  have sends := good.sends
  have clocks := good.clocks
  rw [busy] at sends
  rw [control, Bool.or_true] at clocks
  rw [under] at breaks
  have next : Idle { r with breaks := m } := ⟨⟨good.ring.fifoLen, good.ring.valid, good.ring.txbufe⟩, sends, clocks, Nat.succ.inj breaks⟩
  obtain ⟨after, sent, -, taken⟩ := next.shiftedOut
  refine ⟨after, onWay_taken sent ?_ taken (breakLoses_taken (shiftedOut_full _))⟩
  unfold shifting
  rw [control, Bool.or_true]
  rfl

end Tx

/-! ### Steps -/

/-- The transmitter between two calls. -/
def System.tx (s : System) : Tx := Uart.tx (fun job => queued job s.bus.scheduler) { s.dev with effects := [] }

section
variable {c : Config} {s s' : System}

theorem served_tx {n : Job → Nat} {bus : Bus Job} {u : Dev} (performed : Peripheral.perform bus u.effects = some s'.bus)
    (dev : s'.dev = u) (before : ∀ job, queued job bus.scheduler = n job) : s'.tx = tx n u := by
  have after (job : Job) : queued job s'.bus.scheduler = tally job (n job) u.effects := by
    rw [Peripheral.perform_queued job performed, before]
  have is : s'.tx = { tx n u with
      sends := queued .txSend s'.bus.scheduler, clocks := queued .charClock s'.bus.scheduler, breaks :=
        queued .sendBreak s'.bus.scheduler } := by
    rw [← dev]
    rfl
  rw [is, after, after, after]
  rfl

theorem serve_tx {f : Dev → Dev} {g : Tx → Tx} (sends : ∀ n, Sends n g { s.dev with effects := [] } (f { s.dev with effects := [] }))
    (ran : s.serve f = some s') (clean : Clean s.dev) : s'.tx = g s.tx ∧ Clean s'.dev := by
  obtain ⟨bus, performed, rfl⟩ := Option.map_eq_some_iff.mp ran
  have started : Clean { s.dev with effects := [] } := ⟨clean.rxser, clean.rxbuf⟩
  obtain ⟨same, kept⟩ := sends (fun job => queued job s.bus.scheduler) started
  exact ⟨(served_tx performed rfl fun _ => rfl).trans same, kept⟩

theorem step_read_tx {addr : Nat} (ran : step c s (.read addr) = some s') (clean : Clean s.dev) : s'.tx = s.tx ∧ Clean s'.dev :=
  serve_tx (f := fun u => (readByte addr u).2) (fun _ => (apart_readByte addr _).sends) ran clean

theorem step_write_tx {addr : Nat} {value : Byte} (ran : step c s (.write addr value) = some s') (clean : Clean s.dev) :
    s'.tx = written s.dev addr value s.tx ∧ Clean s'.dev :=
  serve_tx (f := writeByte addr value) (fun _ => sends_writeByte addr value _) ran clean

/-- The transmitter with a job taken from the queue. -/
def Tx.left (job : Job) (r : Tx) : Tx := { r with
  sends := if job = .txSend then r.sends - 1 else r.sends
  clocks := if job = .charClock then r.clocks - 1 else r.clocks
  breaks := if job = .sendBreak then r.breaks - 1 else r.breaks }

theorem Tx.left_sends {r : Tx} {m : Nat} (once : r.sends = m + 1) : r.left .txSend = { r with sends := m } := by
  show { r with sends := r.sends - 1 } = _
  rw [once]
  rfl

theorem Tx.left_clocks {r : Tx} {m : Nat} (once : r.clocks = m + 1) : r.left .charClock = { r with clocks := m } := by
  show { r with clocks := r.clocks - 1 } = _
  rw [once]
  rfl

theorem Tx.left_breaks {r : Tx} {m : Nat} (once : r.breaks = m + 1) : r.left .sendBreak = { r with breaks := m } := by
  show { r with breaks := r.breaks - 1 } = _
  rw [once]
  rfl

theorem step_job_tx {read : ChannelRead} (ran : step c s (.job read) = some s') (clean : Clean s.dev) :
    Clean s'.dev ∧ (s'.tx = s.tx ∨ ∃ job, queued job s.bus.scheduler ≠ 0 ∧ s'.tx = performed job (s.tx.left job)) := by
  unfold step at ran
  dsimp only at ran
  split at ran
  · next due =>
    obtain ⟨⟨tmp, scheduler⟩, popped, ran⟩ := Option.bind_eq_some_iff.mp ran
    have jobs := Peripheral.jobs_popJob popped
    have left (job : Job) : queued job scheduler = if job = tmp.item.job then queued job s.bus.scheduler - 1
        else queued job s.bus.scheduler := by
      unfold queued
      rw [jobs, List.count_cons]
      by_cases same : job = tmp.item.job
      · rw [if_pos same, if_pos (by simpa using same.symm)]
        rfl
      · rw [if_neg same, if_neg (by simpa using Ne.symm same)]
        rfl
    obtain ⟨after, kept⟩ :=
      serve_tx (s := ⟨s.dev, scheduler, s.bus.line⟩) (f := runJob c read tmp.item.job)
        (fun _ => sends_runJob read tmp.item.job _) ran clean
    have counted : queued tmp.item.job s.bus.scheduler ≠ 0 := by
      unfold queued
      rw [jobs, List.count_cons_self]
      exact Nat.succ_ne_zero _
    refine ⟨kept, .inr ⟨tmp.item.job, counted, after.trans (congrArg _ ?_)⟩⟩
    show { s.tx with sends := queued Job.txSend scheduler, clocks := queued Job.charClock scheduler,
                     breaks := queued Job.sendBreak scheduler } = _
    rw [left, left, left]
    unfold Tx.left
    simp only [eq_comm (a := tmp.item.job)]
    rfl
  · cases ran
    exact ⟨clean, .inl rfl⟩

/-- What is queued and registered of the transmitter stays. -/
theorem tx_same (dev : s'.dev = s.dev) (same : ∀ job, sending job = true → queued job s'.bus.scheduler = queued job s.bus.scheduler) :
    s'.tx = s.tx := by
  have is : s'.tx = { s.tx with
      sends := queued .txSend s'.bus.scheduler, clocks := queued .charClock s'.bus.scheduler, breaks :=
        queued .sendBreak s'.bus.scheduler } := by
    unfold System.tx
    rw [dev]
    rfl
  rw [is, same .txSend rfl, same .charClock rfl, same .sendBreak rfl]
  rfl

theorem step_vapi_tx {data : BitVec 32} (ran : step c s (.vapi data) = some s') (clean : Clean s.dev) : s'.tx = s.tx ∧ Clean s'.dev := by
  unfold step at ran
  dsimp only at ran
  split at ran
  · cases ran
    exact ⟨rfl, clean⟩
  · obtain ⟨u, read, ran⟩ := Option.bind_eq_some_iff.mp ran
    obtain ⟨bus, performed, ran⟩ := Option.bind_eq_some_iff.mp ran
    cases ran
    have started : Clean { s.dev with effects := [] } := ⟨clean.rxser, clean.rxbuf⟩
    have apart : Apart (fun job => queued job s.bus.scheduler) { s.dev with effects := [] } u := by
      unfold vapiRead at read
      dsimp only at read
      split at read
      · cases read
      · cases read
        split
        · refine Apart.trans ?_ (apart_vapiCmd c vapiBufLen _)
          exact .of_eq rfl rfl rfl
        · exact .of_eq rfl rfl rfl
    obtain ⟨same, kept⟩ := apart started
    exact ⟨(served_tx performed rfl fun _ => rfl).trans same, kept⟩

theorem step_other_tx {n : Nat} {time : Int} (ran : step c s (.other n time) = some s') : s'.tx = s.tx ∧ s'.dev = s.dev := by
  obtain ⟨bus, performed, rfl⟩ := Option.map_eq_some_iff.mp ran
  refine ⟨tx_same rfl fun job sends => ?_, rfl⟩
  refine (Peripheral.Effect.perform_queued job performed).trans (if_neg ?_)
  rintro rfl
  cases sends

theorem step_advance_tx {n : Nat} (ran : step c s (.advance n) = some s') : s'.tx = s.tx ∧ s'.dev = s.dev := by
  cases ran
  exact ⟨tx_same rfl fun job _ => congrArg (List.count _) (Peripheral.jobs_advance s.bus.scheduler n), rfl⟩

theorem reset_tx {u : Dev} {b : Bus Job} (fresh : Fresh b) (ran : (⟨u, b⟩ : System).serve (reset c) = some s) :
    s.tx.Good ∧ Clean s.dev ∧ s.tx.onWay = s.dev.sent := by
  have none (job : Job) (sends : sending job = true) : queued job b.scheduler = 0 := by
    by_contra some
    obtain ⟨n, rfl⟩ := fresh.jobs job some
    cases sends
  let started : Dev := { reset c { u with effects := [] } with effects := [] }
  have apart : Apart (fun job => queued job b.scheduler) started (reset c { u with effects := [] }) := by
    unfold started reset schedRecvCheck
    dsimp only
    split
    · refine Apart.trans ?_ (apart_schedAdd rfl _ _)
      exact .of_eq rfl rfl rfl
    · exact .of_eq rfl rfl rfl
  have values : started.rxser = 0 ∧ started.rxbuf = (fun _ => 0) ∧ started.lcr = lcrReset ∧ started.lsr = lsrTxbufe ||| lsrTxsere ∧
      started.txbufHead = 0 ∧ started.txbufTail = 0 ∧ started.txbufFull = 0 ∧ started.fifoLen = (if c.uart16550 then 16 else 1) := by
    unfold started reset schedRecvCheck
    dsimp only
    split <;> exact ⟨rfl, rfl, rfl, rfl, rfl, rfl, rfl, rfl⟩
  obtain ⟨rxser, rxbuf, lcr, lsr, head, tail, full, fifoLen⟩ := values
  have clean : Clean started := by
    refine ⟨?_, fun i => ?_⟩
    · rw [rxser]
      decide
    · rw [rxbuf]
      exact clean_byte 0
  obtain ⟨bus, performed, rfl⟩ := Option.map_eq_some_iff.mp ran
  obtain ⟨same, clean⟩ := apart clean
  have is : (⟨reset c { u with effects := [] }, bus⟩ : System).tx = tx (fun job => queued job b.scheduler) started :=
    (served_tx performed rfl fun _ => rfl).trans same
  have positive : 0 < started.fifoLen := by
    rw [fifoLen]
    split <;> decide
  have idle : (tx (fun job => queued job b.scheduler) started).txsere = true := by
    show has started.lsr lsrTxsere = true
    rw [lsr]
    decide
  refine ⟨?_, clean, ?_⟩
  · rw [is]
    refine ⟨⟨?_, ?_, ?_⟩, ?_, ?_, ?_⟩
    · show started.fifoLen = 1 ∨ started.fifoLen = 16
      rw [fifoLen]
      split
      · exact .inr rfl
      · exact .inl rfl
    · show RingBuffer.Valid started.fifoLen started.txbufHead started.txbufTail started.txbufFull.toNat
      rw [head, tail, full]
      exact RingBuffer.Valid.empty positive
    · show has started.lsr lsrTxbufe = decide (started.txbufFull = 0)
      rw [lsr, full]
      decide
    · rw [idle]
      refine (none .txSend rfl).trans ?_
      show 0 = if true && decide (started.txbufFull ≠ 0) then 1 else 0
      rw [full]
      rfl
    · rw [idle]
      exact none .charClock rfl
    · rw [idle]
      exact none .sendBreak rfl
  · rw [is]
    unfold Tx.onWay
    rw [Tx.queue_empty full]
    unfold Tx.shifting
    rw [idle]
    show started.sent ++ [] ++ [] = _
    rw [List.append_nil, List.append_nil]

/-! ### Runs -/

/-- No write ends a break while it, or the character before it, is being sent, and none puts another character over the
oldest of sixteen. -/
def TxKeeps (u : Dev) : Act → Prop
  | .write 0 value => has u.lcr lcrDlab = false → u.fifoLen = 16 → u.txbufFull.toNat = 16 → value = u.txbuf u.txbufTail
  | .write 3 value => has u.lcr lcrSbc = true → has value lcrSbc = false → has u.lsr lsrTxsere = true
  | _ => True

instance (u : Dev) (act : Act) : Decidable (TxKeeps u act) := by
  unfold TxKeeps
  split <;> infer_instance

/-- The characters that are accepted and not discarded: a write adds one when there is room and replaces the one that waits
when there is no FIFO, and a reset of the buffer and a break discard some. -/
def keptAfter (kept : List Byte) (u u' : Dev) : Act → List Byte
  | .write 0 value =>
    if has u.lcr lcrDlab then kept
    else if u.txbufFull.toNat < u.fifoLen then kept ++ [value]
    else if u.fifoLen = 1 then kept.dropLast ++ [value]
    else kept
  | .write 2 value => if has (fcrValue u.fifoLen value) fcrRtxfi then kept.take (kept.length - u.txbufFull.toNat) else kept
  | .write 3 value => if !has u.lcr lcrSbc && has value lcrSbc && !has u.lsr lsrTxsere then kept.eraseIdx u.sent.length else kept
  | .job _ => if has u.lcr lcrSbc && u'.txbufFull ≠ u.txbufFull then kept.eraseIdx u.sent.length else kept
  | _ => kept

/-- The runs from a reset whose steps keep the transmitter in order, with the characters to be sent. -/
inductive Transmitted (c : Config) : System → List Byte → Prop where
  | reset {u : Dev} {b : Bus Job} {s : System} (fresh : Fresh b) (ran : (⟨u, b⟩ : System).serve (reset c) = some s) :
  Transmitted c s s.dev.sent
  | step {s s' : System} {kept : List Byte} (act : Act) (before : Transmitted c s kept) (keeps : TxKeeps s.dev act)
      (ran : step c s act = some s') : Transmitted c s' (keptAfter kept s.dev s'.dev act)

/-- The transmitter is in order, and what is on its way are the characters to be sent. -/
structure InLine (s : System) (kept : List Byte) : Prop where
  clean : Clean s.dev
  good : s.tx.Good
  order : kept = s.tx.onWay

theorem InLine.same {kept : List Byte} (inLine : InLine s kept) (tx : s'.tx = s.tx) (clean : Clean s'.dev) : InLine s' kept :=
  ⟨clean, tx ▸ inLine.good, tx ▸ inLine.order⟩

theorem write_onWay {r : Tx} (good : r.Good) {value : Byte}
    (keeps : r.fifoLen = 16 → r.full.toNat = 16 → value = r.txbuf r.tail) :
    (r.write value).Good ∧ (if r.full.toNat < r.fifoLen then r.onWay ++ [value] else if r.fifoLen = 1 then r.onWay.dropLast ++ [value]
      else r.onWay) =
      (r.write value).onWay := by
  by_cases room : r.full.toNat < r.fifoLen
  · obtain ⟨after, onWay⟩ := good.write value room
    rw [if_pos room]
    exact ⟨after, onWay.symm⟩
  · obtain ⟨after, onWay⟩ := good.overwrite value room
    have whole : r.full.toNat = r.fifoLen := Nat.le_antisymm good.ring.valid.full_le (Nat.le_of_not_lt room)
    have length := r.length_queue
    refine ⟨after, ?_⟩
    rw [if_neg room, onWay]
    unfold Tx.onWay
    cases queue : r.queue with
    | nil =>
      rw [queue, whole] at length
      exact absurd good.ring.valid.positive (Nat.not_lt.mpr (Nat.le_of_eq length.symm))
    | cons oldest rest =>
      rcases good.ring.fifoLen with one | sixteen
      · rw [queue, whole, one] at length
        rw [if_pos one, List.eq_nil_of_length_eq_zero (Nat.succ.inj length), List.dropLast_concat]
        rfl
      · have some : r.full ≠ 0 := by
          intro empty
          rw [empty, sixteen] at whole
          cases whole
        have first := good.ring.queue_cons some
        rw [queue] at first
        rw [if_neg (by omega), keeps sixteen (whole.trans sixteen), (List.cons.inj first).1, List.tail_cons]

theorem write_inLine {kept : List Byte} {addr : Nat} {value : Byte} (inLine : InLine s kept) (keeps : TxKeeps s.dev (.write addr value))
    (ran : step c s (.write addr value) = some s') : InLine s' (keptAfter kept s.dev s'.dev (.write addr value)) := by
  obtain ⟨clean, good, order⟩ := inLine
  obtain ⟨tx, kept⟩ := step_write_tx ran clean
  suffices (written s.dev addr value s.tx).Good ∧ keptAfter s.tx.onWay s.dev s'.dev (.write addr value) =
      (written s.dev addr value s.tx).onWay by
    rw [order]
    exact ⟨kept, tx ▸ this.1, this.2.trans (congrArg Tx.onWay tx.symm)⟩
  unfold written
  by_cases txbuf : addr = 0 ∧ has s.dev.lcr lcrDlab = false
  · obtain ⟨rfl, latch⟩ := txbuf
    rw [if_pos ⟨rfl, latch⟩]
    show _ ∧ (if has s.dev.lcr lcrDlab then s.tx.onWay else _) = _
    rw [latch, if_neg Bool.false_ne_true]
    exact write_onWay good (keeps latch)
  rw [if_neg txbuf]
  by_cases fcr : addr = 2
  · subst fcr
    rw [if_pos rfl]
    have same : has (fcrValue s.dev.fifoLen value) fcrRtxfi = false → newFifoLen s.dev.fifoLen value = s.tx.fifoLen :=
      fun keeps => newFifoLen_same good.ring.fifoLen (.inr keeps)
    obtain ⟨after, onWay⟩ := good.control (newFifoLen_size s.dev.fifoLen value) same
    exact ⟨after, onWay.symm⟩
  rw [if_neg fcr]
  by_cases lcr : addr = 3
  · subst lcr
    rw [if_pos rfl]
    obtain ⟨after, onWay⟩ := good.setBreak keeps
    exact ⟨after, onWay.symm⟩
  rw [if_neg lcr]
  refine ⟨good, ?_⟩
  unfold keptAfter
  split
  · next is =>
    cases is
    exact if_pos (Bool.eq_true_of_not_eq_false fun latch => txbuf ⟨rfl, latch⟩)
  · next is =>
    cases is
    exact absurd rfl fcr
  · next is =>
    cases is
    exact absurd rfl lcr
  · next is => cases is
  · rfl

theorem job_inLine {kept : List Byte} {read : ChannelRead} (inLine : InLine s kept) (ran : step c s (.job read) = some s') :
    InLine s' (keptAfter kept s.dev s'.dev (.job read)) := by
  obtain ⟨clean, good, order⟩ := inLine
  have lost : keptAfter kept s.dev s'.dev (.job read) = if Tx.breakLoses s.tx s'.tx then kept.eraseIdx s.tx.sent.length else kept := rfl
  rw [lost, order]
  obtain ⟨kept, same | ⟨job, counted, tx⟩⟩ := step_job_tx ran clean
  · rw [same, Tx.breakLoses_same rfl, if_neg Bool.false_ne_true]
    exact ⟨kept, same ▸ good, by rw [same]⟩
  · obtain ⟨m, once⟩ := Nat.exists_eq_succ_of_ne_zero counted
    rw [tx]
    suffices (performed job (s.tx.left job)).Good ∧ (performed job (s.tx.left job)).onWay =
        if Tx.breakLoses s.tx (performed job (s.tx.left job)) then s.tx.onWay.eraseIdx s.tx.sent.length else s.tx.onWay from
      ⟨kept, tx ▸ this.1, this.2.symm.trans (congrArg Tx.onWay tx.symm)⟩
    have idle (quiet : performed job (s.tx.left job) = s.tx) :
      (performed job (s.tx.left job)).Good ∧ (performed job (s.tx.left job)).onWay =
        if Tx.breakLoses s.tx (performed job (s.tx.left job)) then s.tx.onWay.eraseIdx s.tx.sent.length else s.tx.onWay := by
      rw [quiet, Tx.breakLoses_same rfl]
      exact ⟨good, rfl⟩
    cases job with
    | txSend =>
      rw [Tx.left_sends once]
      exact (good.txSend once).2
    | charClock =>
      rw [Tx.left_clocks once]
      exact good.charClock once
    | sendBreak =>
      rw [Tx.left_breaks once]
      exact good.sendBreak once
    | intCti | recvChar | recvBreak | recvBreakStart | recvBreakStop | checkChar | vapiCmd | other => exact idle rfl

theorem reset_inLine {u : Dev} {b : Bus Job} (fresh : Fresh b) (ran : (⟨u, b⟩ : System).serve (reset c) = some s) :
    InLine s s.dev.sent := by
  obtain ⟨good, clean, onWay⟩ := reset_tx fresh ran
  exact ⟨clean, good, onWay.symm⟩

theorem Transmitted.inLine {kept : List Byte} (log : Transmitted c s kept) : InLine s kept := by
  induction log with
  | reset fresh ran => exact reset_inLine fresh ran
  | step act _ keeps ran ih =>
    cases act with
    | read addr =>
      obtain ⟨tx, clean⟩ := step_read_tx ran ih.clean
      exact ih.same tx clean
    | write addr value => exact write_inLine ih keeps ran
    | job read => exact job_inLine ih ran
    | vapi data =>
      obtain ⟨tx, clean⟩ := step_vapi_tx ran ih.clean
      exact ih.same tx clean
    | other n time =>
      obtain ⟨tx, dev⟩ := step_other_tx ran
      exact ih.same tx (dev ▸ ih.clean)
    | advance n =>
      obtain ⟨tx, dev⟩ := step_advance_tx ran
      exact ih.same tx (dev ▸ ih.clean)

/-- In every run whose steps keep the transmitter in order, what was accepted and not discarded has been sent, is being sent
or waits in the buffer, in order; the buffer is a ring, `LSR` says whether it is empty, and one job is queued unless
nothing is to be sent. -/
theorem transmitted_in_order {kept : List Byte} (log : Transmitted c s kept) :
    kept = s.dev.sent ++ s.tx.shifting ++ s.tx.queue ∧
      s.dev.txbufFull.toNat ≤ s.dev.fifoLen ∧ s.dev.txbufHead = (s.dev.txbufTail + s.dev.txbufFull.toNat) % s.dev.fifoLen ∧
      (queued .txSend s.bus.scheduler ≠ 0 → s.dev.txbufFull ≠ 0) ∧
      queued .txSend s.bus.scheduler + queued .charClock s.bus.scheduler + queued .sendBreak s.bus.scheduler =
        (if has s.dev.lsr lsrTxsere && s.dev.txbufFull = 0 then 0 else 1) ∧
      (has s.dev.lsr lsrTxbufe = true ↔ s.dev.txbufFull = 0) := by
  obtain ⟨-, good, order⟩ := log.inLine
  have sends : queued .txSend s.bus.scheduler = if has s.dev.lsr lsrTxsere && s.dev.txbufFull ≠ 0 then 1 else 0 := good.sends
  have clocks : queued .charClock s.bus.scheduler = if has s.dev.lsr lsrTxsere || has s.dev.lcr lcrSbc then 0 else 1 := good.clocks
  have breaks : queued .sendBreak s.bus.scheduler = if !has s.dev.lsr lsrTxsere && has s.dev.lcr lcrSbc then 1 else 0 := good.breaks
  have txbufe : has s.dev.lsr lsrTxbufe = decide (s.dev.txbufFull = 0) := good.ring.txbufe
  refine ⟨order, good.ring.valid.full_le, good.ring.valid.head_eq, fun some => ?_, ?_, ?_⟩
  · rw [sends] at some
    have waits := Bool.and_eq_true_iff.mp (by_contra fun not => some (if_neg not))
    exact of_decide_eq_true waits.2
  · rw [sends, clocks, breaks, decide_not]
    generalize decide (s.dev.txbufFull = 0) = empty
    cases has s.dev.lsr lsrTxsere <;> cases has s.dev.lcr lcrSbc <;> cases empty <;> rfl
  · rw [txbufe, decide_eq_true_iff]

end

/-- Some steps in a row that keep the transmitter in order, with the characters to be sent. -/
def keptSteps (c : Config) (s : System) (kept : List Byte) : List Act → Option (System × List Byte)
  | [] => some (s, kept)
  | act :: acts =>
    if TxKeeps s.dev act then (step c s act).bind fun s' => keptSteps c s' (keptAfter kept s.dev s'.dev act) acts else none

theorem Transmitted.steps {c : Config} {s s' : System} {kept kept' : List Byte} (log : Transmitted c s kept) {acts : List Act}
    (ran : keptSteps c s kept acts = some (s', kept')) : Transmitted c s' kept' := by
  induction acts generalizing s kept with
  | nil =>
    cases ran
    exact log
  | cons act acts ih =>
    unfold keptSteps at ran
    split at ran
    · next keeps =>
      obtain ⟨mid, first, rest⟩ := Option.bind_eq_some_iff.mp ran
      exact ih (log.step act keeps first) rest
    · cases ran

/-- Three characters are written: the first has been sent, the second is being sent, and the third waits. -/
theorem transmitted_in_order_three : ∃ s kept, Transmitted ⟨0, true⟩ s kept ∧ kept = [65, 66, 67] ∧ s.dev.sent = [65] ∧
    kept = s.dev.sent ++ s.tx.shifting ++ s.tx.queue := by
  let acts : List Act := [.write 0 65, .write 0 66, .write 0 67, .job .nothing, .job .nothing]
  have seen : ((poweredOn ⟨0, true⟩).bind fun s => keptSteps ⟨0, true⟩ s s.dev.sent acts).map (fun r => (r.1.dev.sent, r.2)) =
      some ([65], [65, 66, 67]) := by decide +kernel
  obtain ⟨⟨s, kept⟩, ran, is⟩ := Option.map_eq_some_iff.mp seen
  obtain ⟨on, started, ran⟩ := Option.bind_eq_some_iff.mp ran
  obtain ⟨sent, all⟩ := Prod.mk.inj is
  obtain ⟨u, b, fresh, began⟩ := poweredOn_fresh started
  have log : Transmitted ⟨0, true⟩ s kept := (Transmitted.reset fresh began).steps ran
  exact ⟨s, kept, log, all, sent, (transmitted_in_order log).1⟩

/-- A break that is ended at once leaves its job and that of the next character behind, and the number of characters goes
below zero; and a character that is written to a full buffer is sent in place of the oldest one. -/
theorem stray_job : (∃ s, Reached ⟨0, true⟩ s ∧ s.dev.txbufFull = 0xffffffff) ∧
    ∃ s, Reached ⟨0, true⟩ s ∧ s.dev.sent = [99] := by
  let ended : List Act := [.write 0 65, .job .nothing, .write 3 0x43, .write 3 0x03, .job .nothing]
  let written : List Act := (List.range 16).map (fun i => .write 0 (BitVec.ofNat 8 i)) ++ [.write 0 99, .job .nothing, .job .nothing]
  have below : ((poweredOn ⟨0, true⟩).bind fun s => steps ⟨0, true⟩ s ended).map (fun s => s.dev.txbufFull) = some 0xffffffff := by
    decide +kernel
  have replaced : ((poweredOn ⟨0, true⟩).bind fun s => steps ⟨0, true⟩ s written).map (fun s => s.dev.sent) = some [99] := by
    decide +kernel
  obtain ⟨s, ran, full⟩ := Option.map_eq_some_iff.mp below
  obtain ⟨on, started, ran⟩ := Option.bind_eq_some_iff.mp ran
  obtain ⟨s', ran', sent⟩ := Option.map_eq_some_iff.mp replaced
  obtain ⟨on', started', ran'⟩ := Option.bind_eq_some_iff.mp ran'
  exact ⟨⟨s, (poweredOn_reached started).steps ran, full⟩, s', (poweredOn_reached started').steps ran', sent⟩

end Or1ksim.Uart
