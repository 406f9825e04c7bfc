import Or1ksim.Peripheral.Receive

/-!
# What the receiver of the UART hands over

Along every run the characters that were stored, and not discarded by a reset of the buffer, are those that reads of
`RXBUF` have returned, followed by those in the buffer.
-/

namespace Or1ksim.Uart

open Peripheral (Effect Bus tally queued)
open Flags (has)

namespace Rx

/-- The characters in the buffer, with the status that each one carries. -/
def queue (r : Rx) : List (BitVec 16) := RingBuffer.contents r.rxbuf r.fifoLen r.tail r.full.toNat

/-- The buffer is a ring of one place or of sixteen, `LSR` says whether it holds something, and then its timeout is queued
or pending, once. -/
structure Good (r : Rx) : Prop where
  fifoLen : r.fifoLen = 1 ∨ r.fifoLen = 16
  ring : RingBuffer.Valid r.fifoLen r.head r.tail r.full.toNat
  rdrdy : r.rdrdy = decide (r.full ≠ 0)
  timeout : r.queued + r.pending.toNat = if r.full = 0 then 0 else 1

variable {r : Rx}

theorem Good.full_lt (good : r.Good) : r.full.toNat ≤ 16 := by
  have := good.ring.full_le
  have := good.fifoLen
  omega

theorem Good.next_full (good : r.Good) : (r.full + 1).toNat = r.full.toNat + 1 := full_succ good.full_lt

theorem Good.disarm (good : r.Good) : r.disarm.queued = 0 := by
  have once := good.timeout
  show r.queued - 1 = 0
  split at once <;> omega

/-- A character is stored behind the others, or is lost with the overrun noted. -/
structure Adds (r : Rx) (ch : BitVec 16) (r' : Rx) : Prop where
  good : r'.Good
  received : r'.received = r.received ++ [ch]
  queue : r'.queue = if r.full.toNat < r.fifoLen then r.queue ++ [ch] else r.queue
  ovrrun : r.ovrrun = true ∨ r.fifoLen ≤ r.full.toNat → r'.ovrrun = true

theorem Good.add (good : r.Good) (ch : BitVec 16) : Adds r ch (r.add ch) := by
  let noted : Rx := { r with rdrdy := true, received := r.received ++ [ch] }.disarm.arm
  have armed : noted.queued = 1 := congrArg (· + 1) good.disarm
  show Adds r ch (if r.fifoLen < (r.full + 1).toNat then { noted with ovrrun := true } else { noted with
    rxbuf := put r.rxbuf r.head ch
    head := (r.head + 1) % r.fifoLen
    full := r.full + 1
    rdrdy := true || (decide (r.full = 0) && has (lineStatus ch) lsrRdrdy)
    ovrrun := r.ovrrun || (decide (r.full = 0) && has (lineStatus ch) lsrOvrrun) })
  have positive := good.ring.positive
  by_cases full : r.fifoLen < (r.full + 1).toNat
  · rw [if_pos full]
    rw [good.next_full] at full
    have some : r.full ≠ 0 := by
      intro empty
      rw [empty] at full
      exact absurd positive (Nat.not_lt.mpr (Nat.le_of_lt_succ full))
    refine ⟨⟨good.fifoLen, good.ring, (decide_eq_true some).symm, ?_⟩, rfl, (if_neg (by omega)).symm, fun _ => rfl⟩
    show noted.queued + 0 = if r.full = 0 then 0 else 1
    rw [armed, if_neg some]
  · rw [if_neg full]
    rw [good.next_full] at full
    have room : r.full.toNat < r.fifoLen := by omega
    have some : r.full + 1 ≠ 0 := by
      intro empty
      have next := good.next_full
      rw [empty] at next
      cases next
    refine ⟨⟨good.fifoLen, ?_, ?_, ?_⟩, rfl, ?_, ?_⟩
    · show RingBuffer.Valid r.fifoLen _ r.tail (r.full + 1).toNat
      rw [good.next_full]
      exact good.ring.push room
    · rw [Bool.true_or]
      exact (decide_eq_true some).symm
    · show noted.queued + 0 = if r.full + 1 = 0 then 0 else 1
      rw [armed, if_neg some]
    · show RingBuffer.contents (put r.rxbuf r.head ch) r.fifoLen r.tail (r.full + 1).toNat = _
      rw [good.next_full, put_eq, RingBuffer.contents_push good.ring room, if_pos room]
      rfl
    · rintro (was | lost)
      · exact Bool.or_eq_true_iff.mpr (.inl was)
      · omega

/-- The first character leaves the buffer. -/
structure Reads (r r' : Rx) : Prop where
  good : r'.Good
  received : r'.received = r.received
  queue : r'.queue = r.queue.tail
  ovrrun : r.ovrrun = true → r'.ovrrun = true

theorem Good.queue_cons (good : r.Good) (some : r.full ≠ 0) :
    r.queue = r.rxbuf r.tail :: r.take.queue ∧ r.take.full.toNat + 1 = r.full.toNat := by
  have left := full_pred some
  have is : r.take = { r with tail := (r.tail + 1) % r.fifoLen, full := r.full - 1 } := if_neg some
  rw [is]
  constructor
  · show RingBuffer.contents r.rxbuf r.fifoLen r.tail r.full.toNat = _ :: RingBuffer.contents r.rxbuf r.fifoLen _ (r.full - 1).toNat
    rw [← left, RingBuffer.contents_pop good.ring.tail_lt]
  · exact left

theorem Good.read (good : r.Good) : Reads r r.read := by
  have taken : RingBuffer.Valid r.fifoLen r.head r.take.tail r.take.full.toNat ∧ r.take.queue = r.queue.tail ∧
    r.take.fifoLen = r.fifoLen ∧
      r.take.received = r.received ∧ r.take.ovrrun = r.ovrrun ∧ r.take.head = r.head ∧ r.take.queued = r.queued := by
    by_cases empty : r.full = 0
    · have is : r.take = r := if_pos empty
      have none : r.queue = [] := by
        unfold queue
        rw [empty]
        rfl
      rw [is, none]
      exact ⟨good.ring, rfl, rfl, rfl, rfl, rfl, rfl⟩
    · obtain ⟨cons, left⟩ := good.queue_cons empty
      have is : r.take = { r with tail := (r.tail + 1) % r.fifoLen, full := r.full - 1 } := if_neg empty
      have ring := good.ring
      rw [← left] at ring
      have popped := ring.pop
      rw [cons]
      rw [is] at popped ⊢
      exact ⟨popped, rfl, rfl, rfl, rfl, rfl, rfl⟩
  obtain ⟨ring, queue, fifoLen, received, ovrrun, head, queued⟩ := taken
  have idle : r.take.disarm.queued = 0 := by
    show r.take.queued - 1 = 0
    rw [queued]
    exact good.disarm
  show Reads r r.take.disarm.showNext
  unfold Rx.showNext
  by_cases empty : r.take.full = 0
  · rw [if_pos (show r.take.disarm.full = 0 from empty)]
    refine ⟨⟨fifoLen ▸ good.fifoLen, ?_, (decide_eq_false (not_not.mpr empty)).symm, ?_⟩, received, queue, fun was => ovrrun.trans was⟩
    · show RingBuffer.Valid r.take.fifoLen r.take.head r.take.tail r.take.full.toNat
      rw [fifoLen, head]
      exact ring
    · show r.take.disarm.queued + 0 = if r.take.full = 0 then 0 else 1
      rw [idle, if_pos empty]
  · rw [if_neg (show r.take.disarm.full ≠ 0 from empty)]
    refine ⟨⟨fifoLen ▸ good.fifoLen, ?_, (decide_eq_true empty).symm, ?_⟩, received, queue,
      fun was => Bool.or_eq_true_iff.mpr (.inl (ovrrun.trans was))⟩
    · show RingBuffer.Valid r.take.fifoLen r.take.head r.take.tail r.take.full.toNat
      rw [fifoLen, head]
      exact ring
    · show r.take.disarm.queued + 1 + 0 = if r.take.full = 0 then 0 else 1
      rw [idle, if_neg empty]

theorem Good.reset (good : r.Good) {len : Nat} (size : len = 1 ∨ len = 16) : (r.reset len).Good ∧ (r.reset len).queue = [] := by
  refine ⟨⟨size, RingBuffer.Valid.empty (show 0 < len by omega), rfl, ?_⟩, rfl⟩
  show r.disarm.queued + 0 = 0
  rw [good.disarm]

theorem Good.readLsr (good : r.Good) : Good { r with ovrrun := false } := ⟨good.fifoLen, good.ring, good.rdrdy, good.timeout⟩

/-- The timeout runs: it was queued, and it is pending now. -/
theorem Good.expire (good : r.Good) (armed : 0 < r.queued) : Good { r with queued := r.queued - 1, pending := true } := by
  have once := good.timeout
  refine ⟨good.fifoLen, good.ring, good.rdrdy, ?_⟩
  show r.queued - 1 + 1 = if r.full = 0 then 0 else 1
  split at once
  · omega
  · next some =>
    rw [if_neg some]
    omega

end Rx

/-! ### Steps -/

/-- The receiver between two calls. -/
def System.rx (s : System) : Rx := Uart.rx (queued .intCti s.bus.scheduler) { s.dev with effects := [] }

section
variable {c : Config} {s s' : System}

theorem served_rx {n : Nat} {bus : Bus Job} {u : Dev} (performed : Peripheral.perform bus u.effects = some s'.bus) (dev : s'.dev = u)
    (before : queued .intCti bus.scheduler = n) : s'.rx = rx n u := by
  have after := Peripheral.perform_queued .intCti performed
  unfold System.rx
  rw [dev, after, before]
  rfl

theorem serve_rx {f : Dev → Dev} (ran : s.serve f = some s') :
    s'.rx = rx (queued .intCti s.bus.scheduler) (f { s.dev with effects := [] }) := by
  obtain ⟨bus, performed, rfl⟩ := Option.map_eq_some_iff.mp ran
  exact served_rx performed rfl rfl

theorem step_read_rx {addr : Nat} (ran : step c s (.read addr) = some s') :
    s'.rx = if addr = 0 ∧ has s.dev.lcr lcrDlab = false then s.rx.read else if addr = 5 then { s.rx with ovrrun := false }
      else s.rx := by
  rw [serve_rx (f := fun u => (readByte addr u).2) ran]
  exact rx_readByte addr _

theorem step_write_rx {addr : Nat} {value : Byte} (good : s.rx.Good) (ran : step c s (.write addr value) = some s') :
    s'.rx = if addr = 2 ∧ has (fcrValue s.dev.fifoLen value) fcrRrxfi = true then s.rx.reset (newFifoLen s.dev.fifoLen value)
      else s.rx := by
  rw [serve_rx (f := writeByte addr value) ran, rx_writeByte]
  by_cases fcr : addr = 2
  · rw [if_pos fcr, rx_writeFcr]
    by_cases discards : has (fcrValue s.dev.fifoLen value) fcrRrxfi = true
    · rw [if_pos discards, if_pos ⟨fcr, discards⟩]
      rfl
    · rw [if_neg discards, if_neg fun both => discards both.2]
      exact congrArg (fun fifoLen => { s.rx with fifoLen }) (newFifoLen_same good.fifoLen (.inl (Bool.eq_false_of_not_eq_true discards)))
  · rw [if_neg fcr, if_neg fun both => fcr both.1]
    rfl

theorem rx_runJob {n : Nat} (read : ChannelRead) {job : Job} (other : job ≠ .intCti) (u : Dev) :
    rx n (runJob c read job u) = rx n u ∨ ∃ ch, rx n (runJob c read job u) = (rx n u).add ch := by
  cases job with
  | intCti => exact absurd rfl other
  | txSend => exact .inl (rx_txSend u)
  | charClock => exact .inl (rx_charClock c u)
  | sendBreak => exact .inl (rx_sendBreak u)
  | recvChar => exact .inr ⟨_, rx_recvChar c u⟩
  | recvBreak => exact .inr ⟨_, rx_addChar _ u⟩
  | recvBreakStart => exact .inl (rx_recvBreakStartWith (rx_vapiCmd c vapiBufLen) c u)
  | recvBreakStop => exact .inl ((rx_schedFindRemove (u := { u with recvBreak := false }) .recvBreak (by decide)).trans rfl)
  | checkChar => exact .inl (rx_checkChar read u)
  | vapiCmd => exact .inl (rx_vapiCmd c vapiBufLen u)
  | other n => exact .inl rfl

theorem step_job_rx {read : ChannelRead} (ran : step c s (.job read) = some s') : s'.rx = s.rx ∨ (∃ ch, s'.rx = s.rx.add ch) ∨
    0 < s.rx.queued ∧ s'.rx = { s.rx with queued := s.rx.queued - 1, pending := true } := by
  unfold step at ran
  dsimp only at ran
  split at ran
  · next due =>
    obtain ⟨⟨tmp, scheduler⟩, popped, ran⟩ := Option.bind_eq_some_iff.mp ran
    rw [serve_rx (s := ⟨s.dev, scheduler, s.bus.line⟩) (f := runJob c read tmp.item.job) ran]
    have left : queued .intCti s.bus.scheduler = (tmp.item.job :: Peripheral.jobs scheduler).count .intCti :=
      congrArg (List.count _) (Peripheral.jobs_popJob popped)
    by_cases timeout : tmp.item.job = .intCti
    · rw [timeout, List.count_cons_self] at left
      have once : s.rx.queued = queued .intCti scheduler + 1 := left
      refine .inr (.inr ⟨by omega, ?_⟩)
      rw [timeout, once]
      show rx _ (Source.cti.raise _) = _
      rw [rx_raise, decide_eq_true rfl, Bool.or_true, Nat.add_sub_cancel]
      rfl
    · rw [List.count_cons_of_ne timeout] at left
      have same : rx (queued .intCti scheduler) { s.dev with effects := [] } = s.rx := by
        unfold System.rx
        rw [left]
        rfl
      rw [← same]
      exact (rx_runJob read timeout _).imp_right .inl
  · cases ran
    exact .inl rfl

theorem step_vapi_rx {data : BitVec 32} (ran : step c s (.vapi data) = some s') : s'.rx = s.rx := by
  unfold step at ran
  dsimp only at ran
  split at ran
  · cases ran
    rfl
  · obtain ⟨u, read, ran⟩ := Option.bind_eq_some_iff.mp ran
    obtain ⟨bus, performed, ran⟩ := Option.bind_eq_some_iff.mp ran
    cases ran
    rw [served_rx performed rfl rfl]
    unfold vapiRead at read
    dsimp only at read
    split at read
    · cases read
    · cases read
      split
      · exact (rx_vapiCmd c vapiBufLen _).trans rfl
      · rfl

theorem step_other_rx {n : Nat} {time : Int} (ran : step c s (.other n time) = some s') : s'.rx = s.rx := by
  obtain ⟨bus, performed, rfl⟩ := Option.map_eq_some_iff.mp ran
  have same := Peripheral.Effect.perform_queued .intCti performed
  unfold System.rx
  rw [show queued .intCti bus.scheduler = queued .intCti s.bus.scheduler from same]

theorem step_advance_rx {n : Nat} (ran : step c s (.advance n) = some s') : s'.rx = s.rx := by
  cases ran
  have same : queued .intCti (Sched.advance s.bus.scheduler n) = queued .intCti s.bus.scheduler :=
    congrArg (List.count _) (Peripheral.jobs_advance s.bus.scheduler n)
  unfold System.rx
  rw [same]

theorem reset_good {u : Dev} {b : Bus Job} (fresh : Fresh b) (ran : (⟨u, b⟩ : System).serve (reset c) = some s) :
    s.rx.Good ∧ s.rx.queue = [] ∧ s.rx.ovrrun = false := by
  have none : queued .intCti b.scheduler = 0 := by
    by_contra some
    obtain ⟨n, is⟩ := fresh.jobs .intCti some
    cases is
  let started : Rx := ⟨fun _ => 0, 0, 0, 0, if c.uart16550 then 16 else 1, u.received, false, false, 0, false⟩
  have is : s.rx = started := by
    rw [serve_rx (s := ⟨u, b⟩) (f := reset c) ran, none]
    have quiet : rx 0 (reset c { u with effects := [] }) =
        { started with rdrdy := has (lsrTxbufe ||| lsrTxsere) lsrRdrdy, ovrrun := has (lsrTxbufe ||| lsrTxsere) lsrOvrrun,
                       pending := has 0 (intBit iirCti) } := by
      unfold reset schedRecvCheck
      dsimp only
      split
      · exact (rx_schedAdd .checkChar (by decide) _).trans rfl
      · rfl
    rw [quiet, show has (lsrTxbufe ||| lsrTxsere) lsrRdrdy =
      false by decide, show has (lsrTxbufe ||| lsrTxsere) lsrOvrrun = false by decide,
      show has 0 (intBit iirCti) = false by decide]
  have size : started.fifoLen = 1 ∨ started.fifoLen = 16 := by
    show (if c.uart16550 then 16 else 1) = 1 ∨ (if c.uart16550 then 16 else 1) = 16
    split
    · exact .inr rfl
    · exact .inl rfl
  rw [is]
  exact ⟨⟨size, RingBuffer.Valid.empty (by omega), rfl, rfl⟩, rfl, rfl⟩

end

/-! ### Runs -/

/-- The character that a read of `RXBUF` returns, when there is one. -/
def delivered (u : Dev) : Act → List Byte
  | .read 0 => if has u.lcr lcrDlab || u.rxbufFull = 0 then [] else [(readByte 0 u).1]
  | _ => []

/-- A write of `FCR` resets the receive buffer. -/
def discards (u : Dev) : Act → Bool
  | .write 2 value => has (fcrValue u.fifoLen value) fcrRrxfi
  | _ => false

/-- The characters that `uart_add_char` has taken in a step. -/
def arrived (u u' : Dev) : List (BitVec 16) := u'.received.drop u.received.length

def room (u : Dev) : Bool := u.rxbufFull.toNat < u.fifoLen

/-- The runs from a reset, with the characters that reads of `RXBUF` have returned, those that were stored and not
discarded before they were read, and whether one has been lost since the last read of `LSR`. -/
inductive Received (c : Config) : System → List Byte → List (BitVec 16) → Bool → Prop where
  | reset {u : Dev} {b : Bus Job} {s : System} (fresh : Fresh b) (ran : (⟨u, b⟩ : System).serve (reset c) = some s) :
  Received c s [] [] false
  | step {s s' : System} {taken : List Byte} {kept : List (BitVec 16)} {lost : Bool} (act : Act) (before : Received c s taken kept lost)
      (ran : step c s act = some s') :
      Received c s' (taken ++ delivered s.dev act)
        ((if discards s.dev act then kept.take taken.length else kept) ++ if room s.dev then arrived s.dev s'.dev else [])
        (act ≠ .read 5 && (lost || (!room s.dev && !(arrived s.dev s'.dev).isEmpty)))

theorem Reached.received {c : Config} {s : System} (run : Reached c s) : ∃ taken kept lost, Received c s taken kept lost := by
  induction run with
  | reset fresh ran => exact ⟨_, _, _, .reset fresh ran⟩
  | step act _ ran ih =>
    obtain ⟨taken, kept, lost, received⟩ := ih
    exact ⟨_, _, _, .step act received ran⟩

/-- The character of an entry of the buffer. -/
def char (entry : BitVec 16) : Byte := entry.setWidth 8

/-- What a run has handed over, and what it still holds. -/
structure InOrder (s : System) (taken : List Byte) (kept : List (BitVec 16)) (lost : Bool) : Prop where
  good : s.rx.Good
  order : kept.map char = taken ++ s.rx.queue.map char
  ovrrun : lost = true → s.rx.ovrrun = true

section
variable {c : Config} {s s' : System} {taken : List Byte} {kept : List (BitVec 16)} {lost : Bool}

theorem InOrder.quiet (inOrder : InOrder s taken kept lost) (good : s'.rx.Good) (received : s'.rx.received = s.rx.received) {a : Act}
    (order : (if discards s.dev a then kept.take taken.length else kept).map char = taken ++ delivered s.dev a ++ s'.rx.queue.map char)
    (ovrrun : a ≠ .read 5 → s.rx.ovrrun = true → s'.rx.ovrrun = true) :
    InOrder s' (taken ++ delivered s.dev a)
      ((if discards s.dev a then kept.take taken.length else kept) ++ if room s.dev then arrived s.dev s'.dev else [])
      (a ≠ .read 5 && (lost || (!room s.dev && !(arrived s.dev s'.dev).isEmpty))) := by
  have none : arrived s.dev s'.dev = [] := by
    have same : s'.dev.received = s.dev.received := received
    unfold arrived
    rw [same, List.drop_length]
  rw [none, ite_self, List.append_nil, List.isEmpty_nil, Bool.not_true, Bool.and_false, Bool.or_false]
  refine ⟨good, order, fun both => ?_⟩
  obtain ⟨other, was⟩ := Bool.and_eq_true_iff.mp both
  exact ovrrun (of_decide_eq_true other) (inOrder.ovrrun was)

theorem InOrder.same (inOrder : InOrder s taken kept lost) (same : s'.rx = s.rx) {a : Act} (nothing : delivered s.dev a = [])
    (keeps : discards s.dev a = false) :
    InOrder s' (taken ++ delivered s.dev a)
      ((if discards s.dev a then kept.take taken.length else kept) ++ if room s.dev then arrived s.dev s'.dev else [])
      (a ≠ .read 5 && (lost || (!room s.dev && !(arrived s.dev s'.dev).isEmpty))) := by
  refine inOrder.quiet (same ▸ inOrder.good) (congrArg Rx.received same) ?_ fun _ was => same ▸ was
  rw [nothing, keeps, if_neg Bool.false_ne_true, List.append_nil, same]
  exact inOrder.order

theorem read_inOrder {addr : Nat} (inOrder : InOrder s taken kept lost) (ran : step c s (.read addr) = some s') :
    InOrder s' (taken ++ delivered s.dev (.read addr)) (kept ++ if room s.dev then arrived s.dev s'.dev else [])
      (Act.read addr ≠ .read 5 && (lost || (!room s.dev && !(arrived s.dev s'.dev).isEmpty))) := by
  have after := step_read_rx ran
  by_cases rxbuf : addr = 0 ∧ has s.dev.lcr lcrDlab = false
  · obtain ⟨rfl, latch⟩ := rxbuf
    rw [if_pos ⟨rfl, latch⟩] at after
    obtain ⟨good, received, queue, ovrrun⟩ := inOrder.good.read
    rw [← after] at good received queue ovrrun
    refine inOrder.quiet (a := .read 0) good received ?_ fun _ => ovrrun
    rw [queue, show discards s.dev (.read 0) = false from rfl, if_neg Bool.false_ne_true, inOrder.order]
    by_cases empty : s.dev.rxbufFull = 0
    · have nothing : delivered s.dev (.read 0) = [] := if_pos (by rw [decide_eq_true empty, Bool.or_true])
      have none : s.rx.queue = [] := by
        have zero : s.rx.full = 0 := empty
        unfold Rx.queue
        rw [zero]
        rfl
      rw [nothing, none, List.append_nil]
      rfl
    · obtain ⟨cons, -⟩ := inOrder.good.queue_cons empty
      have first : delivered s.dev (.read 0) = [char (s.rx.rxbuf s.rx.tail)] := by
        refine (if_neg (by rw [latch, decide_eq_false empty]; decide)).trans ?_
        unfold readByte
        rw [latch]
        show [(takeChar s.dev).1] = _
        unfold takeChar
        rw [if_neg empty]
        rfl
      rw [first, cons, List.map_cons, List.tail_cons, List.append_assoc]
      rfl
  · rw [if_neg rxbuf] at after
    have nothing : delivered s.dev (.read addr) = [] := by
      unfold delivered
      split
      · next is =>
        cases is
        refine if_pos (Bool.or_eq_true_iff.mpr (.inl ?_))
        exact Bool.eq_true_of_not_eq_false fun latch => rxbuf ⟨rfl, latch⟩
      · rfl
    by_cases lsr : addr = 5
    · rw [if_pos lsr] at after
      refine inOrder.quiet (a := .read addr) (after ▸ inOrder.good.readLsr) ((congrArg Rx.received after).trans rfl) ?_ fun other =>
        absurd (congrArg Act.read lsr) other
      rw [nothing, List.append_nil, show s'.rx.queue = s.rx.queue from (congrArg Rx.queue after).trans rfl]
      exact inOrder.order
    · rw [if_neg lsr] at after
      exact inOrder.same (a := .read addr) after nothing rfl

theorem discards_write (u : Dev) (addr : Nat) (value : Byte) :
    discards u (.write addr value) = true ↔ addr = 2 ∧ has (fcrValue u.fifoLen value) fcrRrxfi = true := by
  unfold discards
  split
  · next is =>
    cases is
    exact (and_iff_right rfl).symm
  · next other =>
    refine ⟨fun none => (Bool.false_ne_true none).elim, fun both => ?_⟩
    rw [both.1] at other
    exact absurd rfl (other value)

theorem write_inOrder {addr : Nat} {value : Byte} (inOrder : InOrder s taken kept lost) (ran : step c s (.write addr value) = some s') :
    InOrder s' (taken ++ delivered s.dev (.write addr value))
      ((if discards s.dev (.write addr value) then kept.take taken.length else kept) ++ if room s.dev then arrived s.dev s'.dev else [])
      (Act.write addr value ≠ .read 5 && (lost || (!room s.dev && !(arrived s.dev s'.dev).isEmpty))) := by
  have after := step_write_rx inOrder.good ran
  by_cases fcr : addr = 2 ∧ has (fcrValue s.dev.fifoLen value) fcrRrxfi = true
  · rw [if_pos fcr] at after
    obtain ⟨good, queue⟩ := inOrder.good.reset (newFifoLen_size s.dev.fifoLen value)
    rw [← after] at good queue
    refine inOrder.quiet (a := .write addr value) good ((congrArg Rx.received after).trans rfl) ?_ fun _ was => ?_
    · rw [if_pos ((discards_write s.dev addr value).mpr fcr), queue, List.map_take, inOrder.order, List.take_left]
      show taken = taken ++ [] ++ []
      rw [List.append_nil, List.append_nil]
    · rw [after]
      exact was
  · rw [if_neg fcr] at after
    refine inOrder.same after rfl (Bool.eq_false_of_not_eq_true fun discards => fcr ?_)
    exact (discards_write s.dev addr value).mp discards

theorem job_inOrder {read : ChannelRead} (inOrder : InOrder s taken kept lost) (ran : step c s (.job read) = some s') :
    InOrder s' (taken ++ []) (kept ++ if room s.dev then arrived s.dev s'.dev else [])
      (lost || (!room s.dev && !(arrived s.dev s'.dev).isEmpty)) := by
  rcases step_job_rx ran with same | ⟨ch, added⟩ | ⟨armed, expired⟩
  · exact inOrder.same (a := .job read) same rfl rfl
  · obtain ⟨good, received, queue, ovrrun⟩ := inOrder.good.add ch
    rw [← added] at good received queue ovrrun
    have one : arrived s.dev s'.dev = [ch] := by
      have appended : s'.dev.received = s.dev.received ++ [ch] := received
      unfold arrived
      rw [appended, List.drop_left]
    rw [one, List.append_nil]
    by_cases fits : s.dev.rxbufFull.toNat < s.dev.fifoLen
    · have roomy : room s.dev = true := decide_eq_true fits
      rw [if_pos (show s.rx.full.toNat < s.rx.fifoLen from fits)] at queue
      rw [roomy, if_pos rfl, Bool.not_true, Bool.false_and, Bool.or_false]
      refine ⟨good, ?_, fun was => ovrrun (.inl (inOrder.ovrrun was))⟩
      rw [queue, List.map_append, List.map_append, inOrder.order, List.append_assoc]
    · have none : room s.dev = false := decide_eq_false fits
      rw [if_neg (show ¬s.rx.full.toNat < s.rx.fifoLen from fits)] at queue
      rw [none, if_neg Bool.false_ne_true, List.append_nil]
      refine ⟨good, queue ▸ inOrder.order, fun _ => ovrrun (.inr ?_)⟩
      exact Nat.le_of_not_lt fits
  · refine inOrder.quiet (a := .job read) (expired ▸ inOrder.good.expire armed)
      ((congrArg Rx.received expired).trans rfl) ?_ fun _ was => ?_
    · rw [show s'.rx.queue = s.rx.queue from (congrArg Rx.queue expired).trans rfl]
      exact inOrder.order.trans (congrArg (· ++ _) (List.append_nil taken).symm)
    · rw [expired]
      exact was

theorem reset_inOrder {u : Dev} {b : Bus Job} (fresh : Fresh b) (ran : (⟨u, b⟩ : System).serve (reset c) = some s) :
    InOrder s [] [] false := by
  obtain ⟨good, queue, -⟩ := reset_good fresh ran
  refine ⟨good, ?_, fun none => (Bool.false_ne_true none).elim⟩
  rw [queue]
  rfl

theorem Received.inOrder (log : Received c s taken kept lost) : InOrder s taken kept lost := by
  induction log with
  | reset fresh ran => exact reset_inOrder fresh ran
  | step act _ ran ih =>
    cases act with
    | read addr => exact read_inOrder ih ran
    | write addr value => exact write_inOrder ih ran
    | job read => exact job_inOrder ih ran
    | vapi data => exact ih.same (step_vapi_rx ran) rfl rfl
    | other n time => exact ih.same (step_other_rx ran) rfl rfl
    | advance n => exact ih.same (step_advance_rx ran) rfl rfl

/-- In every run the reads of `RXBUF` return the characters that arrived with room for them and were not discarded, each
once and in order; a character that arrived without room shows in `LSR` until it is read; and `LSR` and the timeout say
whether the buffer holds something. -/
theorem received_in_order (log : Received c s taken kept lost) :
    kept.map char = taken ++ s.rx.queue.map char ∧ s.rx.queue.length = s.dev.rxbufFull.toNat ∧ s.dev.rxbufFull.toNat ≤ s.dev.fifoLen ∧
      (lost = true → has s.dev.lsr lsrOvrrun = true) ∧ (has s.dev.lsr lsrRdrdy = true ↔ s.dev.rxbufFull ≠ 0) ∧
      queued .intCti s.bus.scheduler + (has s.dev.ints (intBit iirCti)).toNat = if s.dev.rxbufFull = 0 then 0 else 1 := by
  have inOrder := log.inOrder
  have rdrdy : has s.dev.lsr lsrRdrdy = decide (s.dev.rxbufFull ≠ 0) := inOrder.good.rdrdy
  refine ⟨inOrder.order, RingBuffer.length_contents .., inOrder.good.ring.full_le, inOrder.ovrrun, ?_, inOrder.good.timeout⟩
  rw [rdrdy, decide_eq_true_iff]

end

/-- A step with the log of the run before it. -/
def logged (c : Config) (log : System × List Byte × List (BitVec 16) × Bool) (act : Act) :
    Option (System × List Byte × List (BitVec 16) × Bool) :=
  let (s, taken, kept, lost) := log
  (step c s act).map fun s' =>
    (s', taken ++ delivered s.dev act,
      (if discards s.dev act then kept.take taken.length else kept) ++ (if room s.dev then arrived s.dev s'.dev else []),
      act ≠ .read 5 && (lost || (!room s.dev && !(arrived s.dev s'.dev).isEmpty)))

theorem Received.acts {c : Config} {acts : List Act} {s : System} {taken : List Byte} {kept : List (BitVec 16)} {lost : Bool}
    {log : System × List Byte × List (BitVec 16) × Bool} (before : Received c s taken kept lost)
    (ran : acts.foldlM (logged c) (s, taken, kept, lost) = some log) : Received c log.1 log.2.1 log.2.2.1 log.2.2.2 := by
  induction acts generalizing s taken kept lost with
  | nil =>
    cases ran
    exact before
  | cons act acts ih =>
    rw [List.foldlM_cons] at ran
    obtain ⟨next, first, rest⟩ := Option.bind_eq_some_iff.mp ran
    obtain ⟨s', stepped, rfl⟩ := Option.map_eq_some_iff.mp first
    exact ih (before.step act stepped) rest

/-- With a buffer of one character, `A` waits for its timeout, `B` comes in without room for it, `A` is read, `C` is discarded with the
buffer, and `D` waits. -/
def overrun : List Act :=
  [.write 2 0, .advance 1600, .job (.char 0x41), .job .nothing, .advance 1600, .job (.char 0x42), .job (.char 0x42),
    .job .nothing, .read 0,
    .advance 1600, .job (.char 0x43), .job .nothing, .write 2 2, .advance 1600, .job (.char 0x44), .job .nothing]

theorem received_in_order_overrun : ∃ s, Received ⟨0, true⟩ s [0x41] [0x41, 0x44] true ∧
    [0x41, 0x44].map char = [0x41] ++ s.rx.queue.map char ∧ s.rx.queue.length = 1 ∧ has s.dev.lsr lsrOvrrun = true ∧
    queued .intCti s.bus.scheduler = 1 := by
  have seen : ((poweredOn ⟨0, true⟩).bind fun s => overrun.foldlM (logged ⟨0, true⟩) (s, [], [], false)).map
      (fun log => (log.2, log.1.dev.rxbufFull, has log.1.dev.ints (intBit iirCti))) =
        some (([0x41], [0x41, 0x44], true), 1, false) := by decide +kernel
  obtain ⟨⟨s, logs⟩, ran, is⟩ := Option.map_eq_some_iff.mp seen
  obtain ⟨on, started, ran⟩ := Option.bind_eq_some_iff.mp ran
  obtain ⟨u, b, fresh, reset⟩ := poweredOn_fresh started
  obtain ⟨rfl, is⟩ := Prod.mk.inj is
  obtain ⟨full, pending⟩ := Prod.mk.inj is
  have log : Received ⟨0, true⟩ s [0x41] [0x41, 0x44] true := (Received.reset fresh reset).acts ran
  obtain ⟨order, length, -, lost, -, timeout⟩ := received_in_order log
  dsimp only at full pending
  rw [full] at length timeout
  rw [pending] at timeout
  exact ⟨s, log, order, length, lost rfl, timeout⟩

end Or1ksim.Uart
