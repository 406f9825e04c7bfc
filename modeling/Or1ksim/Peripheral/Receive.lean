import Or1ksim.Lib.RingBuffer
import Or1ksim.Peripheral.Interrupts

/-!
# The receiver of the UART

The receive buffer is a ring of one place or of sixteen, and its timeout is either queued or pending as long as it holds
something. Most of the UART leaves both alone.
-/

namespace Or1ksim.Uart

open Peripheral (Effect Bus tally queued)
open Flags (has)

theorem put_eq {α : Type} (buf : Nat → α) (i : Nat) (a : α) : put buf i a = Function.update buf i a := by
  funext j
  unfold put
  rw [Function.update_apply]

/-! ### The number of characters in a buffer -/

theorem full_succ {full : BitVec 32} (few : full.toNat ≤ 16) : (full + 1).toNat = full.toNat + 1 := by
  rw [BitVec.toNat_add, show (1 : BitVec 32).toNat = 1 from rfl, Nat.mod_eq_of_lt (by omega)]

theorem full_pred {full : BitVec 32} (some : full ≠ 0) : (full - 1).toNat + 1 = full.toNat := by
  have positive : 1 ≤ full.toNat := by
    rw [Nat.one_le_iff_ne_zero]
    exact fun zero => some (BitVec.eq_of_toNat_eq zero)
  have left : (full - 1).toNat = full.toNat - 1 := BitVec.toNat_sub_of_le (BitVec.le_def.mpr positive)
  omega

/-! ### The view of the receiver -/

/-- What the receiver goes by: its buffer, two bits of `LSR`, and how often its timeout is queued and pending. -/
structure Rx where
  rxbuf : Nat → BitVec 16
  head : Nat
  tail : Nat
  full : BitVec 32
  fifoLen : Nat
  received : List (BitVec 16)
  rdrdy : Bool
  ovrrun : Bool
  queued : Nat
  pending : Bool

/-- The receiver after some effects, when the timeout was queued `n` times before. -/
def rx (n : Nat) (u : Dev) : Rx where
  rxbuf := u.rxbuf
  head := u.rxbufHead
  tail := u.rxbufTail
  full := u.rxbufFull
  fifoLen := u.fifoLen
  received := u.received
  rdrdy := has u.lsr lsrRdrdy
  ovrrun := has u.lsr lsrOvrrun
  queued := tally .intCti n u.effects
  pending := has u.ints (intBit iirCti)

namespace Rx

/-- The timeout is withdrawn, whether it is queued or pending. -/
def disarm (r : Rx) : Rx := { r with queued := r.queued - 1, pending := false }

def arm (r : Rx) : Rx := { r with queued := r.queued + 1 }

def store (ch : BitVec 16) (r : Rx) : Rx :=
  if r.fifoLen < (r.full + 1).toNat then { r with ovrrun := true }
  else { r with
    rxbuf := put r.rxbuf r.head ch
    head := (r.head + 1) % r.fifoLen
    full := r.full + 1
    rdrdy := r.rdrdy || (r.full = 0 && has (lineStatus ch) lsrRdrdy)
    ovrrun := r.ovrrun || (r.full = 0 && has (lineStatus ch) lsrOvrrun) }

def add (ch : BitVec 16) (r : Rx) : Rx := ({ r with rdrdy := true, received := r.received ++ [ch] }.disarm.arm).store ch

def take (r : Rx) : Rx := if r.full = 0 then r else { r with tail := (r.tail + 1) % r.fifoLen, full := r.full - 1 }

def showNext (r : Rx) : Rx :=
  if r.full = 0 then { r with rdrdy := false }
  else { r.arm with rdrdy := true, ovrrun := r.ovrrun || has (lineStatus (r.rxbuf r.tail)) lsrOvrrun }

def read (r : Rx) : Rx := r.take.disarm.showNext

def reset (fifoLen : Nat) (r : Rx) : Rx := { r with head := 0, tail := 0, full := 0, fifoLen, rdrdy := false }.disarm

end Rx

section
variable {n : Nat} {u v : Dev} {c : Config}

/-! ### The interrupt -/

theorem rx_lsr {lsr : Byte} (rdrdy : has lsr lsrRdrdy = has u.lsr lsrRdrdy) (ovrrun : has lsr lsrOvrrun = has u.lsr lsrOvrrun) :
    rx n { u with lsr } = rx n u := by
  unfold rx
  dsimp only
  rw [rdrdy, ovrrun]

theorem rx_onlyInt (only : OnlyInt u v) :
    rx n v = { rx n u with queued := tally .intCti n v.effects, pending := has v.ints (intBit iirCti) } := by
  rw [show v = _ from only]
  rfl

theorem tally_emit (u : Dev) (e : Effect Job) (job : Job) (n : Nat) :
    tally job n (u.emit e).effects = e.count job (tally job n u.effects) :=
  Peripheral.tally_snoc job n u.effects e

theorem rx_emit {e : Effect Job} (quiet : ∀ m, e.count .intCti m = m) : rx n (u.emit e) = rx n u := by
  rw [rx_onlyInt (OnlyInt.emit e u), tally_emit, quiet]
  rfl

theorem rx_schedAdd (job : Job) (other : job ≠ .intCti) (time : Int) : rx n (u.emit (.schedAdd job time)) = rx n u :=
  rx_emit fun _ => if_neg other

theorem rx_schedFindRemove (job : Job) (other : job ≠ .intCti) : rx n (u.emit (.schedFindRemove job)) = rx n u :=
  rx_emit fun _ => if_neg other

theorem raise_tally (s : Source) (u : Dev) (job : Job) (n : Nat) : tally job n (s.raise u).effects = tally job n u.effects := by
  unfold Source.raise intRaise
  dsimp only
  split
  · rfl
  · split
    · exact tally_emit { u with ints := u.ints ||| intBit s.id, iir := s.id } .reportInterrupt job n
    · rfl

theorem raise_ints (s : Source) (u : Dev) : (s.raise u).ints = u.ints ||| intBit s.id := by
  unfold Source.raise intRaise
  dsimp only
  split
  · rfl
  · split <;> rfl

/-- The timeout is the only source that the receiver counts. -/
theorem rx_raise (s : Source) (u : Dev) : rx n (s.raise u) =
    { rx n u with pending := has u.ints (intBit iirCti) || decide (s = .cti) } := by
  rw [rx_onlyInt (OnlyInt.raise s u), raise_tally, raise_ints, Flags.has_or, show iirCti = Source.cti.id from rfl, has_intBit]
  rfl

theorem rx_raise_other {s : Source} (other : s ≠ .cti) (u : Dev) : rx n (s.raise u) = rx n u := by
  rw [rx_raise, decide_eq_false other, Bool.or_false]
  rfl

theorem rx_next (u : Dev) : rx n (nextInt u) = rx n u := by
  rw [nextInt_eq]
  split
  · exact rx_raise_other (by decide) u
  split
  · exact rx_raise_other (by decide) u
  split
  · next waits =>
    have pending : has u.ints (intBit iirCti) = true := (Bool.and_eq_true_iff.mp waits).1
    rw [rx_raise, pending]
    exact congrArg (fun pending => { rx n u with pending }) pending.symm
  split
  · exact rx_raise_other (by decide) u
  split
  · exact rx_raise_other (by decide) u
  · refine Eq.trans ?_ (rx_emit (u := u) (e := .clearInterrupt) fun _ => rfl)
    rfl

theorem rx_withdraw_other {s : Source} (other : s ≠ .cti) (u : Dev) : rx n (withdraw s.id u) = rx n u := by
  have differ : s.id ≠ iirCti := by
    cases s <;> first | exact absurd rfl other | decide
  unfold withdraw
  dsimp only
  rw [if_neg differ]
  show { rx n u with pending := has (u.ints &&& ~~~intBit s.id) (intBit Source.cti.id) } = rx n u
  rw [Flags.has_clear (clear_intBit other)]
  rfl

theorem rx_withdraw_cti (u : Dev) : rx n (withdraw iirCti u) = (rx n u).disarm := by
  unfold withdraw
  dsimp only
  rw [if_pos rfl, rx_onlyInt (OnlyInt.emit _ _), tally_emit]
  show { rx n u with queued := tally Job.intCti n u.effects - 1,
                     pending := has (u.ints &&& ~~~intBit Source.cti.id) (intBit Source.cti.id) } = _
  rw [Flags.has_cleared (clear_intBit_self .cti)]
  rfl

theorem rx_clear_other {s : Source} (other : s ≠ .cti) (u : Dev) : rx n (clearInt s.id u) = rx n u := by
  unfold clearInt
  dsimp only
  split
  · exact rx_withdraw_other other u
  · exact (rx_next _).trans (rx_withdraw_other other u)

theorem rx_clear_cti (u : Dev) : rx n (clearInt iirCti u) = (rx n u).disarm := by
  unfold clearInt
  dsimp only
  split
  · exact rx_withdraw_cti u
  · exact (rx_next _).trans (rx_withdraw_cti u)

theorem rx_checkRlsi (u : Dev) : rx n (checkRlsi u) = rx n u := by
  unfold checkRlsi
  split
  · exact rx_raise_other (s := .rlsi) (by decide) u
  · rfl

theorem rx_checkRdi (u : Dev) : rx n (checkRdi u) = rx n u := by
  unfold checkRdi
  split
  · exact rx_raise_other (s := .rdi) (by decide) u
  · rfl

theorem rx_armTimeout (u : Dev) : rx n (armTimeout u) = (rx n u).arm := by
  unfold armTimeout
  rw [rx_onlyInt (OnlyInt.emit _ _), tally_emit]
  rfl

/-! ### The receiver itself -/

theorem rx_storeChar (ch : BitVec 16) (u : Dev) : rx n (storeChar ch u) = (rx n u).store ch := by
  unfold storeChar Rx.store
  by_cases full : u.fifoLen < (u.rxbufFull + 1).toNat
  · rw [if_pos full, if_pos (show (rx n u).fifoLen < ((rx n u).full + 1).toNat from full)]
    refine (rx_raise_other (s := .rlsi) (by decide) _).trans ?_
    show { rx n u with rdrdy := has (u.lsr ||| (lsrOvrrun ||| lsrRxerr)) lsrRdrdy,
                       ovrrun := has (u.lsr ||| (lsrOvrrun ||| lsrRxerr)) lsrOvrrun } = _
    rw [Flags.has_or u.lsr (lsrOvrrun ||| lsrRxerr) lsrRdrdy, Flags.has_or u.lsr (lsrOvrrun ||| lsrRxerr) lsrOvrrun,
      show has (lsrOvrrun ||| lsrRxerr) lsrRdrdy = false by decide, show has (lsrOvrrun ||| lsrRxerr) lsrOvrrun = true by decide,
      Bool.or_false, Bool.or_true]
    rfl
  · rw [if_neg full, if_neg (show ¬ (rx n u).fifoLen < ((rx n u).full + 1).toNat from full)]
    dsimp only
    by_cases first : u.rxbufFull = 0
    · rw [if_pos first, rx_checkRlsi]
      unfold rx
      dsimp only
      rw [Flags.has_or, Flags.has_or, decide_eq_true first, Bool.true_and, Bool.true_and]
    · rw [if_neg first]
      unfold rx
      dsimp only
      rw [decide_eq_false first, Bool.false_and, Bool.false_and, Bool.or_false, Bool.or_false]

theorem rx_addChar (ch : BitVec 16) (u : Dev) : rx n (addChar ch u) = (rx n u).add ch := by
  unfold addChar Rx.add
  dsimp only
  rw [rx_checkRdi, rx_storeChar, rx_armTimeout, rx_clear_cti]
  congr 3
  unfold rx
  dsimp only
  rw [Flags.has_or, Flags.has_or, show has lsrRdrdy lsrRdrdy =
    true by decide, show has lsrRdrdy lsrOvrrun = false by decide, Bool.or_true,
    Bool.or_false]

theorem rx_takeChar (u : Dev) : rx n (takeChar u).2 = (rx n u).take := by
  unfold takeChar Rx.take
  by_cases empty : u.rxbufFull = 0
  · rw [if_pos empty, if_pos (show (rx n u).full = 0 from empty)]
  · rw [if_neg empty, if_neg (show (rx n u).full ≠ 0 from empty)]
    rfl

theorem rx_showNext (u : Dev) : rx n (showNext u) = (rx n u).showNext := by
  unfold showNext Rx.showNext
  by_cases empty : u.rxbufFull = 0
  · rw [if_pos empty, if_pos (show (rx n u).full = 0 from empty)]
    unfold rx
    dsimp only
    rw [Flags.has_cleared (by decide), Flags.has_clear (by decide)]
  · rw [if_neg empty, if_neg (show (rx n u).full ≠ 0 from empty), rx_checkRdi, rx_checkRlsi, rx_armTimeout]
    unfold rx Rx.arm
    dsimp only
    rw [Flags.has_or, Flags.has_or, Flags.has_or, Flags.has_or, show has lsrRdrdy lsrRdrdy = true by decide,
      show has lsrRdrdy lsrOvrrun = false by decide, Bool.true_or, Bool.or_true, Bool.false_or]

theorem rx_readRxbuf (u : Dev) : rx n (readRxbuf u).2 = (rx n u).read := by
  unfold readRxbuf Rx.read
  dsimp only
  rw [rx_showNext, rx_clear_cti, show iirRdi = Source.rdi.id from rfl, rx_clear_other (by decide), rx_takeChar]

theorem rx_readLsr (u : Dev) : rx n (readLsr u).2 = { rx n u with ovrrun := false } := by
  unfold readLsr
  dsimp only
  rw [show iirRlsi = Source.rlsi.id from rfl, rx_clear_other (by decide)]
  unfold rx
  dsimp only
  rw [Flags.has_clear (by decide), Flags.has_cleared (by decide)]

/-! ### What leaves the receiver alone -/

theorem rx_intMsi (u : Dev) : rx n (intMsi u) = rx n u := rx_raise_other (s := .msi) (by decide) u

theorem rx_intThri (u : Dev) : rx n (intThri u) = rx n u := rx_raise_other (s := .thri) (by decide) u

theorem rx_loopback (u : Dev) : rx n (loopback u) = rx n u := by
  unfold loopback
  dsimp only
  split
  · rfl
  · split
    · exact (rx_intMsi { u with msr := loopbackMsr u.mcr u.msr }).trans rfl
    · rfl

theorem rx_txSend (u : Dev) : rx n (txSend u) = rx n u := by
  let taken : Dev := { u with
    txser := u.txbuf u.txbufTail
    txbufTail := (u.txbufTail + 1) % u.fifoLen
    txbufFull := u.txbufFull - 1
    lsr := u.lsr &&& ~~~lsrTxsere }
  have first : rx n taken = rx n u := by
    refine rx_lsr (u := { taken with lsr := u.lsr }) ?_ ?_ <;> exact Flags.has_clear (by decide) u.lsr
  let armed : Dev := if !has taken.lcr lcrSbc then taken.emit (.schedAdd .charClock (taken.charClks * clockDivider))
    else taken.emit (.schedAdd .sendBreak 0)
  have second : rx n armed = rx n u := by
    show rx n (if _ then _ else _) = _
    split
    · exact (rx_schedAdd .charClock (by decide) _).trans first
    · exact (rx_schedAdd .sendBreak (by decide) _).trans first
  show rx n (if armed.txbufFull = 0 then intThri { armed with lsr := armed.lsr ||| lsrTxbufe } else armed) = _
  split
  · have marked : rx n { armed with lsr := armed.lsr ||| lsrTxbufe } = rx n armed := by
      refine rx_lsr ?_ ?_
      · rw [Flags.has_or, show has lsrTxbufe lsrRdrdy = false by decide, Bool.or_false]
      · rw [Flags.has_or, show has lsrTxbufe lsrOvrrun = false by decide, Bool.or_false]
    exact (rx_intThri _).trans (marked.trans second)
  · exact second

theorem rx_shiftedOut (u : Dev) : rx n (shiftedOut u) = rx n u := by
  unfold shiftedOut
  split
  · refine rx_lsr ?_ ?_
    · rw [Flags.has_or, show has lsrTxsere lsrRdrdy = false by decide, Bool.or_false]
    · rw [Flags.has_or, show has lsrTxsere lsrOvrrun = false by decide, Bool.or_false]
  · exact rx_txSend u

theorem rx_charClock (c : Config) (u : Dev) : rx n (charClock c u) = rx n u := by
  refine (rx_shiftedOut _).trans ?_
  unfold sendChar
  dsimp only
  split
  · rfl
  · split <;> rfl

theorem rx_sendBreak (u : Dev) : rx n (sendBreak u) = rx n u :=
  (rx_shiftedOut { u with vapiOut := u.vapiOut ++ [lcrSbc.setWidth 32 <<< 8] }).trans rfl

theorem rx_queueChar (value : Byte) (u : Dev) : rx n (queueChar value u) = rx n u := by
  unfold queueChar
  dsimp only
  split
  · split
    · exact (rx_schedAdd .txSend (by decide) 0).trans rfl
    · rfl
  · rfl

theorem rx_writeTxbuf (value : Byte) (u : Dev) : rx n (writeTxbuf value u) = rx n u := by
  have marked : rx n { u with lsr := u.lsr &&& ~~~lsrTxbufe } = rx n u :=
    rx_lsr (Flags.has_clear (by decide) _) (Flags.has_clear (by decide) _)
  exact (rx_clear_other (s := .thri) (by decide) _).trans ((rx_queueChar value _).trans marked)

theorem rx_resetTx (u : Dev) : rx n (resetTx u) = rx n u := by
  let emptied : Dev := { u with txbufHead := 0, txbufTail := 0, txbufFull := 0, lsr := u.lsr ||| lsrTxbufe }
  have first : rx n emptied = rx n u := by
    refine (rx_lsr (u := u) ?_ ?_ :)
    · rw [Flags.has_or, show has lsrTxbufe lsrRdrdy = false by decide, Bool.or_false]
    · rw [Flags.has_or, show has lsrTxbufe lsrOvrrun = false by decide, Bool.or_false]
  show rx n ((if emptied.fifoLen = 16 then intThri emptied else emptied).emit _) = _
  refine (rx_schedFindRemove .txSend (by decide)).trans ?_
  split
  · exact (rx_intThri emptied).trans first
  · exact first

theorem rx_resetRx (u : Dev) : rx n (resetRx u) = (rx n u).reset u.fifoLen := by
  unfold resetRx
  dsimp only
  rw [rx_clear_cti, show iirRdi = Source.rdi.id from rfl, rx_clear_other (by decide)]
  unfold rx Rx.reset Rx.disarm
  dsimp only
  rw [Flags.has_cleared (by decide), Flags.has_clear (by decide)]

/-- The length of the buffers that a write of `FCR` asks for. -/
def newFifoLen (fifoLen : Nat) (value : Byte) : Nat := if has (fcrValue fifoLen value) fcrFie then 16 else 1

theorem newFifoLen_size (fifoLen : Nat) (value : Byte) : newFifoLen fifoLen value = 1 ∨ newFifoLen fifoLen value = 16 := by
  unfold newFifoLen
  split
  · exact .inr rfl
  · exact .inl rfl

/-- A write of `FCR` that changes the length of the buffers empties both. -/
theorem newFifoLen_same {fifoLen : Nat} {value : Byte} (size : fifoLen = 1 ∨ fifoLen = 16)
    (keeps : has (fcrValue fifoLen value) fcrRrxfi = false ∨ has (fcrValue fifoLen value) fcrRtxfi = false) :
      newFifoLen fifoLen value = fifoLen := by
  by_cases changes : (decide (fifoLen = 1) && has value fcrFie || decide (fifoLen ≠ 1) && !has value fcrFie) = true
  · rw [fcrValue, if_pos changes, Flags.has_or value (fcrRrxfi ||| fcrRtxfi) fcrRrxfi,
      Flags.has_or value (fcrRrxfi ||| fcrRtxfi) fcrRtxfi, show has (fcrRrxfi ||| fcrRtxfi) fcrRrxfi = true by decide,
      show has (fcrRrxfi ||| fcrRtxfi) fcrRtxfi = true by decide, Bool.or_true, Bool.or_true] at keeps
    cases keeps <;> contradiction
  · unfold newFifoLen
    rw [fcrValue, if_neg changes]
    cases fie : has value fcrFie <;> rcases size with rfl | rfl <;> simp_all

theorem rx_writeFcr (value : Byte) (u : Dev) : rx n (writeFcr value u) =
    if has (fcrValue u.fifoLen value) fcrRrxfi then (rx n u).reset (newFifoLen u.fifoLen value)
    else { rx n u with fifoLen := newFifoLen u.fifoLen value } := by
  let sized : Dev := { u with fcr := value &&& validFcr, fifoLen := newFifoLen u.fifoLen value }
  have first : rx n sized = { rx n u with fifoLen := newFifoLen u.fifoLen value } := rfl
  let cleared : Dev := if has (fcrValue u.fifoLen value) fcrRtxfi then resetTx sized else sized
  have second : rx n cleared = rx n sized := by
    show rx n (if _ then _ else _) = _
    split
    · exact rx_resetTx sized
    · rfl
  have len : cleared.fifoLen = newFifoLen u.fifoLen value := congrArg Rx.fifoLen (second.trans first)
  show rx n (if has (fcrValue u.fifoLen value) fcrRrxfi then resetRx cleared else cleared) = _
  split
  · rw [rx_resetRx, second, len]
    rfl
  · exact second

theorem rx_writeLcr (value : Byte) (u : Dev) : rx n (writeLcr value u) = rx n u := by
  have switched : rx n (switchBreak value u) = rx n u := by
    unfold switchBreak
    split
    · rfl
    · dsimp only
      have started : rx n (if has value lcrSbc && !has u.lsr lsrTxsere then
          (u.emit (.schedFindRemove .charClock)).emit (.schedAdd .sendBreak 0) else u) = rx n u := by
        split
        · exact (rx_schedAdd .sendBreak (by decide) 0).trans (rx_schedFindRemove .charClock (by decide))
        · rfl
      generalize (if has value lcrSbc && !has u.lsr lsrTxsere then
          (u.emit (.schedFindRemove .charClock)).emit (.schedAdd .sendBreak 0) else u) = v at started ⊢
      split
      · exact ((rx_schedFindRemove .charClock (by decide)).trans (rx_schedAdd .txSend (by decide) 0)).trans started
      · exact started
  exact switched

theorem rx_recvNext (c : Config) (u : Dev) : rx n (recvNext c u) = rx n u := by
  unfold recvNext schedRecvCheck
  dsimp only
  split
  · exact (rx_schedAdd .recvChar (by decide) _).trans rfl
  · split <;> split
    · exact (rx_schedAdd .vapiCmd (by decide) _).trans ((rx_schedAdd .checkChar (by decide) _).trans rfl)
    · exact (rx_schedAdd .checkChar (by decide) _).trans rfl
    · exact (rx_schedAdd .vapiCmd (by decide) _).trans rfl
    · rfl

theorem rx_recvChar (c : Config) (u : Dev) : rx n (recvChar c u) = (rx n u).add (charToAdd u) := by
  unfold recvChar
  rw [rx_addChar, rx_recvNext]

theorem rx_checkChar (read : ChannelRead) (u : Dev) : rx n (checkChar read u) = rx n u := by
  cases read with
  | char ch => exact (rx_schedAdd .recvChar (by decide) _).trans rfl
  | nothing => exact rx_schedAdd .checkChar (by decide) _
  | failed => rfl

theorem rx_vapiChar (data : BitVec 32) (u : Dev) : rx n (vapiChar data u) = rx n u := by
  unfold vapiChar
  dsimp only
  split
  · exact (rx_schedAdd .recvChar (by decide) _).trans rfl
  · rfl

theorem rx_recvBreakStartWith {cmd : Dev → Dev} (quiet : ∀ v, rx n (cmd v) = rx n v) (c : Config) (u : Dev) :
    rx n (recvBreakStartWith cmd c u) = rx n u := by
  let stopped : Dev := { u with receiveing := false, recvBreak := true }
  have first : rx n (stopped.emit (.schedFindRemove .recvChar)) = rx n u :=
    (rx_schedFindRemove (u := stopped) .recvChar (by decide)).trans rfl
  unfold recvBreakStartWith
  dsimp only
  refine (rx_schedAdd .recvBreak (by decide) _).trans ?_
  split
  · exact (quiet _).trans first
  · exact first

theorem rx_vapiCmd (c : Config) (fuel : Nat) (u : Dev) : rx n (vapiCmd c fuel u) = rx n u := by
  induction fuel generalizing u with
  | zero => rfl
  | succ fuel ih =>
    unfold vapiCmd
    split
    · rfl
    · dsimp only
      let popped : Dev := { u with vapiBufTailPtr := (u.vapiBufTailPtr + 1) % vapiBufLen }
      have first : rx n popped = rx n u := rfl
      split
      · exact (rx_vapiChar _ popped).trans first
      · exact (ih _).trans rfl
      · exact (ih _).trans rfl
      · exact (ih _).trans rfl
      · split <;> split
        · exact (ih _).trans ((rx_recvBreakStartWith ih c popped).trans first)
        · exact (ih _).trans ((rx_schedAdd (u := popped) .recvBreakStart (by decide) _).trans first)
        · exact (ih _).trans ((rx_schedFindRemove (u := { popped with recvBreak := false }) .recvBreak (by decide)).trans first)
        · exact (ih _).trans ((rx_schedAdd (u := popped) .recvBreakStop (by decide) _).trans first)
      · exact (ih popped).trans first

theorem rx_readIir (u : Dev) : rx n (readIir u).2 = rx n u := by
  unfold readIir
  dsimp only
  split
  · exact rx_clear_other (s := .thri) (by decide) u
  · rfl

theorem rx_readMsr (u : Dev) : rx n (readMsr u).2 = rx n u :=
  (rx_loopback _).trans ((rx_clear_other (s := .msi) (by decide) { u with msr := 0 }).trans rfl)

/-! ### Accesses -/

theorem rx_readByte (addr : Nat) (u : Dev) : rx n (readByte addr u).2 =
    if addr = 0 ∧ has u.lcr lcrDlab = false then (rx n u).read else if addr = 5 then { rx n u with ovrrun := false } else rx n u := by
  unfold readByte
  cases latch : has u.lcr lcrDlab <;> split <;> simp_all [rx_readRxbuf, rx_readIir, rx_readLsr, rx_readMsr]

theorem rx_writeByte (addr : Nat) (value : Byte) (u : Dev) :
    rx n (writeByte addr value u) = if addr = 2 then rx n (writeFcr value u) else rx n u := by
  unfold writeByte
  cases latch : has u.lcr lcrDlab <;> split <;> simp_all [rx_writeTxbuf, rx_writeLcr, rx_loopback, rx_next]
  all_goals rfl

end

end Or1ksim.Uart
