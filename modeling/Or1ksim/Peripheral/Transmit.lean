import Or1ksim.Peripheral.Receive

/-!
# The transmitter of the UART

A character goes from the transmit buffer to the shift register and from there to the line; with the break control set a
break is sent in its place. The receiver only shares `LSR` with the transmitter, and what it stores there from the
characters has no bit of the transmitter.
-/

namespace Or1ksim.Uart

open Peripheral (Effect Bus tally queued)
open Flags (has)

/-- What the transmitter goes by: its buffer and its shift register, two bits of `LSR`, the break control, and how often
each of its jobs is queued. -/
structure Tx where
  txbuf : Nat → Byte
  head : Nat
  tail : Nat
  full : BitVec 32
  fifoLen : Nat
  txser : Byte
  sbc : Bool
  txbufe : Bool
  txsere : Bool
  sends : Nat
  clocks : Nat
  breaks : Nat
  sent : List Byte

/-- The transmitter after some effects, when each job was queued as often as `n` says before. -/
def tx (n : Job → Nat) (u : Dev) : Tx where
  txbuf := u.txbuf
  head := u.txbufHead
  tail := u.txbufTail
  full := u.txbufFull
  fifoLen := u.fifoLen
  txser := u.txser
  sbc := has u.lcr lcrSbc
  txbufe := has u.lsr lsrTxbufe
  txsere := has u.lsr lsrTxsere
  sends := tally .txSend (n .txSend) u.effects
  clocks := tally .charClock (n .charClock) u.effects
  breaks := tally .sendBreak (n .sendBreak) u.effects
  sent := u.sent

namespace Tx

def send (r : Tx) : Tx := { r with
  txser := r.txbuf r.tail
  tail := (r.tail + 1) % r.fifoLen
  full := r.full - 1
  txsere := false
  clocks := if r.sbc then r.clocks else r.clocks + 1
  breaks := if r.sbc then r.breaks + 1 else r.breaks
  txbufe := r.txbufe || r.full - 1 = 0 }

def shiftedOut (r : Tx) : Tx := if r.full = 0 then { r with txsere := true } else r.send

def charClock (r : Tx) : Tx := { r with sent := r.sent ++ [r.txser] }.shiftedOut

def write (value : Byte) (r : Tx) : Tx :=
  if r.full.toNat < r.fifoLen then { r with
    txbuf := put r.txbuf r.head value
    head := (r.head + 1) % r.fifoLen
    full := r.full + 1
    txbufe := false
    sends := if r.full = 0 && r.txsere then r.sends + 1 else r.sends }
  else { r with txbuf := put r.txbuf r.head value, txbufe := false }

def reset (fifoLen : Nat) (r : Tx) : Tx :=
  { r with head := 0, tail := 0, full := 0, fifoLen, txbufe := true, sends := r.sends - 1 }

/-- A write of `FCR`. -/
def control (discards : Bool) (fifoLen : Nat) (r : Tx) : Tx := if discards then r.reset fifoLen else { r with fifoLen }

def setBreak (sbc : Bool) (r : Tx) : Tx :=
  if r.sbc = sbc then r
  else { r with
    sbc
    clocks := if r.txsere then r.clocks else r.clocks - 1
    breaks := if sbc && !r.txsere then r.breaks + 1 else r.breaks
    sends := if !sbc && !r.txsere then r.sends + 1 else r.sends }

end Tx

/-- An entry of the receive buffer has no bit of the transmitter in its status. -/
def clean (ch : BitVec 16) : Bool := !has (lineStatus ch) lsrTxbufe && !has (lineStatus ch) lsrTxsere

/-- So does every entry that is there or comes in. -/
structure Clean (u : Dev) : Prop where
  rxser : clean u.rxser = true
  rxbuf : ∀ i, clean (u.rxbuf i) = true

/-- The transmitter is left alone, and the entries of the receive buffer stay clean. -/
def Apart (n : Job → Nat) (u v : Dev) : Prop := Clean u → tx n v = tx n u ∧ Clean v

section
variable {n : Job → Nat} {u v w : Dev} {c : Config}

theorem Apart.refl (u : Dev) : Apart n u u := fun clean => ⟨rfl, clean⟩

theorem Apart.trans (first : Apart n u v) (second : Apart n v w) : Apart n u w := by
  intro clean
  obtain ⟨same, clean⟩ := first clean
  obtain ⟨again, clean⟩ := second clean
  exact ⟨again.trans same, clean⟩

theorem Apart.of_eq (same : tx n v = tx n u) (rxser : v.rxser = u.rxser) (rxbuf : v.rxbuf = u.rxbuf) : Apart n u v := by
  refine fun clean => ⟨same, ?_, ?_⟩
  · rw [rxser]
    exact clean.rxser
  · rw [rxbuf]
    exact clean.rxbuf

theorem tx_lsr {lsr : Byte} (txbufe : has lsr lsrTxbufe = has u.lsr lsrTxbufe) (txsere : has lsr lsrTxsere = has u.lsr lsrTxsere) :
    tx n { u with lsr } = tx n u := by
  unfold tx
  dsimp only
  rw [txbufe, txsere]

/-! ### The interrupt -/

/-- The jobs of the transmitter. -/
def sending : Job → Bool
  | .txSend | .charClock | .sendBreak => true
  | _ => false

theorem tx_effects {es : List (Effect Job)} (quiet : ∀ job, sending job = true → tally job (n job) es = tally job (n job) u.effects) :
    tx n { u with effects := es } = tx n u := by
  unfold tx
  dsimp only
  rw [quiet .txSend rfl, quiet .charClock rfl, quiet .sendBreak rfl]

theorem apart_emit {e : Effect Job} (quiet : ∀ job m, sending job = true → e.count job m = m) (u : Dev) : Apart n u (u.emit e) := by
  refine .of_eq (tx_effects fun job sends => ?_) rfl rfl
  rw [Peripheral.tally_snoc, quiet job _ sends]

theorem apart_schedAdd {job : Job} (other : sending job = false) (time : Int) (u : Dev) : Apart n u (u.emit (.schedAdd job time)) := by
  refine apart_emit (e := .schedAdd job time) (fun j m sends => if_neg ?_) u
  rintro rfl
  exact Bool.false_ne_true (other.symm.trans sends)

theorem apart_schedFindRemove {job : Job} (other : sending job = false) (u : Dev) : Apart n u (u.emit (.schedFindRemove job)) := by
  refine apart_emit (e := .schedFindRemove job) (fun j m sends => if_neg ?_) u
  rintro rfl
  exact Bool.false_ne_true (other.symm.trans sends)

theorem apart_onlyInt (only : OnlyInt u v) (quiet : ∀ job m, sending job = true → tally job m v.effects = tally job m u.effects) :
    Apart n u v := by
  rw [show v = _ from only]
  refine .of_eq ?_ rfl rfl
  exact (tx_effects (u := { u with ints := v.ints, iir := v.iir }) fun job sends => quiet job _ sends).trans rfl

theorem apart_raise (s : Source) (u : Dev) : Apart n u (s.raise u) :=
  apart_onlyInt (OnlyInt.raise s u) fun job m _ => raise_tally s u job m

theorem apart_next (u : Dev) : Apart n u (nextInt u) := by
  rw [nextInt_eq]
  repeat' split
  any_goals exact apart_raise _ u
  exact (apart_emit (e := .clearInterrupt) (fun _ _ _ => rfl) u).trans (.of_eq rfl rfl rfl)

theorem apart_withdraw (intr : Byte) (u : Dev) : Apart n u (withdraw intr u) := by
  have cleared : Apart n u { u with ints := u.ints &&& ~~~intBit intr } := .of_eq rfl rfl rfl
  unfold withdraw
  dsimp only
  split
  · exact cleared.trans (apart_schedFindRemove rfl _)
  · exact cleared

theorem apart_clear (intr : Byte) (u : Dev) : Apart n u (clearInt intr u) := by
  unfold clearInt
  dsimp only
  split
  · exact apart_withdraw intr u
  · exact (apart_withdraw intr u).trans (apart_next _)

theorem apart_checkRlsi (u : Dev) : Apart n u (checkRlsi u) := by
  unfold checkRlsi
  split
  · exact apart_raise .rlsi u
  · exact .refl u

theorem apart_checkRdi (u : Dev) : Apart n u (checkRdi u) := by
  unfold checkRdi
  split
  · exact apart_raise .rdi u
  · exact .refl u

theorem apart_intThri (u : Dev) : Apart n u (intThri u) := apart_raise .thri u

theorem apart_intMsi (u : Dev) : Apart n u (intMsi u) := apart_raise .msi u

theorem apart_loopback (u : Dev) : Apart n u (loopback u) := by
  have looped : Apart n u { u with msr := loopbackMsr u.mcr u.msr } := .of_eq rfl rfl rfl
  unfold loopback
  dsimp only
  split
  · exact .refl u
  · split
    · exact looped.trans (apart_intMsi _)
    · exact looped

/-! ### The receiver -/

theorem apart_armTimeout (u : Dev) : Apart n u (armTimeout u) := apart_schedAdd rfl _ u

theorem clean_or (ch : BitVec 16) (is : clean ch = true) (lsr : Byte) :
    has (lsr ||| lineStatus ch) lsrTxbufe = has lsr lsrTxbufe ∧ has (lsr ||| lineStatus ch) lsrTxsere = has lsr lsrTxsere := by
  obtain ⟨txbufe, txsere⟩ := Bool.and_eq_true_iff.mp is
  rw [Bool.not_eq_true'] at txbufe txsere
  rw [Flags.has_or, Flags.has_or, txbufe, txsere, Bool.or_false, Bool.or_false]
  exact ⟨rfl, rfl⟩

/-- Bits of the receiver are set in `LSR`. -/
theorem apart_lsr_or {x : Byte} (txbufe : has x lsrTxbufe = false) (txsere : has x lsrTxsere = false) (u : Dev) :
    Apart n u { u with lsr := u.lsr ||| x } := by
  refine .of_eq (tx_lsr ?_ ?_) rfl rfl
  · rw [Flags.has_or, txbufe, Bool.or_false]
  · rw [Flags.has_or, txsere, Bool.or_false]

theorem apart_lsr_clear {x : Byte} (txbufe : ~~~x &&& lsrTxbufe = lsrTxbufe) (txsere : ~~~x &&& lsrTxsere = lsrTxsere) (u : Dev) :
    Apart n u { u with lsr := u.lsr &&& ~~~x } :=
  .of_eq (tx_lsr (Flags.has_clear txbufe _) (Flags.has_clear txsere _)) rfl rfl

theorem apart_storeChar {ch : BitVec 16} (is : clean ch = true) (u : Dev) : Apart n u (storeChar ch u) := by
  unfold storeChar
  split
  · exact (apart_lsr_or (x := lsrOvrrun ||| lsrRxerr) (by decide) (by decide) u).trans (apart_raise .rlsi _)
  · let stored : Dev := { u with
      rxbuf := put u.rxbuf u.rxbufHead ch
      rxbufHead := (u.rxbufHead + 1) % u.fifoLen
      rxbufFull := u.rxbufFull + 1 }
    have first : Apart n u stored := by
      refine fun before => ⟨rfl, before.rxser, fun i => ?_⟩
      show clean (if i = u.rxbufHead then ch else u.rxbuf i) = true
      split
      · exact is
      · exact before.rxbuf i
    show Apart n u (if u.rxbufFull = 0 then checkRlsi { stored with lsr := stored.lsr ||| lineStatus ch } else stored)
    split
    · obtain ⟨txbufe, txsere⟩ := clean_or ch is stored.lsr
      have shown : Apart n stored { stored with lsr := stored.lsr ||| lineStatus ch } := .of_eq (tx_lsr txbufe txsere) rfl rfl
      exact first.trans (shown.trans (apart_checkRlsi _))
    · exact first

theorem apart_addChar {ch : BitVec 16} (is : clean ch = true) (u : Dev) : Apart n u (addChar ch u) := by
  have ready : Apart n u { u with lsr := u.lsr ||| lsrRdrdy } := apart_lsr_or (by decide) (by decide) u
  have noted : Apart n u { u with lsr := u.lsr ||| lsrRdrdy, received := u.received ++ [ch] } := ready.trans (.of_eq rfl rfl rfl)
  exact noted.trans ((apart_clear iirCti _).trans ((apart_armTimeout _).trans ((apart_storeChar is _).trans (apart_checkRdi _))))

theorem apart_takeChar (u : Dev) : Apart n u (takeChar u).2 := by
  unfold takeChar
  split
  · exact .refl u
  · exact .of_eq rfl rfl rfl

theorem apart_showNext (u : Dev) : Apart n u (showNext u) := by
  unfold showNext
  split
  · exact apart_lsr_clear (by decide) (by decide) u
  · intro before
    let ch := u.rxbuf u.rxbufTail
    obtain ⟨txbufe, txsere⟩ := clean_or ch (before.rxbuf _) (u.lsr ||| lsrRdrdy)
    have ready : Apart n u { u with lsr := u.lsr ||| lsrRdrdy } := apart_lsr_or (by decide) (by decide) u
    have shown : Apart n u { u with lsr := u.lsr ||| (lsrRdrdy ||| lineStatus ch) } := by
      rw [← BitVec.or_assoc]
      exact ready.trans (.of_eq (tx_lsr (u := { u with lsr := u.lsr ||| lsrRdrdy }) txbufe txsere) rfl rfl)
    exact (shown.trans ((apart_armTimeout _).trans ((apart_checkRlsi _).trans (apart_checkRdi _)))) before

theorem apart_readRxbuf (u : Dev) : Apart n u (readRxbuf u).2 :=
  (apart_takeChar u).trans ((apart_clear iirRdi _).trans ((apart_clear iirCti _).trans (apart_showNext _)))

theorem apart_readLsr (u : Dev) : Apart n u (readLsr u).2 :=
  (apart_lsr_clear (x := lsrOvrrun ||| lsrBreak ||| lsrParity ||| lsrFrame ||| lsrRxerr) (by decide) (by decide) u).trans
    (apart_clear iirRlsi _)

theorem apart_readIir (u : Dev) : Apart n u (readIir u).2 := by
  unfold readIir
  dsimp only
  split
  · exact apart_clear iirThri u
  · exact .refl u

theorem apart_readMsr (u : Dev) : Apart n u (readMsr u).2 := by
  have cleared : Apart n u { u with msr := 0 } := .of_eq rfl rfl rfl
  exact cleared.trans ((apart_clear iirMsi _).trans (apart_loopback _))

theorem apart_resetRx (u : Dev) : Apart n u (resetRx u) := by
  have emptied : Apart n u { u with rxbufHead := 0, rxbufTail := 0, rxbufFull := 0 } := .of_eq rfl rfl rfl
  exact emptied.trans ((apart_lsr_clear (x := lsrRdrdy) (by decide) (by decide) _).trans
    ((apart_clear iirRdi _).trans (apart_clear iirCti _)))

/-! ### Characters that come in -/

theorem clean_byte (ch : Byte) : clean (ch.setWidth 16) = true := by
  have none : lineStatus (ch.setWidth 16) = 0 := by
    unfold lineStatus
    bv_omega
  unfold clean
  rw [none]
  decide

theorem lineStatus_and (x y : BitVec 16) : lineStatus (x &&& y) = lineStatus x &&& lineStatus y := by
  unfold lineStatus
  rw [BitVec.ushiftRight_and_distrib, BitVec.setWidth_and]

theorem lineStatus_or (x y : BitVec 16) : lineStatus (x ||| y) = lineStatus x ||| lineStatus y := by
  unfold lineStatus
  rw [BitVec.ushiftRight_or_distrib, BitVec.setWidth_or]

theorem lineStatus_shift (lsr : Byte) : lineStatus (lsr.setWidth 16 <<< 8) = lsr := by
  unfold lineStatus
  bv_omega

theorem clean_mask {ch : BitVec 16} (is : clean ch = true) (mask : BitVec 16) : clean (ch &&& mask) = true := by
  obtain ⟨txbufe, txsere⟩ := Bool.and_eq_true_iff.mp is
  rw [Bool.not_eq_true'] at txbufe txsere
  unfold clean
  rw [lineStatus_and, Flags.has_and txbufe, Flags.has_and txsere]
  rfl

theorem apart_rxser {ch : BitVec 16} (is : clean ch = true) (u : Dev) (receiveing : Bool) :
    Apart n u { u with rxser := ch, receiveing } :=
  fun before => ⟨rfl, is, before.rxbuf⟩

theorem apart_schedRecvCheck (c : Config) (u : Dev) : Apart n u (schedRecvCheck c u) := by
  unfold schedRecvCheck
  split
  · exact apart_schedAdd rfl _ u
  · exact .refl u

theorem apart_recvNext (c : Config) (u : Dev) : Apart n u (recvNext c u) := by
  unfold recvNext
  split
  · exact (apart_rxser (clean_byte u.loopback) u true).trans (apart_schedAdd rfl _ _)
  · have idle : Apart n u { u with receiveing := false } := .of_eq rfl rfl rfl
    dsimp only
    split
    · exact idle.trans ((apart_schedRecvCheck c _).trans (apart_schedAdd rfl _ _))
    · exact idle.trans (apart_schedRecvCheck c _)

theorem apart_recvChar (c : Config) (u : Dev) : Apart n u (recvChar c u) := by
  intro before
  exact ((apart_recvNext c u).trans (apart_addChar (clean_mask before.rxser _) _)) before

theorem apart_recvBreak (u : Dev) : Apart n u (recvBreak u) := apart_addChar (by decide) u

theorem apart_checkChar (read : ChannelRead) (u : Dev) : Apart n u (checkChar read u) := by
  cases read with
  | char ch => exact (apart_rxser (clean_byte ch) u true).trans (apart_schedAdd rfl _ _)
  | nothing => exact apart_schedAdd rfl _ u
  | failed => exact .refl u

theorem clean_errors (data : BitVec 32) (vapi : Vapi) (lcr : Byte) (charClks : Nat) :
    clean ((data.setWidth 16 &&& 0xff) ||| ((vapiErrors vapi lcr charClks).setWidth 16 <<< 8)) = true := by
  have status : lineStatus ((data.setWidth 16 &&& 0xff) ||| ((vapiErrors vapi lcr charClks).setWidth 16 <<< 8)) =
      vapiErrors vapi lcr charClks := by
    rw [lineStatus_or, lineStatus_and, lineStatus_shift, show lineStatus ((0xff : Nat) : BitVec 16) =
      0#8 by decide, BitVec.and_zero, BitVec.zero_or]
  unfold clean
  rw [status]
  unfold vapiErrors
  dsimp only
  split
  · decide
  · split <;> decide

theorem apart_vapiChar (data : BitVec 32) (u : Dev) : Apart n u (vapiChar data u) := by
  unfold vapiChar
  dsimp only
  let vapi : Vapi := { u.vapi with
    lcr := (data >>> 8).setWidth 8, charClks := charClksOf u.vapi.dll u.vapi.dlh ((data >>> 8).setWidth 8) }
  have came : Apart n u { u with
      vapi, rxser := (data.setWidth 16 &&& 0xff) ||| ((vapiErrors vapi u.lcr u.charClks).setWidth 16 <<< 8) } :=
    fun before => ⟨rfl, clean_errors data vapi u.lcr u.charClks, before.rxbuf⟩
  split
  · refine Apart.trans ?_ (apart_schedAdd rfl _ _)
    exact came.trans (.of_eq rfl rfl rfl)
  · exact came

theorem apart_recvBreakStartWith {cmd : Dev → Dev} (quiet : ∀ v, Apart n v (cmd v)) (c : Config) (u : Dev) :
    Apart n u (recvBreakStartWith cmd c u) := by
  have stopped : Apart n u { u with receiveing := false, recvBreak := true } := .of_eq rfl rfl rfl
  have removed : Apart n u (Dev.emit (.schedFindRemove .recvChar) { u with receiveing := false, recvBreak := true }) :=
    stopped.trans (apart_schedFindRemove rfl _)
  unfold recvBreakStartWith
  dsimp only
  split
  · exact (removed.trans (quiet _)).trans (apart_schedAdd rfl _ _)
  · exact removed.trans (apart_schedAdd rfl _ _)

theorem apart_recvBreakStop (u : Dev) : Apart n u (recvBreakStop u) := by
  have stopped : Apart n u { u with recvBreak := false } := .of_eq rfl rfl rfl
  exact stopped.trans (apart_schedFindRemove rfl _)

theorem apart_vapiCmd (c : Config) (fuel : Nat) (u : Dev) : Apart n u (vapiCmd c fuel u) := by
  induction fuel generalizing u with
  | zero => exact .refl u
  | succ fuel ih =>
    unfold vapiCmd
    split
    · exact .refl u
    · dsimp only
      have popped : Apart n u { u with vapiBufTailPtr := (u.vapiBufTailPtr + 1) % vapiBufLen } := .of_eq rfl rfl rfl
      split
      · exact popped.trans (apart_vapiChar _ _)
      · refine Apart.trans ?_ (ih _)
        exact popped.trans (.of_eq rfl rfl rfl)
      · refine Apart.trans ?_ (ih _)
        exact popped.trans (.of_eq rfl rfl rfl)
      · refine Apart.trans ?_ (ih _)
        exact popped.trans (.of_eq rfl rfl rfl)
      · split <;> split
        · exact (popped.trans (apart_recvBreakStartWith ih c _)).trans (ih _)
        · exact (popped.trans (apart_schedAdd rfl _ _)).trans (ih _)
        · exact (popped.trans (apart_recvBreakStop _)).trans (ih _)
        · exact (popped.trans (apart_schedAdd rfl _ _)).trans (ih _)
      · exact popped.trans (ih _)

theorem apart_recvBreakStart (c : Config) (u : Dev) : Apart n u (recvBreakStart c u) :=
  apart_recvBreakStartWith (fun v => apart_vapiCmd c vapiBufLen v) c u

/-! ### The transmitter itself -/

/-- A change of the transmitter, which leaves the entries of the receive buffer clean. -/
def Sends (n : Job → Nat) (f : Tx → Tx) (u v : Dev) : Prop := Clean u → tx n v = f (tx n u) ∧ Clean v

theorem Sends.then {f : Tx → Tx} (first : Sends n f u v) (second : Apart n v w) : Sends n f u w := by
  intro clean
  obtain ⟨same, clean⟩ := first clean
  obtain ⟨again, clean⟩ := second clean
  exact ⟨again.trans same, clean⟩

theorem Sends.of_eq {f : Tx → Tx} (same : tx n v = f (tx n u)) (rxser : v.rxser = u.rxser) (rxbuf : v.rxbuf = u.rxbuf) :
    Sends n f u v := by
  refine fun clean => ⟨same, ?_, ?_⟩
  · rw [rxser]
    exact clean.rxser
  · rw [rxbuf]
    exact clean.rxbuf

theorem sends_txSend (u : Dev) : Sends n Tx.send u (txSend u) := by
  let taken : Dev := { u with
    txser := u.txbuf u.txbufTail
    txbufTail := (u.txbufTail + 1) % u.fifoLen
    txbufFull := u.txbufFull - 1
    lsr := u.lsr &&& ~~~lsrTxsere }
  have first : tx n taken = { tx n u with
      txser := u.txbuf u.txbufTail, tail := (u.txbufTail + 1) % u.fifoLen, full := u.txbufFull - 1, txsere := false } := by
    unfold tx
    dsimp only
    rw [Flags.has_clear (by decide), Flags.has_cleared (by decide)]
  let armed : Dev := if !has taken.lcr lcrSbc then taken.emit (.schedAdd .charClock (taken.charClks * clockDivider))
    else taken.emit (.schedAdd .sendBreak 0)
  have second : tx n armed = { tx n taken with
      clocks := if has u.lcr lcrSbc then (tx n u).clocks else (tx n u).clocks + 1
      breaks := if has u.lcr lcrSbc then (tx n u).breaks + 1 else (tx n u).breaks } ∧ armed.rxser = u.rxser ∧ armed.rxbuf = u.rxbuf := by
    cases control : has u.lcr lcrSbc with
    | false =>
      have is : armed = taken.emit (.schedAdd .charClock (taken.charClks * clockDivider)) :=
        if_pos (show (!has u.lcr lcrSbc) = true by rw [control]; rfl)
      rw [is]
      refine ⟨?_, rfl, rfl⟩
      unfold tx
      rw [tally_emit, tally_emit, tally_emit]
      rfl
    | true =>
      have is : armed = taken.emit (.schedAdd .sendBreak 0) := if_neg (show ¬(!has u.lcr lcrSbc) = true by rw [control]; decide)
      rw [is]
      refine ⟨?_, rfl, rfl⟩
      unfold tx
      rw [tally_emit, tally_emit, tally_emit]
      rfl
  obtain ⟨second, rxser, rxbuf⟩ := second
  have empty : armed.txbufFull = u.txbufFull - 1 := (congrArg Tx.full second).trans rfl
  show Sends n Tx.send u (if armed.txbufFull = 0 then intThri { armed with lsr := armed.lsr ||| lsrTxbufe } else armed)
  by_cases last : u.txbufFull - 1 = 0
  · rw [if_pos (empty.trans last)]
    have marked : tx n { armed with lsr := armed.lsr ||| lsrTxbufe } = { tx n armed with txbufe := true } := by
      unfold tx
      dsimp only
      rw [Flags.has_or, Flags.has_or, show has lsrTxbufe lsrTxbufe = true by decide, show has lsrTxbufe lsrTxsere = false by decide,
        Bool.or_true, Bool.or_false]
    refine Sends.then (v := { armed with lsr := armed.lsr ||| lsrTxbufe }) (.of_eq ?_ rxser rxbuf) (apart_intThri _)
    rw [marked, second, first]
    unfold Tx.send
    rw [decide_eq_true (show (tx n u).full - 1 = 0 from last), Bool.or_true]
    rfl
  · rw [if_neg fun zero => last (empty.symm.trans zero)]
    refine .of_eq ?_ rxser rxbuf
    rw [second, first]
    unfold Tx.send
    rw [decide_eq_false (show ¬(tx n u).full - 1 = 0 from last), Bool.or_false]
    rfl

theorem sends_shiftedOut (u : Dev) : Sends n Tx.shiftedOut u (shiftedOut u) := by
  unfold shiftedOut
  by_cases empty : u.txbufFull = 0
  · rw [if_pos empty]
    refine .of_eq ?_ rfl rfl
    unfold Tx.shiftedOut
    rw [if_pos (show (tx n u).full = 0 from empty)]
    unfold tx
    dsimp only
    rw [Flags.has_or, Flags.has_or, show has lsrTxsere lsrTxbufe = false by decide, show has lsrTxsere lsrTxsere = true by decide,
      Bool.or_true, Bool.or_false]
  · rw [if_neg empty]
    intro clean
    obtain ⟨same, clean⟩ := sends_txSend u clean
    exact ⟨same.trans (if_neg (show (tx n u).full ≠ 0 from empty)).symm, clean⟩

theorem sends_charClock (c : Config) (u : Dev) : Sends n Tx.charClock u (charClock c u) := by
  have sent : tx n (sendChar c ((u.lcr &&& lcrWlen8).toNat + 5) u) = { tx n u with sent := u.sent ++ [u.txser] } ∧
      (sendChar c ((u.lcr &&& lcrWlen8).toNat + 5) u).rxser = u.rxser ∧
        (sendChar c ((u.lcr &&& lcrWlen8).toNat + 5) u).rxbuf = u.rxbuf := by
    unfold sendChar
    dsimp only
    split
    · exact ⟨rfl, rfl, rfl⟩
    · split <;> exact ⟨rfl, rfl, rfl⟩
  obtain ⟨same, rxser, rxbuf⟩ := sent
  intro before
  obtain ⟨after, kept⟩ :=
    sends_shiftedOut (n := n) _ (⟨rxser ▸ before.rxser, rxbuf ▸ before.rxbuf⟩ : Clean (sendChar c ((u.lcr &&& lcrWlen8).toNat + 5) u))
  refine ⟨after.trans ?_, kept⟩
  rw [same]
  rfl

theorem sends_sendBreak (u : Dev) : Sends n Tx.shiftedOut u (sendBreak u) := by
  let sent : Dev := { u with vapiOut := u.vapiOut ++ [lcrSbc.setWidth 32 <<< 8] }
  intro before
  exact sends_shiftedOut (n := n) sent ⟨before.rxser, before.rxbuf⟩

theorem sends_queueChar (value : Byte) (u : Dev) :
    Sends n (Tx.write value) u (queueChar value { u with lsr := u.lsr &&& ~~~lsrTxbufe }) := by
  have txbufe : has (u.lsr &&& ~~~lsrTxbufe) lsrTxbufe = false := Flags.has_cleared (by decide) _
  have txsere : has (u.lsr &&& ~~~lsrTxbufe) lsrTxsere = has u.lsr lsrTxsere := Flags.has_clear (by decide) _
  unfold queueChar
  by_cases room : u.txbufFull.toNat < u.fifoLen
  · rw [if_pos room]
    dsimp only
    let stored : Dev := { u with
      lsr := u.lsr &&& ~~~lsrTxbufe
      txbuf := put u.txbuf u.txbufHead value
      txbufHead := (u.txbufHead + 1) % u.fifoLen
      txbufFull := u.txbufFull + 1 }
    have first : tx n stored = { tx n u with
        txbuf := put u.txbuf u.txbufHead value, head := (u.txbufHead + 1) % u.fifoLen, full := u.txbufFull + 1, txbufe := false } := by
      unfold tx
      dsimp only
      rw [txbufe, txsere]
    have after : (tx n u).write value = { tx n stored with
        sends := if u.txbufFull = 0 && has u.lsr lsrTxsere then (tx n u).sends + 1 else (tx n u).sends } := by
      rw [first]
      exact if_pos room
    rw [txsere]
    by_cases idle : (decide (u.txbufFull = 0) && has u.lsr lsrTxsere) = true
    · rw [if_pos idle] at after ⊢
      refine .of_eq ?_ rfl rfl
      rw [after]
      show tx n (stored.emit (.schedAdd .txSend 0)) = _
      unfold tx
      rw [tally_emit, tally_emit, tally_emit]
      rfl
    · rw [if_neg idle] at after ⊢
      refine .of_eq ?_ rfl rfl
      rw [after]
      show tx n stored = _
      rw [first]
  · rw [if_neg room]
    refine .of_eq ?_ rfl rfl
    refine Eq.trans ?_ (if_neg room).symm
    unfold tx
    dsimp only
    rw [txbufe, txsere]

theorem sends_writeTxbuf (value : Byte) (u : Dev) : Sends n (Tx.write value) u (writeTxbuf value u) :=
  (sends_queueChar value u).then (apart_clear iirThri _)

theorem sends_resetTx (u : Dev) : Sends n (Tx.reset u.fifoLen) u (resetTx u) := by
  let emptied : Dev := { u with txbufHead := 0, txbufTail := 0, txbufFull := 0, lsr := u.lsr ||| lsrTxbufe }
  have first : tx n emptied = { tx n u with head := 0, tail := 0, full := 0, txbufe := true } := by
    unfold tx
    dsimp only
    rw [Flags.has_or, Flags.has_or, show has lsrTxbufe lsrTxbufe = true by decide, show has lsrTxbufe lsrTxsere = false by decide,
      Bool.or_true, Bool.or_false]
  let raised : Dev := if emptied.fifoLen = 16 then intThri emptied else emptied
  have second : Apart n emptied raised := by
    show Apart n emptied (if _ then _ else _)
    split
    · exact apart_intThri emptied
    · exact .refl emptied
  intro before
  obtain ⟨same, kept⟩ := second ⟨before.rxser, before.rxbuf⟩
  refine ⟨?_, kept.rxser, kept.rxbuf⟩
  have removed : tx n (raised.emit (.schedFindRemove .txSend)) = { tx n raised with sends := (tx n raised).sends - 1 } := by
    unfold tx
    rw [tally_emit, tally_emit, tally_emit]
    rfl
  show tx n (raised.emit (.schedFindRemove .txSend)) = _
  rw [removed, same, first]
  rfl

theorem sends_writeFcr (value : Byte) (u : Dev) :
    Sends n (Tx.control (has (fcrValue u.fifoLen value) fcrRtxfi) (newFifoLen u.fifoLen value)) u (writeFcr value u) := by
  let sized : Dev := { u with fcr := value &&& validFcr, fifoLen := newFifoLen u.fifoLen value }
  let cleared : Dev := if has (fcrValue u.fifoLen value) fcrRtxfi then resetTx sized else sized
  have second : Sends n (Tx.control (has (fcrValue u.fifoLen value) fcrRtxfi) (newFifoLen u.fifoLen value)) u cleared := by
    show Sends n _ u (if _ then _ else _)
    unfold Tx.control
    intro before
    split
    · exact sends_resetTx sized ⟨before.rxser, before.rxbuf⟩
    · exact ⟨rfl, before.rxser, before.rxbuf⟩
  show Sends n _ u (if has (fcrValue u.fifoLen value) fcrRrxfi then resetRx cleared else cleared)
  split
  · exact second.then (apart_resetRx cleared)
  · exact second

/-- The job of a character that is being sent goes, and that of a break or of the next character comes. -/
theorem tx_switchBreak (value : Byte) (u : Dev) : { tx n (switchBreak value u) with sbc := has value lcrSbc } =
    (tx n u).setBreak (has value lcrSbc) ∧
    (switchBreak value u).rxser = u.rxser ∧ (switchBreak value u).rxbuf = u.rxbuf := by
  have control : u.lcr &&& lcrSbc = value &&& lcrSbc ↔ has u.lcr lcrSbc = has value lcrSbc :=
    Flags.and_eq_and_iff (i := 6) u.lcr value
  unfold switchBreak Tx.setBreak
  by_cases same : has u.lcr lcrSbc = has value lcrSbc
  · rw [if_pos (control.mpr same), if_pos (show (tx n u).sbc = has value lcrSbc from same), ← same]
    exact ⟨rfl, rfl, rfl⟩
  · rw [if_neg fun eq => same (control.mp eq), if_neg (show ¬(tx n u).sbc = has value lcrSbc from same)]
    dsimp only
    cases sets : has value lcrSbc <;> cases idle : has u.lsr lsrTxsere <;> refine ⟨?_, ?_, ?_⟩ <;>
      simp [tx, Dev.emit, tally, Effect.count, List.foldl_append, idle]

theorem sends_writeLcr (value : Byte) (u : Dev) : Sends n (Tx.setBreak (has value lcrSbc)) u (writeLcr value u) := by
  obtain ⟨same, rxser, rxbuf⟩ := tx_switchBreak (n := n) value u
  refine .of_eq ?_ rxser rxbuf
  rw [← same]
  rfl

/-! ### Accesses and jobs -/

theorem Apart.sends (apart : Apart n u v) : Sends n id u v := apart

theorem apart_readByte (addr : Nat) (u : Dev) : Apart n u (readByte addr u).2 := by
  unfold readByte
  split
  · exact .refl u
  · exact .refl u
  · exact apart_readRxbuf u
  · exact .refl u
  · exact apart_readIir u
  · exact .refl u
  · exact .refl u
  · exact apart_readLsr u
  · exact apart_readMsr u
  · exact .refl u
  · exact .refl u

/-- What a write does to the transmitter. -/
def written (u : Dev) (addr : Nat) (value : Byte) : Tx → Tx :=
  if addr = 0 ∧ has u.lcr lcrDlab = false then Tx.write value
  else if addr = 2 then Tx.control (has (fcrValue u.fifoLen value) fcrRtxfi) (newFifoLen u.fifoLen value)
  else if addr = 3 then Tx.setBreak (has value lcrSbc)
  else id

theorem sends_writeByte (addr : Nat) (value : Byte) (u : Dev) : Sends n (written u addr value) u (writeByte addr value u) := by
  unfold writeByte
  split
  · next latch =>
    have is : written u 0 value = id := by
      unfold written
      rw [latch]
      rfl
    rw [is]
    exact .of_eq rfl rfl rfl
  · exact .of_eq rfl rfl rfl
  · next latch =>
    have is : written u 0 value = Tx.write value := if_pos ⟨rfl, latch⟩
    rw [is]
    exact sends_writeTxbuf value u
  · have enabled : Apart n u { u with ier := value &&& validIer } := .of_eq rfl rfl rfl
    exact (enabled.trans (apart_next _)).sends
  · exact sends_writeFcr value u
  · exact sends_writeLcr value u
  · have turned : Apart n u { u with mcr := value &&& validMcr } := .of_eq rfl rfl rfl
    exact (turned.trans (apart_loopback _)).sends
  · exact .of_eq rfl rfl rfl
  · next addr _ _ fcr lcr _ _ _ _ txbuf _ =>
    have is : written u addr value = id := by
      unfold written
      rw [if_neg fun both => txbuf both.2 both.1, if_neg fcr, if_neg lcr]
    rw [is]
    exact (Apart.refl u).sends

/-- What a job does to the transmitter, once it has left the queue. -/
def performed : Job → Tx → Tx
  | .txSend => Tx.send
  | .charClock => Tx.charClock
  | .sendBreak => Tx.shiftedOut
  | _ => id

theorem sends_runJob (read : ChannelRead) (job : Job) (u : Dev) : Sends n (performed job) u (runJob c read job u) := by
  cases job with
  | intCti => exact (apart_raise .cti u).sends
  | txSend => exact sends_txSend u
  | charClock => exact sends_charClock c u
  | sendBreak => exact sends_sendBreak u
  | recvChar => exact (apart_recvChar c u).sends
  | recvBreak => exact (apart_recvBreak u).sends
  | recvBreakStart => exact (apart_recvBreakStart c u).sends
  | recvBreakStop => exact (apart_recvBreakStop u).sends
  | checkChar => exact (apart_checkChar read u).sends
  | vapiCmd => exact (apart_vapiCmd c vapiBufLen u).sends
  | other n => exact (Apart.refl u).sends

end

end Or1ksim.Uart
