import Or1ksim.Peripheral.Interrupts

/-!
# When the identification is right

The sequences of raising and clearing in the accesses and the jobs of the UART, and the runs in which
`IIR` identifies the highest source that is pending and enabled.
-/

namespace Or1ksim.Uart

open Peripheral (Effect Bus lineAfter)
open Flags (has)
open Pending (Register)

/-! ### Sequences of the register -/

section
variable {p : Register Source} {s : Source}

theorem raiseIf_bounded (bounded : p.Bounded) (go : Bool) (s : Source) : (raiseIf go s p).Bounded := by
  cases go with
  | false => exact bounded
  | true => exact Register.raise_bounded bounded s

theorem raiseIf_exact_iff (bounded : p.Bounded) (go : Bool) :
    (raiseIf go s p).Exact ↔ p.Exact ∨ go = true ∧ p.shown ≤ s := by
  cases go with
  | false => exact (or_iff_left fun both => Bool.false_ne_true both.1).symm
  | true => exact (Register.raise_exact_iff bounded).trans (or_congr_right (and_iff_right rfl).symm)

theorem raiseIf_exact (exact' : p.Exact) (go : Bool) (s : Source) : (raiseIf go s p).Exact :=
  (raiseIf_exact_iff exact'.bounded go).mpr (.inl exact')

theorem le_rlsi (shown : WithBot Source) : shown ≤ (Source.rlsi : WithBot Source) := by
  revert shown
  decide

/-- Line status and received data raised again behind something that was cleared. -/
theorem reraised_exact_iff (bounded : p.Bounded) (status data : Bool) (low : ¬ p.Exact → p.shown ≤ Source.rdi) :
    (raiseIf data .rdi (raiseIf status .rlsi p)).Exact ↔ p.Exact ∨ status = true ∨ data = true := by
  rw [raiseIf_exact_iff (raiseIf_bounded bounded status .rlsi), raiseIf_exact_iff bounded, and_iff_left (le_rlsi _), or_assoc]
  by_cases exact' : p.Exact
  · exact iff_of_true (.inl exact') (.inl exact')
  cases status with
  | true => exact iff_of_true (.inr (.inl rfl)) (.inr (.inl rfl))
  | false => exact or_congr_right (or_congr_right (and_iff_left (low exact')))

theorem clear_shown_le (bounded : p.Bounded) (s : Source) : (p.clear s).shown ≤ p.shown := by
  unfold Register.clear
  split
  · show (if _ then _ else _ : WithBot Source) ≤ _
    split
    · exact bot_le
    · exact max_le (le_refl _) ((Register.max_erase_le s p.waiting).trans bounded)
  · exact le_refl _

theorem erase_empty_iff {w : Finset Source} (inside : s ∈ w) : w.erase s = ∅ ↔ w.card ≤ 1 := by
  rw [← Finset.card_eq_zero, Finset.card_erase_of_mem inside]
  omega

theorem Exact.mem (exact' : p.Exact) (shown : p.shown = s) : s ∈ p.waiting :=
  Finset.mem_of_max (exact'.symm.trans shown)

/-- The source that is shown is cleared without a trace when it waits alone. -/
theorem clear_exact (exact' : p.Exact) : (p.clear s).Exact ↔ (p.shown = s → p.waiting.card ≤ 1) := by
  rw [Register.clear_exact_iff exact'.bounded]
  split
  · next same => rw [erase_empty_iff (Exact.mem exact' same), imp_iff_right same]
  · next differ => exact iff_of_true exact' fun same => absurd same differ

/-- Received data and the timeout are cleared together. -/
theorem clearRx_exact (exact' : p.Exact) :
    ((p.clear .rdi).clear .cti).Exact ↔ (p.shown = Source.rdi ∨ p.shown = Source.cti → p.waiting.card ≤ 1) := by
  by_cases data : p.shown = Source.rdi
  · rw [imp_iff_right (.inl data), Register.clear_exact_iff (Register.clear_bounded exact'.bounded _), if_neg, clear_exact exact',
      imp_iff_right data]
    unfold Register.clear
    rw [if_pos data]
    show (if _ then _ else _ : WithBot Source) ≠ _
    split
    · exact nofun
    · rw [data]
      intro timeout
      have := le_max_left (Source.rdi : WithBot Source) (p.waiting.erase .rdi).max
      rw [timeout] at this
      exact absurd this (by decide)
  · have kept : p.clear .rdi = ⟨p.waiting.erase .rdi, p.shown⟩ := if_neg data
    have exact₁ : (p.clear .rdi).Exact := (clear_exact exact').mpr fun same => absurd same data
    rw [clear_exact exact₁, kept, or_iff_right data]
    refine forall_congr' fun timeout => ?_
    have absent : Source.rdi ∉ p.waiting := by
      intro inside
      have := Finset.le_max inside
      rw [← exact', timeout] at this
      exact absurd this (by decide)
    show (p.waiting.erase .rdi).card ≤ 1 ↔ _
    rw [Finset.erase_eq_of_notMem absent]

end

/-! ### Accesses and jobs -/

/-- At most one source is pending and enabled. -/
def Alone (u : Dev) : Prop := (waiting u).card ≤ 1

def lineErrors : Byte := lsrOvrrun ||| lsrParity ||| lsrFrame ||| lsrBreak

/-- The buffer has reached the trigger of `FCR`. -/
def atTrigger (fcr : Byte) (full : BitVec 32) : Bool := fifoTrigger (fcr >>> 6) ≤ full.toNat

def overruns (u : Dev) : Bool := u.fifoLen < (u.rxbufFull + 1).toNat

/-- What is shown after an access that began in `p`, and the condition under which it is still right. -/
def Leaves (asserted : Bool) (p : Register Source) (v : Dev) (ok : Prop) : Prop :=
  ∃ q, Shows asserted v q ∧ (p.Exact → (q.Exact ↔ ok))

section
variable {asserted : Bool} {u v : Dev} {p : Register Source}

theorem Shows.alone_iff (shows' : Shows asserted u p) : Alone u ↔ p.waiting.card ≤ 1 := by
  unfold Alone
  rw [shows'.waiting]

theorem Shows.leaves (shows' : Shows asserted v p) : Leaves asserted p v True := ⟨p, shows', fun exact' => iff_of_true exact' trivial⟩

theorem Shows.raiseWhen (shows' : Shows asserted u p) (go : Bool) (s : Source) :
    Shows asserted (if go then s.raise u else u) (raiseIf (go && has u.ier s.enable) s p) := by
  cases go with
  | false => exact shows'
  | true => exact shows'.raise s

theorem Shows.checkRlsi (shows' : Shows asserted u p) :
    Shows asserted (checkRlsi u) (raiseIf (has u.lsr lineErrors && has u.ier ierRlsi) .rlsi p) :=
  shows'.raiseWhen (has u.lsr lineErrors) .rlsi

theorem Shows.checkRdi (shows' : Shows asserted u p) :
    Shows asserted (checkRdi u) (raiseIf (atTrigger u.fcr u.rxbufFull && has u.ier ierRdi) .rdi p) := by
  have raised := shows'.raiseWhen (atTrigger u.fcr u.rxbufFull) .rdi
  unfold Uart.checkRdi
  unfold atTrigger at raised ⊢
  simp only [decide_eq_true_eq] at raised
  exact raised

theorem Shows.armTimeout (shows' : Shows asserted u p) : Shows asserted (armTimeout u) p := shows'.schedAdd _ _

/-- The line status that a character raises. -/
def raisesStatus (ch : BitVec 16) (u : Dev) : Bool :=
  (overruns u || (u.rxbufFull = 0 && (has u.lsr lineErrors || has (lineStatus ch) lineErrors))) && has u.ier ierRlsi

/-- The received data that a character raises. -/
def raisesData (u : Dev) : Bool :=
  atTrigger u.fcr (if overruns u then u.rxbufFull else u.rxbufFull + 1) && has u.ier ierRdi

theorem Shows.storeChar (shows' : Shows asserted u p) (ch : BitVec 16) :
    Shows asserted (storeChar ch u) (raiseIf (raisesStatus ch u) .rlsi p) := by
  unfold Uart.storeChar raisesStatus overruns
  by_cases full : u.fifoLen < (u.rxbufFull + 1).toNat
  · have overrun : Shows asserted { u with lsr := u.lsr ||| (lsrOvrrun ||| lsrRxerr) } p := shows'.of_same rfl rfl rfl rfl
    rw [if_pos full, decide_eq_true full, Bool.true_or, Bool.true_and]
    exact overrun.raise .rlsi
  · rw [if_neg full, decide_eq_false full, Bool.false_or]
    dsimp only
    by_cases first : u.rxbufFull = 0
    · rw [if_pos first, decide_eq_true first, Bool.true_and]
      have stored : Shows asserted { u with
          rxbuf := put u.rxbuf u.rxbufHead ch
          rxbufHead := (u.rxbufHead + 1) % u.fifoLen
          rxbufFull := u.rxbufFull + 1
          lsr := u.lsr ||| lineStatus ch } p := shows'.of_same rfl rfl rfl rfl
      have checked := stored.checkRlsi
      rw [Flags.has_or] at checked
      exact checked
    · rw [if_neg first, decide_eq_false first]
      exact shows'.of_same rfl rfl rfl rfl

theorem storeChar_fields (ch : BitVec 16) (u : Dev) :
    (storeChar ch u).rxbufFull = (if overruns u then u.rxbufFull else u.rxbufFull + 1) ∧ (storeChar ch u).fcr = u.fcr ∧
      (storeChar ch u).ier = u.ier := by
  unfold storeChar overruns
  by_cases full : u.fifoLen < (u.rxbufFull + 1).toNat
  · rw [if_pos full, decide_eq_true full, if_pos rfl]
    have only := OnlyInt.raise .rlsi { u with lsr := u.lsr ||| (lsrOvrrun ||| lsrRxerr) }
    exact ⟨(congrArg Dev.rxbufFull only :), (congrArg Dev.fcr only :), (congrArg Dev.ier only :)⟩
  · rw [if_neg full, decide_eq_false full, if_neg Bool.false_ne_true]
    dsimp only
    by_cases first : u.rxbufFull = 0
    · rw [if_pos first]
      have only := OnlyInt.checkRlsi { u with
        rxbuf := put u.rxbuf u.rxbufHead ch
        rxbufHead := (u.rxbufHead + 1) % u.fifoLen
        rxbufFull := u.rxbufFull + 1
        lsr := u.lsr ||| lineStatus ch }
      exact ⟨(congrArg Dev.rxbufFull only :), (congrArg Dev.fcr only :), (congrArg Dev.ier only :)⟩
    · rw [if_neg first]
      exact ⟨rfl, rfl, rfl⟩

/-- The timeout that is shown may go when it waits alone, or when the character raises something higher. -/
def AddKeeps (ch : BitVec 16) (u : Dev) : Prop :=
  (u.iir = iirCti → Alone u) ∨ raisesStatus ch u = true ∨ raisesData u = true

theorem addChar_leaves (shows' : Shows asserted u p) (ch : BitVec 16) : Leaves asserted p (addChar ch u) (AddKeeps ch u) := by
  let noted : Dev := { u with lsr := u.lsr ||| lsrRdrdy, received := u.received ++ [ch] }
  let ready : Dev := armTimeout (clearInt iirCti noted)
  have first : Shows asserted noted p := shows'.of_same rfl rfl rfl rfl
  have armed : Shows asserted ready (p.clear .cti) := (first.clear .cti).armTimeout
  have only : OnlyInt noted ready := (OnlyInt.clear iirCti noted).trans (.emit _ _)
  have status : raisesStatus ch ready = raisesStatus ch u := by
    have apart : has lsrRdrdy lineErrors = false := by decide
    unfold raisesStatus overruns
    rw [congrArg Dev.fifoLen only, congrArg Dev.rxbufFull only, congrArg Dev.lsr only, congrArg Dev.ier only]
    show ((decide (u.fifoLen < (u.rxbufFull + 1).toNat) || (decide (u.rxbufFull = 0) &&
      (has (u.lsr ||| lsrRdrdy) lineErrors || has (lineStatus ch) lineErrors))) && has u.ier ierRlsi) = _
    rw [Flags.has_or, apart, Bool.or_false]
  obtain ⟨full, fcr, ier⟩ := storeChar_fields ch ready
  have data : (atTrigger (storeChar ch ready).fcr (storeChar ch ready).rxbufFull && has (storeChar ch ready).ier ierRdi) =
      raisesData u := by
    rw [full, fcr, ier]
    unfold overruns
    rw [congrArg Dev.fifoLen only, congrArg Dev.rxbufFull only, congrArg Dev.fcr only, congrArg Dev.ier only]
    rfl
  have checked := (armed.storeChar ch).checkRdi
  rw [status, data] at checked
  refine ⟨_, checked, fun exact' => ?_⟩
  rw [reraised_exact_iff (Register.clear_bounded exact'.bounded _), clear_exact exact']
  · unfold AddKeeps
    rw [shows'.alone_iff, show u.iir = iirCti ↔ p.shown = Source.cti from shows'.shown_iff (s := .cti)]
  · rw [clear_exact exact', Classical.not_imp]
    rintro ⟨timeout, -⟩
    refine (clear_shown_le exact'.bounded _).trans ?_
    rw [timeout]
    decide

/-- The characters that are left when one has been read. -/
def remaining (u : Dev) : BitVec 32 := if u.rxbufFull = 0 then 0 else u.rxbufFull - 1

/-- The line status that the next character raises. -/
def nextStatus (u : Dev) : Bool :=
  (has u.lsr lineErrors || has (lineStatus (u.rxbuf ((u.rxbufTail + 1) % u.fifoLen))) lineErrors) && has u.ier ierRlsi

/-- A read of `RXBUF` clears received data and the timeout. -/
def RxbufKeeps (u : Dev) : Prop :=
  (u.iir = iirRdi ∨ u.iir = iirCti → Alone u) ∨
    remaining u ≠ 0 ∧ (nextStatus u = true ∨ (atTrigger u.fcr (remaining u) && has u.ier ierRdi) = true)

theorem Shows.clearRx (shows' : Shows asserted u p) : Shows asserted (clearInt iirCti (clearInt iirRdi u)) ((p.clear .rdi).clear .cti) :=
  (shows'.clear .rdi).clear .cti

theorem clearRx_only (u : Dev) : OnlyInt u (clearInt iirCti (clearInt iirRdi u)) := (OnlyInt.clear _ u).trans (.clear _ _)

theorem Shows.rx_iff (shows' : Shows asserted u p) :
    (u.iir = iirRdi ∨ u.iir = iirCti → Alone u) ↔ (p.shown = Source.rdi ∨ p.shown = Source.cti → p.waiting.card ≤ 1) := by
  rw [shows'.alone_iff, show u.iir = iirRdi ↔ p.shown = Source.rdi from shows'.shown_iff (s := .rdi),
    show u.iir = iirCti ↔ p.shown = Source.cti from shows'.shown_iff (s := .cti)]

theorem readRxbuf_leaves (shows' : Shows asserted u p) : Leaves asserted p (readRxbuf u).2 (RxbufKeeps u) := by
  have taken : ∃ t, (takeChar u).2 = t ∧ Shows asserted t p ∧ t.rxbufFull = remaining u ∧ t.lsr = u.lsr ∧ t.fcr = u.fcr ∧ t.ier = u.ier ∧
      (remaining u ≠ 0 → t.rxbuf t.rxbufTail = u.rxbuf ((u.rxbufTail + 1) % u.fifoLen)) := by
    unfold takeChar remaining
    by_cases empty : u.rxbufFull = 0
    · rw [if_pos empty, if_pos empty]
      exact ⟨_, rfl, shows', empty, rfl, rfl, rfl, fun some => absurd rfl some⟩
    · rw [if_neg empty, if_neg empty]
      exact ⟨_, rfl, shows'.of_same rfl rfl rfl rfl, rfl, rfl, rfl, rfl, fun _ => rfl⟩
  obtain ⟨t, is, first, full, lsr, fcr, ier, tail⟩ := taken
  have cleared := first.clearRx
  have only := clearRx_only t
  show Leaves asserted p (showNext (clearInt iirCti (clearInt iirRdi (takeChar u).2))) _
  rw [is]
  generalize clearInt iirCti (clearInt iirRdi t) = v at cleared only ⊢
  have full' : v.rxbufFull = remaining u := (congrArg Dev.rxbufFull only :).trans full
  have lsr' : v.lsr = u.lsr := (congrArg Dev.lsr only :).trans lsr
  have fcr' : v.fcr = u.fcr := (congrArg Dev.fcr only :).trans fcr
  have ier' : v.ier = u.ier := (congrArg Dev.ier only :).trans ier
  have tail' : v.rxbuf v.rxbufTail = t.rxbuf t.rxbufTail := by
    rw [(congrArg Dev.rxbuf only :), (congrArg Dev.rxbufTail only :)]
  unfold showNext RxbufKeeps
  rw [shows'.rx_iff, ← full']
  by_cases empty : v.rxbufFull = 0
  · rw [if_pos empty, or_iff_left fun both => both.1 empty]
    exact ⟨_, cleared.of_same rfl rfl rfl rfl, clearRx_exact⟩
  · rw [if_neg empty, and_iff_right empty]
    let shown : Dev := { v with lsr := v.lsr ||| (lsrRdrdy ||| lineStatus (v.rxbuf v.rxbufTail)) }
    have armed : Shows asserted (armTimeout shown) ((p.clear .rdi).clear .cti) :=
      (cleared.of_same (v := shown) rfl rfl rfl rfl).armTimeout
    have only' := OnlyInt.checkRlsi (armTimeout shown)
    have checked := armed.checkRlsi.checkRdi
    have status : (has (armTimeout shown).lsr lineErrors && has (armTimeout shown).ier ierRlsi) = nextStatus u := by
      have apart : has lsrRdrdy lineErrors = false := by decide
      show (has (v.lsr ||| (lsrRdrdy ||| lineStatus (v.rxbuf v.rxbufTail))) lineErrors && has v.ier ierRlsi) = _
      rw [Flags.has_or, Flags.has_or, apart, Bool.false_or, tail', tail (full' ▸ empty), lsr', ier']
      rfl
    have data : (atTrigger (Uart.checkRlsi (armTimeout shown)).fcr (Uart.checkRlsi (armTimeout shown)).rxbufFull &&
        has (Uart.checkRlsi (armTimeout shown)).ier ierRdi) = (atTrigger u.fcr v.rxbufFull && has u.ier ierRdi) := by
      rw [(congrArg Dev.fcr only' :), (congrArg Dev.rxbufFull only' :), (congrArg Dev.ier only' :)]
      show (atTrigger v.fcr v.rxbufFull && has v.ier ierRdi) = _
      rw [fcr', ier']
    rw [status, data] at checked
    refine ⟨_, checked, fun exact' => ?_⟩
    have bounded := Register.clear_bounded (Register.clear_bounded exact'.bounded .rdi) .cti
    rw [reraised_exact_iff bounded, clearRx_exact exact']
    rw [clearRx_exact exact', Classical.not_imp]
    rintro ⟨rx, -⟩
    refine (clear_shown_le (Register.clear_bounded exact'.bounded _) _).trans ((clear_shown_le exact'.bounded _).trans ?_)
    rcases rx with data | timeout
    · rw [data]
    · rw [timeout]
      decide

/-- The transmitter's interrupt that a write of `FCR` raises. -/
def fcrRaises (value : Byte) (u : Dev) : Bool := has (fcrValue u.fifoLen value) fcrRtxfi && has value fcrFie && has u.ier ierThri

/-- A reset of the receive buffer clears received data and the timeout. -/
def FcrKeeps (value : Byte) (u : Dev) : Prop :=
  has (fcrValue u.fifoLen value) fcrRrxfi = true → u.iir = iirRdi ∨ u.iir = iirCti → Alone u ∧ fcrRaises value u = false

theorem fcrValue_fie (fifoLen : Nat) (value : Byte) : has (fcrValue fifoLen value) fcrFie = has value fcrFie := by
  unfold fcrValue
  split
  · rw [Flags.has_or, show has (fcrRrxfi ||| fcrRtxfi) fcrFie = false by decide, Bool.or_false]
  · rfl

theorem fifoLen_fie (fie : Bool) : decide ((if fie then 16 else 1) = 16) = fie := by
  cases fie <;> rfl

theorem Shows.resetTx (shows' : Shows asserted u p) :
    Shows asserted (resetTx u) (raiseIf (decide (u.fifoLen = 16) && has u.ier ierThri) .thri p) := by
  let emptied : Dev := { u with txbufHead := 0, txbufTail := 0, txbufFull := 0, lsr := u.lsr ||| lsrTxbufe }
  have first : Shows asserted emptied p := shows'.of_same rfl rfl rfl rfl
  have raised := first.raiseWhen (decide (u.fifoLen = 16)) .thri
  simp only [decide_eq_true_eq] at raised
  exact raised.schedFindRemove .txSend

theorem Shows.resetRx (shows' : Shows asserted u p) : Shows asserted (resetRx u) ((p.clear .rdi).clear .cti) := by
  let emptied : Dev := { u with rxbufHead := 0, rxbufTail := 0, rxbufFull := 0, lsr := u.lsr &&& ~~~lsrRdrdy }
  have first : Shows asserted emptied p := shows'.of_same rfl rfl rfl rfl
  exact first.clearRx

/-- The transmitter's interrupt does not hide received data or the timeout. -/
theorem raiseThri_rx (exact' : p.Exact) (go : Bool) :
    ((raiseIf go .thri p).shown = Source.rdi ∨ (raiseIf go .thri p).shown = Source.cti → (raiseIf go .thri p).waiting.card ≤ 1) ↔
      (p.shown = Source.rdi ∨ p.shown = Source.cti → p.waiting.card ≤ 1 ∧ go = false) := by
  cases go with
  | false => exact imp_congr_right fun _ => (and_iff_left rfl).symm
  | true =>
    have same (s : Source) (above : Source.thri < s) : max p.shown (Source.thri : WithBot Source) = s ↔ p.shown = s := by
      constructor
      · intro is
        rcases max_choice p.shown (Source.thri : WithBot Source) with left | right
        · exact left.symm.trans is
        · exact absurd (WithBot.coe_injective (right.symm.trans is)) (ne_of_lt above)
      · intro is
        rw [is]
        exact max_eq_left (le_of_lt (WithBot.coe_lt_coe.mpr above))
    show (max p.shown (Source.thri : WithBot Source) = Source.rdi ∨ max p.shown (Source.thri : WithBot Source) = Source.cti →
      (insert Source.thri p.waiting).card ≤ 1) ↔ _
    rw [same .rdi (by decide), same .cti (by decide)]
    refine imp_congr_right fun rx => iff_of_false ?_ fun both => Bool.false_ne_true both.2.symm
    obtain ⟨s, differ, inside⟩ : ∃ s, s ≠ Source.thri ∧ s ∈ p.waiting := by
      rcases rx with data | timeout
      · exact ⟨.rdi, nofun, Exact.mem exact' data⟩
      · exact ⟨.cti, nofun, Exact.mem exact' timeout⟩
    intro few
    have both := Finset.card_le_one.mp few s (Finset.mem_insert_of_mem inside) .thri (Finset.mem_insert_self _ _)
    exact differ both

theorem writeFcr_leaves (shows' : Shows asserted u p) (value : Byte) : Leaves asserted p (writeFcr value u) (FcrKeeps value u) := by
  let moded : Dev := { u with fcr := value &&& validFcr, fifoLen := if has (fcrValue u.fifoLen value) fcrFie then 16 else 1 }
  have first : Shows asserted moded p := shows'.of_same rfl rfl rfl rfl
  have fifo : decide (moded.fifoLen = 16) = has value fcrFie := (fifoLen_fie _).trans (fcrValue_fie u.fifoLen value)
  let after : Dev := if has (fcrValue u.fifoLen value) fcrRtxfi then resetTx moded else moded
  have tx : Shows asserted after (raiseIf (fcrRaises value u) .thri p) := by
    show Shows asserted (if _ then _ else _) _
    unfold fcrRaises
    cases has (fcrValue u.fifoLen value) fcrRtxfi with
    | false => exact first
    | true =>
      have reset := first.resetTx
      rw [fifo] at reset
      exact reset
  show Leaves asserted p (if has (fcrValue u.fifoLen value) fcrRrxfi then resetRx after else after) _
  unfold FcrKeeps
  cases has (fcrValue u.fifoLen value) fcrRrxfi with
  | false => exact ⟨_, tx, fun exact' => iff_of_true (raiseIf_exact exact' _ _) nofun⟩
  | true =>
    refine ⟨_, tx.resetRx, fun exact' => ?_⟩
    rw [clearRx_exact (raiseIf_exact exact' _ _), raiseThri_rx exact', imp_iff_right rfl, shows'.alone_iff,
      show u.iir = iirRdi ↔ p.shown = Source.rdi from shows'.shown_iff (s := .rdi),
      show u.iir = iirCti ↔ p.shown = Source.cti from shows'.shown_iff (s := .cti)]

/-- A write of `IER` leaves no source enabled, or one that is not lower than before. -/
def IerKeeps (value : Byte) (u : Dev) : Prop :=
  waiting { u with ier := value &&& validIer } = ∅ ∨ (waiting u).max ≤ (waiting { u with ier := value &&& validIer }).max

theorem writeIer_leaves (shows' : Shows asserted u p) (value : Byte) :
    Leaves asserted p (nextInt { u with ier := value &&& validIer }) (IerKeeps value u) := by
  have enabled : Shows asserted { u with ier := value &&& validIer } ⟨waiting { u with ier := value &&& validIer }, p.shown⟩ :=
    ⟨rfl, shows'.iir, shows'.line⟩
  refine ⟨_, enabled.next, fun exact' => ?_⟩
  rw [Register.next_exact_iff]
  unfold IerKeeps
  rw [shows'.waiting, ← exact']

theorem clear_leaves (shows' : Shows asserted u p) (s : Source) :
    Leaves asserted p (clearInt s.id u) (u.iir = s.id → Alone u) := by
  refine ⟨_, shows'.clear s, fun exact' => ?_⟩
  rw [clear_exact exact', shows'.alone_iff, shows'.shown_iff]

theorem Shows.queueChar (shows' : Shows asserted u p) (value : Byte) : Shows asserted (queueChar value u) p := by
  unfold Uart.queueChar
  split
  · dsimp only
    split
    · exact Shows.schedAdd (shows'.of_same (v := { u with
        txbuf := put u.txbuf u.txbufHead value
        txbufHead := (u.txbufHead + 1) % u.fifoLen
        txbufFull := u.txbufFull + 1 }) rfl rfl rfl rfl) _ _
    · exact shows'.of_same rfl rfl rfl rfl
  · exact shows'.of_same rfl rfl rfl rfl

theorem writeTxbuf_leaves (shows' : Shows asserted u p) (value : Byte) :
    Leaves asserted p (writeTxbuf value u) (u.iir = iirThri → Alone u) := by
  have stored : Shows asserted (queueChar value { u with lsr := u.lsr &&& ~~~lsrTxbufe }) p :=
    Shows.queueChar (u := { u with lsr := u.lsr &&& ~~~lsrTxbufe }) (shows'.of_same rfl rfl rfl rfl) value
  have cleared := clear_leaves stored .thri
  rw [stored.alone_iff, stored.shown_iff, ← shows'.alone_iff, ← shows'.shown_iff] at cleared
  exact cleared

theorem readIir_leaves (shows' : Shows asserted u p) : Leaves asserted p (readIir u).2 (u.iir = iirThri → Alone u) := by
  unfold readIir
  dsimp only
  split
  · exact clear_leaves shows' .thri
  · next other => exact ⟨p, shows', fun exact' => iff_of_true exact' fun same => absurd same other⟩

theorem readLsr_leaves (shows' : Shows asserted u p) : Leaves asserted p (readLsr u).2 (u.iir = iirRlsi → Alone u) :=
  clear_leaves (u := { u with lsr := u.lsr &&& ~~~(lsrOvrrun ||| lsrBreak ||| lsrParity ||| lsrFrame ||| lsrRxerr) })
    (shows'.of_same rfl rfl rfl rfl) .rlsi

theorem Shows.loopback (shows' : Shows asserted u p) : ∃ go, Shows asserted (loopback u) (raiseIf go .msi p) := by
  unfold Uart.loopback
  split
  · exact ⟨false, shows'⟩
  · dsimp only
    split
    · exact ⟨_, Shows.raise (u := { u with msr := loopbackMsr u.mcr u.msr }) (shows'.of_same rfl rfl rfl rfl) .msi⟩
    · exact ⟨false, shows'.of_same rfl rfl rfl rfl⟩

theorem raised_leaves {go : Bool} {s : Source} (raised : Shows asserted v (raiseIf go s p)) : Leaves asserted p v True :=
  ⟨_, raised, fun exact' => iff_of_true (raiseIf_exact exact' go s) trivial⟩

/-- The modem status is the lowest source, so it waits alone when it is shown. -/
theorem readMsr_leaves (shows' : Shows asserted u p) : Leaves asserted p (readMsr u).2 True := by
  have cleared : Shows asserted (clearInt iirMsi { u with msr := 0 }) (p.clear .msi) :=
    Shows.clear (u := { u with msr := 0 }) (shows'.of_same rfl rfl rfl rfl) .msi
  obtain ⟨go, looped⟩ := cleared.loopback
  refine ⟨_, looped, fun exact' => iff_of_true (raiseIf_exact ((clear_exact exact').mpr fun lowest => ?_) _ _) trivial⟩
  refine Finset.card_le_one.mpr fun s inside t other => ?_
  have low (s : Source) (inside : s ∈ p.waiting) : s = .msi := by
    have := Finset.le_max inside
    rw [← exact', lowest] at this
    cases s <;> first | rfl | exact absurd this (by decide)
  rw [low s inside, low t other]

end

end Or1ksim.Uart
