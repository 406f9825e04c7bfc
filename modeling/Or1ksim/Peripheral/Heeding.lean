import Or1ksim.Lib.Runs
import Or1ksim.Peripheral.Identified

/-!
# The runs in which the identification is right

An interrupt that is identified goes while another one waits: `IIR` keeps the old identification. In a run
without such a step it is the highest source that waits, and the interrupt line follows it in every run.
-/

namespace Or1ksim.Uart

open Peripheral (Effect Bus lineAfter)
open Flags (has)
open Pending (Register)

section
variable {asserted : Bool} {u v : Dev} {p : Register Source}

/-! ### Jobs -/

theorem txSend_leaves (shows' : Shows asserted u p) : Leaves asserted p (txSend u) True := by
  let taken : Dev := { u with
    txser := u.txbuf u.txbufTail
    txbufTail := (u.txbufTail + 1) % u.fifoLen
    txbufFull := u.txbufFull - 1
    lsr := u.lsr &&& ~~~lsrTxsere }
  have first : Shows asserted taken p := shows'.of_same rfl rfl rfl rfl
  let armed : Dev := if !has taken.lcr lcrSbc then taken.emit (.schedAdd .charClock (taken.charClks * clockDivider))
    else taken.emit (.schedAdd .sendBreak 0)
  have second : Shows asserted armed p := by
    show Shows asserted (if _ then _ else _) p
    split
    · exact first.schedAdd _ _
    · exact first.schedAdd _ _
  show Leaves asserted p (if armed.txbufFull = 0 then intThri { armed with lsr := armed.lsr ||| lsrTxbufe } else armed) True
  split
  · exact raised_leaves (Shows.raise (u := { armed with lsr := armed.lsr ||| lsrTxbufe }) (second.of_same rfl rfl rfl rfl) .thri)
  · exact second.leaves

theorem shiftedOut_leaves (shows' : Shows asserted u p) : Leaves asserted p (shiftedOut u) True := by
  unfold shiftedOut
  split
  · exact Shows.leaves (shows'.of_same rfl rfl rfl rfl)
  · exact txSend_leaves shows'

theorem charClock_leaves (c : Config) (shows' : Shows asserted u p) : Leaves asserted p (charClock c u) True := by
  have sent : Shows asserted (sendChar c ((u.lcr &&& lcrWlen8).toNat + 5) u) p := by
    unfold sendChar
    dsimp only
    split
    · exact shows'.of_same rfl rfl rfl rfl
    · split <;> exact shows'.of_same rfl rfl rfl rfl
  exact shiftedOut_leaves sent

theorem sendBreak_leaves (shows' : Shows asserted u p) : Leaves asserted p (sendBreak u) True :=
  shiftedOut_leaves (u := { u with vapiOut := u.vapiOut ++ [lcrSbc.setWidth 32 <<< 8] }) (shows'.of_same rfl rfl rfl rfl)

/-- What is received may drop the timeout that is shown. -/
theorem recvChar_leaves (c : Config) (shows' : Shows asserted u p) :
    Leaves asserted p (recvChar c u) (AddKeeps (charToAdd u) u) := by
  have started : Shows asserted (recvNext c u) p ∧ AddKeeps (charToAdd u) (recvNext c u) = AddKeeps (charToAdd u) u := by
    unfold recvNext schedRecvCheck
    split
    · exact ⟨Shows.schedAdd (u := { u with rxser := u.loopback.setWidth 16, receiveing := true })
        (shows'.of_same rfl rfl rfl rfl) .recvChar _, rfl⟩
    · let idle : Dev := { u with receiveing := false }
      have first : Shows asserted idle p := shows'.of_same rfl rfl rfl rfl
      dsimp only
      split <;> split
      · exact ⟨(first.schedAdd _ _).schedAdd _ _, rfl⟩
      · exact ⟨first.schedAdd _ _, rfl⟩
      · exact ⟨first.schedAdd _ _, rfl⟩
      · exact ⟨first, rfl⟩
  rw [← started.2]
  exact addChar_leaves started.1 (charToAdd u)

/-! ### Commands -/

theorem Shows.vapiChar (shows' : Shows asserted u p) (data : BitVec 32) : Shows asserted (vapiChar data u) p := by
  let vapi : Vapi := { u.vapi with
    lcr := (data >>> 8).setWidth 8, charClks := charClksOf u.vapi.dll u.vapi.dlh ((data >>> 8).setWidth 8) }
  let heard : Dev := { u with
    vapi
    rxser := (data.setWidth 16 &&& 0xff) ||| ((vapiErrors vapi u.lcr u.charClks).setWidth 16 <<< 8) }
  show Shows asserted (if !heard.recvBreak then { heard with receiveing := true }.emit _ else heard) p
  split
  · exact Shows.schedAdd (u := { heard with receiveing := true }) (shows'.of_same rfl rfl rfl rfl) _ _
  · exact shows'.of_same rfl rfl rfl rfl

theorem Shows.recvBreakStop (shows' : Shows asserted u p) : Shows asserted (recvBreakStop u) p :=
  Shows.schedFindRemove (u := { u with recvBreak := false }) (shows'.of_same rfl rfl rfl rfl) .recvBreak

theorem Shows.recvBreakStartWith {vapiCmd : Dev → Dev} (cmd : ∀ {v}, Shows asserted v p → Shows asserted (vapiCmd v) p) (c : Config)
    (shows' : Shows asserted u p) : Shows asserted (recvBreakStartWith vapiCmd c u) p := by
  let stopped : Dev := { u with receiveing := false, recvBreak := true }
  have first : Shows asserted (stopped.emit (.schedFindRemove .recvChar)) p :=
    Shows.schedFindRemove (u := stopped) (shows'.of_same rfl rfl rfl rfl) .recvChar
  unfold Uart.recvBreakStartWith
  dsimp only
  split
  · exact (cmd first).schedAdd _ _
  · exact first.schedAdd _ _

theorem Shows.vapiCmd (c : Config) (fuel : Nat) (shows' : Shows asserted u p) : Shows asserted (vapiCmd c fuel u) p := by
  induction fuel generalizing u with
  | zero => exact shows'
  | succ fuel ih =>
    unfold Uart.vapiCmd
    let popped : Dev := { u with vapiBufTailPtr := (u.vapiBufTailPtr + 1) % vapiBufLen }
    have first : Shows asserted popped p := shows'.of_same rfl rfl rfl rfl
    split
    · exact shows'
    · dsimp only
      split
      · exact first.vapiChar _
      · exact ih (first.of_same rfl rfl rfl rfl)
      · exact ih (first.of_same rfl rfl rfl rfl)
      · exact ih (first.of_same rfl rfl rfl rfl)
      · split <;> split
        · exact ih (Shows.recvBreakStartWith ih c first)
        · exact ih (first.schedAdd _ _)
        · exact ih first.recvBreakStop
        · exact ih (first.schedAdd _ _)
      · exact ih first

theorem Shows.recvBreakStart (c : Config) (shows' : Shows asserted u p) : Shows asserted (recvBreakStart c u) p :=
  Shows.recvBreakStartWith (Shows.vapiCmd c vapiBufLen) c shows'

theorem Shows.checkChar (shows' : Shows asserted u p) (read : ChannelRead) : Shows asserted (checkChar read u) p := by
  cases read with
  | char ch => exact Shows.schedAdd (u := { u with rxser := ch.setWidth 16, receiveing := true }) (shows'.of_same rfl rfl rfl rfl) _ _
  | nothing => exact shows'.schedAdd _ _
  | failed => exact shows'

/-! ### The condition -/

def ReadKeeps (addr : Nat) (u : Dev) : Prop :=
  match has u.lcr lcrDlab, addr with
  | false, 0 => RxbufKeeps u
  | _, 2 => u.iir = iirThri → Alone u
  | _, 5 => u.iir = iirRlsi → Alone u
  | _, _ => True

def WriteKeeps (addr : Nat) (value : Byte) (u : Dev) : Prop :=
  match has u.lcr lcrDlab, addr with
  | false, 0 => u.iir = iirThri → Alone u
  | false, 1 => IerKeeps value u
  | _, 2 => FcrKeeps value u
  | _, _ => True

def JobKeeps (u : Dev) : Job → Prop
  | .recvChar => AddKeeps (charToAdd u) u
  | .recvBreak => AddKeeps ((lsrBreak ||| lsrRxerr ||| lsrRdrdy).setWidth 16 <<< 8) u
  | _ => True

/-- A step does not clear what is identified while something else waits, unless it raises something as high again. -/
def Keeps (s : System) : Act → Prop
  | .read addr => ReadKeeps addr s.dev
  | .write addr value => WriteKeeps addr value s.dev
  | .job _ => ∀ tmp scheduler, s.bus.scheduler.headTime.any (· ≤ 0) = true → Sched.popJob s.bus.scheduler = some (tmp, scheduler) →
      JobKeeps s.dev tmp.item.job
  | _ => True

instance (u : Dev) : Decidable (Alone u) := inferInstanceAs (Decidable ((waiting u).card ≤ 1))

instance (ch : BitVec 16) (u : Dev) : Decidable (AddKeeps ch u) :=
  inferInstanceAs (Decidable ((u.iir = iirCti → Alone u) ∨ raisesStatus ch u = true ∨ raisesData u = true))

instance (u : Dev) : Decidable (RxbufKeeps u) :=
  inferInstanceAs (Decidable ((u.iir = iirRdi ∨ u.iir = iirCti → Alone u) ∨
    remaining u ≠ 0 ∧ (nextStatus u = true ∨ (atTrigger u.fcr (remaining u) && has u.ier ierRdi) = true)))

instance (value : Byte) (u : Dev) : Decidable (IerKeeps value u) :=
  inferInstanceAs (Decidable (waiting { u with ier := value &&& validIer } = ∅ ∨
    (waiting u).max ≤ (waiting { u with ier := value &&& validIer }).max))

instance (value : Byte) (u : Dev) : Decidable (FcrKeeps value u) :=
  inferInstanceAs (Decidable (has (fcrValue u.fifoLen value) fcrRrxfi = true → u.iir = iirRdi ∨ u.iir = iirCti →
    Alone u ∧ fcrRaises value u = false))

theorem readKeeps_iff (addr : Nat) (u : Dev) :
    ReadKeeps addr u ↔ (addr = 0 → has u.lcr lcrDlab = false → RxbufKeeps u) ∧ (addr = 2 → u.iir = iirThri → Alone u) ∧
      (addr = 5 → u.iir = iirRlsi → Alone u) := by
  unfold ReadKeeps
  split <;> grind

theorem writeKeeps_iff (addr : Nat) (value : Byte) (u : Dev) :
    WriteKeeps addr value u ↔ (addr = 0 → has u.lcr lcrDlab = false → u.iir = iirThri → Alone u) ∧
      (addr = 1 → has u.lcr lcrDlab = false → IerKeeps value u) ∧ (addr = 2 → FcrKeeps value u) := by
  unfold WriteKeeps
  split <;> grind

instance (addr : Nat) (u : Dev) : Decidable (ReadKeeps addr u) := decidable_of_iff' _ (readKeeps_iff addr u)

instance (addr : Nat) (value : Byte) (u : Dev) : Decidable (WriteKeeps addr value u) :=
  decidable_of_iff' _ (writeKeeps_iff addr value u)

instance (u : Dev) : (job : Job) → Decidable (JobKeeps u job)
  | .recvChar | .recvBreak => inferInstanceAs (Decidable (AddKeeps _ u))
  | .intCti | .txSend | .charClock | .sendBreak | .recvBreakStart | .recvBreakStop | .checkChar | .vapiCmd | .other _ =>
    inferInstanceAs (Decidable True)

instance (s : System) : (act : Act) → Decidable (Keeps s act)
  | .read addr => inferInstanceAs (Decidable (ReadKeeps addr s.dev))
  | .write addr value => inferInstanceAs (Decidable (WriteKeeps addr value s.dev))
  | .job _ =>
    decidable_of_iff (s.bus.scheduler.headTime.any (· ≤ 0) = true →
        ∀ popped ∈ Sched.popJob s.bus.scheduler, JobKeeps s.dev popped.1.item.job)
      ⟨fun keeps _ _ due popped => keeps due _ popped, fun keeps due _ popped => keeps _ _ due popped⟩
  | .vapi _ | .advance _ | .other _ _ => inferInstanceAs (Decidable True)

theorem readByte_leaves (shows' : Shows asserted u p) (addr : Nat) : Leaves asserted p (readByte addr u).2 (ReadKeeps addr u) := by
  unfold readByte ReadKeeps
  cases has u.lcr lcrDlab with
  | true =>
    match addr with
    | 2 => exact readIir_leaves shows'
    | 5 => exact readLsr_leaves shows'
    | 6 => exact readMsr_leaves shows'
    | 0 | 1 | 3 | 4 | 7 | _ + 8 => exact shows'.leaves
  | false =>
    match addr with
    | 0 => exact readRxbuf_leaves shows'
    | 2 => exact readIir_leaves shows'
    | 5 => exact readLsr_leaves shows'
    | 6 => exact readMsr_leaves shows'
    | 1 | 3 | 4 | 7 | _ + 8 => exact shows'.leaves

theorem writeLcr_leaves (shows' : Shows asserted u p) (value : Byte) : Leaves asserted p (writeLcr value u) True := by
  have switched : Shows asserted (switchBreak value u) p := by
    unfold switchBreak
    split
    · exact shows'
    · dsimp only
      split <;> split
      · exact (((shows'.schedFindRemove _).schedAdd _ _).schedAdd _ _).schedFindRemove _
      · exact (shows'.schedFindRemove _).schedAdd _ _
      · exact (shows'.schedAdd _ _).schedFindRemove _
      · exact shows'
  exact Shows.leaves (switched.of_same rfl rfl rfl rfl)

theorem writeMcr_leaves (shows' : Shows asserted u p) (value : Byte) :
    Leaves asserted p (loopback { u with mcr := value &&& validMcr }) True := by
  obtain ⟨go, looped⟩ := Shows.loopback (u := { u with mcr := value &&& validMcr }) (shows'.of_same rfl rfl rfl rfl)
  exact raised_leaves looped

theorem writeByte_leaves (shows' : Shows asserted u p) (addr : Nat) (value : Byte) :
    Leaves asserted p (writeByte addr value u) (WriteKeeps addr value u) := by
  unfold writeByte WriteKeeps
  cases has u.lcr lcrDlab with
  | true =>
    match addr with
    | 2 => exact writeFcr_leaves shows' value
    | 3 => exact writeLcr_leaves shows' value
    | 4 => exact writeMcr_leaves shows' value
    | 0 | 1 | 7 => exact Shows.leaves (shows'.of_same rfl rfl rfl rfl)
    | 5 | 6 | _ + 8 => exact shows'.leaves
  | false =>
    match addr with
    | 0 => exact writeTxbuf_leaves shows' value
    | 1 => exact writeIer_leaves shows' value
    | 2 => exact writeFcr_leaves shows' value
    | 3 => exact writeLcr_leaves shows' value
    | 4 => exact writeMcr_leaves shows' value
    | 7 => exact Shows.leaves (shows'.of_same rfl rfl rfl rfl)
    | 5 | 6 | _ + 8 => exact shows'.leaves

theorem runJob_leaves (c : Config) (read : ChannelRead) (shows' : Shows asserted u p) (job : Job) :
    Leaves asserted p (runJob c read job u) (JobKeeps u job) := by
  cases job with
  | intCti => exact raised_leaves (shows'.raise .cti)
  | txSend => exact txSend_leaves shows'
  | charClock => exact charClock_leaves c shows'
  | sendBreak => exact sendBreak_leaves shows'
  | recvChar => exact recvChar_leaves c shows'
  | recvBreak => exact addChar_leaves shows' _
  | recvBreakStart => exact (shows'.recvBreakStart c).leaves
  | recvBreakStop => exact shows'.recvBreakStop.leaves
  | checkChar => exact (shows'.checkChar read).leaves
  | vapiCmd => exact (shows'.vapiCmd c vapiBufLen).leaves
  | other n => exact shows'.leaves

end

/-! ### Steps and runs -/

section
variable {c : Config} {s s' : System} {p : Register Source}

/-- What the UART shows between two calls. -/
def Showing (s : System) (p : Register Source) : Prop := Shows s.bus.line { s.dev with effects := [] } p

theorem performed_leaves {u : Dev} {b b' : Bus Job} {ok : Prop} (leaves : Leaves b.line p u ok)
    (ran : Peripheral.perform b u.effects = some b') : ∃ q, Showing ⟨u, b'⟩ q ∧ (p.Exact → (q.Exact ↔ ok)) := by
  obtain ⟨q, shows', exact'⟩ := leaves
  refine ⟨q, ⟨shows'.waiting, shows'.iir, ?_⟩, exact'⟩
  show b'.line = true ↔ _
  rw [Peripheral.perform_line ran]
  exact shows'.line

theorem serve_leaves {f : Dev → Dev} {ok : Prop} (leaves : Leaves s.bus.line p (f { s.dev with effects := [] }) ok)
    (ran : s.serve f = some s') : ∃ q, Showing s' q ∧ (p.Exact → (q.Exact ↔ ok)) := by
  obtain ⟨b, performed, rfl⟩ := Option.map_eq_some_iff.mp ran
  exact performed_leaves leaves performed

theorem Showing.stays {t : System} (showing : Showing s p) (dev : t.dev = s.dev) (line : t.bus.line = s.bus.line) :
    ∃ q, Showing t q ∧ (p.Exact → (q.Exact ↔ True)) := by
  refine ⟨p, ?_, fun exact' => iff_of_true exact' trivial⟩
  unfold Showing
  rw [dev, line]
  exact showing

theorem vapiRead_leaves {asserted : Bool} {u v : Dev} {data : BitVec 32} (shows' : Shows asserted u p)
    (read : vapiRead c data u = some v) : Leaves asserted p v True := by
  let queued : Dev := { u with
    vapiBuf := put u.vapiBuf u.vapiBufHeadPtr data
    vapiBufHeadPtr := (u.vapiBufHeadPtr + 1) % vapiBufLen }
  have first : Shows asserted queued p := shows'.of_same rfl rfl rfl rfl
  unfold vapiRead at read
  dsimp only at read
  split at read
  · cases read
  · cases read
    split
    · exact (first.vapiCmd c vapiBufLen).leaves
    · exact first.leaves

theorem step_leaves (showing : Showing s p) {act : Act} (ran : step c s act = some s') :
    ∃ q, Showing s' q ∧ (p.Exact → (q.Exact ↔ Keeps s act)) := by
  cases act with
  | read addr => exact serve_leaves (f := fun u => (readByte addr u).2) (readByte_leaves showing addr) ran
  | write addr value => exact serve_leaves (f := writeByte addr value) (writeByte_leaves showing addr value) ran
  | vapi data =>
    unfold step at ran
    dsimp only at ran
    split at ran
    · cases ran
      exact showing.stays rfl rfl
    · obtain ⟨u, read, ran⟩ := Option.bind_eq_some_iff.mp ran
      obtain ⟨b, performed, ran⟩ := Option.bind_eq_some_iff.mp ran
      cases ran
      exact performed_leaves (vapiRead_leaves showing read) performed
  | advance n =>
    cases ran
    exact showing.stays rfl rfl
  | job read =>
    unfold step at ran
    dsimp only at ran
    split at ran
    · next due =>
      obtain ⟨⟨tmp, scheduler⟩, popped, ran⟩ := Option.bind_eq_some_iff.mp ran
      obtain ⟨q, shown, exact'⟩ := serve_leaves (s := ⟨s.dev, scheduler, s.bus.line⟩) (runJob_leaves c read showing tmp.item.job) ran
      refine ⟨q, shown, fun before => (exact' before).trans ⟨fun keeps tmp' scheduler' _ popped' => ?_, fun keeps => ?_⟩⟩
      · cases popped.symm.trans popped'
        exact keeps
      · exact keeps tmp scheduler due popped
    · next notDue =>
      cases ran
      obtain ⟨q, shown, exact'⟩ := showing.stays (t := s) rfl rfl
      exact ⟨q, shown, fun before => (exact' before).trans (iff_of_true trivial fun _ _ due => absurd due notDue)⟩
  | other n time =>
    obtain ⟨b, performed, rfl⟩ := Option.map_eq_some_iff.mp ran
    exact showing.stays rfl (Effect.perform_line performed)

theorem reset_showing {u : Dev} {b : Bus Job} (fresh : Fresh b) (ran : (⟨u, b⟩ : System).serve (reset c) = some s) :
    ∃ q, Showing s q ∧ q.Exact := by
  have leaves : Leaves b.line ⟨∅, ⊥⟩ (reset c { u with effects := [] }) True := by
    have quiet (v : Dev) (ints : v.ints = 0#32) (iir : v.iir = iirNoInt) (effects : v.effects = []) : Shows false v ⟨∅, ⊥⟩ := by
      refine ⟨Finset.eq_empty_of_forall_notMem fun t inside => ?_, iir, ?_⟩
      · have up := mem_waiting.mp inside
        unfold waits at up
        rw [ints, Flags.has_zero] at up
        cases up
      · rw [effects, iir]
        exact iff_of_false Bool.false_ne_true fun not => not rfl
    unfold reset schedRecvCheck
    rw [fresh.line]
    split
    · exact Shows.leaves (Shows.schedAdd (quiet _ rfl rfl rfl) _ _)
    · exact Shows.leaves (quiet _ rfl rfl rfl)
  obtain ⟨q, shown, exact'⟩ := serve_leaves (s := ⟨u, b⟩) leaves ran
  exact ⟨q, shown, (exact' rfl).mpr trivial⟩

/-- The runs whose steps all meet the condition. -/
inductive Heeding (c : Config) : System → Prop where
  | reset {u : Dev} {b : Bus Job} {s : System} (fresh : Fresh b) (ran : (⟨u, b⟩ : System).serve (reset c) = some s) : Heeding c s
  | step {s s' : System} (act : Act) (before : Heeding c s) (keeps : Keeps s act) (ran : step c s act = some s') : Heeding c s'

theorem Reached.showing (run : Reached c s) : ∃ p, Showing s p := by
  induction run with
  | reset fresh ran =>
    obtain ⟨q, shown, -⟩ := reset_showing fresh ran
    exact ⟨q, shown⟩
  | step act _ ran ih =>
    obtain ⟨p, shown⟩ := ih
    obtain ⟨q, shown', -⟩ := step_leaves shown ran
    exact ⟨q, shown'⟩

theorem Heeding.guarded (before : Heeding c s) {acts : List Act} (ran : Runs.guarded (Uart.step c) Keeps s acts = some s') :
    Heeding c s' :=
  Runs.guarded_preserves (fun before keeps ran => before.step _ keeps ran) before ran

theorem Heeding.showing (run : Heeding c s) : ∃ p, Showing s p ∧ p.Exact := by
  induction run with
  | reset fresh ran => exact reset_showing fresh ran
  | step act _ keeps ran ih =>
    obtain ⟨p, shown, exact'⟩ := ih
    obtain ⟨q, shown', after⟩ := step_leaves shown ran
    exact ⟨q, shown', (after exact').mpr keeps⟩

theorem Showing.identified_iff (showing : Showing s p) : Identified s.dev ↔ p.Exact :=
  Shows.identified_iff (u := { s.dev with effects := [] }) showing

/-- In every run the interrupt line says whether an interrupt is identified. -/
theorem line_iff (run : Reached c s) : s.bus.line = true ↔ s.dev.iir ≠ iirNoInt := by
  obtain ⟨p, shown⟩ := run.showing
  exact shown.line

/-- The highest source is identified in every run that keeps it, and a step that does not keep it loses it. -/
theorem identified_along (run : Heeding c s) :
    Identified s.dev ∧ (s.bus.line = true ↔ s.dev.iir ≠ iirNoInt) ∧
      ∀ act s', step c s act = some s' → (Identified s'.dev ↔ Keeps s act) := by
  obtain ⟨p, shown, exact'⟩ := run.showing
  refine ⟨shown.identified_iff.mpr exact', shown.line, fun act s' ran => ?_⟩
  obtain ⟨q, shown', after⟩ := step_leaves shown ran
  exact shown'.identified_iff.trans (after exact')

end

def uart16550 : Config := ⟨0, true⟩

/-- A character is sent, and two are received while the modem status and the transmitter wait. A timeout comes and goes, and
the read of the first character leaves the second one, which is identified as before. -/
theorem identified_along_start :
    ∃ s, Heeding uart16550 s ∧ waiting s.dev = {.msi, .thri, .rdi} ∧ Identified s.dev ∧ s.bus.line = true := by
  let acts : List Act :=
    [.write 3 0x83, .write 0 0x01, .write 3 0x03, .write 1 0x0f, .write 4 0x18, .write 2 0x07, .write 4 0x00, .read 6, .write 0 0x41,
      .job .nothing, .write 4 0x18, .advance 1600, .job .nothing, .job (.char 0x42), .write 4 0x00, .advance 160, .job .nothing,
      .advance 1600, .job .nothing, .job (.char 0x43), .advance 160, .job .nothing, .read 0]
  have seen : ((poweredOn uart16550).bind fun s => Runs.guarded (step uart16550) Keeps s acts).map
      (fun s => (s.dev.iir, decide (waiting s.dev = {.msi, .thri, .rdi}))) = some (iirRdi, true) := by decide +kernel
  obtain ⟨s, ran, is⟩ := Option.map_eq_some_iff.mp seen
  obtain ⟨on, started, ran⟩ := Option.bind_eq_some_iff.mp ran
  obtain ⟨iir, waits⟩ := Prod.mk.inj is
  obtain ⟨u, b, fresh, first⟩ := poweredOn_fresh started
  have run : Heeding uart16550 s := (Heeding.reset fresh first).guarded ran
  obtain ⟨identified, line, -⟩ := identified_along run
  exact ⟨s, run, of_decide_eq_true waits, identified, line.mpr (by rw [iir]; decide)⟩

/-- The transmitter and the modem status wait together, and a read of `IIR` clears the transmitter's interrupt: it stays
identified, while only the modem status waits. -/
theorem stale_identification : ∃ s, Reached uart16550 s ∧ ¬ Identified s.dev := by
  let acts : List Act := [.write 1 0x0a, .write 4 0x18, .write 2 0x07, .read 2]
  have seen : ((poweredOn uart16550).bind fun s => steps uart16550 s acts).map (fun s => (s.dev.iir, decide (waiting s.dev = {.msi}))) =
      some (iirThri, true) := by decide +kernel
  obtain ⟨s, ran, is⟩ := Option.map_eq_some_iff.mp seen
  obtain ⟨on, started, ran⟩ := Option.bind_eq_some_iff.mp ran
  obtain ⟨iir, waits⟩ := Prod.mk.inj is
  refine ⟨s, (poweredOn_reached started).steps ran, ?_⟩
  unfold Identified
  rw [iir, of_decide_eq_true waits]
  decide

end Or1ksim.Uart
