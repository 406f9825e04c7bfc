import Or1ksim.Peripheral.Eth

/-!
# The interrupt line of the Ethernet controller

`int_line_stat` is a copy of the line at the interrupt controller. A reset of the interface drops the copy and
leaves the line, and a write of `INT_MASK` clears both, whatever is pending.
-/

namespace Or1ksim.Eth

open Peripheral (Effect Bus lineAfter ULong testFlag setFlag Due)

/-! ### Transfers as writes -/

/-- The words of a transfer that go to the registers of the controller itself meet a condition on writes. -/
def TransferKeeps (keeps : Nat → Word → Dev → Prop) (c : Config) : List (Word × Word) → Dev → Prop
  | [], _ => True
  | place :: places, d =>
    (place.1 &&& 3 = 0 → ∀ offset, ownRegister c place.1 = some offset → keeps offset place.2 d) ∧
      TransferKeeps keeps c places (setDirect32 c d place)

/-- The condition for the packet that the receiver takes, when it takes one. -/
def FillKeeps (keeps : Nat → Word → Dev → Prop) (c : Config) (o : Outside) (d : Dev) : Prop :=
  ∀ bdInfo bdAddr bytes, d.intLineStat = false → bd d d.rxBdIndex = some bdInfo → testFlag bdInfo bdReady = true →
    bd d (d.rxBdIndex + 1) = some bdAddr → c.rtxType ≠ .unknown → o.read = .packet bytes → forUs d bytes = true →
    TransferKeeps keeps c ((wordPlaces bdAddr bytes.length).zip (packetWords bytes)) d

section
variable {keeps : Nat → Word → Dev → Prop} [∀ addr value d, Decidable (keeps addr value d)] {c : Config}

instance transferDecidable : (places : List (Word × Word)) → (d : Dev) → Decidable (TransferKeeps keeps c places d)
  | [], _ => inferInstanceAs (Decidable True)
  | place :: places, d =>
    have := transferDecidable places (setDirect32 c d place)
    inferInstanceAs (Decidable ((place.1 &&& 3 = 0 → ∀ offset ∈ ownRegister c place.1, keeps offset place.2 d) ∧
      TransferKeeps keeps c places (setDirect32 c d place)))

/-- A condition on the packet that the receiver takes, when it takes one. -/
def OfTaken (c : Config) (o : Outside) (d : Dev) (P : ULong → ULong → List Byte → Prop) : Prop :=
  match bd d d.rxBdIndex, bd d (d.rxBdIndex + 1), o.read with
  | some bdInfo, some bdAddr, .packet bytes =>
    d.intLineStat = false → testFlag bdInfo bdReady = true → c.rtxType ≠ .unknown → forUs d bytes = true → P bdInfo bdAddr bytes
  | _, _, _ => True

theorem ofTaken_iff {o : Outside} {d : Dev} {P : ULong → ULong → List Byte → Prop} :
    OfTaken c o d P ↔
      ∀ bdInfo bdAddr bytes, d.intLineStat = false → bd d d.rxBdIndex = some bdInfo → testFlag bdInfo bdReady = true →
        bd d (d.rxBdIndex + 1) = some bdAddr → c.rtxType ≠ .unknown → o.read = .packet bytes → forUs d bytes = true →
        P bdInfo bdAddr bytes := by
  constructor
  · intro taken bdInfo bdAddr bytes idle first ready second type read us
    unfold OfTaken at taken
    rw [first, second, read] at taken
    exact taken idle ready type us
  · intro keeps
    unfold OfTaken
    split
    · next bdInfo bdAddr bytes first second read =>
      exact fun idle ready type us => keeps bdInfo bdAddr bytes idle first ready second type read us
    · trivial

instance (o : Outside) (d : Dev) (P : ULong → ULong → List Byte → Prop) [∀ bdInfo bdAddr bytes, Decidable (P bdInfo bdAddr bytes)] :
    Decidable (OfTaken c o d P) := by
  unfold OfTaken
  split <;> infer_instance

instance (o : Outside) (d : Dev) : Decidable (FillKeeps keeps c o d) :=
  decidable_of_iff (OfTaken c o d fun _ bdAddr bytes => TransferKeeps keeps c
    ((wordPlaces bdAddr bytes.length).zip (packetWords bytes)) d)
    ofTaken_iff

end

theorem transfer_kept {c : Config} {keeps : Nat → Word → Dev → Prop} {P : Dev → Prop}
    (stores : ∀ d place, P d → P { d with stored := d.stored ++ [place] })
    (writes : ∀ offset value d, P d → keeps offset value d → P (write32 c offset value d))
    {places : List (Word × Word)} {d : Dev} (before : P d) (kept : TransferKeeps keeps c places d) :
      P (places.foldl (setDirect32 c) d) := by
  induction places generalizing d with
  | nil => exact before
  | cons place places ih =>
    refine ih ?_ kept.2
    unfold setDirect32
    by_cases aligned : place.1 &&& 3 = 0
    · rw [if_neg (not_not.mpr aligned)]
      cases own : ownRegister c place.1 with
      | none => exact stores d place before
      | some offset => exact writes offset place.2 d before (kept.1 aligned offset own)
    · rw [if_pos aligned]
      exact before

/-! ### The copy of the line -/

/-- `int_line_stat` is the line after what has been asked for. -/
def Tracks (asserted : Bool) (d : Dev) : Prop := lineAfter asserted d.effects = d.intLineStat

section
variable {c : Config} {o : Outside} {asserted : Bool} {d : Dev} {value : Word}

theorem Tracks.of_same {d' : Dev} (tracks : Tracks asserted d) (effects : d'.effects = d.effects)
    (stat : d'.intLineStat = d.intLineStat) :
    Tracks asserted d' := by
  unfold Tracks
  rw [effects, stat]
  exact tracks

theorem Tracks.schedAdd (tracks : Tracks asserted d) (job : Job) (time : Int) : Tracks asserted (d.emit (.schedAdd job time)) :=
  (Peripheral.lineAfter_snoc asserted d.effects _).trans tracks

theorem Tracks.schedFindRemove (tracks : Tracks asserted d) (job : Job) : Tracks asserted (d.emit (.schedFindRemove job)) :=
  (Peripheral.lineAfter_snoc asserted d.effects _).trans tracks

theorem Tracks.raiseInterrupt (tracks : Tracks asserted d) : Tracks asserted (raiseInterrupt d) := by
  unfold Eth.raiseInterrupt
  split
  · exact tracks
  · exact Peripheral.lineAfter_snoc asserted d.effects .reportInterrupt

theorem raiseInterrupt_stat (d : Dev) : (raiseInterrupt d).intLineStat = true := by
  unfold raiseInterrupt
  split
  · assumption
  · rfl

theorem Tracks.clearLine (asserted : Bool) (d : Dev) : Tracks asserted (clearLine d) :=
  Peripheral.lineAfter_snoc asserted d.effects .clearInterrupt

/-- A read of the TAP interface fails before anything else ends the loop. -/
def readsError : List Poll → Bool
  | [] => false
  | .failed :: _ => false
  | .busy :: polls => readsError polls
  | .ready .readError :: _ => true
  | .ready .failed :: _ => false
  | .ready (.packet _) :: polls | .ready .nothing :: polls => readsError polls

/-- What the interrupt of a failed read depends on. -/
structure Read (c : Config) (error asserted : Bool) (d d' : Dev) : Prop where
  tracks : Tracks asserted d → Tracks asserted d'
  stat : d'.intLineStat = (d.intLineStat || (decide (c.rtxType = .tap) && testFlag d.intMask intRxe && error))
  same : d' = { d with intSource := d'.intSource, intLineStat := d'.intLineStat, effects := d'.effects, polls := d'.polls }

theorem Read.refl (c : Config) (asserted : Bool) (d : Dev) : Read c false asserted d d := ⟨id, by simp, rfl⟩

theorem readPacket_read (c : Config) (r : ReadResult) (asserted : Bool) (d : Dev) :
    Read c (decide (r = .readError)) asserted d (readPacket c r d).2.2 := by
  unfold readPacket
  cases type : c.rtxType with
  | tap =>
    cases r with
    | readError =>
      dsimp only
      split
      · next both =>
        obtain ⟨mask, idle⟩ := Bool.and_eq_true_iff.mp both
        refine ⟨fun tracks => Tracks.raiseInterrupt (tracks.of_same rfl rfl), ?_, ?_⟩
        · rw [raiseInterrupt_stat, type]
          have mask : testFlag d.intMask intRxe = true := mask
          simp [mask]
        · unfold raiseInterrupt
          split <;> rfl
      · next neither =>
        refine ⟨fun tracks => tracks.of_same rfl rfl, ?_, rfl⟩
        show d.intLineStat = _
        have neither : ¬ (testFlag d.intMask intRxe && !d.intLineStat) = true := neither
        rw [type]
        revert neither
        cases testFlag d.intMask intRxe <;> cases d.intLineStat <;> decide
    | _ => exact ⟨id, by simp, rfl⟩
  | _ =>
    cases r <;> exact ⟨id, by simp [type], rfl⟩

theorem Read.not_tap (other : c.rtxType ≠ .tap) (error asserted : Bool) (d : Dev) : Read c error asserted d d :=
  ⟨id, by simp [other], rfl⟩

theorem ignoreTapPacketsFrom_read (c : Config) (asserted : Bool) (polls : List Poll) (result : Bool) (d : Dev) :
    Read c (readsError polls) asserted d (ignoreTapPacketsFrom c polls result d).2 := by
  induction polls generalizing result with
  | nil => exact Read.refl c asserted d
  | cons poll polls ih =>
    cases poll with
    | failed => exact Read.refl c asserted d
    | busy => exact ih result
    | ready r =>
      unfold ignoreTapPacketsFrom
      cases r with
      | readError =>
        have ends : (readPacket c .readError d).1 < 0 := by
          unfold readPacket
          cases c.rtxType <;> exact Int.negSucc_lt_zero 0
        dsimp only
        rw [if_pos ends]
        exact readPacket_read c .readError asserted d
      | failed =>
        have ends : (readPacket c .failed d).1 < 0 := by
          unfold readPacket
          cases c.rtxType <;> exact Int.negSucc_lt_zero 0
        dsimp only
        rw [if_pos ends]
        exact readPacket_read c .failed asserted d
      | packet bytes | nothing =>
        unfold readPacket
        cases type : c.rtxType with
        | unknown => exact Read.not_tap (by rw [type]; decide) _ asserted d
        | _ =>
          dsimp only
          rw [if_neg (by omega)]
          exact ih _

theorem ignoreTapPackets_read (c : Config) (asserted : Bool) (d : Dev) :
    Read c (readsError (d.polls.headD [])) asserted d (ignoreTapPackets c d).2 := by
  obtain ⟨tracks, stat, same⟩ := ignoreTapPacketsFrom_read c asserted (d.polls.headD []) false { d with polls := d.polls.tail }
  exact ⟨fun before => tracks (before.of_same rfl rfl), stat, same⟩

/-! ### Writes of registers -/

/-- Enabling the receiver empties the TAP interface, and a read that fails raises an interrupt. -/
def raisesError (c : Config) (value : Word) (d : Dev) : Bool :=
  !testFlag d.moder moderRxen && testFlag value moderRxen && c.rtxType =
    .tap && testFlag d.intMask intRxe && readsError (d.polls.headD [])

theorem switchRx_tracks (c : Config) (value : Word) (tracks : Tracks asserted d) :
    Tracks asserted (switchRx c value d) ∧ (switchRx c value d).intLineStat = (d.intLineStat || raisesError c value d) := by
  unfold switchRx raisesError
  by_cases enables : (!testFlag d.moder moderRxen && testFlag value moderRxen) = true
  · rw [if_pos enables, enables, Bool.true_and]
    dsimp only
    by_cases tap : c.rtxType = .tap
    · have read := ignoreTapPackets_read c asserted d
      rw [if_pos tap]
      refine ⟨Tracks.schedAdd (d := { (ignoreTapPackets c d).2 with rxBdIndex := (ignoreTapPackets c d).2.txBdNum * 2 })
        ((read.tracks tracks).of_same rfl rfl) _ _, ?_⟩
      exact read.stat
    · rw [if_neg tap, decide_eq_false tap]
      exact ⟨Tracks.schedAdd (d := { d with rxBdIndex := d.txBdNum * 2 }) (tracks.of_same rfl rfl) _ _, by simp [Dev.emit]⟩
  · rw [if_neg enables, Bool.eq_false_iff.mpr enables]
    split
    · exact ⟨tracks.schedFindRemove _, by simp [Dev.emit]⟩
    · exact ⟨tracks, by simp⟩

theorem switchTx_tracks (value : Word) (tracks : Tracks asserted d) :
    Tracks asserted (switchTx value d) ∧ (switchTx value d).intLineStat = d.intLineStat := by
  unfold switchTx
  split
  · exact ⟨Tracks.schedAdd (d := { d with txBdIndex := 0 }) (tracks.of_same rfl rfl) _ _, rfl⟩
  · split
    · exact ⟨tracks.schedFindRemove _, rfl⟩
    · exact ⟨tracks, rfl⟩

/-- A reset of the interface finds the line idle, and a mask that is written while it is asserted covers what is pending. -/
def LineKeeps (c : Config) (addr : Nat) (value : Word) (d : Dev) : Prop :=
  match addr with
  | 0x00 => c.baseaddr ≠ 0 → testFlag value moderRst = true → d.intLineStat = false ∧ raisesError c value d = false
  | 0x08 => d.intLineStat = true → d.intSource &&& value.setWidth 64 = 0
  | _ => True

/-- The line was withdrawn, if it was, with nothing pending and enabled. -/
def Withdrawn (asserted : Bool) (d : Dev) : Prop := asserted = true → lineAfter asserted d.effects = false →
    d.intSource &&& d.intMask = 0

theorem writeModer_tracks_iff (c : Config) (value : Word) (tracks : Tracks asserted d) :
    Tracks asserted (writeModer c value d) ↔ LineKeeps c 0x00 value d := by
  obtain ⟨first, stat⟩ := switchRx_tracks c value tracks
  obtain ⟨second, stat'⟩ := switchTx_tracks value first
  unfold writeModer reset
  dsimp only
  show _ ↔ (c.baseaddr ≠ 0 → testFlag value moderRst = true → d.intLineStat = false ∧ raisesError c value d = false)
  by_cases rst : testFlag value moderRst = true
  · rw [if_pos rst]
    by_cases base : c.baseaddr = 0
    · rw [if_pos base]
      exact iff_of_true (second.of_same rfl rfl) fun not => absurd base not
    · rw [if_neg base, imp_iff_right base, imp_iff_right rst]
      unfold Tracks at second ⊢
      show lineAfter asserted (switchTx value (switchRx c value d)).effects = false ↔ _
      rw [second, stat', stat, Bool.or_eq_false_iff]
  · rw [if_neg rst]
    exact iff_of_true (second.of_same rfl rfl) fun _ is => absurd is rst

theorem writeIntSource_tracks (value : Word) (tracks : Tracks asserted d) : Tracks asserted (writeIntSource value d) := by
  unfold writeIntSource
  dsimp only
  split
  · exact Tracks.clearLine asserted _
  · exact tracks.of_same rfl rfl

theorem writeIntMask_tracks (value : Word) (tracks : Tracks asserted d) : Tracks asserted (writeIntMask value d) := by
  unfold writeIntMask
  dsimp only
  split
  · exact tracks.of_same rfl rfl
  · split
    · exact Tracks.clearLine asserted _
    · exact tracks.of_same rfl rfl

/-- The registers that have nothing to do with the interrupt. -/
def Quiet (d d' : Dev) : Prop := d'.effects = d.effects ∧ d'.intLineStat = d.intLineStat

theorem miimTrans_quiet (c : Config) (d : Dev) : Quiet d (miimTrans c d) := by
  unfold miimTrans
  split
  · split <;> exact ⟨rfl, rfl⟩
  · exact ⟨rfl, rfl⟩

theorem write32_quiet (c : Config) (addr : Nat) (value : Word) (d : Dev) (moder : addr ≠ 0x00) (source : addr ≠ 0x04)
    (mask : addr ≠ 0x08) :
    Quiet d (write32 c addr value d) := by
  unfold write32
  split
  · exact absurd rfl moder
  · exact absurd rfl source
  · exact absurd rfl mask
  all_goals first
    | exact ⟨rfl, rfl⟩
    | exact miimTrans_quiet c { d with miicommand := value.setWidth 64 }
    | (split <;> exact ⟨rfl, rfl⟩)

theorem write32_tracks (addr : Nat) (tracks : Tracks asserted d) (keeps : LineKeeps c addr value d) :
    Tracks asserted (write32 c addr value d) := by
  by_cases moder : addr = 0x00
  · subst moder
    exact (writeModer_tracks_iff c value tracks).mpr keeps
  by_cases source : addr = 0x04
  · subst source
    exact writeIntSource_tracks value tracks
  by_cases mask : addr = 0x08
  · subst mask
    exact writeIntMask_tracks value tracks
  have quiet := write32_quiet c addr value d moder source mask
  exact tracks.of_same quiet.1 quiet.2

/-- A write keeps the copy of the line, and does not withdraw it early, exactly under the condition. -/
theorem write32_line_iff (addr : Nat) (fresh : d.effects = []) (copy : asserted = d.intLineStat) :
    Tracks asserted (write32 c addr value d) ∧ Withdrawn asserted (write32 c addr value d) ↔ LineKeeps c addr value d := by
  have tracks : Tracks asserted d := by
    unfold Tracks
    rw [fresh]
    exact copy
  by_cases moder : addr = 0x00
  · subst moder
    refine (and_iff_left_of_imp fun after high low => ?_).trans (writeModer_tracks_iff c value tracks)
    obtain ⟨first, stat⟩ := switchRx_tracks c value tracks
    obtain ⟨second, stat'⟩ := switchTx_tracks value first
    have effects : (write32 c 0x00 value d).effects = (switchTx value (switchRx c value d)).effects := by
      show (writeModer c value d).effects = _
      unfold writeModer reset
      dsimp only
      split
      · split <;> rfl
      · rfl
    unfold Tracks at second
    rw [effects, second, stat', stat, ← copy, high] at low
    cases low
  by_cases source : addr = 0x04
  · subst source
    refine iff_of_true ⟨writeIntSource_tracks value tracks, fun high low => ?_⟩ trivial
    have after := writeIntSource_tracks value tracks
    show (writeIntSource value d).intSource &&& (writeIntSource value d).intMask = 0
    change lineAfter asserted (writeIntSource value d).effects = false at low
    unfold Tracks at after
    rw [low] at after
    revert after
    unfold writeIntSource
    dsimp only
    split
    · next both => exact fun _ => of_decide_eq_true (Bool.and_eq_true_iff.mp both).1
    · intro is
      rw [← copy, high] at is
      cases is
  by_cases mask : addr = 0x08
  · subst mask
    refine (and_iff_right (writeIntMask_tracks value tracks)).trans ?_
    show (asserted = true → lineAfter asserted (writeIntMask value d).effects = false →
      (writeIntMask value d).intSource &&& (writeIntMask value d).intMask = 0) ↔
        (d.intLineStat = true → d.intSource &&& value.setWidth 64 = 0)
    rw [copy]
    refine imp_congr_right fun high => ?_
    have cleared : writeIntMask value d = clearLine { d with intMask := value.setWidth 64 } := by
      unfold writeIntMask
      dsimp only
      rw [high, Bool.not_true, Bool.and_false, if_neg Bool.false_ne_true, if_pos rfl]
    rw [cleared, high]
    exact imp_iff_right (Tracks.clearLine true _)
  have quiet := write32_quiet c addr value d moder source mask
  refine iff_of_true ⟨tracks.of_same quiet.1 quiet.2, fun high low => ?_⟩ ?_
  · rw [quiet.1, fresh] at low
    exact absurd (high.symm.trans low) (by decide)
  · unfold LineKeeps
    split
    · exact absurd rfl moder
    · exact absurd rfl mask
    · trivial

/-! ### Jobs -/

theorem setBd_some {d' : Dev} {index info : ULong} (ran : setBd d index info = some d') :
    d' = { d with bdRam := Function.update d.bdRam index.toNat info } ∧ index.toNat < bdCount := by
  unfold setBd at ran
  split at ran
  · next inside => exact ⟨(Option.some.inj ran).symm, inside⟩
  · cases ran

theorem advanceTx_same (info : ULong) (d : Dev) : advanceTx info d = { d with txBdIndex := (advanceTx info d).txBdIndex } := by
  unfold advanceTx
  split <;> rfl

theorem advanceRx_same (info : ULong) (d : Dev) : advanceRx info d = { d with rxBdIndex := (advanceRx info d).rxBdIndex } := by
  unfold advanceRx
  split <;> rfl

theorem Tracks.raiseWhen (tracks : Tracks asserted d) (go : Bool) : Tracks asserted (if go then Eth.raiseInterrupt d else d) := by
  split
  · exact tracks.raiseInterrupt
  · exact tracks

theorem flushBd_tracks {d' : Dev} (tracks : Tracks asserted d) (ran : flushBd c o d = some d') : Tracks asserted d' := by
  obtain ⟨info, -, ran⟩ := Option.bind_eq_some_iff.mp ran
  obtain ⟨addr, -, ran⟩ := Option.bind_eq_some_iff.mp ran
  obtain ⟨v, set, ran⟩ := Option.bind_eq_some_iff.mp ran
  cases ran
  rw [advanceTx_same]
  refine Tracks.of_same (Tracks.raiseWhen ?_ _) rfl rfl
  rw [(setBd_some set).1]
  exact tracks.of_same rfl rfl

theorem filled_tracks {d' : Dev} {info : ULong} (tracks : Tracks asserted d) (ran : filled info d = some d') : Tracks asserted d' := by
  obtain ⟨v, set, ran⟩ := Option.bind_eq_some_iff.mp ran
  cases ran
  refine Tracks.raiseWhen ?_ _
  rw [advanceRx_same, (setBd_some set).1]
  exact tracks.of_same rfl rfl

/-- A read that is not a packet for the controller ends the receiver's work. -/
theorem fillBd_cases {d' : Dev} (ran : fillBd c o d = some d') : d' = (readPacket c o.read d).2.2 ∨
    ∃ info addr bytes, bd d d.rxBdIndex = some info ∧ bd d (d.rxBdIndex + 1) = some addr ∧ c.rtxType ≠ .unknown ∧
      o.read = .packet bytes ∧
      forUs d bytes = true ∧ filled (filledInfo c info bytes.length) (transfer c addr bytes d) = some d' := by
  obtain ⟨info, first, ran⟩ := Option.bind_eq_some_iff.mp ran
  obtain ⟨addr, second, ran⟩ := Option.bind_eq_some_iff.mp ran
  cases read : o.read with
  | packet bytes =>
    rw [read] at ran
    by_cases type : c.rtxType = .unknown
    · left
      unfold readPacket at ran ⊢
      rw [type] at ran ⊢
      exact (Option.some.inj ran).symm
    · have same : readPacket c (.packet bytes) d = (↑bytes.length, bytes, d) := by
        unfold readPacket
        cases is : c.rtxType with
        | unknown => exact absurd is type
        | _ => rfl
      rw [same] at ran ⊢
      dsimp only at ran
      split at ran
      · exact .inl (Option.some.inj ran).symm
      · split at ran
        · cases ran
        · split at ran
          · exact .inl (Option.some.inj ran).symm
          · next us => exact .inr ⟨info, addr, bytes, first, second, type, rfl, by simpa using us, ran⟩
  | nothing | failed | readError =>
    rw [read] at ran
    left
    unfold readPacket at ran ⊢
    cases type : c.rtxType <;> rw [type] at ran <;> exact (Option.some.inj ran).symm

theorem fillBd_tracks {d' : Dev} (tracks : Tracks asserted d) (idle : d.intLineStat = false) (ready : ∀ info,
    bd d d.rxBdIndex = some info → testFlag info bdReady = true)
    (keeps : FillKeeps (LineKeeps c) c o d) (ran : fillBd c o d = some d') : Tracks asserted d' := by
  rcases fillBd_cases ran with rfl | ⟨info, addr, bytes, first, second, type, read, us, fills⟩
  · exact (readPacket_read c o.read asserted d).tracks tracks
  · refine filled_tracks (transfer_kept (fun d place before => before.of_same rfl rfl) (fun offset value d before kept => ?_) tracks
      (keeps info addr bytes idle first (ready info first) second type read us)) fills
    exact write32_tracks offset before kept

theorem ignoreBusy_tracks (c : Config) (tracks : Tracks asserted d) : Tracks asserted (ignoreBusy c d) := by
  have read := ignoreTapPackets_read c asserted d
  unfold ignoreBusy
  dsimp only
  split
  · split
    · let v : Dev := { (ignoreTapPackets c d).2 with intSource := setFlag (ignoreTapPackets c d).2.intSource intBusy }
      have busy : Tracks asserted v := (read.tracks tracks).of_same rfl rfl
      exact busy.raiseWhen _
    · exact read.tracks tracks
  · exact tracks

/-- The condition on the jobs of the controller. -/
def JobKeeps (keeps : Nat → Word → Dev → Prop) (c : Config) (o : Outside) (d : Dev) : Job → Prop
  | .rxClock => FillKeeps keeps c o d
  | _ => True

theorem txClock_cases {d' : Dev} (ran : runJob c o .txClock d = some d') : ∃ v, d' = v.emit (.schedAdd .txClock rtxReschedPeriod) ∧
    (v = d ∨ d.intLineStat = false ∧ flushBd c o d = some v) := by
  obtain ⟨v, clock, is⟩ := Option.map_eq_some_iff.mp ran
  refine ⟨v, is.symm, ?_⟩
  split at clock
  · exact .inl (Option.some.inj clock).symm
  · next idle =>
    obtain ⟨info, -, clock⟩ := Option.bind_eq_some_iff.mp clock
    split at clock
    · exact .inr ⟨Bool.eq_false_of_not_eq_true idle, clock⟩
    · exact .inl (Option.some.inj clock).symm

theorem rxClock_cases {d' : Dev} (ran : runJob c o .rxClock d = some d') : ∃ v, d' = v.emit (.schedAdd .rxClock rtxReschedPeriod) ∧
    (v = d ∨ d.intLineStat = false ∧
      ((∃ info, bd d d.rxBdIndex = some info ∧ testFlag info bdReady = true ∧ fillBd c o d = some v) ∨ v = ignoreBusy c d)) := by
  obtain ⟨v, clock, is⟩ := Option.map_eq_some_iff.mp ran
  refine ⟨v, is.symm, ?_⟩
  split at clock
  · exact .inl (Option.some.inj clock).symm
  · next idle =>
    obtain ⟨info, first, clock⟩ := Option.bind_eq_some_iff.mp clock
    refine .inr ⟨Bool.eq_false_of_not_eq_true idle, ?_⟩
    split at clock
    · next ready => exact .inl ⟨info, first, ready, clock⟩
    · exact .inr (Option.some.inj clock).symm

theorem runJob_tracks {d' : Dev} {job : Job} (tracks : Tracks asserted d) (keeps : JobKeeps (LineKeeps c) c o d job)
    (ran : runJob c o job d = some d') : Tracks asserted d' := by
  cases job with
  | txClock =>
    obtain ⟨v, rfl, rfl | ⟨-, flush⟩⟩ := txClock_cases ran
    · exact tracks.schedAdd _ _
    · exact (flushBd_tracks tracks flush).schedAdd _ _
  | rxClock =>
    obtain ⟨v, rfl, rfl | ⟨idle, ⟨info, first, ready, fill⟩ | rfl⟩⟩ := rxClock_cases ran
    · exact tracks.schedAdd _ _
    · refine (fillBd_tracks tracks idle (fun info' is => ?_) keeps fill).schedAdd _ _
      cases first.symm.trans is
      exact ready
    · exact (ignoreBusy_tracks c tracks).schedAdd _ _
  | other n =>
    cases ran
    exact tracks

/-- A job does nothing while the interrupt is active. -/
theorem runJob_active {d' : Dev} {job : Job} (active : d.intLineStat = true) (ran : runJob c o job d = some d') :
    d'.intLineStat = true := by
  cases job with
  | txClock =>
    obtain ⟨v, rfl, rfl | ⟨idle, -⟩⟩ := txClock_cases ran
    · exact active
    · exact absurd (active.symm.trans idle) (by decide)
  | rxClock =>
    obtain ⟨v, rfl, rfl | ⟨idle, -⟩⟩ := rxClock_cases ran
    · exact active
    · exact absurd (active.symm.trans idle) (by decide)
  | other n =>
    cases ran
    exact active

end

/-! ### Steps and runs -/

/-- `int_line_stat` is 1 exactly when the line is asserted. -/
def Copied (s : System) : Prop := s.bus.line = s.dev.intLineStat

/-- A step takes the line from asserted to deasserted only with nothing pending and enabled. -/
def Lowered (s s' : System) : Prop := s.bus.line = true → s'.bus.line = false → s'.dev.intSource &&& s'.dev.intMask = 0

/-- A condition on the writes of registers and on the jobs. -/
def Allows (writes : Nat → Word → Dev → Prop) (jobs : Outside → Dev → Job → Prop) (s : System) : Act → Prop
  | .write addr value polls => writes addr value (s.dev.entered polls)
  | .job o => ∀ job scheduler, Due s job scheduler → jobs o (s.dev.entered o.polls) job
  | _ => True

/-- A condition on the writes of registers, those of the processor and those of the receiver's transfers. -/
def StepKeeps (keeps : Nat → Word → Dev → Prop) (c : Config) : System → Act → Prop := Allows keeps (JobKeeps keeps c)

theorem lineKeeps_iff (c : Config) (addr : Nat) (value : Word) (d : Dev) :
    LineKeeps c addr value d ↔
      (addr = 0x00 → c.baseaddr ≠ 0 → testFlag value moderRst = true → d.intLineStat = false ∧ raisesError c value d = false) ∧
      (addr = 0x08 → d.intLineStat = true → d.intSource &&& value.setWidth 64 = 0) := by
  unfold LineKeeps
  split <;> simp_all

instance (c : Config) (addr : Nat) (value : Word) (d : Dev) : Decidable (LineKeeps c addr value d) :=
  decidable_of_iff' _ (lineKeeps_iff c addr value d)

instance {keeps : Nat → Word → Dev → Prop} [∀ addr value d, Decidable (keeps addr value d)] (c : Config) (o : Outside) (d : Dev) :
    DecidablePred (JobKeeps keeps c o d)
  | .rxClock => inferInstanceAs (Decidable (FillKeeps keeps c o d))
  | .txClock | .other _ => inferInstanceAs (Decidable True)

section
variable {writes : Nat → Word → Dev → Prop} [∀ addr value d, Decidable (writes addr value d)]
  {jobs : Outside → Dev → Job → Prop} [∀ o d, DecidablePred (jobs o d)]

instance (s : System) : DecidablePred (Allows writes jobs s)
  | .write addr value polls => inferInstanceAs (Decidable (writes addr value (s.dev.entered polls)))
  | .job o => inferInstanceAs (Decidable (∀ job scheduler, Due s job scheduler → jobs o (s.dev.entered o.polls) job))
  | .advance _ | .other _ _ => inferInstanceAs (Decidable True)

instance {keeps : Nat → Word → Dev → Prop} [∀ addr value d, Decidable (keeps addr value d)] (c : Config) (s : System) :
    DecidablePred (StepKeeps keeps c s) :=
  inferInstanceAs (DecidablePred (Allows keeps (JobKeeps keeps c) s))

end

section
variable {c : Config} {s s' : System}

theorem step_write {addr : Nat} {value : Word} {polls : List (List Poll)} (ran : step c s (.write addr value polls) = some s') :
    write32 c addr value (s.dev.entered polls) = s'.dev ∧ s'.bus.line = lineAfter s.bus.line s'.dev.effects := by
  obtain ⟨is, performed⟩ := Peripheral.serve_some (f := fun d => some (write32 c addr value (d.entered polls))) ran
  exact ⟨Option.some.inj is, Peripheral.perform_line performed⟩

theorem step_copied {act : Act} (copied : Copied s) (keeps : StepKeeps (LineKeeps c) c s act) (ran : step c s act = some s') :
    Copied s' ∧ Lowered s s' := by
  cases act with
  | write addr value polls =>
    obtain ⟨is, line⟩ := step_write ran
    obtain ⟨tracks, withdrawn⟩ := (write32_line_iff (d := s.dev.entered polls) addr rfl copied).mpr keeps
    rw [is] at tracks withdrawn
    refine ⟨line.trans tracks, fun high low => withdrawn high (line.symm.trans low)⟩
  | advance n =>
    cases ran
    exact ⟨copied, fun high low => absurd (high.symm.trans low) (by decide)⟩
  | job o =>
    rcases Peripheral.runDue_cases (f := fun job d => runJob c o job (d.entered o.polls)) ran with ⟨rfl, -⟩ | ⟨job, scheduler, due, ran⟩
    · exact ⟨copied, fun high low => absurd (high.symm.trans low) (by decide)⟩
    · obtain ⟨is, performed⟩ := Peripheral.serve_some ran
      have tracks : Tracks s.bus.line (s.dev.entered o.polls) := copied
      have line : s'.bus.line = lineAfter s.bus.line s'.dev.effects := (Peripheral.perform_line performed :)
      have same : s'.bus.line = s'.dev.intLineStat := line.trans (runJob_tracks tracks (keeps job scheduler due) is)
      refine ⟨same, fun high low => ?_⟩
      have active : (s.dev.entered o.polls).intLineStat = true := copied.symm.trans high
      rw [low, runJob_active active is] at same
      cases same
  | other n time =>
    obtain ⟨dev, performed⟩ := Peripheral.add_some ran
    have line : s'.bus.line = s.bus.line := Peripheral.perform_line performed
    refine ⟨?_, fun high low => absurd (high.symm.trans (line.symm.trans low)) (by decide)⟩
    show s'.bus.line = s'.dev.intLineStat
    rw [line, dev]
    exact copied

theorem reset_copied {d : Dev} {b : Bus Job} (fresh : Fresh d b)
    (ran : (⟨d, b⟩ : System).serve Dev.effects (fun d => some (reset c (d.entered []))) = some s) : Copied s := by
  obtain ⟨is, performed⟩ := Peripheral.serve_some ran
  have line := Peripheral.perform_line performed
  have is := Option.some.inj is
  have quiet : s.dev.effects = [] ∧ s.dev.intLineStat = false := by
    rw [← is]
    unfold reset
    split
    · exact ⟨rfl, fresh.intLineStat⟩
    · exact ⟨rfl, rfl⟩
  rw [quiet.1] at line
  exact line.trans (fresh.line.trans quiet.2.symm)

theorem Run.copied (run : Run (StepKeeps (LineKeeps c) c) c s) : Copied s := by
  induction run with
  | reset fresh ran => exact reset_copied fresh ran
  | step act _ keeps ran ih => exact (step_copied ih keeps ran).1

/-- In a run whose writes meet the condition `int_line_stat` is the line, and no step withdraws the line early. A write of a
register that does not meet the condition breaks one or the other. -/
theorem line_copied (run : Run (StepKeeps (LineKeeps c) c) c s) :
    Copied s ∧ (∀ act s', StepKeeps (LineKeeps c) c s act → step c s act = some s' → Lowered s s') ∧
      ∀ addr value polls s', step c s (.write addr value polls) = some s' →
        (Copied s' ∧ Lowered s s' ↔ LineKeeps c addr value (s.dev.entered polls)) := by
  refine ⟨run.copied, fun act s' keeps ran => (step_copied run.copied keeps ran).2, fun addr value polls s' ran => ?_⟩
  obtain ⟨is, line⟩ := step_write ran
  rw [← write32_line_iff (d := s.dev.entered polls) addr rfl run.copied, is]
  unfold Copied Lowered Tracks Withdrawn
  rw [line]

end

/-- A packet is sent with an interrupt. -/
def sendOne : List Act := [.write intMask 1 [], .write bdBase 0xc000 [], .write moder 2 [], .advance 1, .job sending]

/-- A packet raises the line and a write of `INT_SOURCE` lowers it. The interface is reset, and both happen once more. -/
theorem line_copied_start : ∃ s s', Run (StepKeeps (LineKeeps fileMac) fileMac) fileMac s ∧
    step fileMac s (.write intSource 1 []) = some s' ∧ s.bus.line = true ∧ s'.bus.line = false ∧ Copied s ∧ Copied s' ∧
      Lowered s s' := by
  let acts : List Act := sendOne ++ [.write intSource 1 [], .write moder 0x800 []] ++ sendOne
  have seen : ((poweredOn fileMac).bind fun s => Runs.guarded (step fileMac) (StepKeeps (LineKeeps fileMac) fileMac) s acts).bind
      (fun s => (step fileMac s (.write intSource 1 [])).map fun s' => (s.bus.line, s'.bus.line)) = some (true, false) := by
        decide +kernel
  obtain ⟨s, ran, seen⟩ := Option.bind_eq_some_iff.mp seen
  obtain ⟨s', last, is⟩ := Option.map_eq_some_iff.mp seen
  obtain ⟨on, started, ran⟩ := Option.bind_eq_some_iff.mp ran
  have run : Run (StepKeeps (LineKeeps fileMac) fileMac) fileMac s := (poweredOn_run started _).guarded ran
  obtain ⟨copied, -, writes⟩ := line_copied run
  have after := (writes intSource 1 [] s' last).mpr trivial
  exact ⟨s, s', run, last, (Prod.mk.inj is).1, (Prod.mk.inj is).2, copied, after⟩

/-- A reset of the interface leaves the line asserted with `int_line_stat` clear, and a write of `INT_MASK` withdraws the
line with its interrupt pending and enabled. -/
theorem stuck_line : ∃ s s', Run (fun _ _ => True) fileMac s ∧ Run (fun _ _ => True) fileMac s' ∧ ¬ Copied s ∧
    ∃ act s'', step fileMac s' act = some s'' ∧ ¬ Lowered s' s'' := by
  have seen : ((poweredOn fileMac).bind fun s => steps fileMac s (sendOne ++ [.write moder 0x802 []])).map
      (fun s => (s.bus.line, s.dev.intLineStat)) = some (true, false) := by decide +kernel
  have seen' : ((poweredOn fileMac).bind fun s => steps fileMac s sendOne).bind (fun s => (step fileMac s (.write intMask 1 [])).map
      fun t => (s.bus.line, t.bus.line, decide (t.dev.intSource &&& t.dev.intMask = 0))) = some (true, false, false) := by decide +kernel
  obtain ⟨s, ran, is⟩ := Option.map_eq_some_iff.mp seen
  obtain ⟨on, started, ran⟩ := Option.bind_eq_some_iff.mp ran
  obtain ⟨s', ran', is'⟩ := Option.bind_eq_some_iff.mp seen'
  obtain ⟨on', started', ran'⟩ := Option.bind_eq_some_iff.mp ran'
  obtain ⟨s'', last, is'⟩ := Option.map_eq_some_iff.mp is'
  refine ⟨s, s', (poweredOn_run started _).steps ran, (poweredOn_run started' _).steps ran', ?_, .write intMask 1 [], s'', last, ?_⟩
  · unfold Copied
    rw [(Prod.mk.inj is).1, (Prod.mk.inj is).2]
    decide
  · obtain ⟨high, low⟩ := Prod.mk.inj is'
    obtain ⟨low, pending⟩ := Prod.mk.inj low
    exact fun lowered => of_decide_eq_false pending (lowered high low)

end Or1ksim.Eth
