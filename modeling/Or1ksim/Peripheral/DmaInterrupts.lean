import Or1ksim.Peripheral.DmaLive

/-!
# The interrupts of the DMA channels

A read of `INT_SRC_A` answers which channels have raised an interrupt, and clears it. A channel that raises
one puts its own bit there alone, so that the bits of others are lost if they have not been read.
-/

namespace Or1ksim.Dma

open Peripheral (Effect Bus ULong testFlag setFlag clearFlag clearFlags Due testFlag_clearFlag testFlag_setFlag)

/-! ### What has not been read -/

/-- The channels that have raised an interrupt since `INT_SRC_A` was read, after an effect of the channel `who`. -/
def noted (who : Option Nat) (owed : List Nat) : Effect Job → List Nat
  | .reportInterrupt => who.toList ++ owed
  | .clearInterrupt => []
  | _ => owed

def unread (who : Option Nat) (owed : List Nat) (es : List (Effect Job)) : List Nat := es.foldl (noted who) owed

/-- The bits of all these channels are set. -/
def Shown (owed : List Nat) (intSrcA : ULong) : Prop := ∀ j ∈ owed, testFlag intSrcA j = true

def Covers (who : Option Nat) (owed : List Nat) (d : Dev) : Prop := Shown (unread who owed d.effects) d.intSrcA

/-- No other channel has an interrupt that has not been read. -/
def Alone (k : Nat) (owed : List Nat) (d : Dev) : Prop := ∀ j ∈ unread (some k) owed d.effects, j = k

/-- The condition of an interrupt. -/
def raises (k enable : Nat) (d : Dev) : Bool := testFlag (d.ch k).csr enable && d.intMskA &&& channelMask k ≠ 0

section
variable {c : Config} {mem : Word → Word} {who : Option Nat} {owed : List Nat} {d d' v : Dev} {k : Nat}

theorem unread_emit (e : Effect Job) (d : Dev) : unread who owed (d.emit e).effects = noted who (unread who owed d.effects) e :=
  List.foldl_append

theorem Covers.same (covers : Covers who owed d) (source : v.intSrcA = d.intSrcA) (effects : v.effects = d.effects) :
    Covers who owed v := by
  unfold Covers
  rw [source, effects]
  exact covers

theorem Covers.emit {e : Effect Job} (covers : Covers who owed d) (quiet : ∀ owed, noted who owed e = owed) :
    Covers who owed (d.emit e) := by
  unfold Covers
  rw [unread_emit, quiet]
  exact covers

/-! ### What keeps the bits -/

theorem readIntSrcA_covers (covers : Covers who owed d) : Covers who owed (readIntSrcA d).2 := by
  unfold readIntSrcA
  dsimp only
  by_cases some : d.intSrcA ≠ 0
  · rw [if_pos some]
    intro j inside
    have none : unread who owed (d.emit .clearInterrupt).effects = [] := unread_emit _ _
    exact absurd (none ▸ inside) List.not_mem_nil
  · rw [if_neg some]
    rw [not_not] at some
    intro j inside
    have set : testFlag d.intSrcA j = true := covers j inside
    rw [some] at set
    exact absurd set (by simp [testFlag])

theorem read32_covers (addr : Nat) (covers : Covers who owed d) : Covers who owed (read32 addr d).2 := by
  unfold read32
  dsimp only
  split
  · split
    case h_4 => exact readIntSrcA_covers covers
    all_goals exact covers
  · unfold readChannel
    split
    case h_1 => exact covers.same rfl rfl
    all_goals exact covers

theorem evalDirect32_covers (c : Config) (mem : Word → Word) (addr : Word) (covers : Covers who owed d) :
    Covers who owed (evalDirect32 c mem addr d).2 := by
  unfold evalDirect32
  split
  · exact covers
  · split
    · exact read32_covers _ covers
    · exact covers

theorem writeChCsr_covers (value : ULong) (covers : Covers who owed d) : Covers who owed (writeChCsr k value d) := by
  unfold writeChCsr
  dsimp only
  refine Covers.same (d := if _ then _ else _) ?_ rfl rfl
  split
  · exact covers.emit fun _ => rfl
  · split
    · exact covers.emit fun _ => rfl
    · exact covers

theorem writeChannel_covers (offset : Nat) (value : ULong) (covers : Covers who owed d) :
    Covers who owed (writeChannel k offset value d) := by
  have referenced : Covers who owed (d.setCh k { d.ch k with referenced := true }) := covers.same rfl rfl
  unfold writeChannel
  dsimp only
  split
  case h_1 => exact writeChCsr_covers value referenced
  case h_9 => exact referenced
  all_goals exact referenced.same rfl rfl

/-- A write of `INT_SRC_A` must keep the bits that have not been read. -/
theorem write32_covers {addr : Nat} {value : Word} (covers : Covers who owed d)
    (keeps : addr = 0x0c → Shown (unread who owed d.effects) (value.setWidth 64)) : Covers who owed (write32 addr value d) := by
  unfold write32
  split
  · split
    case h_3 => exact keeps rfl
    all_goals exact covers.same rfl rfl
  · exact writeChannel_covers _ _ covers

/-- The word goes to `INT_SRC_A`. -/
def ownIntSrc (c : Config) (addr : Word) : Bool := addr &&& 3 = 0 ∧ ownRegister c addr = some 0x0c

theorem setDirect32_covers {addr value : Word} (covers : Covers who owed d)
    (keeps : ownIntSrc c addr = true → Shown (unread who owed d.effects) (value.setWidth 64)) :
      Covers who owed (setDirect32 c addr value d) := by
  unfold setDirect32
  split
  · exact covers
  · next aligned =>
    split
    · next offset own =>
      refine write32_covers covers fun is => keeps ?_
      subst is
      exact decide_eq_true ⟨not_not.mp aligned, own⟩
    · exact covers.same rfl rfl

theorem fetch_covers (addr : ULong) (store : ULong → Channel → Channel) (covers : Covers who owed d) :
    Covers who owed (fetch c mem k addr store d) :=
  (evalDirect32_covers c mem (addr.setWidth 32) covers).same rfl rfl

theorem loadDescriptor_covers (covers : Covers who owed d) : Covers who owed (loadDescriptor c mem k d) := by
  unfold loadDescriptor
  exact fetch_covers _ _ (fetch_covers _ _ (fetch_covers _ _ (fetch_covers _ _ covers)))

theorem beginTransfer_covers (covers : Covers who owed d) : Covers who owed (beginTransfer c mem k d) := by
  have flagged : Covers who owed (d.setCsr k (setFlag (clearFlag (clearFlag (d.ch k).csr done) err) busy)) := covers.same rfl rfl
  unfold beginTransfer
  dsimp only
  refine Covers.same (d := if _ then _ else _) ?_ rfl rfl
  split
  · exact loadDescriptor_covers flagged
  · exact flagged.same rfl rfl

/-! ### Interrupts -/

theorem testFlag_channelMask {k : Nat} (small : k < 64) (j : Nat) : testFlag (channelMask k) j = true ↔ j = k := by
  unfold testFlag channelMask
  rw [BitVec.natCast_eq_ofNat, BitVec.getLsbD_ofNat, Nat.one_shiftLeft, Nat.testBit_two_pow, Bool.and_eq_true, decide_eq_true_iff,
    decide_eq_true_iff]
  omega

theorem channelMask_large {k : Nat} (large : 64 ≤ k) : channelMask k = 0 := by
  unfold channelMask
  apply BitVec.eq_of_toNat_eq
  rw [BitVec.natCast_eq_ofNat, BitVec.toNat_ofNat, Nat.one_shiftLeft]
  exact Nat.mod_eq_zero_of_dvd (Nat.pow_dvd_pow 2 large)

/-- An interrupt keeps the bits exactly if no other channel waits to be read. -/
theorem interrupt_covers_iff {enable flag : Nat} (covers : Covers (some k) owed d) :
    Covers (some k) owed (interrupt k enable flag d) ↔ (raises k enable d = true → Alone k owed d) := by
  unfold interrupt
  split
  · next raised =>
    have small : k < 64 := by
      by_contra large
      rw [channelMask_large (by omega)] at raised
      simp at raised
    have after : unread (some k) owed
      (({ d.setCsr k (setFlag (d.ch k).csr flag) with intSrcA := channelMask k } : Dev).emit .reportInterrupt).effects =
        k :: unread (some k) owed d.effects := unread_emit _ _
    unfold Covers Shown
    rw [after, imp_iff_right (show raises k enable d = true from raised)]
    unfold Alone
    simp only [List.forall_mem_cons]
    show testFlag (channelMask k) k = true ∧ (∀ j ∈ _, testFlag (channelMask k) j = true) ↔ _
    simp only [testFlag_channelMask small, true_and]
  · next quiet => exact iff_of_true covers fun raised => absurd raised quiet

theorem endedCsr_ineDone (csr : ULong) : testFlag (clearFlag (clearFlag (setFlag (clearFlag csr chEn) done) err) busy) ineDone =
    testFlag csr ineDone := by
  rw [testFlag_clearFlag, testFlag_clearFlag, testFlag_setFlag _ (by decide), testFlag_clearFlag]
  simp [ineDone, chEn, done, err, busy]

theorem stoppedCsr_ineErr (csr : ULong) : testFlag (setFlag (clearFlag (clearFlag csr chEn) busy) err) ineErr = testFlag csr ineErr := by
  rw [testFlag_setFlag _ (by decide), testFlag_clearFlag, testFlag_clearFlag]
  simp [ineErr, chEn, busy, err]

/-- The transfer ends with an interrupt of its channel. -/
def finishes (k : Nat) (d : Dev) : Bool := !(d.ch k).loadNextDescriptorWhenDone && !testFlag (d.ch k).csr ars && raises k ineDone d

theorem terminate_covers (gen : Bool) (covers : Covers (some k) owed d) (alone : gen = true → finishes k d = true → Alone k owed d) :
    Covers (some k) owed (channelTerminateTransfer c mem k gen d) := by
  unfold channelTerminateTransfer
  split
  · refine Covers.emit ?_ fun _ => rfl
    exact (loadDescriptor_covers covers).same rfl rfl
  · next last =>
    split
    · exact covers.same rfl rfl
    · next stays =>
      dsimp only
      split
      · next gen =>
        refine (interrupt_covers_iff (by exact covers.same rfl rfl)).mpr fun raised => ?_
        unfold raises at raised
        rw [setCh_same, endedCsr_ineDone] at raised
        refine alone gen ?_
        unfold finishes
        rw [Bool.eq_false_iff.mpr last, Bool.eq_false_iff.mpr stays]
        exact raised
      · exact covers.same rfl rfl

/-- The condition on a word: it keeps the bits that have not been read if it goes to `INT_SRC_A`, and no other channel waits to be
read if it is the last of a transfer that ends with an interrupt. -/
def WordTells (c : Config) (mem : Word → Word) (k : Nat) (owed : List Nat) (d : Dev) : Prop :=
  let (value, v) := evalDirect32 c mem (d.ch k).source d
  let w := setDirect32 c (v.ch k).destination value v
  (ownIntSrc c (v.ch k).destination = true → Shown (unread (some k) owed v.effects) (value.setWidth 64)) ∧
    (channelNdI (w.ch k) = false → (d.ch k).wordsTransferred + 1 ≥ (d.ch k).totalSize → finishes k w = true → Alone k owed w)

theorem wordMoved_covers (covers : Covers (some k) owed d) (ran : moveWord c mem k d = some d') (tells : WordTells c mem k owed d) :
    Covers (some k) owed (wordMoved c mem k d') := by
  have transferred := (moveWord_some ran).1
  obtain ⟨written, last⟩ := tells
  unfold moveWord at ran
  dsimp only at ran
  set w := setDirect32 c ((evalDirect32 c mem (d.ch k).source d).2.ch k).destination (evalDirect32 c mem (d.ch k).source d).1
    (evalDirect32 c mem (d.ch k).source d).2
  have put : Covers (some k) owed w := setDirect32_covers (evalDirect32_covers c mem _ covers) written
  split at ran
  · cases ran
  · cases ran
    have moved : Covers (some k) owed (w.setCh k (advance (w.ch k))) := put.same rfl rfl
    have same : finishes k (w.setCh k (advance (w.ch k))) = finishes k w := by
      unfold finishes raises
      rw [setCh_same]
      rfl
    unfold wordMoved
    split
    · exact terminate_covers false moved nofun
    · next whole =>
      rw [setCh_same] at whole
      split
      · next ended =>
        rw [transferred.wordsTransferred, transferred.totalSize] at ended
        refine terminate_covers true moved fun _ ends => ?_
        rw [same] at ends
        exact last (Bool.eq_false_iff.mpr whole) ended ends
      · exact moved.emit fun _ => rfl

/-- The condition on a job of a channel. -/
def ClockTells (c : Config) (mem : Word → Word) (k : Nat) (owed : List Nat) (d : Dev) : Prop :=
  if testFlag (d.ch k).csr stop then raises k ineErr d = true → Alone k owed d
  else if testFlag (d.ch k).csr mode && !(d.ch k).dmaReqI then True
  else if testFlag (d.ch k).csr busy then WordTells c mem k owed d
  else
    let d := beginTransfer c mem k d
    channelNdI (d.ch k) = false → WordTells c mem k owed d

theorem channelClock_covers (covers : Covers (some k) owed d) (ran : channelClock c mem k d = some d')
    (tells : ClockTells c mem k owed d) :
    Covers (some k) owed d' := by
  unfold channelClock at ran
  unfold ClockTells at tells
  split at ran
  · next stops =>
    rw [if_pos stops] at tells
    cases ran
    refine (interrupt_covers_iff (by exact covers.same rfl rfl)).mpr fun raised => ?_
    unfold raises Dev.setCsr at raised
    rw [setCh_same, stoppedCsr_ineErr] at raised
    exact tells raised
  · next runs =>
    rw [if_neg runs] at tells
    split at ran
    · cases ran
      exact covers.emit fun _ => rfl
    · next ready =>
      rw [if_neg ready] at tells
      split at ran
      · next goes =>
        rw [if_pos goes] at tells
        obtain ⟨v, word, rfl⟩ := Option.map_eq_some_iff.mp ran
        exact wordMoved_covers covers word tells
      · next starts =>
        rw [if_neg starts] at tells
        have begun : Covers (some k) owed (beginTransfer c mem k d) := beginTransfer_covers covers
        dsimp only at ran tells
        split at ran
        · cases ran
          exact terminate_covers false begun nofun
        · next whole =>
          obtain ⟨v, word, rfl⟩ := Option.map_eq_some_iff.mp ran
          exact wordMoved_covers begun word (tells (Bool.eq_false_iff.mpr whole))

end

/-! ### Runs -/

def Job.channel : Job → Option Nat
  | .channelClock k => some k
  | .other _ => none

/-- The channel whose job is due. -/
def dueChannel (s : System) : Option Nat :=
  if s.bus.scheduler.headTime.any (· ≤ 0) then (Sched.popJob s.bus.scheduler).bind fun popped => popped.1.item.job.channel else none

/-- The channels that wait to be read after a step. -/
def owedAfter (s s' : System) (owed : List Nat) : Act → List Nat
  | .call _ => unread none owed s'.dev.effects
  | .job _ =>
    match dueChannel s with
    | some k => unread (some k) owed s'.dev.effects
    | none => owed
  | .advance _ | .other _ _ => owed

/-- The states of the runs from a reset whose steps are allowed, with the channels that wait to be read. -/
inductive NotedRun (allowed : System → List Nat → Act → Prop) (c : Config) : System → List Nat → Prop where
  | reset {d : Dev} {b : Bus Job} {s : System} (fresh : Fresh b)
      (ran : (⟨d, b⟩ : System).serve Dev.effects (fun d => some (reset d.entered)) = some s) : NotedRun allowed c s []
  | step {s s' : System} {owed : List Nat} (act : Act) (before : NotedRun allowed c s owed) (allows : allowed s owed act)
      (ran : step c s act = some s') : NotedRun allowed c s' (owedAfter s s' owed act)

/-- The condition on a step. -/
def StepTells (c : Config) (s : System) (owed : List Nat) : Act → Prop
  | .call (.write addr value) => addr = 0x0c → Shown owed (value.setWidth 64)
  | .job mem => ∀ k, dueChannel s = some k → ClockTells c mem k owed s.dev.entered
  | _ => True

section
variable {c : Config} {s s' : System} {owed : List Nat}

theorem dueChannel_due {job : Job} {scheduler : Sched.Scheduler Job} (due : Due s job scheduler) :
    dueChannel s = job.channel := by
  obtain ⟨tmp, popped, rfl⟩ := due.popped
  unfold dueChannel
  rw [if_pos due.time, popped]
  rfl

theorem dueChannel_idle (idle : ∀ job scheduler, ¬ Due s job scheduler) : dueChannel s = none := by
  unfold dueChannel
  split
  · next time =>
    cases popped : Sched.popJob s.bus.scheduler with
    | none => rfl
    | some pair =>
      obtain ⟨tmp, scheduler⟩ := pair
      exact absurd ⟨time, tmp, popped, rfl⟩ (idle tmp.item.job scheduler)
  · rfl

theorem step_shown {act : Act} (shown : Shown owed s.dev.intSrcA) (ran : step c s act = some s') (tells : StepTells c s owed act) :
    Shown (owedAfter s s' owed act) s'.dev.intSrcA := by
  cases act with
  | call call =>
    have ran : s.serve Dev.effects (fun d => some (call.run d.entered)) = some s' := ran
    have dev := Option.some.inj (Peripheral.serve_some ran).1
    have covers : Covers none owed s.dev.entered := shown
    show Covers none owed s'.dev
    rw [← dev]
    cases call with
    | read addr => exact read32_covers addr covers
    | write addr value => exact write32_covers covers tells
    | setDmaReqI k | clearDmaReqI k | setDmaNdI k | clearDmaNdI k => exact covers.same rfl rfl
  | advance n =>
    cases ran
    exact shown
  | other n time =>
    obtain ⟨dev, -⟩ := Peripheral.add_some ran
    rw [dev]
    exact shown
  | job mem =>
    unfold owedAfter
    rcases Peripheral.runDue_cases (f := fun job d => runJob c mem job d.entered) ran with ⟨rfl, idle⟩ | ⟨job, scheduler, due, ran⟩
    · rw [dueChannel_idle idle]
      exact shown
    · have dev := (Peripheral.serve_some ran).1
      have is := dueChannel_due due
      rw [is]
      cases job with
      | other n =>
        have same : s.dev.entered = s'.dev := Option.some.inj dev
        rw [← same]
        exact shown
      | channelClock k =>
        have covers : Covers (some k) owed s.dev.entered := shown
        exact channelClock_covers covers dev (tells k is)

/-- In every state of a run whose steps meet the condition, a read of `INT_SRC_A` has the bit of every channel that has raised an
interrupt since it was read before. -/
theorem interrupts_kept {s : System} {owed : List Nat} (run : NotedRun (StepTells c) c s owed) :
    ∀ j ∈ owed, j < numChannels → testFlag (read32 0x0c s.dev).1 j = true := by
  have shown : Shown owed s.dev.intSrcA := by
    induction run with
    | reset => exact fun _ none => absurd none List.not_mem_nil
    | step act _ tells ran ih => exact step_shown ih ran tells
  intro j inside small
  have set : testFlag s.dev.intSrcA j = true := shown j inside
  show testFlag (s.dev.intSrcA.setWidth 32) j = true
  unfold testFlag at set ⊢
  rw [BitVec.getLsbD_setWidth, set, Bool.and_true]
  exact decide_eq_true (by unfold numChannels at small; omega)

/-- A step, with the channels that wait to be read behind it. -/
def notedStep (c : Config) (r : System × List Nat) (act : Act) : Option (System × List Nat) :=
  (step c r.1 act).map fun s' => (s', owedAfter r.1 s' r.2 act)

theorem NotedRun.guarded {allowed : System → List Nat → Act → Prop} [∀ s owed act, Decidable (allowed s owed act)] {acts : List Act}
    {r r' : System × List Nat} (before : NotedRun allowed c r.1 r.2)
    (ran : Runs.guarded (notedStep c) (fun r act => allowed r.1 r.2 act) r acts = some r') : NotedRun allowed c r'.1 r'.2 := by
  refine Runs.guarded_preserves (P := fun r => NotedRun allowed c r.1 r.2) (fun {r r' act} before allows noted => ?_) before ran
  obtain ⟨s', ran, rfl⟩ := Option.map_eq_some_iff.mp noted
  exact before.step act allows ran

theorem poweredOn_notedRun (on : poweredOn = some s) (allowed : System → List Nat → Act → Prop) : NotedRun allowed c s [] := by
  obtain ⟨scheduler, started, ran⟩ := Option.bind_eq_some_iff.mp on
  refine .reset (fun k => ?_) ran
  cases started
  exact List.count_eq_zero.mpr fun inside => absurd (List.mem_singleton.mp inside) nofun

instance (owed : List Nat) (intSrcA : ULong) : Decidable (Shown owed intSrcA) :=
  inferInstanceAs (Decidable (∀ j ∈ owed, testFlag intSrcA j = true))

instance (k : Nat) (owed : List Nat) (d : Dev) : Decidable (Alone k owed d) :=
  inferInstanceAs (Decidable (∀ j ∈ unread (some k) owed d.effects, j = k))

instance (c : Config) (mem : Word → Word) (k : Nat) (owed : List Nat) (d : Dev) : Decidable (ClockTells c mem k owed d) := by
  unfold ClockTells WordTells
  infer_instance

instance (c : Config) (s : System) (owed : List Nat) : DecidablePred (StepTells c s owed)
  | .call (.write addr value) => inferInstanceAs (Decidable (addr = 0x0c → Shown owed (value.setWidth 64)))
  | .job mem => inferInstanceAs (Decidable (∀ k ∈ dueChannel s, ClockTells c mem k owed s.dev.entered))
  | .call (.read _) | .call (.setDmaReqI _) | .call (.clearDmaReqI _) | .call (.setDmaNdI _) | .call (.clearDmaNdI _)
  | .advance _ | .other _ _ => inferInstanceAs (Decidable True)

/-- The interrupt of one channel is read before the next channel raises its own, which is written back and waits to be read. -/
theorem interrupts_kept_start : ∃ s owed, NotedRun (StepTells dmaController) dmaController s owed ∧ owed = [1] ∧
    ∀ j ∈ owed, j < numChannels → testFlag (read32 0x0c s.dev).1 j = true := by
  let acts : List Act :=
    [.call (.write 0x04 3), .call (.write (chBase + 4) 1), .call (.write (chBase + chSize + 4) 2), .call (.write chBase 0x40001),
      .call (.write (chBase + chSize) 0x40001), .advance 1, .job fun _ => 0, .job fun _ => 0, .call (.read 0x0c), .advance 1,
      .job fun _ => 0, .call (.write 0x0c 6), .call (.read (chBase + chSize))]
  have seen : (poweredOn.bind fun s => Runs.guarded (notedStep dmaController) (fun r act => StepTells dmaController r.1 r.2 act)
      (s, []) acts).map (fun r => r.2) = some [1] := by decide +kernel
  obtain ⟨r, ran, owed⟩ := Option.map_eq_some_iff.mp seen
  obtain ⟨on, started, ran⟩ := Option.bind_eq_some_iff.mp ran
  have run : NotedRun (StepTells dmaController) dmaController r.1 r.2 := (poweredOn_notedRun started _).guarded ran
  exact ⟨r.1, r.2, run, owed, interrupts_kept run⟩

/-- The software does not write `INT_SRC_A` itself. -/
def LeavesSource (_ : System) (_ : List Nat) (act : Act) : Prop := ∀ value, act ≠ .call (.write 0x0c value)

instance (s : System) (owed : List Nat) : DecidablePred (LeavesSource s owed)
  | .call (.write addr value) => decidable_of_iff (addr ≠ 0x0c)
      ⟨fun other _ same => other (by cases same; rfl), fun leaves same => leaves value (by rw [same])⟩
  | .call (.read _) | .call (.setDmaReqI _) | .call (.clearDmaReqI _) | .call (.setDmaNdI _) | .call (.clearDmaNdI _)
  | .job _ | .advance _ | .other _ _ => .isTrue nofun

/-- Two channels that move one word each before `INT_SRC_A` is read: the bit of the one that ends first is gone. -/
theorem interrupt_lost : ¬ ∀ (c : Config) (s : System) (owed : List Nat), NotedRun LeavesSource c s owed →
    ∀ j ∈ owed, j < numChannels → testFlag (read32 0x0c s.dev).1 j = true := by
  intro claim
  let acts : List Act :=
    [.call (.write 0x04 3), .call (.write (chBase + 4) 1), .call (.write (chBase + chSize + 4) 1), .call (.write chBase 0x40001),
      .call (.write (chBase + chSize) 0x40001), .advance 1, .job fun _ => 0, .job fun _ => 0]
  have seen : (poweredOn.bind fun s => Runs.guarded (notedStep dmaController) (fun r act => LeavesSource r.1 r.2 act) (s, []) acts).map
      (fun r => (r.2, testFlag (read32 0x0c r.1.dev).1 1)) = some ([0, 1], false) := by decide +kernel
  obtain ⟨r, ran, is⟩ := Option.map_eq_some_iff.mp seen
  obtain ⟨on, started, ran⟩ := Option.bind_eq_some_iff.mp ran
  obtain ⟨both, lost⟩ : r.2 = [0, 1] ∧ testFlag (read32 0x0c r.1.dev).1 1 = false := Prod.mk.inj is
  have run : NotedRun LeavesSource dmaController r.1 r.2 := (poweredOn_notedRun started _).guarded ran
  have kept := claim dmaController r.1 r.2 run 1 (by rw [both]; decide) (by decide)
  exact Bool.false_ne_true (lost.symm.trans kept)

end

end Or1ksim.Dma
