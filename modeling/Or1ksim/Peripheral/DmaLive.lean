import Or1ksim.Peripheral.Dma

/-!
# The jobs of the DMA channels

A channel that is enabled has one job in the queue, until a transfer restarts by itself: that leaves the channel enabled
with no job. A channel can also move a word into its own CSR.
-/

namespace Or1ksim.Dma

open Peripheral (Effect Bus ULong testFlag setFlag clearFlag clearFlags assignFlag tally queued Due
  testFlag_clearFlag testFlag_setFlag testFlag_assignFlag)

def enabled (k : Nat) (d : Dev) : Bool := testFlag (d.ch k).csr chEn

@[simp] theorem setCh_same (k : Nat) (channel : Channel) (d : Dev) : (d.setCh k channel).ch k = channel := Function.update_self ..

theorem setCh_other {k k' : Nat} (differ : k' ≠ k) (channel : Channel) (d : Dev) : (d.setCh k channel).ch k' = d.ch k' :=
  Function.update_of_ne differ ..

/-! ### What leaves the channels enabled as they are -/

/-- Neither a channel nor a job is switched on or off. -/
structure Calm (d d' : Dev) : Prop where
  enabled : ∀ k, enabled k d' = enabled k d
  tally : ∀ job n, tally job n d'.effects = tally job n d.effects

section
variable {c : Config} {mem : Word → Word} {d d' : Dev} {k : Nat}

theorem Calm.refl (d : Dev) : Calm d d := ⟨fun _ => rfl, fun _ _ => rfl⟩

theorem Calm.trans {v : Dev} (first : Calm d v) (second : Calm v d') : Calm d d' :=
  ⟨fun k => (second.enabled k).trans (first.enabled k), fun job n => (second.tally job n).trans (first.tally job n)⟩

theorem Calm.setCh {channel : Channel} (calm : Calm d d') (same : testFlag channel.csr chEn = Dma.enabled k d') :
    Calm d (d'.setCh k channel) := by
  refine calm.trans ⟨fun k' => ?_, fun _ _ => rfl⟩
  by_cases is : k' = k
  · subst is
    unfold Dma.enabled
    rw [setCh_same]
    exact same
  · unfold Dma.enabled
    rw [setCh_other is]

theorem Calm.emit (calm : Calm d d') (e : Effect Job) (quiet : ∀ job n, e.count job n = n) : Calm d (d'.emit e) :=
  ⟨calm.enabled, fun job n => by
    rw [← calm.tally]
    exact (Peripheral.tally_snoc job n d'.effects e).trans (quiet job _)⟩

theorem Calm.same {v : Dev} (calm : Calm d d') (channels : v.ch = d'.ch) (effects : v.effects = d'.effects) : Calm d v :=
  ⟨fun k => by
    unfold Dma.enabled
    rw [channels]
    exact calm.enabled k, fun job n => by
    rw [effects]
    exact calm.tally job n⟩

theorem chEn_clearFlags (csr : ULong) {flags : List Nat} (others : chEn ∉ flags) :
    testFlag (clearFlags csr flags) chEn = testFlag csr chEn := by
  unfold clearFlags
  induction flags generalizing csr with
  | nil => rfl
  | cons flag flags ih =>
    rw [List.mem_cons, not_or] at others
    rw [List.foldl_cons, ih _ others.2, testFlag_clearFlag, decide_eq_true others.1, Bool.and_true]

theorem read32_calm (addr : Nat) (d : Dev) : Calm d (read32 addr d).2 := by
  unfold read32
  dsimp only
  split
  · split
    case h_4 =>
      unfold readIntSrcA
      dsimp only
      split
      · exact ((Calm.refl d).emit .clearInterrupt fun _ _ => rfl).same rfl rfl
      · exact (Calm.refl d).same rfl rfl
    all_goals exact Calm.refl d
  · unfold readChannel
    split
    case h_1 => exact (Calm.refl d).setCh (chEn_clearFlags _ (by decide))
    all_goals exact Calm.refl d

theorem evalDirect32_calm (c : Config) (mem : Word → Word) (addr : Word) (d : Dev) : Calm d (evalDirect32 c mem addr d).2 := by
  unfold evalDirect32
  split
  · exact Calm.refl d
  · split
    · exact read32_calm _ d
    · exact Calm.refl d

theorem chEn_assignFlags (csr descCsr : ULong) : testFlag (assignFlags csr descCsr) chEn = testFlag csr chEn := by
  unfold assignFlags
  simp only [testFlag_assignFlag _ (show dstSel < 64 by decide) (show chEn ≠ dstSel by decide),
    testFlag_assignFlag _ (show srcSel < 64 by decide) (show chEn ≠ srcSel by decide),
    testFlag_assignFlag _ (show incDst < 64 by decide) (show chEn ≠ incDst by decide),
    testFlag_assignFlag _ (show incSrc < 64 by decide) (show chEn ≠ incSrc by decide)]

theorem fetch_calm {store : ULong → Channel → Channel} (keeps : ∀ value channel,
    testFlag (store value channel).csr chEn = testFlag channel.csr chEn)
    (addr : ULong) (d : Dev) : Calm d (fetch c mem k addr store d) :=
  (evalDirect32_calm c mem (addr.setWidth 32) d).setCh (keeps _ _)

theorem loadDescriptor_calm (c : Config) (mem : Word → Word) (k : Nat) (d : Dev) : Calm d (loadDescriptor c mem k d) := by
  have flags (descCsr : ULong) (channel : Channel) : testFlag (loadDescCsr descCsr channel).csr chEn = testFlag channel.csr chEn :=
    chEn_assignFlags _ _
  have first : Calm d (fetch c mem k (d.ch k).desc loadDescCsr d) := fetch_calm flags _ d
  unfold loadDescriptor
  dsimp only
  refine ((first.trans (fetch_calm ?_ _ _)).trans (fetch_calm ?_ _ _)).trans (fetch_calm ?_ _ _)
  all_goals exact fun _ _ => rfl

theorem initTransfer_calm (k : Nat) (d : Dev) : Calm d (initTransfer k d) := (Calm.refl d).setCh rfl

theorem interrupt_calm {k flag : Nat} (enable : Nat) (small : flag < 64) (other : chEn ≠ flag) (d : Dev) :
    Calm d (interrupt k enable flag d) := by
  unfold interrupt
  split
  · have flagged : Calm d (d.setCsr k (setFlag (d.ch k).csr flag)) := (Calm.refl d).setCh (by
      rw [testFlag_setFlag _ small, decide_eq_false other, Bool.or_false]
      rfl)
    exact (flagged.emit .reportInterrupt fun _ _ => rfl).same rfl rfl
  · exact Calm.refl d

theorem beginTransfer_calm (c : Config) (mem : Word → Word) (k : Nat) (d : Dev) : Calm d (beginTransfer c mem k d) := by
  have flagged : Calm d (d.setCsr k (setFlag (clearFlag (clearFlag (d.ch k).csr done) err) busy)) := (Calm.refl d).setCh (by
    rw [testFlag_setFlag _ (by decide), testFlag_clearFlag, testFlag_clearFlag]
    simp [enabled, chEn, done, err, busy])
  unfold beginTransfer
  dsimp only
  refine Calm.trans ?_ (initTransfer_calm k _)
  split
  · exact flagged.trans (loadDescriptor_calm c mem k _)
  · exact flagged.setCh rfl

/-! ### The jobs that are queued -/

/-- Every enabled channel has one job, and the others have none. The job that is running has left the queue. -/
def Live (running : Option Nat) (before : Nat → Nat) (d : Dev) : Prop :=
  ∀ k, tally (.channelClock k) (before k) d.effects = if running = some k then 0 else (enabled k d).toNat

variable {running : Option Nat} {before : Nat → Nat}

theorem Live.calm (live : Live running before d) (calm : Calm d d') : Live running before d' := fun k => by
  rw [calm.tally, calm.enabled]
  exact live k

theorem tally_emit (job : Job) (n : Nat) (e : Effect Job) (d : Dev) :
    tally job n (d.emit e).effects = e.count job (tally job n d.effects) :=
  Peripheral.tally_snoc job n d.effects e

theorem live_none_iff : Live none before d ↔ ∀ k, tally (.channelClock k) (before k) d.effects = (enabled k d).toNat := by
  unfold Live
  simp only [reduceCtorEq, if_false]

theorem Live.taken (live : Live (some k) before d) : tally (.channelClock k) (before k) d.effects = 0 := (live k).trans (if_pos rfl)

theorem Live.other {k' : Nat} (live : Live (some k) before d) (differ : k' ≠ k) :
    tally (.channelClock k') (before k') d.effects = (enabled k' d).toNat :=
  (live k').trans (if_neg fun is => differ (Option.some.inj is).symm)

theorem Live.waits (live : Live running before d) (idle : running ≠ some k) :
    tally (.channelClock k) (before k) d.effects = (enabled k d).toNat :=
  (live k).trans (if_neg idle)

theorem count_add_same (k n : Nat) (time : Int) : (Effect.schedAdd (.channelClock k) time).count (Job.channelClock k) n = n + 1 :=
  if_pos rfl

theorem count_add_other {k k' : Nat} (differ : k' ≠ k) (n : Nat) (time : Int) :
    (Effect.schedAdd (.channelClock k) time).count (Job.channelClock k') n = n :=
  if_neg fun is => differ (Job.channelClock.inj is).symm

theorem count_remove_same (k n : Nat) : (Effect.schedFindRemove (.channelClock k)).count (Job.channelClock k) n = n - 1 := if_pos rfl

theorem count_remove_other {k k' : Nat} (differ : k' ≠ k) (n : Nat) :
    (Effect.schedFindRemove (.channelClock k)).count (Job.channelClock k') n = n :=
  if_neg fun is => differ (Job.channelClock.inj is).symm

/-- A job that ends with the channel off is right to leave the queue as it is. -/
theorem live_off_iff (live : Live (some k) before d) : Live none before d ↔ enabled k d = false := by
  rw [live_none_iff]
  constructor
  · intro after
    exact Bool.toNat_eq_zero.mp ((after k).symm.trans live.taken)
  · intro off k'
    by_cases same : k' = k
    · subst same
      rw [live.taken, off]
      rfl
    · exact live.other same

/-- A job that ends with the channel on has to add the next one. -/
theorem live_on_iff (live : Live (some k) before d) : Live none before (d.emit (.schedAdd (.channelClock k) 1)) ↔
    enabled k d = true := by
  rw [live_none_iff]
  constructor
  · intro after
    have one := after k
    rw [tally_emit, live.taken, count_add_same] at one
    exact Bool.toNat_eq_one.mp one.symm
  · intro on k'
    rw [tally_emit]
    by_cases same : k' = k
    · subst same
      rw [live.taken, count_add_same]
      exact (Bool.toNat_eq_one.mpr on).symm
    · rw [count_add_other same]
      exact live.other same

theorem Live.off {channel : Channel} (live : Live (some k) before d) (off : testFlag channel.csr chEn = false) :
    Live none before (d.setCh k channel) := by
  refine live_none_iff.mpr fun k' => ?_
  unfold enabled
  by_cases same : k' = k
  · subst same
    rw [setCh_same, off]
    exact live.taken
  · rw [setCh_other same]
    exact live.other same

/-! ### Writes of registers -/

theorem enabled_writeChCsr (k : Nat) (value : ULong) (d : Dev) : enabled k (writeChCsr k value d) = testFlag value chEn := by
  unfold writeChCsr enabled Dev.setCsr
  rw [setCh_same]
  unfold testFlag
  simp [chEn, chCsrWriteMask]

theorem enabled_writeChCsr_other {k' : Nat} (differ : k' ≠ k) (value : ULong) (d : Dev) :
    enabled k' (writeChCsr k value d) = enabled k' d := by
  unfold writeChCsr enabled Dev.setCsr
  rw [setCh_other differ]
  split
  · rfl
  · split <;> rfl

theorem writeChCsr_live (live : Live running before d) (runs : running = some k → enabled k d = true) (value : ULong) :
    Live running before (writeChCsr k value d) := by
  intro k'
  have now := live k'
  by_cases same : k' = k
  · subst same
    rw [enabled_writeChCsr]
    unfold writeChCsr Dev.setCsr Dev.setCh
    dsimp only
    by_cases starts : (!testFlag (d.ch k').csr chEn && testFlag value chEn) = true
    · obtain ⟨off, on⟩ := Bool.and_eq_true_iff.mp starts
      have off : enabled k' d = false := by simpa [enabled] using off
      have idle : running ≠ some k' := fun is => Bool.false_ne_true (off.symm.trans (runs is))
      rw [if_pos starts, on, if_neg idle]
      show tally (.channelClock k') (before k') (d.emit _).effects = 1
      rw [tally_emit, live.waits idle, off, count_add_same]
      rfl
    · rw [if_neg starts]
      by_cases stops : (!testFlag value chEn) = true
      · rw [if_pos stops, show testFlag value chEn = false by simpa using stops]
        show tally (.channelClock k') (before k') (d.emit _).effects = _
        rw [tally_emit, now, count_remove_same]
        split
        · rfl
        · cases enabled k' d <;> rfl
      · have on : testFlag value chEn = true := by simpa using stops
        have was : enabled k' d = true := by simpa [enabled, on] using starts
        rw [if_neg stops, on, now, was]
  · rw [enabled_writeChCsr_other same, ← now]
    unfold writeChCsr
    dsimp only
    split
    · exact (tally_emit _ _ _ d).trans (count_add_other same _ _)
    · split
      · exact (tally_emit _ _ _ d).trans (count_remove_other same _)
      · rfl

theorem writeChannel_live (live : Live running before d) (runs : running = some k → enabled k d = true) (offset : Nat) (value : ULong) :
    Live running before (writeChannel k offset value d) := by
  have referenced : Calm d (d.setCh k { d.ch k with referenced := true }) := (Calm.refl d).setCh rfl
  unfold writeChannel
  dsimp only
  split
  case h_1 => exact writeChCsr_live (live.calm referenced) (fun is => (referenced.enabled k).trans (runs is)) value
  case h_9 => exact live.calm referenced
  all_goals exact live.calm (referenced.trans ((Calm.refl _).setCh rfl))

theorem write32_live (live : Live running before d) (runs : ∀ k, running = some k → enabled k d = true) (addr : Nat) (value : Word) :
    Live running before (write32 addr value d) := by
  unfold write32
  split
  · split <;> exact live
  · exact writeChannel_live live (runs _) _ _

theorem setDirect32_live (live : Live running before d) (runs : ∀ k, running = some k → enabled k d = true) (addr value : Word) :
    Live running before (setDirect32 c addr value d) := by
  unfold setDirect32
  split
  · exact live
  · split
    · exact write32_live live runs _ value
    · exact live

/-! ### The next word -/

/-- The word goes to the CSR of a channel. -/
def ownCsr (c : Config) (addr : Word) (k : Nat) : Bool := addr &&& 3 = 0 ∧ ownRegister c addr = some (chBase + k * chSize)

/-- The CSR after a write of its register. -/
def mixed (csr value : ULong) : ULong := (csr &&& ~~~chCsrWriteMask) ||| (value &&& chCsrWriteMask)

/-- The CSR of a channel when its next word is in place, as far as the word decides it. -/
def csrAfterWord (c : Config) (mem : Word → Word) (k : Nat) (d : Dev) : ULong :=
  if ownCsr c (d.ch k).destination k then
    mixed (d.ch k).csr ((evalDirect32 c mem (d.ch k).source d).1.setWidth 64)
  else (d.ch k).csr

/-- What a transfer goes by is as before, the CSR apart. -/
structure Kept (channel channel' : Channel) : Prop where
  loadNext : channel'.loadNextDescriptorWhenDone = channel.loadNextDescriptorWhenDone
  dmaNdI : channel'.dmaNdI = channel.dmaNdI
  wordsTransferred : channel'.wordsTransferred = channel.wordsTransferred
  totalSize : channel'.totalSize = channel.totalSize
  destination : channel'.destination = channel.destination

theorem Kept.refl (channel : Channel) : Kept channel channel := ⟨rfl, rfl, rfl, rfl, rfl⟩

/-- The flags that a clock looks at when a word has been moved. -/
def SameFlags (csr csr' : ULong) : Prop := ∀ flag ≤ useEd, testFlag csr' flag = testFlag csr flag

theorem readChannel_kept (k' offset : Nat) (d : Dev) :
    Kept (d.ch k) ((readChannel k' offset d).2.ch k) ∧ SameFlags (d.ch k).csr ((readChannel k' offset d).2.ch k).csr := by
  unfold readChannel
  split
  case h_1 =>
    unfold readChCsr Dev.setCsr
    dsimp only
    by_cases same : k = k'
    · subst same
      rw [setCh_same]
      refine ⟨⟨rfl, rfl, rfl, rfl, rfl⟩, fun flag small => ?_⟩
      unfold useEd at small
      have others : flag ≠ intChunkDone ∧ flag ≠ intDone ∧ flag ≠ intErr ∧ flag ≠ err := by
        unfold intChunkDone intDone intErr err
        omega
      simp [clearFlags, testFlag_clearFlag, others]
    · rw [setCh_other same]
      exact ⟨Kept.refl _, fun _ _ => rfl⟩
  all_goals exact ⟨Kept.refl _, fun _ _ => rfl⟩

theorem evalDirect32_kept (c : Config) (mem : Word → Word) (addr : Word) (d : Dev) :
    Kept (d.ch k) ((evalDirect32 c mem addr d).2.ch k) ∧ SameFlags (d.ch k).csr ((evalDirect32 c mem addr d).2.ch k).csr := by
  unfold evalDirect32
  split
  · exact ⟨Kept.refl _, fun _ _ => rfl⟩
  · split
    · unfold read32
      dsimp only
      split
      · split
        case h_4 =>
          unfold readIntSrcA
          dsimp only
          split <;> exact ⟨Kept.refl _, fun _ _ => rfl⟩
        all_goals exact ⟨Kept.refl _, fun _ _ => rfl⟩
      · exact readChannel_kept _ _ d
    · exact ⟨Kept.refl _, fun _ _ => rfl⟩

theorem writeChCsr_ch (k' : Nat) (value : ULong) (d : Dev) :
    (writeChCsr k' value d).ch k = if k = k' then { d.ch k with csr := mixed (d.ch k).csr value } else d.ch k := by
  have channels : ∀ v : Dev, v.ch = d.ch → (v.setCsr k' (mixed (v.ch k').csr value)).ch k =
      if k = k' then { d.ch k with csr := mixed (d.ch k).csr value } else d.ch k := by
    intro v same
    unfold Dev.setCsr
    by_cases is : k = k'
    · subst is
      rw [setCh_same, if_pos rfl, same]
    · rw [setCh_other is, if_neg is, same]
  unfold writeChCsr
  dsimp only
  refine channels _ ?_
  split
  · rfl
  · split <;> rfl

theorem writeChannel_kept (k' offset : Nat) (value : ULong) (d : Dev) : Kept (d.ch k) ((writeChannel k' offset value d).ch k) ∧
    ((writeChannel k' offset value d).ch k).csr = if k = k' ∧ offset = 0 then mixed (d.ch k).csr value else (d.ch k).csr := by
  let v := d.setCh k' { d.ch k' with referenced := true }
  have first : Kept (d.ch k) (v.ch k) ∧ (v.ch k).csr = (d.ch k).csr := by
    by_cases same : k = k'
    · subst same
      show Kept _ ((d.setCh k _).ch k) ∧ ((d.setCh k _).ch k).csr = _
      rw [setCh_same]
      exact ⟨⟨rfl, rfl, rfl, rfl, rfl⟩, rfl⟩
    · show Kept _ ((d.setCh k' _).ch k) ∧ ((d.setCh k' _).ch k).csr = _
      rw [setCh_other same]
      exact ⟨Kept.refl _, rfl⟩
  have other {channel : Channel} (keeps : Kept (v.ch k') channel) (same : channel.csr = (v.ch k').csr) :
      Kept (d.ch k) ((v.setCh k' channel).ch k) ∧ ((v.setCh k' channel).ch k).csr = (d.ch k).csr := by
    by_cases is : k = k'
    · subst is
      rw [setCh_same]
      exact ⟨⟨keeps.1.trans first.1.1, keeps.2.trans first.1.2, keeps.3.trans first.1.3, keeps.4.trans first.1.4,
        keeps.5.trans first.1.5⟩,
        same.trans first.2⟩
    · rw [setCh_other is]
      exact first
  unfold writeChannel
  dsimp only
  split
  case h_1 =>
    rw [writeChCsr_ch]
    by_cases same : k = k'
    · rw [if_pos same, if_pos ⟨same, rfl⟩]
      exact ⟨⟨first.1.1, first.1.2, first.1.3, first.1.4, first.1.5⟩, congrArg (mixed · value) first.2⟩
    · rw [if_neg same, if_neg fun both => same both.1]
      exact first
  case h_9 _ not _ _ _ _ _ _ _ =>
    rw [if_neg fun both => not both.2]
    exact first
  all_goals
    rw [if_neg fun both => absurd both.2 (by decide)]
    exact other ⟨rfl, rfl, rfl, rfl, rfl⟩ rfl

theorem SameFlags.mixed {csr csr' : ULong} (same : SameFlags csr csr') (value : ULong) :
    SameFlags (mixed csr value) (mixed csr' value) := by
  intro flag small
  have same := same flag small
  unfold testFlag at same ⊢
  unfold Dma.mixed
  rw [BitVec.getLsbD_or, BitVec.getLsbD_or, BitVec.getLsbD_and, BitVec.getLsbD_and, BitVec.getLsbD_and, same]

theorem setDirect32_kept (c : Config) (addr value : Word) (d : Dev) : Kept (d.ch k) ((setDirect32 c addr value d).ch k) ∧
    ((setDirect32 c addr value d).ch k).csr = if ownCsr c addr k then mixed (d.ch k).csr (value.setWidth 64) else (d.ch k).csr := by
  have elsewhere (not : ¬ (addr &&& 3 = 0 ∧ ownRegister c addr = some (chBase + k * chSize))) :
      (if ownCsr c addr k then mixed (d.ch k).csr (value.setWidth 64) else (d.ch k).csr) = (d.ch k).csr :=
    if_neg fun is => not (of_decide_eq_true is)
  unfold setDirect32
  by_cases aligned : addr &&& 3 = 0
  · rw [if_neg (not_not.mpr aligned)]
    cases own : ownRegister c addr with
    | none =>
      rw [elsewhere fun both => by cases own.symm.trans both.2]
      exact ⟨Kept.refl _, rfl⟩
    | some offset =>
      dsimp only
      unfold write32
      by_cases low : offset < chBase
      · rw [if_pos low, elsewhere fun both => by
          have is := Option.some.inj (own.symm.trans both.2)
          omega]
        split <;> exact ⟨Kept.refl _, rfl⟩
      · rw [if_neg low]
        obtain ⟨kept, csr⟩ := writeChannel_kept (k := k) ((offset - chBase) / chSize) ((offset - chBase) % chSize) (value.setWidth 64) d
        refine ⟨kept, csr.trans ?_⟩
        have place : (k = (offset - chBase) / chSize ∧ (offset - chBase) % chSize = 0) ↔ offset = chBase + k * chSize := by
          unfold chBase chSize at *
          omega
        unfold ownCsr
        simp only [aligned, own, Option.some.injEq, true_and, place, decide_eq_true_eq]
  · rw [if_pos aligned, elsewhere fun both => aligned both.1]
    exact ⟨Kept.refl _, rfl⟩

/-- What a word leaves of its channel. -/
structure Moved (c : Config) (mem : Word → Word) (k : Nat) (d : Dev) (channel : Channel) : Prop where
  flags : SameFlags (csrAfterWord c mem k d) channel.csr
  loadNext : channel.loadNextDescriptorWhenDone = (d.ch k).loadNextDescriptorWhenDone
  dmaNdI : channel.dmaNdI = (d.ch k).dmaNdI
  wordsTransferred : channel.wordsTransferred = (d.ch k).wordsTransferred + 1
  totalSize : channel.totalSize = (d.ch k).totalSize

theorem moveWord_some (ran : moveWord c mem k d = some d') : Moved c mem k d (d'.ch k) ∧
    ∀ before, Live (some k) before d → enabled k d = true → Live (some k) before d' := by
  obtain ⟨read, readFlags⟩ := evalDirect32_kept (k := k) c mem (d.ch k).source d
  have calm := evalDirect32_calm c mem (d.ch k).source d
  unfold moveWord at ran
  dsimp only at ran
  set value := (evalDirect32 c mem (d.ch k).source d).1
  set v := (evalDirect32 c mem (d.ch k).source d).2
  obtain ⟨stored, csr⟩ := setDirect32_kept (k := k) c (v.ch k).destination value v
  rw [read.destination] at stored csr ran
  set w := setDirect32 c (d.ch k).destination value v
  split at ran
  · cases ran
  · cases ran
    constructor
    · rw [setCh_same]
      refine ⟨?_, stored.1.trans read.1, stored.2.trans read.2, congrArg (· + 1) (stored.3.trans read.3), stored.4.trans read.4⟩
      show SameFlags _ (w.ch k).csr
      rw [csr]
      unfold csrAfterWord
      split
      · exact readFlags.mixed _
      · exact readFlags
    · intro before live on
      have runs : ∀ k', some k = some k' → enabled k' v = true := fun k' is => by
        cases is
        exact (calm.enabled k).trans on
      exact (setDirect32_live (live.calm calm) runs (d.ch k).destination value).calm ((Calm.refl w).setCh rfl)

/-! ### The job of a channel -/

/-- A transfer that ends goes on with the next descriptor in a channel that is on, and restarts only in one that is off. -/
def EndsWell (loadNext : Bool) (csr : ULong) : Prop :=
  if loadNext then testFlag csr chEn = true else testFlag csr ars = true → testFlag csr chEn = false

theorem clearedCsr_off (csr : ULong) : testFlag (clearFlag (clearFlag (setFlag (clearFlag csr chEn) done) err) busy) chEn = false := by
  rw [testFlag_clearFlag, testFlag_clearFlag, testFlag_setFlag _ (by decide), testFlag_clearFlag]
  simp [chEn, done]

theorem stoppedCsr_off (csr : ULong) : testFlag (setFlag (clearFlag (clearFlag csr chEn) busy) err) chEn = false := by
  rw [testFlag_setFlag _ (by decide), testFlag_clearFlag, testFlag_clearFlag]
  simp [chEn, err]

theorem terminate_live_iff (gen : Bool) (live : Live (some k) before d) :
    Live none before (channelTerminateTransfer c mem k gen d) ↔ EndsWell (d.ch k).loadNextDescriptorWhenDone (d.ch k).csr := by
  unfold channelTerminateTransfer EndsWell
  split
  · have calm := (loadDescriptor_calm c mem k d).trans (initTransfer_calm k _)
    rw [live_on_iff (live.calm calm), calm.enabled]
    rfl
  · split
    · next restarts =>
      have calm := initTransfer_calm k d
      rw [live_off_iff (live.calm calm), calm.enabled, imp_iff_right restarts]
      rfl
    · next stays =>
      refine iff_of_true ?_ fun restarts => absurd restarts stays
      dsimp only
      split
      · exact (live.off (clearedCsr_off _)).calm (interrupt_calm ineDone (by decide) (by decide) _)
      · exact live.off (clearedCsr_off _)

/-- The next word of a channel leaves it on, or ends its transfer well. -/
def WordKeeps (c : Config) (mem : Word → Word) (k : Nat) (d : Dev) : Prop :=
  let csr := csrAfterWord c mem k d
  let channel := d.ch k
  if channelNdI { channel with csr } || channel.wordsTransferred + 1 ≥ channel.totalSize
    then EndsWell channel.loadNextDescriptorWhenDone csr
  else testFlag csr chEn = true

/-- The condition on a job of a channel. -/
def ClockKeeps (c : Config) (mem : Word → Word) (k : Nat) (d : Dev) : Prop :=
  if testFlag (d.ch k).csr stop || testFlag (d.ch k).csr mode && !(d.ch k).dmaReqI then True
  else if testFlag (d.ch k).csr busy then WordKeeps c mem k d
  else
    let d := beginTransfer c mem k d
    if channelNdI (d.ch k) then EndsWell (d.ch k).loadNextDescriptorWhenDone (d.ch k).csr else WordKeeps c mem k d

theorem SameFlags.endsWell {csr csr' : ULong} (same : SameFlags csr csr') (loadNext : Bool) :
    EndsWell loadNext csr' ↔ EndsWell loadNext csr := by
  unfold EndsWell
  rw [same chEn (by decide), same ars (by decide)]

theorem wordMoved_live_iff (moved : Moved c mem k d (d'.ch k)) (live : Live (some k) before d') :
    Live none before (wordMoved c mem k d') ↔ WordKeeps c mem k d := by
  have nd : channelNdI (d'.ch k) = channelNdI { d.ch k with csr := csrAfterWord c mem k d } := by
    unfold channelNdI
    rw [moved.flags mode (by decide), moved.flags useEd (by decide), moved.dmaNdI]
  unfold wordMoved WordKeeps
  dsimp only
  rw [nd, moved.wordsTransferred, moved.totalSize]
  by_cases cut : channelNdI { d.ch k with csr := csrAfterWord c mem k d } = true
  · rw [if_pos cut, cut, Bool.true_or, if_pos rfl, terminate_live_iff false live, moved.loadNext, moved.flags.endsWell]
  · rw [if_neg cut, Bool.eq_false_of_not_eq_true cut, Bool.false_or]
    by_cases last : (d.ch k).wordsTransferred + 1 ≥ (d.ch k).totalSize
    · rw [if_pos last, if_pos (decide_eq_true last), terminate_live_iff true live, moved.loadNext, moved.flags.endsWell]
    · rw [if_neg last, if_neg fun is => last (of_decide_eq_true is), live_on_iff live]
      exact (Bool.eq_iff_iff.mp (moved.flags chEn (by decide)))

/-- A job of a channel leaves the queue right exactly under the condition. -/
theorem channelClock_live_iff (live : Live (some k) before d) (on : enabled k d = true) (ran : channelClock c mem k d = some d') :
    Live none before d' ↔ ClockKeeps c mem k d := by
  unfold channelClock at ran
  unfold ClockKeeps
  by_cases stops : testFlag (d.ch k).csr stop = true
  · rw [if_pos stops] at ran
    rw [stops, Bool.true_or, if_pos rfl]
    cases ran
    exact iff_of_true ((live.off (stoppedCsr_off _)).calm (interrupt_calm ineErr (by decide) (by decide) _)) trivial
  rw [if_neg stops] at ran
  rw [Bool.eq_false_of_not_eq_true stops, Bool.false_or]
  by_cases waits : (testFlag (d.ch k).csr mode && !(d.ch k).dmaReqI) = true
  · rw [if_pos waits] at ran ⊢
    cases ran
    exact iff_of_true ((live_on_iff live).mpr on) trivial
  rw [if_neg waits] at ran ⊢
  by_cases goes : testFlag (d.ch k).csr busy = true
  · rw [if_pos goes] at ran ⊢
    obtain ⟨v, word, rfl⟩ := Option.map_eq_some_iff.mp ran
    obtain ⟨moved, keeps⟩ := moveWord_some word
    exact wordMoved_live_iff moved (keeps before live on)
  rw [if_neg goes] at ran ⊢
  have calm := beginTransfer_calm c mem k d
  dsimp only at ran ⊢
  split at ran
  · next cut =>
    cases ran
    rw [if_pos cut]
    exact terminate_live_iff false (live.calm calm)
  · next whole =>
    obtain ⟨v, word, rfl⟩ := Option.map_eq_some_iff.mp ran
    obtain ⟨moved, keeps⟩ := moveWord_some word
    rw [if_neg whole]
    exact wordMoved_live_iff moved (keeps before (live.calm calm) ((calm.enabled k).trans on))

end

/-! ### Runs -/

/-- Every enabled channel has one job in the queue, and the others have none. -/
def Lively (s : System) : Prop := ∀ k, queued (.channelClock k) s.bus.scheduler = (enabled k s.dev).toNat

/-- The condition on the jobs that are due. -/
def StepKeeps (c : Config) (s : System) : Act → Prop
  | .job mem => ∀ k scheduler, Due s (.channelClock k) scheduler → ClockKeeps c mem k s.dev.entered
  | _ => True

instance (loadNext : Bool) (csr : ULong) : Decidable (EndsWell loadNext csr) := by
  unfold EndsWell
  infer_instance

instance (c : Config) (mem : Word → Word) (k : Nat) (d : Dev) : Decidable (ClockKeeps c mem k d) := by
  unfold ClockKeeps WordKeeps
  infer_instance

/-- The condition on the job that is due, which may be another one. -/
def JobKeeps (c : Config) (mem : Word → Word) (d : Dev) : Job → Prop
  | .channelClock k => ClockKeeps c mem k d
  | .other _ => True

instance (c : Config) (mem : Word → Word) (d : Dev) : DecidablePred (JobKeeps c mem d)
  | .channelClock k => inferInstanceAs (Decidable (ClockKeeps c mem k d))
  | .other _ => inferInstanceAs (Decidable True)

instance (c : Config) (s : System) : DecidablePred (StepKeeps c s)
  | .job mem => decidable_of_iff (∀ job scheduler, Due s job scheduler → JobKeeps c mem s.dev.entered job)
      ⟨fun keeps k => keeps (.channelClock k), fun keeps job => match job with
        | .channelClock k => keeps k
        | .other _ => fun _ _ => trivial⟩
  | .call _ | .advance _ | .other _ _ => inferInstanceAs (Decidable True)

section
variable {c : Config} {s s' : System}

theorem served_iff {f : Dev → Option Dev} (ran : s.serve Dev.effects f = some s') :
    Lively s' ↔ Live none (fun k => queued (.channelClock k) s.bus.scheduler) s'.dev := by
  obtain ⟨-, performed⟩ := Peripheral.serve_some ran
  rw [live_none_iff]
  unfold Lively
  exact forall_congr' fun k => by rw [Peripheral.perform_queued (.channelClock k) performed]

theorem Lively.entered (lively : Lively s) : Live none (fun k => queued (.channelClock k) s.bus.scheduler) s.dev.entered :=
  live_none_iff.mpr lively

theorem call_live {d : Dev} {before : Nat → Nat} (call : Call) (live : Live none before d) : Live none before (call.run d) := by
  cases call with
  | read addr => exact live.calm (read32_calm addr d)
  | write addr value => exact write32_live live nofun addr value
  | setDmaReqI k | clearDmaReqI k | setDmaNdI k | clearDmaNdI k => exact live.calm ((Calm.refl d).setCh rfl)

/-- Every step leaves the queue right, but a job only under the condition. -/
theorem step_lively_iff {act : Act} (lively : Lively s) (ran : step c s act = some s') : Lively s' ↔ StepKeeps c s act := by
  cases act with
  | call call =>
    have ran : s.serve Dev.effects (fun d => some (call.run d.entered)) = some s' := ran
    have dev := Option.some.inj (Peripheral.serve_some ran).1
    refine iff_of_true ?_ trivial
    rw [served_iff ran, ← dev]
    exact call_live call lively.entered
  | advance n =>
    cases ran
    refine iff_of_true (fun k => ?_) trivial
    unfold queued
    exact (congrArg (List.count _) (Peripheral.jobs_advance s.bus.scheduler n)).trans (lively k)
  | other n time =>
    obtain ⟨dev, performed⟩ := Peripheral.add_some ran
    refine iff_of_true (fun k => ?_) trivial
    rw [Peripheral.perform_queued _ performed, dev, ← lively k]
    rfl
  | job mem =>
    rcases Peripheral.runDue_cases (f := fun job d => runJob c mem job d.entered) ran with ⟨rfl, idle⟩ | ⟨job, scheduler, due, ran⟩
    · exact iff_of_true lively fun k scheduler due => absurd due (idle _ scheduler)
    have dev := (Peripheral.serve_some ran).1
    have left (k : Nat) : queued (.channelClock k) s.bus.scheduler = (job :: Peripheral.jobs scheduler).count (.channelClock k) :=
      congrArg (List.count _) due.jobs
    rw [served_iff ran]
    cases job with
    | other n =>
      have same : s.dev.entered = s'.dev := Option.some.inj dev
      rw [← same]
      refine iff_of_true (live_none_iff.mpr fun k => ?_) fun k scheduler' due' => absurd (due.unique due') nofun
      refine Eq.trans ?_ (lively k)
      rw [left, List.count_cons_of_ne (show Job.other n ≠ .channelClock k from nofun)]
      rfl
    | channelClock j =>
      have on : enabled j s.dev = true := by
        have some' := lively j
        rw [left, List.count_cons_self] at some'
        cases is : enabled j s.dev with
        | true => rfl
        | false =>
          rw [is] at some'
          cases some'
      have live : Live (some j) (fun k => queued (.channelClock k) scheduler) s.dev.entered := by
        intro k
        have now := lively k
        rw [left] at now
        show (Peripheral.jobs scheduler).count (.channelClock k) = _
        by_cases same : k = j
        · subst same
          rw [List.count_cons_self, on] at now
          rw [if_pos rfl]
          exact Nat.succ.inj now
        · rw [List.count_cons_of_ne fun is => same (Job.channelClock.inj is).symm] at now
          rw [if_neg fun is => same (Option.some.inj is).symm]
          exact now
      refine (channelClock_live_iff live on dev).trans ⟨fun keeps k scheduler' due' => ?_, fun keeps => keeps j scheduler due⟩
      cases due.unique due'
      exact keeps

theorem Run.lively (run : Run (StepKeeps c) c s) : Lively s := by
  induction run with
  | @reset d b s fresh ran =>
    have dev := Option.some.inj (Peripheral.serve_some ran).1
    rw [served_iff ran, ← dev]
    refine live_none_iff.mpr fun k => (fresh k).trans ?_
    show 0 = (testFlag (0 : ULong) chEn).toNat
    rfl
  | step act _ keeps ran ih => exact (step_lively_iff ih ran).mpr keeps

/-- In a run whose jobs meet the condition every enabled channel has one job and the others have none, and a step loses that
exactly when it does not meet the condition. -/
theorem lively_along (run : Run (StepKeeps c) c s) : Lively s ∧ ∀ act s', step c s act = some s' → (Lively s' ↔ StepKeeps c s act) :=
  ⟨run.lively, fun _ _ ran => step_lively_iff run.lively ran⟩

/-- A controller at the place where its registers are mapped. -/
def dmaController : Config := ⟨0xb8000000⟩

/-- Two channels are switched on. The first moves its two words and is done, while the second has one more to move. -/
theorem lively_along_start :
    ∃ s, Run (StepKeeps dmaController) dmaController s ∧ enabled 0 s.dev = false ∧ enabled 1 s.dev = true ∧ Lively s := by
  let acts : List Act :=
    [.call (.write 0x04 3), .call (.write (chBase + 4) 2), .call (.write (chBase + 8) 0x1000), .call (.write (chBase + 0x10) 0x2000),
      .call (.write (chBase + chSize + 4) 3), .call (.write chBase 0x40019), .call (.write (chBase + chSize) 0x40019), .advance 1,
      .job fun _ => 0x15000000, .job fun _ => 0x15000000, .advance 1, .job fun _ => 0x15000000, .job fun _ => 0x15000000]
  have seen : (poweredOn.bind fun s => Runs.guarded (step dmaController) (StepKeeps dmaController) s acts).map
      (fun s => (enabled 0 s.dev, enabled 1 s.dev)) = some (false, true) := by decide +kernel
  obtain ⟨s, ran, is⟩ := Option.map_eq_some_iff.mp seen
  obtain ⟨on, started, ran⟩ := Option.bind_eq_some_iff.mp ran
  have run : Run (StepKeeps dmaController) dmaController s := (poweredOn_run started _).guarded ran
  exact ⟨s, run, (Prod.mk.inj is).1, (Prod.mk.inj is).2, (lively_along run).1⟩

/-- A transfer of one word that restarts by itself: the channel stays enabled with no job. -/
theorem stalled_channel : ∃ s, Run (fun _ _ => True) dmaController s ∧ enabled 0 s.dev = true ∧
    queued (.channelClock 0) s.bus.scheduler = 0 := by
  let acts : List Act := [.call (.write (chBase + 4) 1), .call (.write chBase 0x41), .advance 1, .job fun _ => 0]
  have seen : (poweredOn.bind fun s => steps dmaController s acts).map
      (fun s => (enabled 0 s.dev, queued (.channelClock 0) s.bus.scheduler)) = some (true, 0) := by decide +kernel
  obtain ⟨s, ran, is⟩ := Option.map_eq_some_iff.mp seen
  obtain ⟨on, started, ran⟩ := Option.bind_eq_some_iff.mp ran
  exact ⟨s, (poweredOn_run started _).steps ran, (Prod.mk.inj is).1, (Prod.mk.inj is).2⟩

end

end Or1ksim.Dma
