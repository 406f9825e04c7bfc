import Or1ksim.Peripheral.DmaLive

/-!
# The words that a DMA channel moves

What a channel is programmed to move, by its registers or by a chain of descriptors, and that its clocks
move just that. A transfer of no words divides by zero in its first clock.
-/

namespace Or1ksim.Dma

open Peripheral (Effect Bus ULong testFlag setFlag clearFlag assignFlag getField setField testFlag_clearFlag testFlag_setFlag
  testFlag_assignFlag
  getField_toNat getField_lt getField_setField)

/-! ### What is programmed -/

structure Segment where
  source : Word
  destination : Word
  sourceMask : Word
  destinationMask : Word
  words : Nat
  deriving DecidableEq, Repr

/-- An address after `j` increments under a mask. -/
def place (start mask : Word) (j : Nat) : Word := (fun a => maskedIncrease a mask)^[j] start

def Segment.from' (seg : Segment) (j : Nat) : Word := place seg.source seg.sourceMask j

def Segment.to (seg : Segment) (j : Nat) : Word := place seg.destination seg.destinationMask j

/-- The words of a segment, when its `j`-th word finds the memory `mem j`. -/
def Segment.moves (seg : Segment) (mem : Nat → Word → Word) : List (Word × Word) :=
  (List.range seg.words).map fun j => (seg.to j, mem j (seg.from' j))

/-- A segment, the descriptor behind it and the masks for all of them. -/
structure Plan where
  segment : Segment
  next : Option Word
  am0 : Word
  am1 : Word
  deriving DecidableEq, Repr

/-- The plan that a descriptor in the memory gives. -/
def Plan.load (p : Plan) (mem : Word → Word) (desc : Word) : Plan where
  segment :=
    { source := mem (desc + 4)
      destination := mem (desc + 8)
      sourceMask := if testFlag (mem desc) descIncSrc then p.am0 else 0
      destinationMask := if testFlag (mem desc) descIncDst then p.am1 else 0
      words := (mem desc).toNat % 2 ^ 12 }
  next := if testFlag (mem desc) descEol then none else some (mem (desc + 12))
  am0 := p.am0
  am1 := p.am1

/-- The plan in the registers of a channel. -/
def Channel.plan (channel : Channel) : Plan where
  segment :=
    { source := channel.a0.setWidth 32
      destination := channel.a1.setWidth 32
      sourceMask := if testFlag channel.csr incSrc then channel.am0.setWidth 32 else 0
      destinationMask := if testFlag channel.csr incDst then channel.am1.setWidth 32 else 0
      words := channel.sz.toNat % 2 ^ 12 }
  next := none
  am0 := channel.am0.setWidth 32
  am1 := channel.am1.setWidth 32

/-- The plan of a channel that is switched on. -/
def Channel.firstPlan (channel : Channel) (mem : Word → Word) : Plan :=
  if testFlag channel.csr useEd then channel.plan.load mem (channel.desc.setWidth 32) else channel.plan

/-- The memory in which the descriptor behind a segment is found: that of its last word, with the word in it. -/
def Segment.leaves (seg : Segment) (mem : Nat → Word → Word) : Word → Word :=
  seen (mem (seg.words - 1)) [(seg.to (seg.words - 1), mem (seg.words - 1) (seg.from' (seg.words - 1)))]

/-- The words of a plan and of those behind it, whose clocks find the memories from `mem i` on. -/
inductive Planned (allowed : Plan → Prop) (mem : Nat → Word → Word) : Nat → Plan → List (Word × Word) → Prop where
  | last {i : Nat} {p : Plan} (allows : allowed p) (ends : p.next = none) :
      Planned allowed mem i p (p.segment.moves fun j => mem (i + j))
  | next {i : Nat} {p : Plan} {desc : Word} {moves : List (Word × Word)} (allows : allowed p) (goes : p.next = some desc)
      (later : Planned allowed mem (i + p.segment.words) (p.load (p.segment.leaves fun j => mem (i + j)) desc) moves) :
      Planned allowed mem i p ((p.segment.moves fun j => mem (i + j)) ++ moves)

/-! ### Clocks -/

/-- The memory that a clock of a channel finds, and what has happened before it, which leaves the channel alone. -/
structure Tick (k : Nat) where
  mem : Word → Word
  others : Dev → Dev
  apart : ∀ d, (others d).ch k = d.ch k

def clock (c : Config) (k : Nat) (t : Tick k) (d : Dev) : Option Dev := channelClock c t.mem k (t.others d).entered

/-- Some clocks of a channel that are asked for, with the words that they store. -/
def clocks (c : Config) (k : Nat) (ticks : Nat → Tick k) : Nat → Nat → Dev → Option (List (Word × Word) × Dev)
  | 0, _, d => some ([], d)
  | n + 1, i, d =>
    if .schedAdd (.channelClock k) 1 ∈ d.effects then
      (clock c k (ticks i) d).bind fun d => (clocks c k ticks n (i + 1) d).map fun r => (d.stored.reverse ++ r.1, r.2)
    else none

/-- The channel has ended its transfer, and no clock is asked for. -/
structure Finished (k : Nat) (d : Dev) : Prop where
  done : testFlag (d.ch k).csr done = true
  chEn : testFlag (d.ch k).csr chEn = false
  busy : testFlag (d.ch k).csr busy = false
  idle : .schedAdd (.channelClock k) 1 ∉ d.effects

/-! ### Where the words are -/

/-- The address of a word that is not a register of the controller. -/
def Outside (c : Config) (addr : Word) : Prop := addr &&& 3 = 0 ∧ ownRegister c addr = none

instance (c : Config) (addr : Word) : Decidable (Outside c addr) := inferInstanceAs (Decidable (_ ∧ _))

/-- The four words of a descriptor. -/
structure DescriptorOutside (c : Config) (desc : Word) : Prop where
  csr : Outside c desc
  adr0 : Outside c (desc + 4)
  adr1 : Outside c (desc + 8)
  next : Outside c (desc + 12)

/-- A plan has words, and they and its next descriptor are in the memory. -/
structure Plan.Sound (c : Config) (p : Plan) : Prop where
  words : 0 < p.segment.words
  source : ∀ j < p.segment.words, Outside c (p.segment.from' j)
  destination : ∀ j < p.segment.words, Outside c (p.segment.to j)
  next : ∀ desc, p.next = some desc → DescriptorOutside c desc

section
variable {c : Config} {mem : Word → Word} {d : Dev} {k : Nat} {addr value : Word}

theorem evalDirect32_outside (out : Outside c addr) : evalDirect32 c mem addr d = (seen mem d.stored addr, d) := by
  unfold evalDirect32
  rw [if_neg (not_not.mpr out.1), out.2]

theorem setDirect32_outside (out : Outside c addr) : setDirect32 c addr value d = { d with stored := (addr, value) :: d.stored } := by
  unfold setDirect32
  rw [if_neg (not_not.mpr out.1), out.2]

theorem setCh_setCh (a b : Channel) (d : Dev) : (d.setCh k a).setCh k b = d.setCh k b := by
  unfold Dev.setCh
  rw [Function.update_idem]

theorem fetch_outside {addr : ULong} {store : ULong → Channel → Channel} (out : Outside c (addr.setWidth 32)) :
    fetch c mem k addr store d = d.setCh k (store ((seen mem d.stored (addr.setWidth 32)).setWidth 64) (d.ch k)) := by
  unfold fetch
  rw [evalDirect32_outside out]

/-- A channel with a descriptor from the memory. -/
def loaded (mem : Word → Word) (channel : Channel) : Channel :=
  let desc := channel.desc.setWidth 32
  { loadDescCsr ((mem desc).setWidth 64) channel with
    a0 := (mem (desc + 4)).setWidth 64
    a1 := (mem (desc + 8)).setWidth 64
    currentDescriptor := channel.desc
    desc := (mem (desc + 12)).setWidth 64 }

theorem loadDescriptor_outside (out : DescriptorOutside c ((d.ch k).desc.setWidth 32)) :
    loadDescriptor c mem k d = d.setCh k (loaded (seen mem d.stored) (d.ch k)) := by
  have narrow (n : ULong) : ((d.ch k).desc + n).setWidth 32 = (d.ch k).desc.setWidth 32 + n.setWidth 32 :=
    BitVec.setWidth_add _ _ (by decide)
  have adr0 : Outside c (((d.ch k).desc + 4).setWidth 32) := by
    rw [narrow]
    exact out.adr0
  have adr1 : Outside c (((d.ch k).desc + 8).setWidth 32) := by
    rw [narrow]
    exact out.adr1
  have next : Outside c (((d.ch k).desc + 12).setWidth 32) := by
    rw [narrow]
    exact out.next
  unfold loadDescriptor
  dsimp only
  rw [fetch_outside next, fetch_outside adr1, fetch_outside adr0, fetch_outside out.csr]
  simp only [setCh_setCh, setCh_same, narrow]
  rfl

/-! ### A channel that moves words -/

theorem getField_totSz (sz : ULong) : (getField sz totSzOffset totSzWidth).toNat = sz.toNat % 2 ^ 12 := by
  rw [getField_toNat sz totSzOffset (by decide), totSzOffset, pow_zero, Nat.div_one, totSzWidth]

theorem getField_setField_totSz (sz value : ULong) :
    getField (setField sz totSzOffset totSzWidth (getField value totSzOffset totSzWidth)) totSzOffset totSzWidth =
      getField value totSzOffset totSzWidth :=
  getField_setField sz (getField_lt value totSzOffset (by decide)) (by decide)

/-- The flags that let a transfer go on by itself. -/
structure Free (csr : ULong) : Prop where
  stop : testFlag csr stop = false
  mode : testFlag csr mode = false
  ars : testFlag csr ars = false

/-- A channel that has moved `j` words of a plan. -/
structure Moving (p : Plan) (j : Nat) (channel : Channel) : Prop where
  free : Free channel.csr
  busy : testFlag channel.csr busy = true
  source : channel.source = p.segment.from' j
  destination : channel.destination = p.segment.to j
  sourceMask : channel.sourceMask = p.segment.sourceMask
  destinationMask : channel.destinationMask = p.segment.destinationMask
  totalSize : channel.totalSize.toNat = p.segment.words
  wordsTransferred : channel.wordsTransferred.toNat = j
  chunkSize : channel.chunkSize ≠ 0
  loadNext : channel.loadNextDescriptorWhenDone = p.next.isSome
  desc : ∀ desc, p.next = some desc → channel.desc.setWidth 32 = desc
  am0 : channel.am0.setWidth 32 = p.am0
  am1 : channel.am1.setWidth 32 = p.am1

/-- What a channel has to have for a plan when its transfer is initialized. -/
structure Ready (p : Plan) (channel : Channel) : Prop where
  free : Free channel.csr
  busy : testFlag channel.csr busy = true
  segment : channel.plan.segment = p.segment
  loadNext : channel.loadNextDescriptorWhenDone = p.next.isSome
  desc : ∀ desc, p.next = some desc → channel.desc.setWidth 32 = desc
  am0 : channel.am0.setWidth 32 = p.am0
  am1 : channel.am1.setWidth 32 = p.am1

variable {p : Plan} {j : Nat}

theorem initTransfer_moving (ready : Ready p (d.ch k)) (words : 0 < p.segment.words) : Moving p 0 ((initTransfer k d).ch k) := by
  have segment := ready.segment
  have total : (getField (d.ch k).sz totSzOffset totSzWidth).toNat = p.segment.words := by
    rw [getField_totSz, ← segment]
    rfl
  unfold initTransfer
  rw [setCh_same]
  refine ⟨ready.free, ready.busy, ?_, ?_, ?_, ?_, total, rfl, ?_, ready.loadNext, ready.desc, ready.am0, ready.am1⟩
  · exact congrArg Segment.source segment
  · exact congrArg Segment.destination segment
  · exact congrArg Segment.sourceMask segment
  · exact congrArg Segment.destinationMask segment
  · dsimp only
    have some' : getField (d.ch k).sz totSzOffset totSzWidth ≠ 0 := by
      intro none
      rw [none] at total
      exact absurd total.symm (by simpa using Nat.ne_of_gt words)
    split
    · exact some'
    · next chunk => exact fun none => chunk (.inl none)

theorem flags_assignFlags {flag : Nat} (small : flag ≠ incSrc ∧ flag ≠ incDst ∧ flag ≠ srcSel ∧ flag ≠ dstSel) (csr descCsr : ULong) :
    testFlag (assignFlags csr descCsr) flag = testFlag csr flag := by
  unfold assignFlags
  rw [testFlag_assignFlag _ (by decide) small.2.2.2, testFlag_assignFlag _ (by decide) small.2.2.1,
    testFlag_assignFlag _ (by decide) small.2.1, testFlag_assignFlag _ (by decide) small.1]

theorem testFlag_assignFlag_self (r : ULong) {flag : Nat} (inside : flag < 64) (value : Bool) :
    testFlag (assignFlag r flag value) flag = value := by
  unfold assignFlag
  cases value with
  | true =>
    rw [if_pos rfl, testFlag_setFlag r inside]
    simp
  | false =>
    rw [if_neg (by decide), testFlag_clearFlag]
    simp

theorem loaded_ready (mem : Word → Word) {channel : Channel} (free : Free channel.csr) (busy : testFlag channel.csr busy = true)
    (am0 : channel.am0.setWidth 32 = p.am0) (am1 : channel.am1.setWidth 32 = p.am1) :
    Ready (p.load mem (channel.desc.setWidth 32)) (loaded mem channel) := by
  have narrow (w : Word) : (w.setWidth 64).setWidth 32 = w := by rw [BitVec.setWidth_setWidth_of_le _ (by decide), BitVec.setWidth_eq]
  have wide (w : Word) {flag : Nat} (inside : flag < 64) : testFlag (w.setWidth 64) flag = testFlag w flag := by
    unfold testFlag
    rw [BitVec.getLsbD_setWidth, decide_eq_true inside, Bool.true_and]
  generalize is : mem (channel.desc.setWidth 32) = descCsr
  have csr : (loaded mem channel).csr = assignFlags channel.csr (descCsr.setWidth 64) := by
    rw [← is]
    rfl
  have source : testFlag (loaded mem channel).csr incSrc = testFlag descCsr descIncSrc := by
    rw [csr]
    unfold assignFlags
    rw [testFlag_assignFlag _ (by decide) (by decide), testFlag_assignFlag _ (by decide) (by decide),
      testFlag_assignFlag _ (by decide) (by decide),
      testFlag_assignFlag_self _ (by decide), wide _ (by decide)]
  have destination : testFlag (loaded mem channel).csr incDst = testFlag descCsr descIncDst := by
    rw [csr]
    unfold assignFlags
    rw [testFlag_assignFlag _ (by decide) (by decide), testFlag_assignFlag _ (by decide) (by decide),
      testFlag_assignFlag_self _ (by decide), wide _ (by decide)]
  have words : (loaded mem channel).sz.toNat % 2 ^ 12 = descCsr.toNat % 2 ^ 12 := by
    have field : getField (loaded mem channel).sz totSzOffset totSzWidth = getField (descCsr.setWidth 64) totSzOffset totSzWidth := by
      rw [← is]
      exact getField_setField_totSz _ _
    rw [← getField_totSz, field, getField_totSz, BitVec.toNat_setWidth,
      Nat.mod_eq_of_lt (show descCsr.toNat < 2 ^ 64 by omega)]
  have flag {flag : Nat} (small : flag ≠ incSrc ∧ flag ≠ incDst ∧ flag ≠ srcSel ∧ flag ≠ dstSel) :
      testFlag (loaded mem channel).csr flag = testFlag channel.csr flag := by
    rw [csr, flags_assignFlags small]
  refine ⟨⟨?_, ?_, ?_⟩, ?_, ?_, ?_, ?_, am0, am1⟩
  · rw [flag (by decide), free.stop]
  · rw [flag (by decide), free.mode]
  · rw [flag (by decide), free.ars]
  · rw [flag (by decide), busy]
  · unfold Channel.plan Plan.load
    dsimp only
    rw [source, destination, words, is, ← am0, ← am1]
    congr 1
    · exact narrow _
    · exact narrow _
  · show (!testFlag ((mem (channel.desc.setWidth 32)).setWidth 64) descEol) = _
    unfold Plan.load
    rw [wide _ (by decide)]
    cases testFlag (mem (channel.desc.setWidth 32)) descEol <;> rfl
  · intro desc goes
    unfold Plan.load at goes
    dsimp only at goes
    split at goes
    · cases goes
    · cases goes
      exact narrow _

/-! ### The clock of a word -/

theorem place_succ (start mask : Word) (j : Nat) : place start mask (j + 1) = maskedIncrease (place start mask j) mask :=
  Function.iterate_succ_apply' _ _ _

theorem Moving.advance {channel : Channel} (moving : Moving p j channel) (inside : j < p.segment.words) :
    Moving p (j + 1) (advance channel) := by
  have small := channel.totalSize.isLt
  refine ⟨moving.free, moving.busy, ?_, ?_, moving.sourceMask, moving.destinationMask, moving.totalSize, ?_, moving.chunkSize,
    moving.loadNext,
    moving.desc, moving.am0, moving.am1⟩
  · show maskedIncrease channel.source channel.sourceMask = place _ _ (j + 1)
    rw [place_succ, moving.source, moving.sourceMask]
    rfl
  · show maskedIncrease channel.destination channel.destinationMask = place _ _ (j + 1)
    rw [place_succ, moving.destination, moving.destinationMask]
    rfl
  · show (channel.wordsTransferred + 1).toNat = j + 1
    rw [moving.totalSize] at small
    rw [BitVec.toNat_add, moving.wordsTransferred]
    exact Nat.mod_eq_of_lt (by show j + 1 < 2 ^ 64; omega)

/-- The store of the `j`-th word. -/
def Segment.move (seg : Segment) (mem : Word → Word) (j : Nat) : Word × Word := (seg.to j, mem (seg.from' j))

/-- A word is moved, and the plan goes on, ends, or goes on with the next descriptor. -/
structure WordMoved (p : Plan) (mem : Word → Word) (j k : Nat) (d : Dev) : Prop where
  stored : d.stored = [p.segment.move mem j]
  moving : j + 1 < p.segment.words → Moving p (j + 1) (d.ch k)
  finished : j + 1 = p.segment.words → p.next = none → Finished k d
  loaded : j + 1 = p.segment.words → ∀ desc, p.next = some desc → 0 < (p.load (seen mem [p.segment.move mem j]) desc).segment.words →
    Moving (p.load (seen mem [p.segment.move mem j]) desc) 0 (d.ch k)
  asks : j + 1 < p.segment.words ∨ p.next.isSome → .schedAdd (.channelClock k) 1 ∈ d.effects

theorem moveWord_sound (moving : Moving p j (d.ch k)) (inside : j < p.segment.words) (sound : p.Sound c) (fresh : d.stored = []) :
    moveWord c mem k d = some (({ d with stored := [p.segment.move mem j] } : Dev).setCh k (advance (d.ch k))) := by
  have source := sound.source j inside
  have destination := sound.destination j inside
  rw [← moving.source] at source
  rw [← moving.destination] at destination
  have chunk : ¬ (d.ch k).chunkSize = 0 := moving.chunkSize
  unfold moveWord
  rw [evalDirect32_outside source]
  dsimp only
  rw [setDirect32_outside destination]
  dsimp only
  rw [if_neg chunk, fresh, moving.source, moving.destination]
  rfl

theorem finished_csr (csr : ULong) : testFlag (clearFlag (clearFlag (setFlag (clearFlag csr chEn) done) err) busy) done = true ∧
    testFlag (clearFlag (clearFlag (setFlag (clearFlag csr chEn) done) err) busy) chEn = false ∧
    testFlag (clearFlag (clearFlag (setFlag (clearFlag csr chEn) done) err) busy) busy = false := by
  simp [testFlag_clearFlag, testFlag_setFlag, chEn, done, err, busy]

theorem interrupt_finished {enable flag : Nat} (finished : Finished k d) (small : flag < 64)
    (others : flag ≠ done ∧ flag ≠ chEn ∧ flag ≠ busy) :
    Finished k (interrupt k enable flag d) := by
  have flags {other : Nat} (differ : flag ≠ other) : testFlag (setFlag (d.ch k).csr flag) other = testFlag (d.ch k).csr other := by
    rw [testFlag_setFlag _ small, decide_eq_false differ.symm, Bool.or_false]
  unfold interrupt
  split
  · have channel : ((({ d.setCsr k (setFlag (d.ch k).csr flag) with intSrcA := channelMask k } : Dev).emit .reportInterrupt).ch k).csr =
        setFlag (d.ch k).csr flag := congrArg Channel.csr (setCh_same k _ d)
    refine ⟨?_, ?_, ?_, ?_⟩
    · rw [channel, flags others.1, finished.done]
    · rw [channel, flags others.2.1, finished.chEn]
    · rw [channel, flags others.2.2, finished.busy]
    · intro asked
      rcases List.mem_append.mp asked with before | now
      · exact finished.idle before
      · exact absurd (List.mem_singleton.mp now) nofun
  · exact finished

theorem interrupt_stored {enable flag : Nat} : (interrupt k enable flag d).stored = d.stored := by
  unfold interrupt
  split <;> rfl

theorem reached_iff (moving : Moving p j (d.ch k)) : (d.ch k).wordsTransferred ≥ (d.ch k).totalSize ↔ p.segment.words ≤ j := by
  show (d.ch k).totalSize ≤ (d.ch k).wordsTransferred ↔ _
  rw [BitVec.le_def, moving.totalSize, moving.wordsTransferred]

theorem Free.noNdI {channel : Channel} (free : Free channel.csr) : channelNdI channel = false := by
  unfold channelNdI
  rw [free.mode]
  rfl

theorem wordMoved_goes (moving : Moving p j (d.ch k)) (more : j < p.segment.words) :
    wordMoved c mem k d = d.emit (.schedAdd (.channelClock k) 1) := by
  unfold wordMoved
  rw [moving.free.noNdI, if_neg (by decide), if_neg fun reached => absurd ((reached_iff moving).mp reached) (by omega)]

theorem wordMoved_whole (moving : Moving p j (d.ch k)) (whole : j = p.segment.words) :
    wordMoved c mem k d = channelTerminateTransfer c mem k true d := by
  unfold wordMoved
  rw [moving.free.noNdI, if_neg (by decide), if_pos ((reached_iff moving).mpr (by omega))]

theorem wordMoved_ends (moving : Moving p j (d.ch k)) (whole : j = p.segment.words) (ends : p.next = none)
    (quiet : .schedAdd (.channelClock k) 1 ∉ d.effects) : Finished k (wordMoved c mem k d) ∧
    (wordMoved c mem k d).stored = d.stored := by
  have last : (d.ch k).loadNextDescriptorWhenDone = false := by rw [moving.loadNext, ends]; rfl
  rw [wordMoved_whole moving whole]
  unfold channelTerminateTransfer
  rw [if_neg (by rw [last]; decide), if_neg (by rw [moving.free.ars]; decide)]
  dsimp only
  rw [if_pos rfl]
  constructor
  · refine interrupt_finished ⟨?_, ?_, ?_, quiet⟩ (by decide) (by decide)
    all_goals rw [setCh_same]
    · exact (finished_csr _).1
    · exact (finished_csr _).2.1
    · exact (finished_csr _).2.2
  · exact interrupt_stored

/-- The next descriptor is loaded behind the last word. -/
theorem wordMoved_loads {desc : Word} (moving : Moving p j (d.ch k)) (whole : j = p.segment.words) (goes : p.next = some desc)
    (out : DescriptorOutside c desc) (words : 0 < (p.load (seen mem d.stored) desc).segment.words) :
    Moving (p.load (seen mem d.stored) desc) 0 ((wordMoved c mem k d).ch k) := by
  have place := moving.desc desc goes
  have goesOn : (d.ch k).loadNextDescriptorWhenDone = true := by rw [moving.loadNext, goes]; rfl
  have ready := loaded_ready (seen mem d.stored) moving.free moving.busy moving.am0 moving.am1
  rw [place] at ready
  rw [wordMoved_whole moving whole]
  unfold channelTerminateTransfer
  rw [if_pos goesOn, loadDescriptor_outside (by rw [place]; exact out)]
  exact initTransfer_moving (by rw [setCh_same]; exact ready) words

theorem wordMoved_asks (moving : Moving p j (d.ch k)) (goes : j < p.segment.words ∨ j = p.segment.words ∧ p.next.isSome) :
    .schedAdd (.channelClock k) 1 ∈ (wordMoved c mem k d).effects := by
  rcases goes with more | ⟨whole, next⟩
  · rw [wordMoved_goes moving more]
    exact List.mem_append.mpr (.inr (List.mem_singleton.mpr rfl))
  · rw [wordMoved_whole moving whole]
    unfold channelTerminateTransfer
    rw [if_pos (by rw [moving.loadNext]; exact next)]
    exact List.mem_append.mpr (.inr (List.mem_singleton.mpr rfl))

theorem wordMoved_stored (moving : Moving p j (d.ch k)) (sound : p.Sound c) (most : j ≤ p.segment.words)
    (quiet : .schedAdd (.channelClock k) 1 ∉ d.effects) : (wordMoved c mem k d).stored = d.stored := by
  rcases Nat.lt_or_eq_of_le most with more | whole
  · rw [wordMoved_goes moving more]
    rfl
  · cases goes : p.next with
    | none => exact (wordMoved_ends moving whole goes quiet).2
    | some desc =>
      have out := sound.next desc goes
      rw [← moving.desc desc goes] at out
      rw [wordMoved_whole moving whole]
      unfold channelTerminateTransfer
      rw [if_pos (by rw [moving.loadNext, goes]; rfl), loadDescriptor_outside out]
      rfl

theorem word_moved (moving : Moving p j (d.ch k)) (inside : j < p.segment.words) (sound : p.Sound c) (fresh : d.stored = [])
    (quiet : .schedAdd (.channelClock k) 1 ∉ d.effects) :
    ∃ d', (moveWord c mem k d).map (wordMoved c mem k) = some d' ∧ WordMoved p mem j k d' := by
  rw [moveWord_sound moving inside sound fresh]
  set v : Dev := ({ d with stored := [p.segment.move mem j] } : Dev).setCh k (advance (d.ch k))
  have after : Moving p (j + 1) (v.ch k) := by
    rw [setCh_same]
    exact moving.advance inside
  refine ⟨_, rfl, wordMoved_stored after sound inside quiet, ?_, ?_, ?_, ?_⟩
  · intro more
    rw [wordMoved_goes after more]
    exact after
  · intro whole ends
    exact (wordMoved_ends after whole ends quiet).1
  · intro whole desc goes words
    exact wordMoved_loads after whole goes (sound.next desc goes) words
  · intro goes
    refine wordMoved_asks after ?_
    rcases Nat.lt_or_eq_of_le inside with more | whole
    · exact .inl more
    · exact .inr ⟨whole, goes.resolve_left (by omega)⟩

/-! ### A channel that is switched on -/

/-- A channel that has been switched on while it was idle. -/
structure SwitchedOn (channel : Channel) : Prop where
  free : Free channel.csr
  busy : testFlag channel.csr busy = false

/-- The first descriptor of a channel is in the memory, where it has one. -/
def FirstOutside (c : Config) (channel : Channel) : Prop :=
  testFlag channel.csr useEd = true → DescriptorOutside c (channel.desc.setWidth 32)

theorem startedCsr_busy (csr : ULong) : testFlag (setFlag (clearFlag (clearFlag csr done) err) busy) busy = true := by
  rw [testFlag_setFlag _ (by decide)]
  simp

theorem startedCsr {flag : Nat} (others : flag ≠ done ∧ flag ≠ err ∧ flag ≠ busy) (csr : ULong) :
    testFlag (setFlag (clearFlag (clearFlag csr done) err) busy) flag = testFlag csr flag := by
  rw [testFlag_setFlag _ (by decide), testFlag_clearFlag, testFlag_clearFlag, decide_eq_true others.1, decide_eq_true others.2.1,
    decide_eq_false others.2.2]
  simp

theorem Free.started {csr : ULong} (free : Free csr) : Free (setFlag (clearFlag (clearFlag csr done) err) busy) where
  stop := (startedCsr (by decide) csr).trans free.stop
  mode := (startedCsr (by decide) csr).trans free.mode
  ars := (startedCsr (by decide) csr).trans free.ars

/-- The first clock initializes the transfer of the first plan. -/
theorem beginTransfer_ready (mem : Word → Word) (on : SwitchedOn (d.ch k)) (out : FirstOutside c (d.ch k)) :
    ∃ v, beginTransfer c mem k d = initTransfer k v ∧ Ready ((d.ch k).firstPlan (seen mem d.stored)) (v.ch k) ∧ v.stored = d.stored ∧
      v.effects = d.effects := by
  set started : Dev := d.setCsr k (setFlag (clearFlag (clearFlag (d.ch k).csr done) err) busy) with is
  have channel : started.ch k = { d.ch k with csr := setFlag (clearFlag (clearFlag (d.ch k).csr done) err) busy } := setCh_same k _ d
  have uses : testFlag (started.ch k).csr useEd = testFlag (d.ch k).csr useEd := by
    rw [channel]
    exact startedCsr (by decide) _
  have free : Free (started.ch k).csr := by
    rw [channel]
    exact on.free.started
  have busy' : testFlag (started.ch k).csr busy = true := by
    rw [channel]
    exact startedCsr_busy _
  unfold beginTransfer Channel.firstPlan
  dsimp only
  rw [← is, uses]
  by_cases ed : testFlag (d.ch k).csr useEd = true
  · rw [if_pos ed, if_pos ed]
    have desc : (started.ch k).desc = (d.ch k).desc := by rw [channel]
    refine ⟨_, rfl, ?_⟩
    rw [loadDescriptor_outside (by rw [desc]; exact out ed), setCh_same, ← desc]
    exact ⟨loaded_ready _ free busy' (congrArg (fun channel => channel.am0.setWidth 32) channel)
      (congrArg (fun channel => channel.am1.setWidth 32) channel),
      rfl, rfl⟩
  · rw [if_neg ed, if_neg ed]
    refine ⟨_, rfl, ?_, rfl, rfl⟩
    rw [setCh_same]
    refine ⟨free, busy', ?_, rfl, nofun, ?_, ?_⟩
    · rw [channel]
      unfold Channel.plan
      dsimp only
      rw [startedCsr (by decide), startedCsr (by decide)]
    · exact congrArg (fun channel => channel.am0.setWidth 32) channel
    · exact congrArg (fun channel => channel.am1.setWidth 32) channel

/-! ### The clocks of a transfer -/

section
variable {t : Tick k}

theorem entered_channel : (t.others d).entered.ch k = d.ch k := t.apart d

theorem channelClock_free (free : Free (d.ch k).csr) :
    channelClock c mem k d =
      if testFlag (d.ch k).csr busy then (moveWord c mem k d).map (wordMoved c mem k)
      else
        let d := beginTransfer c mem k d
        if channelNdI (d.ch k) then some (channelTerminateTransfer c mem k false d)
          else (moveWord c mem k d).map (wordMoved c mem k) := by
  unfold channelClock
  rw [if_neg (by rw [free.stop]; decide), if_neg (by rw [free.mode, Bool.false_and]; decide)]

theorem clock_moving (moving : Moving p j (d.ch k)) (inside : j < p.segment.words) (sound : p.Sound c) :
    ∃ d', clock c k t d = some d' ∧ WordMoved p t.mem j k d' := by
  have here : Moving p j ((t.others d).entered.ch k) := by
    rw [entered_channel]
    exact moving
  unfold clock
  rw [channelClock_free here.free, if_pos here.busy]
  exact word_moved here inside sound rfl List.not_mem_nil

theorem clock_first (on : SwitchedOn (d.ch k)) (out : FirstOutside c (d.ch k)) (sound : ((d.ch k).firstPlan t.mem).Sound c) :
    ∃ d', clock c k t d = some d' ∧ WordMoved ((d.ch k).firstPlan t.mem) t.mem 0 k d' := by
  rw [← entered_channel (t := t)] at on out sound ⊢
  obtain ⟨v, begins, ready, stored, effects⟩ := beginTransfer_ready t.mem on out
  have moving := initTransfer_moving ready sound.words
  unfold clock
  rw [channelClock_free on.free, if_neg (by rw [on.busy]; decide)]
  dsimp only
  rw [begins, moving.free.noNdI, if_neg (by decide)]
  exact word_moved moving sound.words sound stored
    (by rw [show (initTransfer k v).effects = v.effects from rfl, effects]; exact List.not_mem_nil)

end

section
variable {ticks : Nat → Tick k} {i : Nat}

theorem clocks_succ {d' : Dev} (asked : .schedAdd (.channelClock k) 1 ∈ d.effects) (ran : clock c k (ticks i) d = some d') (n : Nat) :
    clocks c k ticks (n + 1) i d = (clocks c k ticks n (i + 1) d').map fun r => (d'.stored.reverse ++ r.1, r.2) := by
  rw [clocks, if_pos asked, ran]
  rfl

/-- The clocks from the `j`-th word of a segment to its last. -/
theorem segment_moved (sound : p.Sound c) (asked : .schedAdd (.channelClock k) 1 ∈ d.effects) {m : Nat}
    (rest : j + (m + 1) = p.segment.words)
    (first : ∃ d', clock c k (ticks (i + j)) d = some d' ∧ WordMoved p (ticks (i + j)).mem j k d') :
    ∃ d', WordMoved p (ticks (i + (j + m))).mem (j + m) k d' ∧ ∀ n, clocks c k ticks (m + 1 + n) (i + j) d =
      (clocks c k ticks n (i + p.segment.words) d').map fun r =>
        (((List.range' j (m + 1)).map fun q => p.segment.move (ticks (i + q)).mem q) ++ r.1, r.2) := by
  obtain ⟨d', ran, moved⟩ := first
  induction m generalizing j d d' with
  | zero =>
    refine ⟨d', moved, fun n => ?_⟩
    rw [Nat.zero_add, Nat.add_comm 1 n, clocks_succ asked ran, moved.stored, Nat.add_assoc i j 1, rest]
    rfl
  | succ m ih =>
    have more : j + 1 < p.segment.words := by omega
    obtain ⟨next, ranNext, movedNext⟩ := clock_moving (t := ticks (i + (j + 1))) (moved.moving more) more sound
    obtain ⟨last, movedLast, runs⟩ := ih (moved.asks (.inl more)) (by omega) next ranNext movedNext
    refine ⟨last, by rw [show j + (m + 1) = j + 1 + m by omega]; exact movedLast, fun n => ?_⟩
    rw [show m + 1 + 1 + n = m + 1 + n + 1 by omega, clocks_succ asked ran, Nat.add_assoc i j 1, runs n, moved.stored, Option.map_map]
    rfl

theorem Planned.allows {allowed : Plan → Prop} {mem : Nat → Word → Word} {moves : List (Word × Word)}
    (planned : Planned allowed mem i p moves) :
    allowed p := by
  cases planned <;> assumption

/-- A transfer of plans that are sound moves their words and ends. -/
theorem planned_moved {moves : List (Word × Word)} (planned : Planned (Plan.Sound c) (fun i => (ticks i).mem) i p moves)
    (asked : .schedAdd (.channelClock k) 1 ∈ d.effects) (first : ∃ d',
      clock c k (ticks i) d = some d' ∧ WordMoved p (ticks i).mem 0 k d') :
    ∃ n d', clocks c k ticks n i d = some (moves, d') ∧ Finished k d' := by
  induction planned generalizing d with
  | @last i p sound ends =>
    obtain ⟨m, words⟩ := Nat.exists_eq_succ_of_ne_zero (Nat.ne_of_gt sound.words)
    obtain ⟨d', moved, runs⟩ := segment_moved (i := i) (j := 0) sound asked (m := m) (by omega) first
    refine ⟨m + 1, d', ?_, moved.finished (by omega) ends⟩
    have run := runs 0
    simp only [Nat.add_zero] at run
    rw [run]
    unfold Segment.moves
    rw [List.range_eq_range', words]
    exact congrArg some (Prod.ext (List.append_nil _) rfl)
  | @next i p desc moves sound goes later ih =>
    obtain ⟨m, words⟩ := Nat.exists_eq_succ_of_ne_zero (Nat.ne_of_gt sound.words)
    obtain ⟨mid, moved, runs⟩ := segment_moved (i := i) (j := 0) sound asked (m := m) (by omega) first
    have whole : 0 + m + 1 = p.segment.words := by omega
    have leaves : p.segment.leaves (fun j => (ticks (i + j)).mem) =
        seen (ticks (i + (0 + m))).mem [p.segment.move (ticks (i + (0 + m))).mem (0 + m)] := by
      unfold Segment.leaves
      rw [show p.segment.words - 1 = 0 + m by omega]
      rfl
    rw [leaves] at later ih
    have moving := moved.loaded whole desc goes later.allows.words
    obtain ⟨n, d', ran, finished⟩ := ih (moved.asks (.inr (by rw [goes]; rfl))) (clock_moving moving later.allows.words later.allows)
    refine ⟨m + 1 + n, d', ?_, finished⟩
    have run := runs n
    simp only [Nat.add_zero] at run
    rw [run, ran]
    unfold Segment.moves
    rw [List.range_eq_range', words]
    rfl

end

/-! ### A plan of no words -/

theorem initTransfer_noWords (ready : Ready p (d.ch k)) (none' : p.segment.words = 0) : ((initTransfer k d).ch k).chunkSize = 0 := by
  have total : getField (d.ch k).sz totSzOffset totSzWidth = 0 := by
    apply BitVec.eq_of_toNat_eq
    rw [getField_totSz, ← show p.segment.words = (d.ch k).sz.toNat % 2 ^ 12 from congrArg Segment.words ready.segment.symm, none']
    rfl
  unfold initTransfer
  rw [setCh_same]
  dsimp only
  rw [total]
  split
  · rfl
  · next chunk => exact absurd (BitVec.le_zero_iff.mp (BitVec.not_lt.mp fun some => chunk (.inr some))) fun none => chunk (.inl none)

/-- The first clock of a plan of no words divides by zero. -/
theorem clock_noWords {t : Tick k} (on : SwitchedOn (d.ch k)) (out : FirstOutside c (d.ch k))
    (none' : ((d.ch k).firstPlan t.mem).segment.words = 0) (source : Outside c ((d.ch k).firstPlan t.mem).segment.source)
    (destination : Outside c ((d.ch k).firstPlan t.mem).segment.destination) :
    clock c k t d = none := by
  rw [← entered_channel (t := t)] at on out none' source destination
  obtain ⟨v, begins, ready, -, -⟩ := beginTransfer_ready t.mem on out
  have chunk := initTransfer_noWords ready none'
  have first := congrArg Segment.source ready.segment
  have last := congrArg Segment.destination ready.segment
  have ends : ((initTransfer k v).ch k).source = (v.ch k).plan.segment.source := by
    unfold initTransfer
    rw [setCh_same]
    rfl
  have ends' : ((initTransfer k v).ch k).destination = (v.ch k).plan.segment.destination := by
    unfold initTransfer
    rw [setCh_same]
    rfl
  have free : Free ((initTransfer k v).ch k).csr := by
    unfold initTransfer
    rw [setCh_same]
    exact ready.free
  unfold clock
  rw [channelClock_free on.free, if_neg (by rw [on.busy]; decide)]
  dsimp only
  rw [begins, free.noNdI, if_neg (by decide)]
  unfold moveWord
  rw [evalDirect32_outside (by rw [ends, first]; exact source)]
  dsimp only
  rw [setDirect32_outside (by rw [ends', last]; exact destination)]
  dsimp only
  rw [if_pos chunk]
  rfl

theorem noClock_unfinished {ticks : Nat → Tick k} {n : Nat} {moves : List (Word × Word)} {d' : Dev}
    (asked : .schedAdd (.channelClock k) 1 ∈ d.effects)
    (stuck : clock c k (ticks 0) d = none) (ran : clocks c k ticks n 0 d = some (moves, d')) : ¬ Finished k d' := by
  intro finished
  cases n with
  | zero =>
    cases ran
    exact finished.idle asked
  | succ n =>
    rw [clocks, if_pos asked, stuck] at ran
    cases ran

/-! ### A channel that is enabled -/

/-- The clocks of a channel move the words that it is programmed to move, and then it ends. -/
def MovesProgrammed (c : Config) (k : Nat) (ticks : Nat → Tick k) (d : Dev) : Prop :=
  ∃ moves n d', Planned (fun _ => True) (fun i => (ticks i).mem) 0 ((d.ch k).firstPlan (ticks 0).mem) moves ∧
    clocks c k ticks n 0 d = some (moves, d') ∧ Finished k d'

/-- An idle channel is enabled by a value for its CSR. -/
structure Enables (k : Nat) (value : ULong) (d : Dev) : Prop where
  idle : testFlag (d.ch k).csr chEn = false
  busy : testFlag (d.ch k).csr busy = false
  chEn : testFlag value chEn = true
  free : Free value

/-- Each plan has words, and they and the descriptors are in the memory. -/
def SoundlyProgrammed (c : Config) (k : Nat) (ticks : Nat → Tick k) (d : Dev) : Prop :=
  FirstOutside c (d.ch k) ∧ ∃ moves, Planned (Plan.Sound c) (fun i => (ticks i).mem) 0 ((d.ch k).firstPlan (ticks 0).mem) moves

theorem writeChCsr_channel (k : Nat) (value : ULong) (d : Dev) :
    (writeChCsr k value d).ch k = { d.ch k with csr := ((d.ch k).csr &&& ~~~chCsrWriteMask) ||| (value &&& chCsrWriteMask) } := by
  unfold writeChCsr
  dsimp only
  split
  · exact setCh_same k _ _
  · split <;> exact setCh_same k _ _

theorem writeChCsr_flag {flag : Nat} (inside : flag < 64) (csr value : ULong) :
    testFlag ((csr &&& ~~~chCsrWriteMask) ||| (value &&& chCsrWriteMask)) flag =
      if chCsrWriteMask.getLsbD flag then testFlag value flag else testFlag csr flag := by
  unfold testFlag
  rw [BitVec.getLsbD_or, BitVec.getLsbD_and, BitVec.getLsbD_and, BitVec.getLsbD_not, decide_eq_true inside]
  cases chCsrWriteMask.getLsbD flag <;> simp

theorem Enables.switchedOn {value : ULong} (enables : Enables k value d) : SwitchedOn ((writeChCsr k value d).ch k) := by
  rw [writeChCsr_channel]
  refine ⟨⟨?_, ?_, ?_⟩, ?_⟩
  · exact (writeChCsr_flag (by decide) _ _).trans enables.free.stop
  · exact (writeChCsr_flag (by decide) _ _).trans enables.free.mode
  · exact (writeChCsr_flag (by decide) _ _).trans enables.free.ars
  · exact (writeChCsr_flag (by decide) _ _).trans enables.busy

theorem Enables.asks {value : ULong} (enables : Enables k value d) : .schedAdd (.channelClock k) 1 ∈ (writeChCsr k value d).effects := by
  unfold writeChCsr
  dsimp only
  rw [if_pos (by rw [enables.idle, enables.chEn]; rfl)]
  exact List.mem_append.mpr (.inr (List.mem_singleton.mpr rfl))

theorem Planned.mono {allowed allowed' : Plan → Prop} {mem : Nat → Word → Word} {i : Nat} {moves : List (Word × Word)}
    (all : ∀ p, allowed p → allowed' p) (planned : Planned allowed mem i p moves) : Planned allowed' mem i p moves := by
  induction planned with
  | last allows ends => exact .last (all _ allows) ends
  | next allows goes _ ih => exact .next (all _ allows) goes ih

/-- An idle channel that is enabled moves what it is programmed to move, where each plan has words. -/
theorem programmed_moved {value : ULong} {ticks : Nat → Tick k} (enables : Enables k value d)
    (sound : SoundlyProgrammed c k ticks (writeChCsr k value d)) : MovesProgrammed c k ticks (writeChCsr k value d) := by
  obtain ⟨out, moves, planned⟩ := sound
  have first := clock_first (t := ticks 0) enables.switchedOn out planned.allows
  obtain ⟨n, d', ran, finished⟩ := planned_moved planned enables.asks first
  exact ⟨moves, n, d', planned.mono fun _ _ => trivial, ran, finished⟩

/-- The ticks of a channel that is alone, in a memory in which each word is its own address. -/
def aloneTicks (k : Nat) : Nat → Tick k := fun _ => ⟨id, id, fun _ => rfl⟩

theorem programmed_moved_pair : MovesProgrammed ⟨0x9a000000⟩ 0 (aloneTicks 0)
    (writeChCsr 0 0x19 (writeChannel 0 0x10 0x2000 (writeChannel 0 0x08 0x1000 (writeChannel 0 0x04 2 (reset default))))) := by
  refine programmed_moved ⟨by decide, by decide, by decide, by decide, by decide, by decide⟩ ⟨nofun, _,
    .last ⟨by decide, ?_, ?_, nofun⟩ rfl⟩
  · decide +kernel
  · decide +kernel

/-- A size of no words is programmed, and the channel divides by zero when it is enabled. -/
theorem noWords_stuck : ¬ ∀ (c : Config) (k : Nat) (value : ULong) (ticks : Nat → Tick k) (d : Dev), Enables k value d →
    Outside c ((d.ch k).a0.setWidth 32) → Outside c ((d.ch k).a1.setWidth 32) → testFlag value useEd = false →
    MovesProgrammed c k ticks (writeChCsr k value d) := by
  intro claim
  have enables : Enables 0 1 (reset default) := ⟨by decide, by decide, by decide, by decide, by decide, by decide⟩
  obtain ⟨moves, n, d', -, ran, finished⟩ :=
    claim ⟨0x9a000000⟩ 0 1 (aloneTicks 0) (reset default) enables (by decide) (by decide) (by decide)
  exact noClock_unfinished enables.asks (clock_noWords enables.switchedOn nofun (by decide) (by decide) (by decide)) ran finished

end

end Or1ksim.Dma
