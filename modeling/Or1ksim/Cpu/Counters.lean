import Or1ksim.Cpu.BusErrors
import Or1ksim.Cpu.Peek
import Or1ksim.Cpu.Watchpoints

/-!
# Performance counters

`pcu_count_event` asks `SR` for the mode. The entry of an exception, earlier in the same access, has
switched it to that of the supervisor by then.
-/

namespace Or1ksim.Cpu

variable {δ : Type}

/-! ### Events -/

/-- What the unit counts. -/
inductive PcuEvent where
  | fetch | load | store | dcMiss | icMiss | dtlbMiss | itlbMiss
  deriving DecidableEq, Repr

def PcuEvent.mask : PcuEvent → Word
  | .fetch => pcmrIf
  | .load => pcmrLa
  | .store => pcmrSa
  | .dcMiss => pcmrDcm
  | .icMiss => pcmrIcm
  | .dtlbMiss => pcmrDtlbm
  | .itlbMiss => pcmrItlbm

def supervisor (s : Machine δ) : Bool := has s.sr srSm

/-- A register `PCMR` selects an event of an access in a mode. -/
def selects (pcmr : Word) (mode : Bool) (e : PcuEvent) : Bool :=
  has pcmr e.mask && has pcmr (if mode then pcmrCism else pcmrCium)

theorem exceptSr_supervisor (sr : Word) : has (exceptSr sr) srSm = true := by
  have bit : (exceptSr sr).getLsbD 0 = true := by
    unfold exceptSr
    simp [srSm, srOve, srIee, srTee, srDme, srIme]
  refine decide_eq_true fun none => ?_
  have bits := congrArg (BitVec.getLsbD · 0) none
  simp only [BitVec.getLsbD_and, bit] at bits
  exact absurd bits (by decide)

/-- What an event adds to a counter. -/
def tally (s : Machine δ) (mode : Bool) (e : PcuEvent) (i : Nat) : Nat := if selects (s.sprs (sprPcmr i)) mode e then 1 else 0

/-- What a counter is to count of events with the modes of their accesses: those that `PCMR` selects, in
the mode of the supervisor if `CISM` is set, and in user mode if `CIUM` is set. -/
def toCount (pcmr : Word) (events : List (Bool × PcuEvent)) : Nat :=
  (if has pcmr pcmrCism then events.countP fun e => e.1 && has pcmr e.2.mask else 0) +
    if has pcmr pcmrCium then events.countP fun e => !e.1 && has pcmr e.2.mask else 0

theorem pcuCounts_eq (e : PcuEvent) (s : Machine δ) (i : Nat) :
    pcuCounts e.mask s i = selects (s.sprs (sprPcmr i)) (supervisor s) e := by
  unfold pcuCounts selects supervisor
  have mask : has e.mask (s.sprs (sprPcmr i)) = has (s.sprs (sprPcmr i)) e.mask := by rw [has, has, BitVec.and_comm]
  dsimp only
  rw [mask]
  cases has s.sr srSm <;> rfl

theorem toCount_eq (pcmr : Word) (events : List (Bool × PcuEvent)) :
    toCount pcmr events = events.countP fun e => selects pcmr e.1 e.2 := by
  induction events with
  | nil =>
    unfold toCount
    simp
  | cons e events ih =>
    obtain ⟨mode, e⟩ := e
    rw [List.countP_cons, ← ih]
    unfold toCount selects
    rw [List.countP_cons, List.countP_cons]
    generalize events.countP (fun e => e.1 && has pcmr e.2.mask) = above
    generalize events.countP (fun e => !e.1 && has pcmr e.2.mask) = below
    cases mode with
    | false =>
      simp only [Bool.false_and, Bool.not_false, Bool.true_and, Bool.false_eq_true, if_false]
      cases has pcmr e.mask <;> cases has pcmr pcmrCium <;> simp [Nat.add_assoc]
    | true =>
      simp only [Bool.not_true, Bool.false_and, Bool.true_and, if_true, Bool.false_eq_true, if_false]
      cases has pcmr e.mask <;> cases has pcmr pcmrCism <;> simp [Nat.add_right_comm]

/-- The events of an access with its mode. -/
def inMode (mode : Bool) (events : List PcuEvent) : List (Bool × PcuEvent) := events.map fun e => (mode, e)

theorem toCount_none (pcmr : Word) (mode : Bool) : toCount pcmr (inMode mode []) = 0 := toCount_eq _ _

theorem toCount_one (s : Machine δ) (mode : Bool) (e : PcuEvent) (i : Nat) :
    toCount (s.sprs (sprPcmr i)) (inMode mode [e]) = tally s mode e i := by
  rw [toCount_eq]
  exact List.countP_singleton

theorem toCount_append (pcmr : Word) (first second : List (Bool × PcuEvent)) :
    toCount pcmr (first ++ second) = toCount pcmr first + toCount pcmr second := by
  rw [toCount_eq, toCount_eq, toCount_eq, List.countP_append]

/-! ### The counters -/

theorem sprPccr_inj {i j : Nat} (left : i < 8) (right : j < 8) (same : sprPccr i = sprPccr j) : i = j := by
  unfold sprPccr at same
  have numbers := congrArg BitVec.toNat (BitVec.add_right_inj _ |>.mp same)
  rw [BitVec.toNat_ofNat, BitVec.toNat_ofNat] at numbers
  omega

theorem sprPcmr_ne {i j : Nat} (left : i < 8) (right : j < 8) : sprPcmr i ≠ sprPccr j := by
  intro same
  have numbers := congrArg BitVec.toNat same
  unfold sprPcmr sprPccr at numbers
  rw [BitVec.toNat_add, BitVec.toNat_add, BitVec.toNat_ofNat, BitVec.toNat_ofNat] at numbers
  have low : (0x3808 : SprNo).toNat = 0x3808 := rfl
  have lower : (0x3800 : SprNo).toNat = 0x3800 := rfl
  omega

theorem pcuSpr_other {r : SprNo} (other : ∀ k < 16, r ≠ 0x3800 + BitVec.ofNat 16 k) {i : Nat} (small : i < 8) :
    sprPcmr i ≠ r ∧ sprPccr i ≠ r := by
  constructor
  · intro same
    refine other (i + 8) (by omega) (same.symm.trans ?_)
    unfold sprPcmr
    rw [Nat.add_comm, BitVec.ofNat_add, ← BitVec.add_assoc]
    rfl
  · exact fun same => other i (by omega) same.symm

theorem sprPcmr_kept {i : Nat} (small : i < 8) : sprPcmr i ≠ sprSr ∧ openSpr (sprPcmr i) = false ∧ tlbmrSpr (sprPcmr i) = false ∧
    hardwareSpr (sprPcmr i) = false := by
  interval_cases i <;> decide

theorem pcuSpr_entry {i : Nat} (small : i < 8) : sprPcmr i ∉ entrySprs ∧ sprPccr i ∉ entrySprs := by
  interval_cases i <;> decide

theorem sprPccr_watch {i : Nat} (small : i < 8) : sprPccr i ≠ sprDwcr0 ∧ sprPccr i ≠ sprDwcr1 ∧ sprPccr i ≠ sprDmr2 := by
  interval_cases i <;> decide

section
variable {s t u : Machine δ}

/-- The core enters an exception in the mode of the supervisor. -/
theorem exceptHandle_supervisor {e : Exception} (ea : Word) (left : diverted s e = false) : supervisor (exceptHandle e ea s) = true := by
  have asked : (debugIgnoreException e { s with loadlockActive := false }).1 = false := left
  have entered (n : Machine δ) : (enterException e ea n).sr = exceptSr n.sr := by
    unfold enterException
    cases exceptEpcr e ea n.pc n.delayInsn <;> rfl
  unfold supervisor exceptHandle
  dsimp only
  rw [if_neg (by rw [asked]; decide), entered]
  exact exceptSr_supervisor _

/-- A call of `pcu_count_event`. -/
theorem pcuCountEvent_sprs (event : Word) (is : List Nat) (apart : is.Nodup) (small : ∀ i ∈ is, i < 8) (s : Machine δ) :
    let after := is.foldl (fun m i => if pcuCounts event m i then setSpr (sprPccr i) (m.sprs (sprPccr i) + 1) m else m) s
    (∀ r, (∀ i ∈ is, r ≠ sprPccr i) → after.sprs r = s.sprs r) ∧ after.entries = s.entries ∧
      ∀ i ∈ is, after.sprs (sprPccr i) = s.sprs (sprPccr i) + if pcuCounts event s i then 1 else 0 := by
  induction is generalizing s with
  | nil => exact ⟨fun _ _ => rfl, rfl, nofun⟩
  | cons j is ih =>
    obtain ⟨absent, apart⟩ := List.nodup_cons.mp apart
    have here := small j List.mem_cons_self
    let next := if pcuCounts event s j then setSpr (sprPccr j) (s.sprs (sprPccr j) + 1) s else s
    obtain ⟨others, entries, counters⟩ := ih apart (fun i member => small i (List.mem_cons_of_mem _ member)) next
    have kept : ∀ r, r ≠ sprPccr j → next.sprs r = s.sprs r := by
      intro r other
      unfold next
      split
      · exact setSpr_there other _ _
      · rfl
    have same : ∀ i < 8, pcuCounts event next i = pcuCounts event s i := by
      intro i inside
      unfold pcuCounts Machine.sr
      rw [kept _ (sprPcmr_ne inside here), kept sprSr (sprPccr_free here).1.symm]
    refine ⟨fun r other => ?_, entries.trans ?_, fun i member => ?_⟩
    · exact (others r fun i member => other i (List.mem_cons_of_mem _ member)).trans (kept r (other j List.mem_cons_self))
    · unfold next
      split <;> rfl
    · rcases List.mem_cons.mp member with rfl | later
      · refine (others _ fun k member equal => ?_).trans ?_
        · have inside := small k (List.mem_cons_of_mem _ member)
          exact absent (sprPccr_inj here inside equal ▸ member)
        · unfold next
          split
          · exact setSpr_here _ _ _
          · exact (BitVec.add_zero _).symm
      · have inside := small i (List.mem_cons_of_mem _ later)
        have different : sprPccr i ≠ sprPccr j := fun equal => absent (sprPccr_inj inside here equal ▸ later)
        rw [List.foldl_cons]
        refine (counters i later).trans ?_
        rw [kept _ different, same i inside]

/-! ### What counts -/

/-- How far the counters have moved. Only the entry of an exception switches the mode, and to that of the
supervisor. -/
structure Moved (n : Nat → Nat) (s t : Machine δ) : Prop where
  pcmr : ∀ i < 8, t.sprs (sprPcmr i) = s.sprs (sprPcmr i)
  pccr : ∀ i < 8, t.sprs (sprPccr i) = s.sprs (sprPccr i) + BitVec.ofNat 32 (n i)
  mode : t.entries = s.entries ∧ supervisor t = supervisor s ∨ s.entries.length < t.entries.length ∧ supervisor t = true

/-- Nothing was counted. -/
abbrev Uncounted (s t : Machine δ) : Prop := Moved (fun _ => 0) s t

namespace Moved

theorem trans {n k : Nat → Nat} (first : Moved n s t) (second : Moved k t u) : Moved (fun i => n i + k i) s u where
  pcmr i inside := (second.pcmr i inside).trans (first.pcmr i inside)
  pccr i inside := by
    rw [second.pccr i inside, first.pccr i inside, BitVec.ofNat_add, BitVec.add_assoc]
  mode := by
    rcases first.mode with ⟨entries, mode⟩ | ⟨longer, mode⟩ <;> rcases second.mode with ⟨entries', mode'⟩ | ⟨longer', mode'⟩
    · exact .inl ⟨entries'.trans entries, mode'.trans mode⟩
    · exact .inr ⟨entries ▸ longer', mode'⟩
    · exact .inr ⟨entries' ▸ longer, mode'.trans mode⟩
    · exact .inr ⟨Nat.lt_trans longer longer', mode'⟩

theorem idle {n : Nat → Nat} (first : Uncounted s t) (later : Moved n t u) : Moved n s u := by
  simpa only [Nat.zero_add] using first.trans later

theorem rest {n : Nat → Nat} (first : Moved n s t) (later : Uncounted t u) : Moved n s u := first.trans later

theorem congr {n k : Nat → Nat} (moved : Moved n s t) (same : ∀ i < 8, n i = k i) : Moved k s t :=
  ⟨moved.pcmr, fun i inside => same i inside ▸ moved.pccr i inside, moved.mode⟩

/-- The mode is the same as long as no exception was entered. -/
theorem same_mode {n : Nat → Nat} (moved : Moved n s t) (entries : t.entries = s.entries) : supervisor t = supervisor s := by
  rcases moved.mode with ⟨_, mode⟩ | ⟨longer, _⟩
  · exact mode
  · rw [entries] at longer
    exact absurd longer (Nat.lt_irrefl _)

theorem of_kept (sprs : ∀ i < 8, t.sprs (sprPcmr i) = s.sprs (sprPcmr i) ∧ t.sprs (sprPccr i) = s.sprs (sprPccr i))
    (sr : supervisor t = supervisor s) (entries : t.entries = s.entries) : Uncounted s t :=
  ⟨fun i inside => (sprs i inside).1, fun i inside => (sprs i inside).2.trans (BitVec.add_zero _).symm, .inl ⟨entries, sr⟩⟩

theorem of_same (sprs : t.sprs = s.sprs) (entries : t.entries = s.entries) : Uncounted s t :=
  of_kept (fun _ _ => ⟨congrFun sprs _, congrFun sprs _⟩) (congrArg (has · srSm) (congrFun sprs sprSr)) entries

theorem refl (s : Machine δ) : Uncounted s s := of_same rfl rfl

theorem setSpr (s : Machine δ) {r : SprNo} (v : Word) (other : ∀ k < 16, r ≠ 0x3800 + BitVec.ofNat 16 k) (sr : r ≠ sprSr) :
    Uncounted s (setSpr r v s) := by
  refine of_kept (fun i inside => ?_) ?_ rfl
  · obtain ⟨pcmr, pccr⟩ := pcuSpr_other other inside
    exact ⟨setSpr_there pcmr _ _, setSpr_there pccr _ _⟩
  · exact congrArg (has · srSm) (setSpr_there sr.symm v s)

theorem pcuCountEvent (e : PcuEvent) (s : Machine δ) : Moved (tally s (supervisor s) e) s (pcuCountEvent e.mask s) := by
  obtain ⟨others, entries, counters⟩ := pcuCountEvent_sprs e.mask (List.range 8) List.nodup_range (fun i => List.mem_range.mp) s
  have small {i : Nat} (member : i ∈ List.range 8) : i < 8 := List.mem_range.mp member
  refine ⟨fun i inside => others _ fun j member => sprPcmr_ne inside (small member), fun i inside => ?_, .inl ⟨entries, ?_⟩⟩
  · refine (counters i (List.mem_range.mpr inside)).trans ?_
    rw [pcuCounts_eq, tally]
    split <;> rfl
  · exact congrArg (has · srSm) (others sprSr fun j member => (sprPccr_free (small member)).1.symm)

theorem of_local (kept : Local s t) (counters : ∀ i < 8, t.sprs (sprPccr i) = s.sprs (sprPccr i)) : Uncounted s t := by
  refine of_kept (fun i inside => ⟨?_, counters i inside⟩) ?_ kept.entries
  · obtain ⟨sr, own, tlb, hardware⟩ := sprPcmr_kept inside
    exact kept.sprs.rest _ sr own tlb hardware
  · exact kept.sprs.bit (by decide)

theorem exceptHandle (e : Exception) (ea : Word) (s : Machine δ) : Uncounted s (exceptHandle e ea s) := by
  have sprs : ∀ i < 8, (Cpu.exceptHandle e ea s).sprs (sprPcmr i) = s.sprs (sprPcmr i) ∧
      (Cpu.exceptHandle e ea s).sprs (sprPccr i) = s.sprs (sprPccr i) := by
    intro i inside
    obtain ⟨pcmr, pccr⟩ := pcuSpr_entry inside
    exact ⟨exceptHandle_sprs e ea s pcmr, exceptHandle_sprs e ea s pccr⟩
  refine ⟨fun i inside => (sprs i inside).1, fun i inside => (sprs i inside).2.trans (BitVec.add_zero _).symm, ?_⟩
  rcases exceptHandle_cases e ea s with ⟨_, kept⟩ | ⟨left, _, entry, _, _, entries⟩
  · exact .inl ⟨kept.entries, kept.sprs.bit (by decide)⟩
  · refine .inr ⟨by rw [entries]; exact Nat.lt_succ_self _, ?_⟩
    exact exceptHandle_supervisor ea left

theorem touchTlb (mmu : Mmu) (side : Side) (set : Fin 128) (way : Fin 4) (s : Machine δ) :
    Uncounted s (touchTlb mmu side set way s) := by
  refine of_local (touchTlb_local mmu side set way s) fun i inside => ?_
  have apart : ∀ way, sprPccr i ≠ tlbmr side set way := by
    intro way same
    have free := (sprPccr_free inside).2.2.1
    rw [same, (tlbmr_is_tlbmrSpr side set way).1] at free
    cases free
  have aged : ∀ (ways : List (Fin 4)) (m : Machine δ),
      (ways.foldl (fun m i => Cpu.setSpr (tlbmr side set i) (decrementLru (m.sprs (tlbmr side set i))) m) m).sprs (sprPccr i) =
        m.sprs (sprPccr i) := by
    intro ways
    induction ways with
    | nil => exact fun _ => rfl
    | cons way ways ih => exact fun m => (ih _).trans (setSpr_there (apart way) _ _)
  exact (setSpr_there (apart way) _ _).trans (aged mmu.ways s)

theorem checkDebugUnit (c : Config δ) (action : DebugAction) (udata : Word) (s : Machine δ) :
    Uncounted s (checkDebugUnit c action udata s) := by
  refine of_local (checkDebugUnit_local c action udata s) fun i inside => ?_
  obtain ⟨zero, one, dmr2⟩ := sprPccr_watch inside
  unfold Cpu.checkDebugUnit
  split
  · show (calculateWatchpoints c action udata s).2.sprs (sprPccr i) = s.sprs (sprPccr i)
    exact others_after zero one dmr2
  · rfl

theorem schedAdd {job : Job} {time : Int} {a : Unit} (ran : schedAdd job time s = .ok (a, t)) : Uncounted s t := by
  unfold Cpu.schedAdd at ran
  split at ran
  · cases ran
  · cases ran
    exact of_same rfl rfl

theorem devEvent {c : Config δ} {e : DevEvent} {a : Unit} (ran : devEvent c e s = .ok (a, t)) : Uncounted s t := by
  cases e with
  | reportInterrupt line =>
    have woken : Uncounted s (wake s) := setSpr s _ (by decide) (by decide)
    have set : Uncounted (wake s) (Cpu.setSpr sprPicsr _ (wake s)) :=
      setSpr _ ((wake s).sprs sprPicsr ||| lineMask line) (by decide) (by decide)
    rcases reportInterrupt_cases ran with ⟨_, _, rfl⟩ | ⟨_, rfl⟩ | ⟨_, _, _, queued⟩ | ⟨_, _, _, rfl⟩
    · exact woken.trans (exceptHandle _ _ _)
    · exact woken
    · exact woken.trans (set.trans (schedAdd queued))
    · exact woken.trans set
  | clearInterrupt line =>
    cases ran
    exact setSpr _ _ (by decide) (by decide)
  | schedAdd job time => exact schedAdd ran
  | schedFindRemove job =>
    cases ran
    exact of_same rfl rfl
  | verifyMemoryarea addr =>
    cases ran
    exact of_same rfl rfl
  | simDone => cases ran

theorem devEvents {c : Config δ} {es : List DevEvent} {a : Unit} (ran : devEvents c es s = .ok (a, t)) : Uncounted s t := by
  induction es generalizing s with
  | nil =>
    cases ran
    exact refl _
  | cons e es ih =>
    obtain ⟨_, mid, first, rest⟩ := Programs.bind_ok ran
    exact (devEvent first).trans (ih rest)

theorem evalsimMem {c : Config δ} {w : Width} {memaddr vaddr : Word} {got : BitVec w.bits × Bool}
    (ran : evalsimMem c w memaddr vaddr s = .ok (got, t)) : Uncounted s t := by
  have looked : Uncounted s (verifyMemoryarea c memaddr s) := of_same rfl rfl
  rcases evalsimMem_cases ran with ⟨_, rfl, _⟩ | ⟨mem, _, ⟨_, _, rfl⟩ | ⟨f, _, events, _⟩⟩
  · exact looked.trans (exceptHandle _ _ _)
  · refine Moved.trans ?_ (exceptHandle _ _ _)
    exact of_same rfl rfl
  · refine Moved.trans ?_ (devEvents events)
    exact of_same rfl rfl

theorem setsimMem {c : Config δ} {w : Width} {memaddr vaddr : Word} {value : BitVec w.bits} {mapped : Bool}
    (ran : setsimMem c w memaddr vaddr value s = .ok (mapped, t)) : Uncounted s t := by
  have looked : Uncounted s (verifyMemoryarea c memaddr s) := of_same rfl rfl
  rcases setsimMem_cases ran with ⟨_, rfl, _⟩ | ⟨mem, _, ⟨_, _, rfl⟩ | ⟨f, _, events, _⟩⟩
  · exact looked.trans (exceptHandle _ _ _)
  · refine Moved.trans ?_ (exceptHandle _ _ _)
    exact of_same rfl rfl
  · refine Moved.trans ?_ (devEvents events)
    exact of_same rfl rfl

end Moved

/-- The operations of an access that count nothing. -/
def CountsNothing : Op → Prop
  | .view | .tlb .. | .touchTlb .. | .setDataCi _ | .setInsnCi _ | .addMemCycles _ | .setDc _ | .exceptHandle .. | .checkDebugUnit ..
  | .evalsimMem .. | .setsimMem .. | .storeLoadlock _ => True
  | _ => False

variable {c : Config δ} {opd : Operands δ}

theorem released_uncounted (phys : Word) (s : Machine δ) : Uncounted s (released phys s) := by
  unfold released
  split
  · exact .of_same rfl rfl
  · exact .refl s

theorem CountsNothing.keeps {o : Op} (is : CountsNothing o) : Programs.Keeps Uncounted (o.sem c opd) := by
  intro s a s' ran
  cases o with
  | touchTlb side set way =>
    cases ran
    exact .touchTlb _ side set way _
  | exceptHandle e ea =>
    cases ran
    exact .exceptHandle e ea _
  | checkDebugUnit action udata =>
    cases ran
    exact .checkDebugUnit c action udata _
  | evalsimMem w memaddr vaddr => exact .evalsimMem ran
  | setsimMem w memaddr vaddr value => exact .setsimMem ran
  | storeLoadlock physMemaddr =>
    cases ran
    exact released_uncounted physMemaddr _
  | view | tlb | setDataCi | setInsnCi | addMemCycles | setDc =>
    cases ran
    exact .of_same rfl rfl
  | _ => exact is.elim

theorem CountsNothing.runP {α : Type} {p : P α} (uses : p.Uses CountsNothing) : Programs.Keeps Uncounted (runP c opd p) :=
  Programs.Uses.run (R := Uncounted) .refl (fun _ _ _ => Moved.trans) (fun _ is => is.keeps) uses

theorem uncounted_dcRefill {a : Word} {way more i : Nat} {done : Bool} (ran : runP c opd (dcRefill c a way more i) s = .ok (done, t)) :
    Uncounted s t :=
  CountsNothing.runP (dcRefill_uses (fun _ => trivial) (fun _ _ => trivial) trivial _ _) _ _ _ ran

theorem uncounted_icRefill {a : Word} {way more reloadAddr : Nat} {done : Bool}
    (ran : icRefill c a way more reloadAddr s = .ok (done, t)) :
    Uncounted s t := by
  induction more generalizing reloadAddr s with
  | zero =>
    cases ran
    exact .refl _
  | succ more ih =>
    obtain ⟨got, s₁, read, rest⟩ := Programs.bind_ok ran
    rw [Programs.modify_bind] at rest
    have written : Uncounted s₁ { s₁ with ic := s₁.ic.write32 (way * c.ic.blocksize + c.ic.offset reloadAddr) got.1 } := .of_same rfl rfl
    refine (Moved.evalsimMem read).idle (written.idle ?_)
    split at rest
    · exact ih rest
    · cases rest
      exact .of_same rfl rfl

/-- A call of `pcu_count_event` with the unit enabled, in a mode that no exception has switched. -/
theorem counted_moved (enabled : c.pcuEnabled = true) (e : PcuEvent) (s : Machine δ) :
    Moved (tally s (supervisor s) e) s (counted c e.mask s) := by
  unfold counted
  rw [if_pos enabled]
  exact .pcuCountEvent e s

theorem checked_uncounted (action : DebugAction) (udata : Word) (s : Machine δ) : Uncounted s (checked c action udata s) := by
  unfold checked
  split
  · exact .checkDebugUnit c action udata s
  · exact .refl s

/-- An event adds the same as long as `PCMR` does not change. -/
theorem Moved.tally_eq {n : Nat → Nat} (moved : Moved n s t) (mode : Bool) (e : PcuEvent) {i : Nat} (inside : i < 8) :
    tally t mode e i = tally s mode e i := by
  unfold tally
  rw [moved.pcmr i inside]

/-- The mode after something that may have entered an exception. -/
theorem Moved.mode_eq {n : Nat → Nat} (moved : Moved n s t) :
    supervisor t = (supervisor s || decide (s.entries.length < t.entries.length)) := by
  rcases moved.mode with ⟨entries, mode⟩ | ⟨longer, mode⟩
  · rw [mode, entries, decide_eq_false (Nat.lt_irrefl _), Bool.or_false]
  · rw [mode, decide_eq_true longer, Bool.or_true]

/-- An event that is counted behind something that counts nothing. -/
theorem Moved.count (first : Uncounted s t) (enabled : c.pcuEnabled = true) (e : PcuEvent) :
    Moved (tally s (supervisor t) e) s (counted c e.mask t) :=
  (first.idle (counted_moved enabled e t)).congr fun _ inside => first.tally_eq _ e inside

/-! ### The TLBs -/

def dtlbMisses (c : Config δ) (s : Machine δ) (virtaddr : Word) : Bool :=
  dmmuActive s && (tlbFind .data c.dmmu s virtaddr c.dmmu.ways).isNone

def itlbMisses (c : Config δ) (s : Machine δ) (virtaddr : Word) : Bool :=
  immuActive s && (tlbFind .insn c.immu s virtaddr c.immu.ways).isNone

/-- What a translation counts. A miss is counted behind its exception. -/
structure TlbCounted (misses : Bool) (e : PcuEvent) (x : Exception) (s t : Machine δ) : Prop where
  hit : misses = false → Uncounted s t
  miss : misses = true → Moved (tally s (supervisor s || !diverted s x) e) s t
  pending : misses = true → diverted s x = false → t.exceptPending = true

theorem TlbCounted.of_hit {e : PcuEvent} {x : Exception} (uncounted : Uncounted s t) : TlbCounted false e x s t :=
  ⟨fun _ => uncounted, nofun, nofun⟩

theorem exceptHandle_mode (x : Exception) (ea : Word) (s : Machine δ) :
    supervisor (exceptHandle x ea s) = (supervisor s || !diverted s x) := by
  cases taken : diverted s x with
  | false => rw [exceptHandle_supervisor ea taken, Bool.not_false, Bool.or_true]
  | true =>
    rcases exceptHandle_cases x ea s with ⟨_, kept⟩ | ⟨left, _⟩
    · rw [Bool.not_true, Bool.or_false]
      exact kept.sprs.bit (by decide)
    · cases taken.symm.trans left

theorem TlbCounted.of_miss (enabled : c.pcuEnabled = true) (e : PcuEvent) (x : Exception) (ea : Word) (s : Machine δ) (cycles : Int) :
    TlbCounted true e x s (counted c e.mask (exceptHandle x ea { s with memCycles := cycles })) := by
  let waited : Machine δ := { s with memCycles := cycles }
  have waits : Uncounted s waited := .of_same rfl rfl
  have raised : Uncounted s (exceptHandle x ea waited) := waits.idle (.exceptHandle x ea waited)
  refine ⟨nofun, fun _ => ?_, fun _ left => ?_⟩
  · rw [show (supervisor s || !diverted s x) = supervisor (exceptHandle x ea waited) from (exceptHandle_mode x ea waited).symm]
    exact raised.count enabled e
  · exact (counted_passed c _ _).kept.exceptPending.trans (exceptHandle_pending ea left)

theorem dmmuTranslate_counted (enabled : c.pcuEnabled = true) {virtaddr phys : Word} {write : Bool}
    (ran : runP c opd (dmmuTranslate c virtaddr write) s = .ok (phys, t)) :
    TlbCounted (dtlbMisses c s virtaddr) .dtlbMiss .dtlbmiss s t := by
  unfold dtlbMisses
  unfold dmmuTranslate at ran
  rw [runP_view] at ran
  cases active : dmmuActive s with
  | false =>
    rw [skipped active] at ran
    cases ran
    exact .of_hit (.of_same rfl rfl)
  | true =>
    rw [not_skipped active, if_neg (by decide), runP_bind_ok (runP_findTlbmr _ _ _ _ _)] at ran
    cases found : tlbFind .data c.dmmu s virtaddr c.dmmu.ways with
    | none =>
      simp only [found] at ran
      rw [enabled] at ran
      cases ran
      have counts := TlbCounted.of_miss enabled .dtlbMiss .dtlbmiss virtaddr s (s.memCycles + c.dmmu.missdelay)
      unfold counted at counts
      rw [if_pos enabled] at counts
      exact counts
    | some entry =>
      simp only [found] at ran
      refine .of_hit (CountsNothing.runP ?_ _ _ _ ran)
      refine act_uses trivial fun _ => act_uses trivial fun _ => act_uses trivial fun _ => ?_
      cases dtlbPermits s.view.sr entry.2 write
      · exact act_uses trivial fun _ => trivial
      · trivial

theorem immuTranslate_counted (enabled : c.pcuEnabled = true) {virtaddr phys : Word}
    (ran : runP c opd (immuTranslate c virtaddr) s = .ok (phys, t)) :
    TlbCounted (itlbMisses c s virtaddr) .itlbMiss .itlbmiss s t := by
  unfold itlbMisses
  unfold immuTranslate at ran
  rw [runP_view, immu_skips] at ran
  cases active : immuActive s with
  | false =>
    rw [active] at ran
    cases ran
    exact .of_hit (.of_same rfl rfl)
  | true =>
    rw [active, if_neg (by decide), runP_bind_ok (runP_findTlbmr _ _ _ _ _)] at ran
    cases found : tlbFind .insn c.immu s virtaddr c.immu.ways with
    | none =>
      simp only [found] at ran
      rw [enabled] at ran
      cases ran
      have counts := TlbCounted.of_miss enabled .itlbMiss .itlbmiss virtaddr s (s.memCycles + c.immu.missdelay)
      unfold counted at counts
      rw [if_pos enabled] at counts
      exact counts
    | some entry =>
      simp only [found] at ran
      refine .of_hit (CountsNothing.runP ?_ _ _ _ ran)
      refine act_uses trivial fun _ => act_uses trivial fun _ => act_uses trivial fun _ => ?_
      cases itlbPermits s.view.sr entry.2
      · exact act_uses trivial fun _ => trivial
      · trivial

end

/-! ### The caches -/

/-- A read or a write through the data cache, or a fetch through the instruction cache. -/
inductive CacheAccess where
  | read (w : Width) (dataaddr virtAddr : Word)
  | write (w : Width) (dataaddr virtAddr : Word) (data : BitVec w.bits)
  | fetch (fetchaddr virtAddr : Word)

namespace CacheAccess

def run (c : Config δ) : CacheAccess → Sim δ Unit
  | .read w a v => do
    let _ ← runP c noOperands (dcSimulateRead c w a v)
    pure ()
  | .write w a v data => runP c noOperands (dcSimulateWrite c w a v data)
  | .fetch a v => do
    let _ ← icSimulateFetch c a v
    pure ()

/-- The cache is on and has no line of the address. A store outside every area does not come to it. -/
def misses (c : Config δ) (s : Machine δ) : CacheAccess → Bool
  | .read _ a _ => dcActive s.view && (c.dc.findWay s.dc a).isNone
  | .write _ a _ _ => storeRefills c a s
  | .fetch a _ => icActive s && (c.ic.findWay s.ic a).isNone

def missed : CacheAccess → PcuEvent
  | .fetch .. => .icMiss
  | _ => .dcMiss

def events (c : Config δ) (s : Machine δ) (x : CacheAccess) : List PcuEvent := if x.misses c s then [x.missed] else []

/-- What an access that misses does before the miss is counted: whether the line is filled. -/
def fill (c : Config δ) : CacheAccess → Sim δ Bool
  | .read _ a _ => do
    let m ← get
    runP c noOperands (dcRefill c a (c.dc.minwayRead m.dc (c.dc.set a)) (c.dc.blocksize / 4) 0)
  | .write w a v data => do
    if ← setsimMem c w a v data then do
      let m ← get
      runP c noOperands (dcRefill c a (c.dc.minwayWrite m.dc (c.dc.set a)) (c.dc.blocksize / 4) 0)
    else pure false
  | .fetch a _ => do
    let m ← get
    set { m with ic := c.ic.claim a (c.ic.minway m.ic a) m.ic }
    icRefill c a (c.ic.minway m.ic a) (c.ic.blocksize / 4) (c.ic.offset a.toNat)

end CacheAccess

section
variable {c : Config δ} {s s' t : Machine δ}

/-- What an access to a cache counts. A miss is counted behind the refill, if that comes to its end. -/
structure CacheAccess.Counted (c : Config δ) (x : CacheAccess) (s s' : Machine δ) : Prop where
  hit : x.misses c s = false → Uncounted s s'
  miss : x.misses c s = true → ∃ done v, x.fill c s = .ok (done, v) ∧ Uncounted s v ∧
    Moved (fun i => if done then tally s (supervisor v) x.missed i else 0) s s'

namespace CacheAccess.Counted

theorem of_hit {x : CacheAccess} (hit : x.misses c s = false) (uncounted : Uncounted s s') : x.Counted c s s' :=
  ⟨fun _ => uncounted, fun missed => by cases hit.symm.trans missed⟩

/-- A miss behind a refill that came to its end, or not. -/
theorem of_fill {x : CacheAccess} (missed : x.misses c s = true) {done : Bool} {v : Machine δ} (filled : x.fill c s = .ok (done, v))
    (uncounted : Uncounted s v) (stops : done = false → s' = v) (counts : done = true → Moved (tally s (supervisor v) x.missed) s s') :
    x.Counted c s s' := by
  refine ⟨fun hit => (by cases missed.symm.trans hit), fun _ => ⟨done, v, filled, uncounted, ?_⟩⟩
  cases done with
  | false =>
    rw [stops rfl]
    exact uncounted
  | true => exact counts rfl

end CacheAccess.Counted

theorem dcSimulateRead_counted (enabled : c.pcuEnabled = true) {w : Width} {a virtAddr : Word} {value : BitVec w.bits}
    (ran : runP c noOperands (dcSimulateRead c w a virtAddr) s = .ok (value, s')) : (CacheAccess.read w a virtAddr).Counted c s s' := by
  have misses : (CacheAccess.read w a virtAddr).misses c s = (dcActive s.view && (c.dc.findWay s.dc a).isNone) := rfl
  rw [dcSimulateRead, runP_view] at ran
  cases active : dcActive s.view with
  | false =>
    rw [active, Bool.not_false, if_pos rfl] at ran
    obtain ⟨got, s₁, read, last⟩ := Programs.bind_ok ran
    cases last
    exact .of_hit (by rw [misses, active, Bool.false_and]) (.evalsimMem read)
  | true =>
    rw [active, Bool.not_true, if_neg (by decide)] at ran
    cases found : c.dc.findWay s.dc a with
    | some way =>
      simp only [show c.dc.findWay s.view.dc a = some way from found] at ran
      cases ran
      exact .of_hit (by rw [misses, active, found]; rfl) (.of_same rfl rfl)
    | none =>
      simp only [show c.dc.findWay s.view.dc a = none from found] at ran
      rw [runP_bind] at ran
      obtain ⟨done, v, refill, last⟩ := Programs.bind_ok ran
      have uncounted := uncounted_dcRefill refill
      refine .of_fill (by rw [misses, active, found]; rfl) refill uncounted (fun stopped => ?_) fun filled => ?_
      · rw [stopped, if_neg (by decide)] at last
        cases last
        rfl
      · rw [filled, if_pos rfl, enabled] at last
        cases last
        let waited : Machine δ :=
          { v with
            dc := c.dc.refilled (c.dc.set a) (c.dc.minwayRead s.dc (c.dc.set a)) (c.dc.tagaddr a) v.dc
            memCycles := v.memCycles + c.dc.loadMissdelay }
        have waits : Uncounted v waited := .of_same rfl rfl
        have counts := (uncounted.idle waits).count enabled .dcMiss
        rwa [counted, if_pos enabled] at counts

theorem dcSimulateWrite_counted (enabled : c.pcuEnabled = true) {w : Width} {a virtAddr : Word} {data : BitVec w.bits}
    (ran : runP c noOperands (dcSimulateWrite c w a virtAddr data) s = .ok ((), s')) :
    (CacheAccess.write w a virtAddr data).Counted c s s' := by
  have misses : (CacheAccess.write w a virtAddr data).misses c s =
      (dcActive s.view && (c.lookup s.dev s.curArea a).isSome && (c.dc.findWay s.dc a).isNone) := rfl
  obtain ⟨mapped, s₁, written, rest⟩ := Programs.bind_ok ran
  have kept := setsimMem_cacheKept written
  have stored : Uncounted s s₁ := .setsimMem written
  obtain ⟨unmapped, _⟩ := setsimMem_mapped_iff written
  have fills : (CacheAccess.write w a virtAddr data).fill c s = _ := Programs.bind_of_ok written
  have rest : runP c noOperands (if !dcActive s₁.view || !mapped then pure () else _) s₁ = .ok ((), s') := rest
  rw [kept.active] at rest
  cases active : dcActive s.view with
  | false =>
    rw [active, Bool.not_false, Bool.true_or, if_pos rfl] at rest
    cases rest
    exact .of_hit (by rw [misses, active]; rfl) stored
  | true =>
    rw [active, Bool.not_true, Bool.false_or] at rest
    cases mapped with
    | false =>
      rw [Bool.not_false, if_pos rfl] at rest
      cases rest
      cases missed : (CacheAccess.write w a virtAddr data).misses c s with
      | false => exact .of_hit missed stored
      | true => exact .of_fill missed fills stored (fun _ => rfl) nofun
    | true =>
      rw [Bool.not_true, if_neg (by decide)] at rest
      have area : (c.lookup s.dev s.curArea a).isSome = true := Bool.eq_true_of_not_eq_false fun none => by
        cases unmapped none
      have ways : c.dc.findWay s₁.view.dc a = c.dc.findWay s.dc a := congrArg (c.dc.findWay · a) kept.dc
      cases found : c.dc.findWay s.dc a with
      | some way =>
        simp only [ways, found] at rest
        refine .of_hit (by rw [misses, active, area, found]; rfl) (stored.idle (CountsNothing.runP ?_ _ _ _ rest))
        exact act_uses trivial fun _ => act_uses trivial fun _ => act_uses trivial fun _ => trivial
      | none =>
        simp only [ways, found] at rest
        rw [runP_bind] at rest
        obtain ⟨done, v, refill, last⟩ := Programs.bind_ok rest
        have uncounted : Uncounted s v := stored.idle (uncounted_dcRefill refill)
        refine .of_fill (by rw [misses, active, area, found]; rfl) (fills.trans refill) uncounted (fun stopped => ?_) fun filled => ?_
        · rw [stopped, if_neg (by decide)] at last
          cases last
          rfl
        · rw [filled, if_pos rfl, enabled] at last
          cases last
          let waited : Machine δ :=
            { v with
              dc := c.dc.refilled (c.dc.set a) (c.dc.minwayWrite s₁.dc (c.dc.set a)) (c.dc.tagaddr a) v.dc
              memCycles := v.memCycles + c.dc.storeMissdelay }
          have waits : Uncounted v waited := .of_same rfl rfl
          have counts := (uncounted.idle waits).count enabled .dcMiss
          rwa [counted, if_pos enabled] at counts

theorem icSimulateFetch_counted (enabled : c.pcuEnabled = true) {a virtAddr value : Word}
    (ran : icSimulateFetch c a virtAddr s = .ok (value, s')) : (CacheAccess.fetch a virtAddr).Counted c s s' := by
  have misses : (CacheAccess.fetch a virtAddr).misses c s = (icActive s && (c.ic.findWay s.ic a).isNone) := rfl
  rw [icSimulateFetch, Programs.get_bind] at ran
  cases active : icActive s with
  | false =>
    rw [active, Bool.not_false, if_pos rfl] at ran
    obtain ⟨got, s₁, read, last⟩ := Programs.bind_ok ran
    cases last
    exact .of_hit (by rw [misses, active, Bool.false_and]) (.evalsimMem read)
  | true =>
    rw [active, Bool.not_true, if_neg (by decide)] at ran
    cases found : c.ic.findWay s.ic a with
    | some way =>
      simp only [found] at ran
      cases ran
      exact .of_hit (by rw [misses, active, found]; rfl) (.of_same rfl rfl)
    | none =>
      simp only [found, Programs.set_bind] at ran
      obtain ⟨done, v, refill, last⟩ := Programs.bind_ok ran
      let claimed : Machine δ := { s with ic := c.ic.claim a (c.ic.minway s.ic a) s.ic }
      have claims : Uncounted s claimed := .of_same rfl rfl
      have uncounted : Uncounted s v := claims.idle (uncounted_icRefill refill)
      refine .of_fill (by rw [misses, active, found]; rfl) refill uncounted (fun stopped => ?_) fun filled => ?_
      · rw [stopped, if_neg (by decide)] at last
        cases last
        rfl
      · rw [filled, if_pos rfl, Programs.modify_bind, countEvent, if_pos enabled] at last
        cases last
        let waited : Machine δ := { v with memCycles := v.memCycles + c.ic.missdelay }
        have waits : Uncounted v waited := .of_same rfl rfl
        have counts := (uncounted.idle waits).count enabled .icMiss
        rwa [counted, if_pos enabled] at counts

theorem CacheAccess.counted (enabled : c.pcuEnabled = true) (x : CacheAccess) (ran : x.run c s = .ok ((), s')) : x.Counted c s s' := by
  cases x with
  | read w a v =>
    obtain ⟨value, t, access, last⟩ := Programs.bind_ok ran
    cases last
    exact dcSimulateRead_counted enabled access
  | write w a v data => exact dcSimulateWrite_counted enabled ran
  | fetch a v =>
    obtain ⟨value, t, access, last⟩ := Programs.bind_ok ran
    cases last
    exact icSimulateFetch_counted enabled access

end

/-! ### Accesses of the core -/

namespace CoreAccess

def event : CoreAccess → PcuEvent
  | .load .. => .load
  | .store .. => .store
  | .fetch _ => .fetch

def tlbMiss : CoreAccess → PcuEvent
  | .fetch _ => .itlbMiss
  | _ => .dtlbMiss

def tlbExcept : CoreAccess → Exception
  | .fetch _ => .itlbmiss
  | _ => .dtlbmiss

def tlbMisses (c : Config δ) (s : Machine δ) : CoreAccess → Bool
  | .fetch a => itlbMisses c s a
  | x => dtlbMisses c s x.memaddr

/-- The access to the cache behind it. -/
def cacheAccess (phys : Word) : CoreAccess → CacheAccess
  | .load w a => .read w phys a
  | .store w a value => .write w phys a value
  | .fetch a => .fetch phys a

def cacheEnabled (c : Config δ) : CoreAccess → Bool
  | .fetch _ => c.ic.enabled
  | _ => c.dc.enabled

/-- The events that an access causes: a miss of the TLB, itself if no exception is pending behind the
translation, and a miss of the cache. -/
def events (c : Config δ) (s : Machine δ) (x : CoreAccess) : List PcuEvent :=
  if x.misaligned then [] else
    (if x.tlbMisses c s then [x.tlbMiss] else []) ++
      match runP c noOperands (x.translate c) s with
      | .error _ => []
      | .ok (phys, t) =>
        if t.exceptPending then []
        else x.event :: if x.cacheEnabled c then (x.cacheAccess phys).events c (x.atMemory c phys t) else []

variable {c : Config δ} {s s' t : Machine δ}

theorem translate_counted (enabled : c.pcuEnabled = true) (x : CoreAccess) {phys : Word}
    (translated : runP c noOperands (x.translate c) s = .ok (phys, t)) : TlbCounted (x.tlbMisses c s) x.tlbMiss x.tlbExcept s t := by
  cases x with
  | load w a => exact dmmuTranslate_counted enabled translated
  | store w a value => exact dmmuTranslate_counted enabled translated
  | fetch a => exact immuTranslate_counted enabled translated

theorem translate_passes (x : CoreAccess) {phys : Word} (translated : runP c noOperands (x.translate c) s = .ok (phys, t)) :
    Detour s t := by
  cases x with
  | load w a => exact translate_detour (dmmuTranslate_uses a false) translated
  | store w a value => exact translate_detour (dmmuTranslate_uses a true) translated
  | fetch a => exact translate_detour (immuTranslate_uses a) translated

/-- An access that goes on to the memory counts itself. -/
theorem atMemory_moved (enabled : c.pcuEnabled = true) (x : CoreAccess) (phys : Word) (t : Machine δ) :
    Moved (tally t (supervisor t) x.event) t (x.atMemory c phys t) := by
  cases x with
  | load w a => exact (counted_moved enabled .load t).rest (checked_uncounted _ _ _)
  | store w a value =>
    have released := released_uncounted phys t
    have checks : Uncounted (counted c pcmrSa (Cpu.released phys t)) ((CoreAccess.store w a value).atMemory c phys t) :=
      (checked_uncounted _ _ _).rest (checked_uncounted _ _ _)
    have counts := (released.count enabled .store).rest checks
    rw [released.same_mode (by unfold Cpu.released; split <;> rfl)] at counts
    exact counts
  | fetch a =>
    have checked := checked_uncounted (c := c) .instructionFetch a t
    have counts := checked.count enabled .fetch
    rw [checked.same_mode (checked_passed c _ _ _).kept.entries] at counts
    exact counts

/-- An access faults in its alignment, or in its translation, or goes on to the memory. -/
inductive Ends (c : Config δ) (s s' : Machine δ) (x : CoreAccess) : Prop where
  | misaligned (misaligned : x.misaligned = true) (rest : Uncounted s s')
  | pending (aligned : x.misaligned = false) (phys : Word) (t : Machine δ)
  (translated : runP c noOperands (x.translate c) s = .ok (phys, t))
      (pending : t.exceptPending = true) (rest : Uncounted t s')
  | cached (aligned : x.misaligned = false) (phys : Word) (t : Machine δ)
  (translated : runP c noOperands (x.translate c) s = .ok (phys, t))
      (goes : t.exceptPending = false) (enabled : x.cacheEnabled c = true) (v : Machine δ)
      (access : (x.cacheAccess phys).run c (x.atMemory c phys t) = .ok ((), v)) (rest : Uncounted v s')
  | uncached (aligned : x.misaligned = false) (phys : Word) (t : Machine δ)
  (translated : runP c noOperands (x.translate c) s = .ok (phys, t))
      (goes : t.exceptPending = false) (disabled : x.cacheEnabled c = false) (rest : Uncounted (x.atMemory c phys t) s')

theorem load_ends {w : Width} {a : Word} (ran : (CoreAccess.load w a).run c s = .ok ((), s')) : (CoreAccess.load w a).Ends c s s' := by
  obtain ⟨value, s₂, access, last⟩ := Programs.bind_ok ran
  cases last
  have whole := access
  unfold evalMem at access
  cases aligned : has a w.alignMask with
  | true =>
    have access := (congrArg (fun p => runP c noOperands p s) (if_pos aligned)).symm.trans access
    cases access
    exact .misaligned aligned (.exceptHandle _ _ _)
  | false =>
    have access := (congrArg (fun p => runP c noOperands p s) (if_neg (Bool.eq_false_iff.mp aligned))).symm.trans access
    rw [runP_bind] at access
    obtain ⟨phys, t, translated, rest⟩ := Programs.bind_ok access
    cases pending : t.exceptPending with
    | true =>
      rw [runP_view, show t.view.exceptPending = true from pending, if_pos rfl] at rest
      cases rest
      exact .pending aligned phys _ translated pending (.refl _)
    | false =>
      obtain ⟨temp, s₁, read, rfl⟩ := evalMem_reaches aligned translated pending whole
      cases enabled : c.dc.enabled with
      | true =>
        rw [if_pos enabled] at read
        exact .cached aligned phys t translated pending enabled s₁ (Programs.bind_of_ok read) (checked_uncounted _ _ _)
      | false =>
        rw [if_neg (Bool.eq_false_iff.mp enabled)] at read
        obtain ⟨got, s₃, read, done⟩ := Programs.bind_ok read
        cases done
        have reads : Uncounted ((CoreAccess.load w a).atMemory c phys t) _ := .evalsimMem read
        exact .uncached aligned phys t translated pending enabled (reads.rest (checked_uncounted _ _ _))

theorem store_ends {w : Width} {a : Word} {value : BitVec w.bits} (ran : (CoreAccess.store w a value).run c s = .ok ((), s')) :
    (CoreAccess.store w a value).Ends c s s' := by
  have whole : runP c noOperands (setMem c w a value) s = .ok ((), s') := ran
  have access := whole
  unfold setMem at access
  cases aligned : has a w.alignMask with
  | true =>
    have access := (congrArg (fun p => runP c noOperands p s) (if_pos aligned)).symm.trans access
    cases access
    exact .misaligned aligned (.exceptHandle _ _ _)
  | false =>
    have access := (congrArg (fun p => runP c noOperands p s) (if_neg (Bool.eq_false_iff.mp aligned))).symm.trans access
    rw [runP_bind] at access
    obtain ⟨phys, t, translated, rest⟩ := Programs.bind_ok access
    cases pending : t.exceptPending with
    | true =>
      have held : (released phys t).view.exceptPending = true := (released_passed phys t).kept.exceptPending.trans pending
      have rest : runP c noOperands (act .view >>= fun v => if v.exceptPending then pure () else _) (released phys t) = .ok ((), s') :=
        rest
      rw [runP_view, held, if_pos rfl] at rest
      cases rest
      exact .pending aligned phys t translated pending (released_uncounted phys t)
    | false =>
      have stores := setMem_reaches aligned translated pending whole
      cases enabled : c.dc.enabled with
      | true =>
        rw [if_pos enabled] at stores
        exact .cached aligned phys t translated pending enabled s' stores (.refl s')
      | false =>
        rw [if_neg (Bool.eq_false_iff.mp enabled)] at stores
        obtain ⟨mapped, s₁, written, done⟩ := Programs.bind_ok stores
        cases done
        exact .uncached aligned phys t translated pending enabled (.setsimMem written)

theorem fetch_ends {a : Word} (ran : (CoreAccess.fetch a).run c s = .ok ((), s')) : (CoreAccess.fetch a).Ends c s s' := by
  obtain ⟨value, s₂, access, last⟩ := Programs.bind_ok ran
  cases last
  have whole := access
  unfold evalInsn at access
  obtain ⟨phys, t, translated, rest⟩ := Programs.bind_ok access
  cases pending : t.exceptPending with
  | true =>
    rw [Programs.get_bind, pending, if_pos rfl] at rest
    cases rest
    exact .pending rfl phys _ translated pending (.refl _)
  | false =>
    obtain ⟨temp, s₁, read, rfl⟩ := evalInsn_reaches translated pending whole
    unfold readInsn at read
    cases enabled : c.ic.enabled with
    | true =>
      rw [enabled, if_pos rfl] at read
      exact .cached rfl phys t translated pending enabled s₁ (Programs.bind_of_ok read) (checked_uncounted _ _ _)
    | false =>
      rw [enabled, if_neg (by decide)] at read
      obtain ⟨got, s₃, read, done⟩ := Programs.bind_ok read
      cases done
      have reads : Uncounted ((CoreAccess.fetch a).atMemory c phys t) _ := .evalsimMem read
      exact .uncached rfl phys t translated pending enabled (reads.rest (checked_uncounted _ _ _))

theorem ends (x : CoreAccess) (ran : x.run c s = .ok ((), s')) : x.Ends c s s' := by
  cases x with
  | load w a => exact load_ends ran
  | store w a value => exact store_ends ran
  | fetch a => exact fetch_ends ran

end CoreAccess

/-! ### The mode of an access -/

/-- Between two states every counter has counted what it is to count of the events. -/
def CountsEvents (s s' : Machine δ) (events : List (Bool × PcuEvent)) : Prop :=
  ∀ i < 8, s'.sprs (sprPccr i) = s.sprs (sprPccr i) + BitVec.ofNat 32 (toCount (s.sprs (sprPcmr i)) events)

instance (s s' : Machine δ) (events : List (Bool × PcuEvent)) : Decidable (CountsEvents s s' events) := Nat.decidableBallLT 8 _

/-- An event of an access that starts in the state is counted as in its mode. It is counted if it is
`reported`, and behind the entry of an exception if that is `entered` before. -/
def CountedInMode (s : Machine δ) (e : PcuEvent) (reported entered : Bool) : Prop :=
  if reported then entered = true → supervisor s = true ∨ ∀ i < 8,
    selects (s.sprs (sprPcmr i)) true e = selects (s.sprs (sprPcmr i)) false e
  else ∀ i < 8, selects (s.sprs (sprPcmr i)) (supervisor s) e = false

/-- A miss of the cache, in an access that started in `s` and comes to the cache in `u`: the refill comes
to its end, and no exception is entered before. -/
def CacheAccess.InMode (c : Config δ) (s u : Machine δ) (x : CacheAccess) : Prop :=
  x.misses c u = true → ∀ done v, x.fill c u = .ok (done, v) →
    CountedInMode s x.missed done (decide (s.entries.length < v.entries.length))

/-- A miss of the TLB, unless the debug unit takes its exception, and a miss of the cache. -/
def CoreAccess.InMode (c : Config δ) (s : Machine δ) (x : CoreAccess) : Prop :=
  (x.misaligned = false → x.tlbMisses c s = true → CountedInMode s x.tlbMiss true !diverted s x.tlbExcept) ∧
    ∀ phys t, x.Reaches c s phys t → x.cacheEnabled c = true → (x.cacheAccess phys).InMode c s (x.atMemory c phys t)

section
variable {c : Config δ} {s s' t u : Machine δ}

theorem tally_le (s : Machine δ) (mode : Bool) (e : PcuEvent) (i : Nat) : tally s mode e i ≤ 1 := by
  unfold tally
  split <;> decide

theorem tally_eq_iff (mode mode' : Bool) (e : PcuEvent) (i : Nat) :
    tally s mode e i = tally s mode' e i ↔ selects (s.sprs (sprPcmr i)) mode e = selects (s.sprs (sprPcmr i)) mode' e := by
  unfold tally
  cases selects (s.sprs (sprPcmr i)) mode e <;> cases selects (s.sprs (sprPcmr i)) mode' e <;> decide

theorem countedInMode_iff (s : Machine δ) (e : PcuEvent) (reported entered : Bool) :
    (∀ i < 8, (if reported then tally s (supervisor s || entered) e i else 0) = tally s (supervisor s) e i) ↔
      CountedInMode s e reported entered := by
  unfold CountedInMode
  cases reported with
  | false =>
    simp only [Bool.false_eq_true, if_false]
    refine forall₂_congr fun i _ => ?_
    unfold tally
    cases selects (s.sprs (sprPcmr i)) (supervisor s) e <;> decide
  | true =>
    simp only [if_true, tally_eq_iff]
    cases entered with
    | false => simp
    | true => cases supervisor s <;> simp

theorem Moved.counts_iff {k n : Nat → Nat} (moved : Moved (fun i => k i + n i) s s') {e : PcuEvent} {events : List (Bool × PcuEvent)}
    (total : ∀ i < 8, toCount (s.sprs (sprPcmr i)) events = k i + tally s (supervisor s) e i) (small : ∀ i, n i ≤ 1) :
    CountsEvents s s' events ↔ ∀ i < 8, n i = tally s (supervisor s) e i := by
  refine forall₂_congr fun i inside => ?_
  rw [moved.pccr i inside, total i inside, BitVec.add_right_inj, BitVec.ofNat_add, BitVec.ofNat_add, BitVec.add_right_inj]
  constructor
  · intro same
    have numbers := congrArg BitVec.toNat same
    rw [BitVec.toNat_ofNat, BitVec.toNat_ofNat] at numbers
    have := small i
    have := tally_le s (supervisor s) e i
    omega
  · exact congrArg _

theorem Moved.counts {n : Nat → Nat} (moved : Moved n s s') {events : List (Bool × PcuEvent)}
    (total : ∀ i < 8, toCount (s.sprs (sprPcmr i)) events = n i) : CountsEvents s s' events :=
  fun i inside => (moved.pccr i inside).trans (by rw [total i inside])

theorem TlbCounted.counts_iff {misses : Bool} {e : PcuEvent} {x : Exception} (counted : TlbCounted misses e x s t)
    (rest : Uncounted t s') :
    (∀ i < 8, s'.sprs (sprPcmr i) = s.sprs (sprPcmr i)) ∧
      (CountsEvents s s' (inMode (supervisor s) (if misses then [e] else [])) ↔
        (misses = true → CountedInMode s e true !diverted s x)) := by
  cases misses with
  | false =>
    have moved := (counted.hit rfl).rest rest
    exact ⟨moved.pcmr, iff_of_true (moved.counts fun _ _ => toCount_none _ _) nofun⟩
  | true =>
    have moved := (Moved.refl s).trans ((counted.miss rfl).rest rest)
    rw [if_pos rfl, forall_prop_of_true rfl, ← countedInMode_iff]
    refine ⟨moved.pcmr, moved.counts_iff (fun i _ => ?_) fun i => tally_le _ _ _ _⟩
    rw [toCount_one, Nat.zero_add]

/-- What is counted up to the cache, and an access to it. -/
theorem CacheAccess.counts_iff {x : CacheAccess} (counted : x.Counted c u t) {k : Nat → Nat} (before : Moved k s u)
    (entries : u.entries = s.entries) (rest : Uncounted t s') {events : List (Bool × PcuEvent)}
    (total : ∀ i < 8, toCount (s.sprs (sprPcmr i)) events = k i) :
    (∀ i < 8, s'.sprs (sprPcmr i) = s.sprs (sprPcmr i)) ∧
      (CountsEvents s s' (events ++ inMode (supervisor s) (x.events c u)) ↔ x.InMode c s u) := by
  unfold CacheAccess.events CacheAccess.InMode
  cases missed : x.misses c u with
  | false =>
    have moved := before.rest ((counted.hit missed).rest rest)
    rw [if_neg (by decide)]
    refine ⟨moved.pcmr, iff_of_true (moved.counts fun i inside => ?_) nofun⟩
    rw [inMode, List.map_nil, List.append_nil]
    exact total i inside
  | true =>
    obtain ⟨done, v, filled, uncounted, counts⟩ := counted.miss missed
    let entered := decide (s.entries.length < v.entries.length)
    have mode : supervisor v = (supervisor s || entered) := by
      rw [uncounted.mode_eq, before.same_mode entries, entries]
    have moved : Moved (fun i => k i + if done then tally s (supervisor s || entered) x.missed i else 0) s s' := by
      refine (before.trans (counts.rest rest)).congr fun i inside => ?_
      rw [mode]
      cases done with
      | false => rfl
      | true => exact congrArg (k i + ·) (before.tally_eq _ _ inside)
    refine ⟨moved.pcmr, ?_⟩
    have agrees : CountsEvents s s' (events ++ inMode (supervisor s) [x.missed]) ↔ CountedInMode s x.missed done entered := by
      refine (moved.counts_iff (fun i inside => ?_) fun i => ?_).trans (countedInMode_iff s x.missed done entered)
      · rw [toCount_append, total i inside, toCount_one]
      · split
        · exact tally_le _ _ _ _
        · exact Nat.zero_le _
    rw [if_pos rfl, agrees]
    constructor
    · intro here _ done' v' filled'
      cases filled.symm.trans filled'
      exact here
    · exact fun all => all rfl done v filled

end

namespace CoreAccess

variable {c : Config δ} {s s' t : Machine δ} {x : CoreAccess} {phys : Word}

def tlbEvents (c : Config δ) (s : Machine δ) (x : CoreAccess) : List PcuEvent := if x.tlbMisses c s then [x.tlbMiss] else []

theorem events_pending (aligned : x.misaligned = false) (translated : runP c noOperands (x.translate c) s = .ok (phys, t))
    (pending : t.exceptPending = true) : x.events c s = x.tlbEvents c s := by
  unfold events tlbEvents
  rw [aligned, translated, if_neg (by decide)]
  simp only [pending, if_true, List.append_nil]

theorem events_goes (aligned : x.misaligned = false) (translated : runP c noOperands (x.translate c) s = .ok (phys, t))
    (goes : t.exceptPending = false) :
    x.events c s =
      x.tlbEvents c s ++ [x.event] ++ if x.cacheEnabled c then (x.cacheAccess phys).events c (x.atMemory c phys t) else [] := by
  unfold events tlbEvents
  rw [aligned, translated, if_neg (by decide)]
  simp only [goes, Bool.false_eq_true, if_false, List.append_assoc, List.singleton_append]

/-- The condition of an access that goes on to the memory. -/
theorem inMode_goes (aligned : x.misaligned = false) (translated : runP c noOperands (x.translate c) s = .ok (phys, t))
    (goes : t.exceptPending = false) (tlb : x.tlbMisses c s = true → CountedInMode s x.tlbMiss true !diverted s x.tlbExcept) :
    x.InMode c s ↔ (x.cacheEnabled c = true → (x.cacheAccess phys).InMode c s (x.atMemory c phys t)) := by
  constructor
  · exact fun all => all.2 phys t ⟨aligned, translated, goes⟩
  · intro here
    refine ⟨fun _ => tlb, fun phys' t' reaches => ?_⟩
    cases translated.symm.trans reaches.2.1
    exact here

/-- An access that goes on to the memory has entered no exception. -/
theorem goes_moved (enabled : c.pcuEnabled = true) (translated : runP c noOperands (x.translate c) s = .ok (phys, t))
    (goes : t.exceptPending = false) :
    (x.tlbMisses c s = true → CountedInMode s x.tlbMiss true !diverted s x.tlbExcept) ∧ (x.atMemory c phys t).entries = s.entries ∧
      Moved (fun i => toCount (s.sprs (sprPcmr i)) (inMode (supervisor s) (x.tlbEvents c s ++ [x.event]))) s (x.atMemory c phys t) := by
  have counted := translate_counted enabled x translated
  have entries := ((translate_passes x translated).quiet goes).1
  have taken : x.tlbMisses c s = true → diverted s x.tlbExcept = true := fun missed =>
    Bool.eq_true_of_not_eq_false fun left => by cases goes.symm.trans (counted.pending missed left)
  have first : Moved (fun i => toCount (s.sprs (sprPcmr i)) (inMode (supervisor s) (x.tlbEvents c s))) s t := by
    unfold tlbEvents
    cases missed : x.tlbMisses c s with
    | false => exact (counted.hit missed).congr fun i _ => (toCount_none _ _).symm
    | true =>
      have moved := counted.miss missed
      rw [taken missed, Bool.not_true, Bool.or_false] at moved
      exact moved.congr fun i _ => (toCount_one s _ _ i).symm
  refine ⟨fun missed => ?_, (x.atMemory_passed phys t).kept.entries.trans entries, ?_⟩
  · unfold CountedInMode
    rw [if_pos rfl, taken missed]
    exact nofun
  · refine (first.trans (atMemory_moved enabled x phys t)).congr fun i inside => ?_
    rw [first.same_mode entries, first.tally_eq _ _ inside, ← toCount_one, ← toCount_append, inMode, inMode, inMode, List.map_append]

theorem counts_iff (enabled : c.pcuEnabled = true) (x : CoreAccess) (ran : x.run c s = .ok ((), s')) :
    (∀ i < 8, s'.sprs (sprPcmr i) = s.sprs (sprPcmr i)) ∧ (CountsEvents s s' (inMode (supervisor s) (x.events c s)) ↔ x.InMode c s) := by
  rcases x.ends ran with ⟨misaligned, rest⟩ | ⟨aligned, phys, t, translated, pending, rest⟩ |
      ⟨aligned, phys, t, translated, goes, enabled', v, access, rest⟩ | ⟨aligned, phys, t, translated, goes, disabled, rest⟩
  · have none : x.events c s = [] := if_pos misaligned
    rw [none]
    refine ⟨rest.pcmr, iff_of_true (rest.counts fun _ _ => toCount_none _ _) ⟨fun aligned => ?_, fun _ _ reaches => ?_⟩⟩
    · cases misaligned.symm.trans aligned
    · cases misaligned.symm.trans reaches.1
  · have counted := translate_counted enabled x translated
    rw [events_pending aligned translated pending]
    have never : ∀ phys t, ¬ x.Reaches c s phys t := by
      rintro phys' t' ⟨_, translated', goes⟩
      cases translated.symm.trans translated'
      cases pending.symm.trans goes
    have condition : x.InMode c s ↔ (x.tlbMisses c s = true → CountedInMode s x.tlbMiss true !diverted s x.tlbExcept) :=
      ⟨fun all => all.1 aligned, fun here => ⟨fun _ => here, fun phys t reaches => absurd reaches (never phys t)⟩⟩
    rw [condition]
    exact counted.counts_iff rest
  · obtain ⟨tlb, entries, before⟩ := goes_moved enabled translated goes
    have access := (x.cacheAccess phys).counted enabled access
    rw [events_goes aligned translated goes, if_pos enabled', inMode_goes aligned translated goes tlb, forall_prop_of_true enabled',
      inMode, List.map_append]
    exact CacheAccess.counts_iff access before entries rest fun _ _ => rfl
  · obtain ⟨tlb, entries, before⟩ := goes_moved enabled translated goes
    have moved := before.rest rest
    rw [events_goes aligned translated goes, disabled, if_neg (by decide), List.append_nil, inMode_goes aligned translated goes tlb]
    refine ⟨moved.pcmr, iff_of_true (moved.counts fun _ _ => rfl) fun yes => ?_⟩
    cases disabled.symm.trans yes

end CoreAccess

/-! ### Runs -/

/-- What may count: an access of the core; an access to a cache alone, as `l.mtspr` preloads a line and the
simulator itself reads; and the translation alone of `l.lwa` and `l.swa`. -/
inductive CountingAccess where
  | core (x : CoreAccess)
  | cache (x : CacheAccess)
  | translate (virtaddr : Word)

namespace CountingAccess

def run (c : Config δ) : CountingAccess → Sim δ Unit
  | .core x => x.run c
  | .cache x => x.run c
  | .translate a => do
    let _ ← runP c noOperands (dmmuTranslate c a false)
    pure ()

/-- The events that an access causes from a state. -/
def events (c : Config δ) (s : Machine δ) : CountingAccess → List PcuEvent
  | .core x => x.events c s
  | .cache x => x.events c s
  | .translate a => if dtlbMisses c s a then [.dtlbMiss] else []

/-- The condition under which an access counts its events in its mode. -/
def InMode (c : Config δ) (s : Machine δ) : CountingAccess → Prop
  | .core x => x.InMode c s
  | .cache x => x.InMode c s s
  | .translate a => dtlbMisses c s a = true → CountedInMode s .dtlbMiss true !diverted s .dtlbmiss

theorem counts_iff {c : Config δ} {s s' : Machine δ} (enabled : c.pcuEnabled = true) (x : CountingAccess)
    (ran : x.run c s = .ok ((), s')) :
    (∀ i < 8, s'.sprs (sprPcmr i) = s.sprs (sprPcmr i)) ∧ (CountsEvents s s' (inMode (supervisor s) (x.events c s)) ↔ x.InMode c s) := by
  cases x with
  | core x => exact x.counts_iff enabled ran
  | cache x =>
    have none : ∀ i < 8, toCount (s.sprs (sprPcmr i)) [] = 0 := fun _ _ => toCount_none _ true
    have whole := CacheAccess.counts_iff (x.counted enabled ran) (.refl s) rfl (.refl s') none
    rwa [List.nil_append] at whole
  | translate a =>
    obtain ⟨phys, t, translated, last⟩ := Programs.bind_ok ran
    cases last
    exact (dmmuTranslate_counted enabled translated).counts_iff (.refl _)

end CountingAccess

/-- An access of a run. -/
structure CountingStep (δ : Type) where
  access : CountingAccess
  before : Machine δ
  after : Machine δ

/-- The events of the access with its mode, the one in which it starts. -/
def CountingStep.events (c : Config δ) (step : CountingStep δ) : List (Bool × PcuEvent) :=
  inMode (supervisor step.before) (step.access.events c step.before)

/-- A run: accesses, and between them anything that leaves the registers of the unit alone. -/
inductive CountingRun (c : Config δ) : Machine δ → List (CountingStep δ) → Machine δ → Prop where
  | done (s : Machine δ) : CountingRun c s [] s
  | access {x : CountingAccess} {s t u : Machine δ} {steps : List (CountingStep δ)} (ran : x.run c s = .ok ((), t))
      (later : CountingRun c t steps u) : CountingRun c s (⟨x, s, t⟩ :: steps) u
  | other {s t u : Machine δ} {steps : List (CountingStep δ)}
      (kept : ∀ i < 8, t.sprs (sprPcmr i) = s.sprs (sprPcmr i) ∧ t.sprs (sprPccr i) = s.sprs (sprPccr i))
      (later : CountingRun c t steps u) : CountingRun c s steps u

section
variable {c : Config δ} {s t u : Machine δ} {steps : List (CountingStep δ)}

theorem CountsEvents.trans {first second : List (Bool × PcuEvent)} (pcmr : ∀ i < 8, t.sprs (sprPcmr i) = s.sprs (sprPcmr i))
    (before : CountsEvents s t first) (after : CountsEvents t u second) : CountsEvents s u (first ++ second) := by
  intro i inside
  rw [after i inside, before i inside, pcmr i inside, toCount_append, BitVec.ofNat_add, BitVec.add_assoc]

theorem CountsEvents.of_kept (kept : ∀ i < 8, t.sprs (sprPcmr i) = s.sprs (sprPcmr i) ∧ t.sprs (sprPccr i) = s.sprs (sprPccr i)) :
    CountsEvents s t [] := by
  intro i inside
  rw [(kept i inside).2, toCount_eq, List.countP_nil]
  exact (BitVec.add_zero _).symm

/-- An access of a run starts where the run has come to. -/
theorem CountingRun.step_counts (enabled : c.pcuEnabled = true) (run : CountingRun c s steps u) {step : CountingStep δ}
    (member : step ∈ steps) :
    CountsEvents step.before step.after (step.events c) ↔ step.access.InMode c step.before := by
  induction run with
  | done s => cases member
  | access ran later ih =>
    rcases List.mem_cons.mp member with rfl | later
    · exact (CountingAccess.counts_iff enabled _ ran).2
    · exact ih later
  | other kept later ih => exact ih member

theorem CountingRun.counts (enabled : c.pcuEnabled = true) (run : CountingRun c s steps u)
    (each : ∀ step ∈ steps, CountsEvents step.before step.after (step.events c)) : CountsEvents s u (steps.flatMap (·.events c)) := by
  induction run with
  | done s => exact .of_kept fun _ _ => ⟨rfl, rfl⟩
  | access ran later ih =>
    rw [List.flatMap_cons]
    exact CountsEvents.trans (CountingAccess.counts_iff enabled _ ran).1 (each _ List.mem_cons_self)
      (ih fun step member => each step (List.mem_cons_of_mem _ member))
  | other kept later ih =>
    have whole := CountsEvents.trans (fun i inside => (kept i inside).1) (.of_kept kept) (ih each)
    rwa [List.nil_append] at whole

/-- In a run every access counts its events in its mode, exactly if every access meets the condition. The
counters have then counted the events of the run. -/
theorem counters_in_mode (c : Config δ) (enabled : c.pcuEnabled = true) (s u : Machine δ) (steps : List (CountingStep δ))
    (run : CountingRun c s steps u) :
    ((∀ step ∈ steps, CountsEvents step.before step.after (step.events c)) ↔ ∀ step ∈ steps, step.access.InMode c step.before) ∧
      ((∀ step ∈ steps, step.access.InMode c step.before) → CountsEvents s u (steps.flatMap (·.events c))) := by
  have each : (∀ step ∈ steps, CountsEvents step.before step.after (step.events c)) ↔ ∀ step ∈ steps, step.access.InMode c step.before :=
    forall₂_congr fun step member => run.step_counts enabled member
  exact ⟨each, fun all => run.counts enabled (each.mpr all)⟩

end

def countersConfig : Config (Word → Word) := { Config.bare [] [.words] with pcuEnabled := true }

/-- A core in user mode, with one counter. -/
def countersMachine (sr pcmr : Word) : Machine (Word → Word) :=
  { Machine.bare (fun _ => 0) 0 0x2000 with
    sprs := fun r => if r = sprSr then sr else if r = sprUpr then uprDmp else if r = sprPcmr 0 then pcmr else 0 }

def countedConfig : Config (Word → Word) := { countersConfig with dc := ⟨true, 0, 2, 0, 4, 0, 0, 0, 0⟩ }

/-- A supervisor with the translation on, and a counter of its loads and misses. -/
def countedMachine : Machine (Word → Word) :=
  { Machine.bare (fun _ => 0) 0 0x2000 with
    sprs := fun r =>
      if r = sprSr then srSm ||| srDme ||| srDce else if r = sprUpr then uprDmp ||| uprDcp
      else if r = sprPcmr 0 then pcmrLa ||| pcmrDtlbm ||| pcmrDcm ||| pcmrCism else 0 }

/-- A load, with whether it counts its events in its mode. -/
def loads (s : Machine (Word → Word)) : Option (Machine (Word → Word) × Bool) :=
  ((CountingAccess.core (.load .word 0x2000)).run countedConfig s).toOption.map fun r =>
    (r.2, decide (CountsEvents s r.2 (CountingStep.events countedConfig ⟨.core (.load .word 0x2000), s, r.2⟩)))

theorem loads_run {s t : Machine (Word → Word)} {counted : Bool} (ran : loads s = some (t, counted)) :
    (CountingAccess.core (.load .word 0x2000)).run countedConfig s = .ok ((), t) := by
  unfold loads at ran
  cases run : (CountingAccess.core (.load .word 0x2000)).run countedConfig s with
  | error e =>
    rw [run] at ran
    cases ran
  | ok r =>
    rw [run] at ran
    cases ran
    rfl

theorem loads_counted {s t : Machine (Word → Word)} (ran : loads s = some (t, true)) :
    CountsEvents s t (CountingStep.events countedConfig ⟨.core (.load .word 0x2000), s, t⟩) := by
  obtain ⟨r, run, same⟩ := Option.map_eq_some_iff.mp ran
  obtain ⟨rfl, counted⟩ := Prod.mk.inj same
  exact of_decide_eq_true counted

/-- The handler of the miss has returned to the load, with the translation off. -/
def returned (s : Machine (Word → Word)) : Machine (Word → Word) := { setSpr sprSr (srSm ||| srDce) s with exceptPending := false }

/-- A load misses the TLB, is made again and misses the cache, and is made once more. -/
theorem counters_in_mode_misses : ∃ t v u,
    CountingRun countedConfig countedMachine
      [⟨.core (.load .word 0x2000), countedMachine, t⟩, ⟨.core (.load .word 0x2000), returned t, v⟩,
        ⟨.core (.load .word 0x2000), v, u⟩] u ∧
    u.sprs (sprPccr 0) = 4 ∧ CountsEvents countedMachine u [(true, .dtlbMiss), (true, .load), (true, .dcMiss), (true, .load)] := by
  let events (s : Machine (Word → Word)) := CountingStep.events countedConfig ⟨.core (.load .word 0x2000), s, s⟩
  have seen : ((loads countedMachine).bind fun t => (loads (returned t.1)).bind fun v => (loads v.1).map fun u =>
      ((t.2, v.2, u.2), events countedMachine ++ (events (returned t.1) ++ (events v.1 ++ [])), u.1.sprs (sprPccr 0))) =
        some ((true, true, true), [(true, .dtlbMiss), (true, .load), (true, .dcMiss), (true, .load)], 4) := by decide +kernel
  obtain ⟨⟨t, counted₁⟩, ran₁, seen⟩ := Option.bind_eq_some_iff.mp seen
  obtain ⟨⟨v, counted₂⟩, ran₂, seen⟩ := Option.bind_eq_some_iff.mp seen
  obtain ⟨⟨u, counted₃⟩, ran₃, seen⟩ := Option.map_eq_some_iff.mp seen
  obtain ⟨counted, seen⟩ := Prod.mk.inj seen
  obtain ⟨caused, four⟩ := Prod.mk.inj seen
  cases counted
  have handled : ∀ i < 8, (returned t).sprs (sprPcmr i) = t.sprs (sprPcmr i) ∧ (returned t).sprs (sprPccr i) = t.sprs (sprPccr i) := by
    intro i inside
    have others : sprPcmr i ≠ sprSr ∧ sprPccr i ≠ sprSr := (by decide : ∀ i < 8, sprPcmr i ≠ sprSr ∧ sprPccr i ≠ sprSr) i inside
    exact ⟨if_neg others.1, if_neg others.2⟩
  have run : CountingRun countedConfig countedMachine
      [⟨.core (.load .word 0x2000), countedMachine, t⟩, ⟨.core (.load .word 0x2000), returned t, v⟩,
        ⟨.core (.load .word 0x2000), v, u⟩] u :=
    .access (loads_run ran₁) (.other handled (.access (loads_run ran₂) (.access (loads_run ran₃) (.done u))))
  obtain ⟨each, whole⟩ := counters_in_mode countedConfig rfl _ _ _ run
  have counts := whole (each.mp ?_)
  · refine ⟨t, v, u, run, four, ?_⟩
    rw [← caused]
    exact counts
  · simp only [List.forall_mem_cons, List.not_mem_nil, false_imp_iff, implies_true, and_true]
    exact ⟨loads_counted ran₁, loads_counted ran₂, loads_counted ran₃⟩

/-- A miss of the TLB in user mode is counted as one of the supervisor. -/
theorem counters_in_mode_miss : ¬ ∀ (c : Config (Word → Word)) (s u : Machine (Word → Word)) (steps : List (CountingStep (Word → Word))),
    c.pcuEnabled = true → CountingRun c s steps u → CountsEvents s u (steps.flatMap (·.events c)) := by
  intro claim
  have run : CountingRun countersConfig (countersMachine srDme (pcmrDtlbm ||| pcmrCium)) [⟨.core (.load .word 0x2000), _, _⟩] _ :=
    .access rfl (.done _)
  have counts := claim countersConfig _ _ _ rfl run 0 (by decide)
  exact absurd counts (by decide +kernel)

end Or1ksim.Cpu
