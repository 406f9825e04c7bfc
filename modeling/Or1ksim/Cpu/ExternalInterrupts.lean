import Or1ksim.Cpu.FaultingAccess
import Or1ksim.Cpu.Libtoplevel
import Or1ksim.Peripheral.Effects

/-!
# Requests from outside

Calls of the library set and clear interrupt lines. They are collected in two sets of lines, which an iteration of the loop serves one
after the other, so that the order of the calls for a line is lost.
-/

namespace Or1ksim.Cpu

open Peripheral (jobs)

variable {δ : Type}

/-! ### The calls -/

/-- `or1ksim_interrupt` -/
def or1ksimInterrupt (c : Config δ) (i : Fin 32) (l : Library δ) : Library δ :=
  if !c.picEdgeTrigger then l else { l with extIntSet := l.extIntSet ||| lineMask i }

/-- `or1ksim_interrupt_set` -/
def or1ksimInterruptSet (c : Config δ) (i : Fin 32) (l : Library δ) : Library δ :=
  if c.picEdgeTrigger then l else { l with extIntSet := l.extIntSet ||| lineMask i }

/-- `or1ksim_interrupt_clear` -/
def or1ksimInterruptClear (c : Config δ) (i : Fin 32) (l : Library δ) : Library δ :=
  if c.picEdgeTrigger then l else { l with extIntClr := l.extIntClr ||| lineMask i }

/-- A call for a line with a level. -/
structure LevelCall where
  raises : Bool
  line : Fin 32
  deriving DecidableEq

def LevelCall.make (c : Config δ) (l : Library δ) (call : LevelCall) : Library δ :=
  if call.raises then or1ksimInterruptSet c call.line l else or1ksimInterruptClear c call.line l

/-- What an iteration does with the requests. In a `long` the bits above line 31 are copies of it, which are cleared with it. -/
def externalInterrupts (c : Config δ) : LibSim δ Unit := do
  serveRequests Library.extIntSet (fun left l => { l with extIntSet := left }) (reportInterrupt c)
  serveRequests Library.extIntClr (fun left l => { l with extIntClr := left }) clearInterrupt

/-- The states of the library, with the calls since the requests were served. Between calls, and around a call from an upcall, the
processor goes on as it likes. -/
inductive Asked (c : Config δ) : List LevelCall → Library δ → Prop where
  | start {l : Library δ} (set : l.extIntSet = 0) (clr : l.extIntClr = 0) : Asked c [] l
  | call {calls : List LevelCall} {l : Library δ} (before : Asked c calls l) (call : LevelCall) :
  Asked c (calls ++ [call]) (call.make c l)
  | goesOn {calls : List LevelCall} {l : Library δ} (before : Asked c calls l) (m : Machine δ) (endCycles : Int) :
      Asked c calls { l with machine := m, endCycles := endCycles }
  | served {calls : List LevelCall} {l l' : Library δ} (before : Asked c calls l)
  (ran : externalInterrupts c l = .ok ((), l')) : Asked c [] l'

/-! ### What is asked for -/

def pending (m : Machine δ) (i : Fin 32) : Bool := has (m.sprs sprPicsr) (lineMask i)

def lastCall (calls : List LevelCall) (i : Fin 32) : Option Bool :=
  calls.foldl (fun last call => if call.line = i then some call.raises else last) none

/-- A line has the level of the last call for it, and a line that is raised, and enabled, has its interrupt queued. -/
structure LastWins (calls : List LevelCall) (m m' : Machine δ) : Prop where
  level : ∀ i, pending m' i = (lastCall calls i).getD (pending m i)
  queued : ∀ i, pending m i = false → pending m' i = true → has (m.sprs sprPicmr) (lineMask i) = true → has m.sr srIee = true →
    .picRepInt ∈ jobs m'.scheduler

/-! ### Lines -/

theorem lineMask_ne_zero (i : Fin 32) : lineMask i ≠ 0#32 := by
  revert i
  decide

theorem has_line (x : Word) (i : Fin 32) : has x (lineMask i) = x.getLsbD i.val := by
  have kept : x &&& lineMask i = if x.getLsbD i.val then lineMask i else 0#32 := BitVec.and_twoPow x i.val
  unfold has
  rw [kept]
  cases x.getLsbD i.val with
  | true => exact decide_eq_true (lineMask_ne_zero i)
  | false => rfl

theorem getLsbD_lineMask (a i : Fin 32) : (lineMask a).getLsbD i.val = decide (i = a) := by
  revert a i
  decide +kernel

theorem has_or_line (x : Word) (a i : Fin 32) : has (x ||| lineMask a) (lineMask i) = (has x (lineMask i) || decide (i = a)) := by
  rw [has_line, has_line, BitVec.getLsbD_or, getLsbD_lineMask]

theorem has_remove_line (x : Word) (a i : Fin 32) : has (x &&& ~~~lineMask a) (lineMask i) =
    (has x (lineMask i) && !decide (i = a)) := by
  rw [has_line, has_line, BitVec.getLsbD_and, BitVec.getLsbD_not, getLsbD_lineMask, decide_eq_true i.isLt, Bool.true_and]

theorem zero_of_lines {x : Word} (none : ∀ i, has x (lineMask i) = false) : x = 0 := by
  refine BitVec.eq_of_getLsbD_eq fun i inside => ?_
  exact (has_line x ⟨i, inside⟩).symm.trans ((none ⟨i, inside⟩).trans BitVec.getLsbD_zero.symm)

theorem has_zero_line (i : Fin 32) : has 0 (lineMask i) = false := (has_line 0 i).trans BitVec.getLsbD_zero

/-- The lines of a set, from the lowest on. -/
def lines (x : Word) : List (Fin 32) := (List.finRange 32).filter fun i => has x (lineMask i)

theorem mem_lines {x : Word} {i : Fin 32} : i ∈ lines x ↔ has x (lineMask i) = true := by
  rw [lines, List.mem_filter]
  exact and_iff_right (List.mem_finRange i)

/-! ### Serving a set -/

section
variable {request : Library δ → Word} {clear : Word → Library δ → Library δ} {serve : Fin 32 → Cpu.Sim δ Unit}

/-- A set of lines in the state of the library, which says nothing about the processor. -/
structure LineSet (request : Library δ → Word) (clear : Word → Library δ → Library δ) : Prop where
  read : ∀ w l, request (clear w l) = w
  same : ∀ l, clear (request l) l = l
  again : ∀ v w l, clear w (clear v l) = clear w l
  kept : ∀ l m, request { l with machine := m } = request l
  machine : ∀ w l, (clear w l).machine = l.machine
  apart : ∀ w l m, ({ clear w l with machine := m } : Library δ) = clear w { l with machine := m }

/-- The body of the loop. -/
def serveLine (request : Library δ → Word) (clear : Word → Library δ → Library δ) (serve : Fin 32 → Cpu.Sim δ Unit) (i : Fin 32) :
    LibSim δ Unit := do
  if has (request (← get)) (lineMask i) then
    onMachine (serve i)
    modify fun l => clear (request l &&& ~~~lineMask i) l

theorem serveLine_ok {i : Fin 32} {l l' : Library δ} {a : Unit} (ran : serveLine request clear serve i l = .ok (a, l')) :
    (has (request l) (lineMask i) = true ∧ ∃ m, serve i l.machine = .ok ((), m) ∧
      l' = clear (request { l with machine := m } &&& ~~~lineMask i) { l with machine := m }) ∨
    (has (request l) (lineMask i) = false ∧ l' = l) := by
  rw [serveLine, Programs.get_bind] at ran
  cases asked : has (request l) (lineMask i) with
  | true =>
    rw [asked, if_pos rfl] at ran
    obtain ⟨_, mid, first, rest⟩ := Programs.bind_ok ran
    obtain ⟨m, served, rfl⟩ := onMachine_ok first
    cases rest
    exact .inl ⟨rfl, m, served, rfl⟩
  | false =>
    rw [asked, if_neg Bool.false_ne_true] at ran
    cases ran
    exact .inr ⟨rfl, rfl⟩

/-- The loop serves the lines of the set that it comes to, and takes them out. -/
theorem serveLines_ok (set : LineSet request clear) {is : List (Fin 32)} (once : is.Nodup) {l l' : Library δ} {a : Unit}
    (ran : is.forM (serveLine request clear serve) l = .ok (a, l')) :
    ∃ m left, (is.filter fun i => has (request l) (lineMask i)).forM serve l.machine = .ok ((), m) ∧
      l' = clear left { l with machine := m } ∧
      ∀ i, has left (lineMask i) = (has (request l) (lineMask i) && !decide (i ∈ is)) := by
  induction is generalizing l with
  | nil =>
    obtain rfl : l = l' := congrArg Prod.snd (Except.ok.inj ran)
    exact ⟨l.machine, request l, rfl, (set.same l).symm, fun i =>
      by rw [decide_eq_false List.not_mem_nil, Bool.not_false, Bool.and_true]⟩
  | cons i is ih =>
    obtain ⟨fresh, once⟩ := List.nodup_cons.mp once
    have ran : (serveLine request clear serve i >>= fun _ => is.forM (serveLine request clear serve)) l = .ok (a, l') := ran
    obtain ⟨_, mid, first, rest⟩ := Programs.bind_ok ran
    obtain ⟨asked, m, served, rfl⟩ | ⟨unasked, rfl⟩ := serveLine_ok first
    · obtain ⟨m', left, all, rfl, lines⟩ := ih once rest
      rw [set.read, set.kept] at lines
      rw [set.read, set.kept, set.machine] at all
      refine ⟨m', left, ?_, ?_, fun j => ?_⟩
      · have others : (is.filter fun j => has (request l &&& ~~~lineMask i) (lineMask j)) = is.filter fun j =>
            has (request l) (lineMask j) :=
          List.filter_congr fun j inside => by
            have other : j ≠ i := fun same => fresh (same ▸ inside)
            rw [has_remove_line, decide_eq_false other, Bool.not_false, Bool.and_true]
        rw [others] at all
        rw [List.filter_cons_of_pos (p := fun j => has (request l) (lineMask j)) asked]
        exact (Programs.bind_of_ok served).trans all
      · rw [set.apart, set.again]
      · rw [lines, has_remove_line]
        simp only [List.mem_cons, Bool.decide_or, Bool.not_or, Bool.and_assoc]
    · obtain ⟨m', left, all, rfl, lines⟩ := ih once rest
      refine ⟨m', left, ?_, rfl, fun j => ?_⟩
      · rw [List.filter_cons_of_neg (p := fun j => has (request mid) (lineMask j)) (by rw [unasked]; exact Bool.false_ne_true)]
        exact all
      · rw [lines]
        by_cases here : j = i
        · rw [here, unasked, Bool.false_and, Bool.false_and]
        · simp only [List.mem_cons, here, false_or]

/-- Serving a set is serving its lines. -/
theorem serveRequests_ok (set : LineSet request clear) {l l' : Library δ} {a : Unit}
    (ran : serveRequests request clear serve l = .ok (a, l')) :
    ∃ m, (lines (request l)).forM serve l.machine = .ok ((), m) ∧ l' = clear 0 { l with machine := m } := by
  by_cases none : request l = 0
  · obtain rfl := serveRequests_none ran none
    refine ⟨l'.machine, ?_, none ▸ (set.same l').symm⟩
    have nothing : lines (request l') = [] := List.filter_eq_nil_iff.mpr fun i _ => by
      rw [none, has_zero_line]
      exact Bool.false_ne_true
    rw [nothing]
    rfl
  · rw [serveRequests, Programs.get_bind, if_pos none] at ran
    obtain ⟨m, left, served, rfl, lines⟩ := serveLines_ok set (List.nodup_finRange 32) ran
    have empty : left = 0 := zero_of_lines fun i => by
      rw [lines, decide_eq_true (List.mem_finRange i), Bool.not_true, Bool.and_false]
    exact ⟨m, served, by rw [empty]⟩

end

theorem setLines : LineSet (δ := δ) Library.extIntSet (fun left l => { l with extIntSet := left }) where
  read _ _ := rfl
  same _ := rfl
  again _ _ _ := rfl
  kept _ _ := rfl
  machine _ _ := rfl
  apart _ _ _ := rfl

theorem clrLines : LineSet (δ := δ) Library.extIntClr (fun left l => { l with extIntClr := left }) where
  read _ _ := rfl
  same _ := rfl
  again _ _ _ := rfl
  kept _ _ := rfl
  machine _ _ := rfl
  apart _ _ _ := rfl

/-! ### Raising and clearing lines -/

section
variable {c : Config δ}

/-- Requests raise lines, and queue the interrupts of those that were low. -/
structure RaisesLines (is : List (Fin 32)) (m m' : Machine δ) : Prop where
  level : ∀ i, pending m' i = (pending m i || decide (i ∈ is))
  mask : m'.sprs sprPicmr = m.sprs sprPicmr
  sr : m'.sr = m.sr
  kept : ∀ job ∈ jobs m.scheduler, job ∈ jobs m'.scheduler
  queued : ∀ i ∈ is, pending m i = false → has (m.sprs sprPicmr) (lineMask i) = true → has m.sr srIee = true →
    .picRepInt ∈ jobs m'.scheduler

theorem wake_other {r : SprNo} (other : r ≠ sprPmr) (m : Machine δ) : (wake m).sprs r = m.sprs r := if_neg other

theorem picsr_wake (m : Machine δ) : (wake m).sprs sprPicsr = m.sprs sprPicsr := wake_other (by decide) m

/-- The state behind a request for a line that is low. -/
def raised (a : Fin 32) (m : Machine δ) : Machine δ := setSpr sprPicsr ((wake m).sprs sprPicsr ||| lineMask a) (wake m)

theorem raised_other {r : SprNo} (pmr : r ≠ sprPmr) (picsr : r ≠ sprPicsr) (a : Fin 32) (m : Machine δ) :
    (raised a m).sprs r = m.sprs r := by
  have kept : (raised a m).sprs r = (wake m).sprs r := if_neg picsr
  rw [kept, wake_other pmr]

theorem raised_mask (a : Fin 32) (m : Machine δ) : (raised a m).sprs sprPicmr = m.sprs sprPicmr :=
  raised_other (by decide) (by decide) a m

theorem raised_sr (a : Fin 32) (m : Machine δ) : (raised a m).sr = m.sr := raised_other (r := sprSr) (by decide) (by decide) a m

theorem pending_raised (m : Machine δ) (a i : Fin 32) : pending (raised a m) i = (pending m i || decide (i ∈ [a])) := by
  have picsr : (raised a m).sprs sprPicsr = (wake m).sprs sprPicsr ||| lineMask a := setSpr_here sprPicsr _ (wake m)
  unfold pending
  rw [picsr, picsr_wake, has_or_line]
  simp only [List.mem_singleton]

theorem reportInterrupt_raises {a : Fin 32} {m m' : Machine δ} (enabled : c.picEnabled = true)
    (ran : reportInterrupt c a m = .ok ((), m')) :
    RaisesLines [a] m m' := by
  have mask : (wake m).sprs sprPicmr = m.sprs sprPicmr := wake_other (by decide) m
  have sr : (wake m).sr = m.sr := wake_other (by decide) m
  obtain ⟨off, -, -⟩ | ⟨⟨off, -⟩ | high, rfl⟩ | ⟨-, masked, iee, added⟩ | ⟨-, low, quiet, rfl⟩ := reportInterrupt_cases ran
  · rw [enabled] at off
    cases off
  · rw [enabled] at off
    cases off
  · -- The line is pending already, and stays so.
    rw [picsr_wake] at high
    have high : pending m a = true := high
    refine ⟨fun i => ?_, mask, sr, fun job queued => queued, fun i here low => ?_⟩
    · have same : pending (wake m) i = pending m i := by
        unfold pending
        rw [picsr_wake]
      rw [same]
      by_cases here : i = a
      · rw [here, high, Bool.true_or]
      · rw [decide_eq_false fun inside => here (List.mem_singleton.mp inside), Bool.or_false]
    · rw [List.mem_singleton.mp here, high] at low
      cases low
  · unfold schedAdd at added
    cases queue : Sched.schedAdd (raised a m).scheduler .picRepInt (Sched.int32 0) with
    | none =>
      rw [← raised, queue] at added
      cases added
    | some q =>
      rw [← raised, queue] at added
      obtain rfl : ({ raised a m with scheduler := q } : Machine δ) = m' := congrArg Prod.snd (Except.ok.inj added)
      have perm := Peripheral.jobs_schedAdd queue
      exact ⟨pending_raised m a, raised_mask a m, raised_sr a m, fun job inside => perm.mem_iff.mpr (List.mem_cons_of_mem _ inside),
        fun _ _ _ _ _ => perm.mem_iff.mpr List.mem_cons_self⟩
  · refine ⟨pending_raised m a, raised_mask a m, raised_sr a m, fun job inside => inside, fun i here _ masked iee => ?_⟩
    rw [List.mem_singleton.mp here] at masked
    rw [mask, sr, masked, iee] at quiet
    cases quiet

theorem RaisesLines.trans {a : Fin 32} {is : List (Fin 32)} {m n m' : Machine δ} (first : RaisesLines [a] m n)
    (rest : RaisesLines is n m') : RaisesLines (a :: is) m m' where
  level i := by
    rw [rest.level, first.level, Bool.or_assoc]
    simp only [List.mem_cons, List.not_mem_nil, or_false, Bool.decide_or]
  mask := rest.mask.trans first.mask
  sr := rest.sr.trans first.sr
  kept job inside := rest.kept job (first.kept job inside)
  queued i here low masked iee := by
    by_cases now : i = a
    · exact rest.kept _ (first.queued i (List.mem_singleton.mpr now) low masked iee)
    · refine rest.queued i ((List.mem_cons.mp here).resolve_left now) ?_ (first.mask ▸ masked) (first.sr ▸ iee)
      rw [first.level, low, decide_eq_false fun inside => now (List.mem_singleton.mp inside), Bool.false_or]

theorem raises_all {is : List (Fin 32)} {m m' : Machine δ} (enabled : c.picEnabled = true)
    (ran : is.forM (reportInterrupt c) m = .ok ((), m')) :
    RaisesLines is m m' := by
  induction is generalizing m with
  | nil =>
    obtain rfl : m = m' := congrArg Prod.snd (Except.ok.inj ran)
    exact ⟨fun i => by rw [decide_eq_false List.not_mem_nil, Bool.or_false], rfl, rfl, fun job inside => inside,
      fun i here => absurd here List.not_mem_nil⟩
  | cons a is ih =>
    obtain ⟨_, n, first, rest⟩ :=
      Programs.bind_ok (show (reportInterrupt c a >>= fun _ => is.forM (reportInterrupt c)) m = .ok ((), m') from ran)
    exact (reportInterrupt_raises enabled first).trans (ih rest)

theorem clears_all {is : List (Fin 32)} {m m' : Machine δ} (ran : is.forM clearInterrupt m = .ok ((), m')) :
    (∀ i, pending m' i = (pending m i && !decide (i ∈ is))) ∧ m'.scheduler = m.scheduler := by
  induction is generalizing m with
  | nil =>
    obtain rfl : m = m' := congrArg Prod.snd (Except.ok.inj ran)
    exact ⟨fun i => by rw [decide_eq_false List.not_mem_nil, Bool.not_false, Bool.and_true], rfl⟩
  | cons a is ih =>
    obtain ⟨_, n, first, rest⟩ :=
      Programs.bind_ok (show (clearInterrupt a >>= fun _ => is.forM clearInterrupt) m = .ok ((), m') from ran)
    obtain rfl : setSpr sprPicsr (m.sprs sprPicsr &&& ~~~lineMask a) m = n := congrArg Prod.snd (Except.ok.inj first)
    obtain ⟨level, scheduler⟩ := ih rest
    refine ⟨fun i => ?_, scheduler⟩
    have cleared : pending (setSpr sprPicsr (m.sprs sprPicsr &&& ~~~lineMask a) m) i = (pending m i && !decide (i = a)) :=
      has_remove_line (m.sprs sprPicsr) a i
    rw [level, cleared, Bool.and_assoc]
    simp only [List.mem_cons, Bool.decide_or, Bool.not_or]

/-! ### The calls for a line -/

@[simp] theorem lastCall_snoc (calls : List LevelCall) (call : LevelCall) (i : Fin 32) :
    lastCall (calls ++ [call]) i = if call.line = i then some call.raises else lastCall calls i := List.foldl_append

theorem lastCall_some {calls : List LevelCall} {i : Fin 32} {raises : Bool} (last : lastCall calls i = some raises) :
    ⟨raises, i⟩ ∈ calls := by
  induction calls using List.reverseRecOn with
  | nil => cases last
  | append_singleton calls call ih =>
    rw [lastCall_snoc] at last
    by_cases here : call.line = i
    · rw [if_pos here] at last
      obtain rfl := here
      obtain rfl := Option.some.inj last
      exact List.mem_append_right _ (List.mem_singleton_self _)
    · rw [if_neg here] at last
      exact List.mem_append_left _ (ih last)

theorem lastCall_none {calls : List LevelCall} {i : Fin 32} (none : lastCall calls i = none) (raises : Bool) : ⟨raises, i⟩ ∉ calls := by
  induction calls using List.reverseRecOn with
  | nil => exact List.not_mem_nil
  | append_singleton calls call ih =>
    rw [lastCall_snoc] at none
    by_cases here : call.line = i
    · rw [if_pos here] at none
      cases none
    · rw [if_neg here] at none
      intro inside
      obtain before | now := List.mem_append.mp inside
      · exact ih none before
      · exact here (congrArg LevelCall.line (List.mem_singleton.mp now)).symm

theorem externalInterrupts_ok {l l' : Library δ} (enabled : c.picEnabled = true) (ran : externalInterrupts c l = .ok ((), l')) :
    ∃ mid, RaisesLines (lines l.extIntSet) l.machine mid ∧
      (∀ i, pending l'.machine i = (pending mid i && !decide (i ∈ lines l.extIntClr))) ∧ l'.machine.scheduler = mid.scheduler := by
  obtain ⟨_, between, first, rest⟩ := Programs.bind_ok ran
  obtain ⟨mid, set, rfl⟩ := serveRequests_ok setLines first
  obtain ⟨m, clr, rfl⟩ := serveRequests_ok clrLines rest
  obtain ⟨level, scheduler⟩ := clears_all clr
  exact ⟨mid, raises_all enabled set, level, scheduler⟩

theorem externalInterrupts_served {l l' : Library δ} (ran : externalInterrupts c l = .ok ((), l')) :
    l'.extIntSet = 0 ∧ l'.extIntClr = 0 := by
  obtain ⟨_, between, first, rest⟩ := Programs.bind_ok ran
  obtain ⟨mid, -, rfl⟩ := serveRequests_ok setLines first
  obtain ⟨m, -, rfl⟩ := serveRequests_ok clrLines rest
  exact ⟨rfl, rfl⟩

/-- The sets hold the lines that there was a call for. -/
theorem Asked.sets {calls : List LevelCall} {l : Library δ} (asked : Asked c calls l) (level : c.picEdgeTrigger = false) :
    (∀ i, has l.extIntSet (lineMask i) = decide (⟨true, i⟩ ∈ calls)) ∧ ∀ i,
      has l.extIntClr (lineMask i) = decide (⟨false, i⟩ ∈ calls) := by
  have none : ∀ {l : Library δ}, l.extIntSet = 0 → l.extIntClr = 0 →
    (∀ i, has l.extIntSet (lineMask i) = decide (⟨true, i⟩ ∈ ([] : List LevelCall))) ∧
      ∀ i, has l.extIntClr (lineMask i) = decide (⟨false, i⟩ ∈ ([] : List LevelCall)) := fun set clr =>
    ⟨fun i => by rw [set, has_zero_line, decide_eq_false List.not_mem_nil],
      fun i => by rw [clr, has_zero_line, decide_eq_false List.not_mem_nil]⟩
  induction asked with
  | start set clr => exact none set clr
  | @call calls l _ call ih =>
    obtain ⟨set, clr⟩ := ih
    obtain ⟨raises, line⟩ := call
    cases raises with
    | true =>
      have made : LevelCall.make c l ⟨true, line⟩ = { l with extIntSet := l.extIntSet ||| lineMask line } := by
        rw [LevelCall.make, if_pos rfl, or1ksimInterruptSet, level, if_neg Bool.false_ne_true]
      rw [made]
      refine ⟨fun i => ?_, fun i => ?_⟩
      · rw [has_or_line, set]
        simp only [List.mem_append, List.mem_singleton, LevelCall.mk.injEq, true_and, Bool.decide_or]
      · rw [clr]
        simp only [List.mem_append, List.mem_singleton, LevelCall.mk.injEq, Bool.false_eq_true, false_and, or_false]
    | false =>
      have made : LevelCall.make c l ⟨false, line⟩ = { l with extIntClr := l.extIntClr ||| lineMask line } := by
        rw [LevelCall.make, if_neg Bool.false_ne_true, or1ksimInterruptClear, level, if_neg Bool.false_ne_true]
      rw [made]
      refine ⟨fun i => ?_, fun i => ?_⟩
      · rw [set]
        simp only [List.mem_append, List.mem_singleton, LevelCall.mk.injEq, Bool.true_eq_false, false_and, or_false]
      · rw [has_or_line, clr]
        simp only [List.mem_append, List.mem_singleton, LevelCall.mk.injEq, true_and, Bool.decide_or]
  | goesOn _ _ _ ih => exact ih
  | served _ ran =>
    obtain ⟨set, clr⟩ := externalInterrupts_served ran
    exact none set clr

/-- An iteration of the loop that goes on serves the requests. -/
theorem Asked.iteration {calls : List LevelCall} {l l' : Library δ} {rc : Option ReturnCode} {fuel : Nat} (asked : Asked c calls l)
    (ran : runIteration c fuel l = .ok (rc, l')) : ∃ calls', Asked c calls' l' ∧ (rc = none → calls' = []) := by
  rw [runIteration, Programs.get_bind] at ran
  obtain ⟨code, mid, clocked, rest⟩ := Programs.bind_ok ran
  obtain ⟨m, -, rfl⟩ := onMachine_ok clocked
  cases code with
  | some code =>
    cases rest
    exact ⟨calls, asked.goesOn m l.endCycles, fun none => absurd none (Option.some_ne_none code)⟩
  | none =>
    obtain ⟨_, counted, first, rest⟩ := Programs.bind_ok rest
    obtain ⟨m, -, rfl⟩ := onMachine_ok first
    obtain ⟨_, set, raised, rest⟩ := Programs.bind_ok rest
    obtain ⟨_, clr, cleared, rest⟩ := Programs.bind_ok rest
    obtain ⟨_, settled, last, rest⟩ := Programs.bind_ok rest
    obtain ⟨m', -, rfl⟩ := onMachine_ok last
    cases rest
    have served : externalInterrupts c { l with machine := m } = .ok ((), clr) := (Programs.bind_of_ok raised).trans cleared
    exact ⟨[], ((asked.goesOn m l.endCycles).served served).goesOn m' clr.endCycles, fun _ => rfl⟩

/-- The last call for a line wins exactly when no line whose last call is a set was cleared before. -/
theorem last_wins_iff {calls : List LevelCall} {l l' : Library δ} (asked : Asked c calls l) (level : c.picEdgeTrigger = false)
    (enabled : c.picEnabled = true) (ran : externalInterrupts c l = .ok ((), l')) :
    LastWins calls l.machine l'.machine ↔ ∀ i, lastCall calls i = some true → ⟨false, i⟩ ∉ calls := by
  obtain ⟨set, clr⟩ := asked.sets level
  obtain ⟨mid, raises, cleared, scheduler⟩ := externalInterrupts_ok enabled ran
  have after : ∀ i, pending l'.machine i = ((pending l.machine i || decide (⟨true, i⟩ ∈ calls)) && !decide (⟨false, i⟩ ∈ calls)) :=
      fun i => by
    rw [cleared, raises.level]
    simp only [mem_lines, set, clr, decide_eq_true_eq]
  constructor
  · intro wins i last inside
    have high := wins.level i
    rw [last, after, decide_eq_true inside, Bool.not_true, Bool.and_false] at high
    cases high
  · intro fine
    refine ⟨fun i => ?_, fun i low high masked iee => ?_⟩
    · rw [after]
      cases last : lastCall calls i with
      | none =>
        rw [decide_eq_false (lastCall_none last true), decide_eq_false (lastCall_none last false), Bool.or_false, Bool.not_false,
          Bool.and_true, Option.getD_none]
      | some raises =>
        cases raises with
        | true =>
          rw [decide_eq_true (lastCall_some last), decide_eq_false (fine i last), Bool.or_true, Bool.not_false, Bool.and_true,
            Option.getD_some]
        | false => rw [decide_eq_true (lastCall_some last), Bool.not_true, Bool.and_false, Option.getD_some]
    · -- A line that was low and is high is one of those that were raised.
      rw [after, low, Bool.false_or, Bool.and_eq_true_iff] at high
      rw [scheduler]
      exact raises.queued i (mem_lines.mpr ((set i).trans high.1)) low masked iee

end

/-! ### Two calls for a line -/

def levelConfig : Config (Word → Word) := { Config.bare [] [] with picEdgeTrigger := false }

/-- Interrupts are enabled, and so is line 3. -/
def levelLibrary : Library (Word → Word) where
  machine := { Machine.bare (fun _ => 0) 0 0x2000 with
    sprs := fun r => if r = sprSr then srIee else if r = sprPicmr then lineMask 3 else 0 }
  endCycles := 0
  extIntSet := 0
  extIntClr := 0

theorem levelLibrary_asked (calls : List LevelCall) :
    Asked levelConfig calls (calls.foldl (LevelCall.make levelConfig) levelLibrary) := by
  induction calls using List.reverseRecOn with
  | nil => exact .start rfl rfl
  | append_singleton calls call ih =>
    rw [List.foldl_append]
    exact ih.call call

/-- Line 3 is raised, and line 5 raised and cleared again. -/
theorem last_wins_iff_raised :
    ∃ l', externalInterrupts levelConfig ([⟨true, 3⟩, ⟨true, 5⟩, ⟨false, 5⟩].foldl (LevelCall.make levelConfig) levelLibrary) =
      .ok ((), l') ∧
    LastWins [⟨true, 3⟩, ⟨true, 5⟩, ⟨false, 5⟩] levelLibrary.machine l'.machine := by
  have seen : (externalInterrupts levelConfig ([⟨true, 3⟩, ⟨true, 5⟩, ⟨false, 5⟩].foldl
      (LevelCall.make levelConfig) levelLibrary)).isOk = true := by
    decide +kernel
  cases ran : externalInterrupts levelConfig ([⟨true, 3⟩, ⟨true, 5⟩, ⟨false, 5⟩].foldl (LevelCall.make levelConfig) levelLibrary) with
  | error e =>
    rw [ran] at seen
    cases seen
  | ok r => exact ⟨r.2, rfl, (last_wins_iff (levelLibrary_asked _) rfl rfl ran).mpr (by decide)⟩

/-- A line that is cleared and then raised stays low. -/
theorem raised_line_lost : ¬ ∀ (calls : List LevelCall) (l l' : Library (Word → Word)), Asked levelConfig calls l →
    externalInterrupts levelConfig l = .ok ((), l') → LastWins calls l.machine l'.machine := by
  intro claim
  have seen : (externalInterrupts levelConfig ([⟨false, 3⟩, ⟨true, 3⟩].foldl (LevelCall.make levelConfig) levelLibrary)).toOption.map
      (fun r => pending r.2.machine 3) = some false := by decide +kernel
  cases ran : externalInterrupts levelConfig ([⟨false, 3⟩, ⟨true, 3⟩].foldl (LevelCall.make levelConfig) levelLibrary) with
  | error e =>
    rw [ran] at seen
    cases seen
  | ok r =>
    rw [ran] at seen
    have high : pending r.2.machine 3 = true := (claim _ _ _ (levelLibrary_asked _) ran).level 3
    have low : pending r.2.machine 3 = false := Option.some.inj seen
    exact Bool.noConfusion (high.symm.trans low)

end Or1ksim.Cpu
