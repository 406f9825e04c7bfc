import Or1ksim.Sched.Exact

/-!
# The scheduler is a timed queue

`TimedQueue` says what the scheduler is for: jobs with absolute deadlines, handed over in deadline
order once they are due. `State` is the scheduler of `sched.c` with the clock of `exec_main`, and a
run is any sequence of `sched_add` and `sched_find_remove` calls, clock advances and passes, whose
jobs make such calls in their turn. The delta queue refines the timed queue as long as the guard is
never handed over as the only job and no time leaves the range of `int32_t`.
-/

namespace Or1ksim.Sched

open DeltaList

/-- What the code does between two points of a run. A pass of `do_scheduler` is a `pop`, the calls
its job makes, a further `pop` and so on, and a `ret`. -/
inductive Act (J : Type) where
  | add (job : J) (jobTime : Int)
  | findRemove (job : J)
  | advance (cycles : Nat)
  | pop
  | ret
  deriving DecidableEq, Repr

/-! ### The abstract queue -/

/-- Jobs with their deadlines, earliest first, and what the pass under way has handed over. -/
structure TimedQueue (J : Type) where
  now : Int
  jobs : List (Timed (Slot J))
  inPass : Bool
  ran : List (Timed (Slot J))

variable {J : Type}

/-- `jobs` with one further job, in front of the first that is not earlier. -/
def withJob (x : Timed (Slot J)) (jobs : List (Timed (Slot J))) : List (Timed (Slot J)) :=
  before x.time jobs ++ x :: since x.time jobs

section
variable [DecidableEq J] (guard : J)

/-- The steps of a timed queue. The guard puts itself back when it is handed over. -/
inductive TimedQueue.Step : Act J → TimedQueue J → TimedQueue J → Prop where
  | add (a : TimedQueue J) (job : J) (jobTime : Int) (cell : Nat) (fresh : ∀ x ∈ a.jobs, x.item.cell ≠ cell) :
      Step (.add job jobTime) a { a with jobs := withJob ⟨⟨cell, job⟩, a.now + jobTime⟩ a.jobs }
  | findRemove (a : TimedQueue J) (job : J) :
      Step (.findRemove job) a { a with jobs := a.jobs.eraseP fun x => holds job x.item }
  | advance (a : TimedQueue J) (cycles : Nat) :
      Step (.advance cycles) a { a with now := a.now + cycles }
  | pop (a : TimedQueue J) (x : Timed (Slot J)) (rest : List (Timed (Slot J)))
      (first : a.jobs = x :: rest) (due : x.time ≤ a.now) (least : ∀ y ∈ rest, x.time ≤ y.time) :
      Step .pop a
        { a with
          jobs := if x.item.job = guard then withJob ⟨x.item, a.now + schedTimeMax⟩ rest else rest
          inPass := true
          ran := (if a.inPass then a.ran else []) ++ [x] }
  | ret (a : TimedQueue J) (none : ∀ x ∈ a.jobs, a.now < x.time) :
      Step .ret a { a with inPass := false }

/-! ### The scheduler and the clock -/

/-- `ran` is history: the entries the pass under way has handed over, with their deadlines. -/
structure State (J : Type) where
  sched : Scheduler J
  now : Int
  inPass : Bool
  ran : List (Timed (Slot J))
  deriving DecidableEq, Repr

/-- The deadlines: the prefix sums of the queue's times, counted from now. -/
def State.deadlines (s : State J) : List (Timed (Slot J)) := absolute s.now s.sched.jobQueue

def State.abstract (s : State J) : TimedQueue J :=
  { now := s.now, jobs := s.deadlines, inPass := s.inPass, ran := s.ran }

def initial : Option (State J) :=
  (schedInit guard).map fun sched => { sched, now := 0, inPass := false, ran := [] }

/-- What a job does when it is handed over, as far as it is fixed by `sched.c`: the guard runs
`sched_guard`, any other job makes the calls that follow it in the run. -/
def handOver (job : J) (s : Scheduler J) : Option (Scheduler J) :=
  if job = guard then schedGuard guard s else some s

def step (s : State J) : Act J → Option (State J)
  | .add job jobTime => (schedAdd s.sched job jobTime).map fun sched => { s with sched }
  | .findRemove job => some { s with sched := schedFindRemove s.sched job }
  | .advance cycles => some { s with sched := advance s.sched cycles, now := s.now + cycles }
  | .pop =>
    (popJob s.sched).bind fun popped =>
      (handOver guard popped.1.item.job popped.2).map fun sched =>
        { sched
          now := s.now
          inPass := true
          ran := (if s.inPass then s.ran else []) ++ [⟨popped.1.item, s.now + popped.1.time⟩] }
  | .ret => s.sched.headTime.map fun _ => { s with inPass := false }

def run (s : State J) : List (Act J) → Option (State J)
  | [] => some s
  | act :: rest => (step guard s act).bind fun t => run t rest

/-- What the callers see to: times are nonnegative and the free list is not exhausted, nobody but
`sched.c` can name the guard, the clock stands still during a pass, a pass starts and goes on while
the head's time is not positive and returns when it is. -/
def Legal (s : State J) : Act J → Prop
  | .add _ jobTime => 0 ≤ jobTime ∧ jobTime ≤ int32Max ∧ s.sched.freeJobQueue ≠ []
  | .findRemove job => job ≠ guard
  | .advance _ => s.inPass = false
  | .pop => ∃ t ∈ s.sched.headTime, t ≤ 0
  | .ret => s.inPass = true ∧ ∃ t ∈ s.sched.headTime, 0 < t

/-- The condition on a step: a job that is handed over leaves another one in the queue, and every
time the step stores fits in an `int32_t`. -/
def Clean (s : State J) : Act J → Prop
  | .add job jobTime => ∀ cell ∈ s.sched.freeJobQueue.head?, Fits (insertAt jobTime ⟨cell, job⟩ s.sched.jobQueue)
  | .findRemove job => Fits (eraseFirst (holds job) s.sched.jobQueue)
  | .advance cycles => Fits (shift (-cycles) s.sched.jobQueue)
  | .pop => ∀ tmp ∈ s.sched.jobQueue.head?, s.sched.jobQueue.tail ≠ [] ∧
      (tmp.item.job = guard →
        Fits (insertAt schedTimeMax tmp.item (shift tmp.time s.sched.jobQueue.tail)))
  | .ret => True

def LegalRun (s : State J) : List (Act J) → Prop
  | [] => True
  | act :: rest => Legal guard s act ∧ ∀ t ∈ step guard s act, LegalRun t rest

def CleanRun (s : State J) : List (Act J) → Prop
  | [] => True
  | act :: rest => Legal guard s act ∧ Clean guard s act ∧ ∀ t ∈ step guard s act, CleanRun t rest

instance (s : State J) : (act : Act J) → Decidable (Legal guard s act)
  | .add _ _ => inferInstanceAs (Decidable (_ ∧ _ ∧ _))
  | .findRemove _ => inferInstanceAs (Decidable (_ ≠ _))
  | .advance _ => inferInstanceAs (Decidable (_ = _))
  | .pop => inferInstanceAs (Decidable (∃ t ∈ s.sched.headTime, t ≤ 0))
  | .ret => inferInstanceAs (Decidable (_ ∧ ∃ t ∈ s.sched.headTime, 0 < t))

instance (s : State J) : (act : Act J) → Decidable (Clean guard s act)
  | .add job jobTime => inferInstanceAs (Decidable
      (∀ cell ∈ s.sched.freeJobQueue.head?, Fits (insertAt jobTime ⟨cell, job⟩ s.sched.jobQueue)))
  | .findRemove _ => inferInstanceAs (Decidable (Fits _))
  | .advance _ => inferInstanceAs (Decidable (Fits _))
  | .pop => inferInstanceAs (Decidable (∀ tmp ∈ s.sched.jobQueue.head?, s.sched.jobQueue.tail ≠ [] ∧
      (tmp.item.job = guard → Fits (insertAt schedTimeMax tmp.item (shift tmp.time s.sched.jobQueue.tail)))))
  | .ret => inferInstanceAs (Decidable True)

instance decidableLegalRun : (s : State J) → (acts : List (Act J)) → Decidable (LegalRun guard s acts)
  | _, [] => inferInstanceAs (Decidable True)
  | s, act :: rest =>
    have (t : State J) := decidableLegalRun t rest
    inferInstanceAs (Decidable (Legal guard s act ∧ ∀ t ∈ step guard s act, LegalRun guard t rest))

instance decidableCleanRun : (s : State J) → (acts : List (Act J)) → Decidable (CleanRun guard s acts)
  | _, [] => inferInstanceAs (Decidable True)
  | s, act :: rest =>
    have (t : State J) := decidableCleanRun t rest
    inferInstanceAs (Decidable (Legal guard s act ∧ Clean guard s act ∧
      ∀ t ∈ step guard s act, CleanRun guard t rest))

/-! ### The invariant -/

structure Good (s : State J) : Prop where
  /-- Every time after the head's is nonnegative. -/
  increasing : Increasing s.sched.jobQueue
  fits : Fits s.sched.jobQueue
  sums : Fits (absolute 0 s.sched.jobQueue)
  guarded : ∃ e ∈ s.sched.jobQueue, e.item.job = guard
  /-- No cell is lost or duplicated between the two lists. -/
  conserved : (cells s.sched.jobQueue ++ s.sched.freeJobQueue).Perm (List.range schedHeapSize)
  /-- The pass under way has handed over due jobs only, in deadline order. -/
  ordered : s.inPass = true → s.ran.Pairwise (fun x y => x.time ≤ y.time) ∧
    (∀ x ∈ s.ran, x.time ≤ s.now) ∧ ∀ x ∈ s.ran, ∀ y ∈ s.deadlines, x.time ≤ y.time

/-! ### One step -/

/-- What a legal and clean step gives: no null pointer is followed, the invariant holds again, and
the timed queue makes the same step. -/
def Refines (s : State J) (act : Act J) : Prop :=
  ∃ t, step guard s act = some t ∧ Good guard t ∧ TimedQueue.Step guard act s.abstract t.abstract

variable {guard}

variable {s : State J}

omit [DecidableEq J] in
theorem Good.queued (good : Good guard s) : s.sched.jobQueue ≠ [] := by
  obtain ⟨e, member, _⟩ := good.guarded
  exact List.ne_nil_of_mem member

omit [DecidableEq J] in
theorem mem_item_absolute (base : Int) {q : List (Entry J)} {slot : Slot J} :
    (∃ e ∈ absolute base q, e.item = slot) ↔ ∃ e ∈ q, e.item = slot := by
  rw [← List.mem_map, map_item_absolute, List.mem_map]

omit [DecidableEq J] in
theorem mem_item_shift {d : Int} {q : List (Entry J)} {slot : Slot J} :
    (∃ e ∈ shift d q, e.item = slot) ↔ ∃ e ∈ q, e.item = slot := by
  rw [← mem_item_absolute 0, absolute_shift, mem_item_absolute]

theorem add_refines {job : J} {jobTime : Int} (good : Good guard s)
    (legal : Legal guard s (.add job jobTime)) (clean : Clean guard s (.add job jobTime)) :
    Refines guard s (.add job jobTime) := by
  obtain ⟨nonneg, bounded, notExhausted⟩ := legal
  obtain ⟨newJob, free, freeCell⟩ := List.exists_cons_of_ne_nil notExhausted
  have fits := clean newJob (by simp [freeCell])
  have added := schedAdd_eq_insertAt good.queued freeCell nonneg good.sums fits
  have jobs : absolute s.now (insertAt jobTime ⟨newJob, job⟩ s.sched.jobQueue) =
      withJob ⟨⟨newJob, job⟩, s.now + jobTime⟩ s.deadlines := absolute_insertAt _ _ _ _
  refine ⟨_, by rw [step, added]; rfl, ?_, ?_⟩
  · refine ⟨increasing_insertAt good.increasing, fits,
      fits_absolute_insertAt good.sums nonneg bounded, guard_insertAt (Or.inr good.guarded), ?_, ?_⟩
    · have perm := (cells_insertAt jobTime ⟨newJob, job⟩ s.sched.jobQueue).append_right free
      have conserved := good.conserved
      rw [freeCell] at conserved
      exact (perm.trans List.perm_middle.symm).trans conserved
    · intro inPass
      obtain ⟨pairwise, due, below⟩ := good.ordered inPass
      refine ⟨pairwise, due, fun x member y later => ?_⟩
      rw [State.deadlines, jobs, withJob, (before_since_perm _ _ _).mem_iff] at later
      rcases List.mem_cons.mp later with rfl | old
      · have := due x member
        dsimp only
        omega
      · exact below x member y old
  · have fresh : ∀ x ∈ s.abstract.jobs, x.item.cell ≠ newJob := by
      intro x member same
      have nodup := (good.conserved.nodup_iff).mpr (List.nodup_range)
      rw [freeCell, List.nodup_append] at nodup
      obtain ⟨e, queued, item⟩ := (mem_item_absolute _).mp ⟨x, member, Eq.refl x.item⟩
      exact nodup.2.2 e.item.cell (List.mem_map_of_mem queued) newJob (by simp) (by rw [item, same])
    have made : TimedQueue.Step guard _ _ _ := .add s.abstract job jobTime newJob fresh
    simpa [State.abstract, State.deadlines, jobs] using made

theorem findRemove_refines {job : J} (good : Good guard s)
    (legal : Legal guard s (.findRemove job)) (clean : Clean guard s (.findRemove job)) :
    Refines guard s (.findRemove job) := by
  have erased : (schedFindRemove s.sched job).jobQueue = eraseFirst (holds job) s.sched.jobQueue ∧
      (cells (schedFindRemove s.sched job).jobQueue ++ (schedFindRemove s.sched job).freeJobQueue).Perm
        (cells s.sched.jobQueue ++ s.sched.freeJobQueue) := by
    unfold schedFindRemove
    cases found : findRemove job s.sched.jobQueue with
    | none => exact ⟨(findRemove_none found).1.symm, List.Perm.refl _⟩
    | some result =>
      obtain ⟨same, perm⟩ := findRemove_some clean found
      exact ⟨same, List.perm_middle.trans (perm.symm.append_right _)⟩
  obtain ⟨queue, perm⟩ := erased
  have jobs : absolute s.now (eraseFirst (holds job) s.sched.jobQueue) =
      s.deadlines.eraseP fun x => holds job x.item := absolute_eraseFirst _ _ _
  have kept : ∃ e ∈ eraseFirst (holds job) s.sched.jobQueue, e.item.job = guard := by
    obtain ⟨e, member, isGuard⟩ := good.guarded
    obtain ⟨x, queued, item⟩ := (mem_item_absolute s.now).mpr ⟨e, member, Eq.refl e.item⟩
    have other : holds job x.item = false := by
      simp only [holds, item, isGuard, decide_eq_false_iff_not]
      exact fun same => legal same.symm
    have stays : x ∈ s.deadlines.eraseP (fun x => holds job x.item) :=
      (List.mem_eraseP_of_neg (by simp [other])).mpr queued
    rw [← jobs] at stays
    obtain ⟨f, present, same⟩ := (mem_item_absolute _).mp ⟨x, stays, Eq.refl x.item⟩
    exact ⟨f, present, by rw [same, item, isGuard]⟩
  refine ⟨_, rfl, ⟨?_, ?_, ?_, ?_, perm.trans good.conserved, ?_⟩, ?_⟩
  · dsimp only; rw [queue]; exact increasing_eraseFirst good.increasing
  · dsimp only; rw [queue]; exact clean
  · dsimp only
    rw [queue]
    intro e member
    rw [absolute_eraseFirst] at member
    exact good.sums e (List.mem_of_mem_eraseP member)
  · dsimp only; rw [queue]; exact kept
  · intro inPass
    obtain ⟨pairwise, due, below⟩ := good.ordered inPass
    refine ⟨pairwise, due, fun x member y later => ?_⟩
    simp only [State.deadlines, queue, jobs] at later
    exact below x member y (List.mem_of_mem_eraseP later)
  · have made : TimedQueue.Step guard _ _ _ := .findRemove s.abstract job
    simpa [State.abstract, State.deadlines, queue, jobs] using made

theorem advance_refines {cycles : Nat} (good : Good guard s)
    (legal : Legal guard s (.advance cycles)) (clean : Clean guard s (.advance cycles)) :
    Refines guard s (.advance cycles) := by
  have queue : (advance s.sched cycles).jobQueue = shift (-cycles) s.sched.jobQueue :=
    addTime_eq_shift clean
  have jobs : absolute (s.now + cycles) (shift (-cycles) s.sched.jobQueue) = s.deadlines := by
    rw [absolute_shift, Int.add_neg_cancel_right, State.deadlines]
  refine ⟨_, rfl, ⟨?_, ?_, ?_, ?_, ?_, ?_⟩, ?_⟩
  · dsimp only; rw [queue]; exact increasing_shift.mpr good.increasing
  · dsimp only; rw [queue]; exact clean
  · dsimp only; rw [queue]; exact fits_absolute_shift good.increasing good.sums clean
  · obtain ⟨e, member, isGuard⟩ := good.guarded
    obtain ⟨f, queued, same⟩ := (mem_item_shift (d := -cycles)).mpr ⟨e, member, Eq.refl e.item⟩
    exact ⟨f, by dsimp only; rw [queue]; exact queued, by rw [same, isGuard]⟩
  · dsimp only
    rw [queue, cells_shift]
    exact good.conserved
  · intro inPass
    exact absurd inPass (by simp only [Legal] at legal; simp [legal])
  · have made : TimedQueue.Step guard _ _ _ := .advance s.abstract cycles
    simpa [State.abstract, State.deadlines, queue, jobs] using made

/-! ### Handing a job over -/

section
omit [DecidableEq J]

variable {tmp : Entry J} {rest : List (Entry J)}

theorem popJob_eq (good : Good guard s) (queue : s.sched.jobQueue = tmp :: rest) (more : rest ≠ []) :
    popJob s.sched = some (tmp, { jobQueue := shift tmp.time rest
                                  freeJobQueue := tmp.item.cell :: s.sched.freeJobQueue }) := by
  have fits := good.fits
  have sums := good.sums
  rw [queue] at fits sums
  obtain ⟨next, others, rfl⟩ := List.exists_cons_of_ne_nil more
  simp only [popJob, queue]
  rw [addTime_eq_shift (fits_shift_tail fits sums)]

theorem absolute_popped (base : Int) :
    absolute base (shift tmp.time rest) = absolute (base + tmp.time) rest :=
  absolute_shift _ _ _

theorem sums_popped (sums : Fits (absolute 0 (tmp :: rest))) :
    Fits (absolute 0 (shift tmp.time rest)) := by
  intro e member
  rw [absolute_popped] at member
  exact sums e (List.mem_cons_of_mem _ member)

/-- What the pass has handed over stays in deadline order with `tmp` behind it. -/
theorem ordered_popped (good : Good guard s) (queue : s.sched.jobQueue = tmp :: rest)
    (due : tmp.time ≤ 0) {later : List (Timed (Slot J))}
    (bounded : ∀ y ∈ later, y.time ≥ s.now + tmp.time) :
    let ran := (if s.inPass then s.ran else []) ++ [⟨tmp.item, s.now + tmp.time⟩]
    ran.Pairwise (fun x y => x.time ≤ y.time) ∧ (∀ x ∈ ran, x.time ≤ s.now) ∧
      ∀ x ∈ ran, ∀ y ∈ later, x.time ≤ y.time := by
  have head : (⟨tmp.item, s.now + tmp.time⟩ : Timed (Slot J)) ∈ s.deadlines := by
    simp [State.deadlines, queue]
  have old : ∀ x ∈ (if s.inPass then s.ran else []), x.time ≤ s.now + tmp.time := by
    intro x member
    split at member
    case isTrue inPass => exact (good.ordered inPass).2.2 x member _ head
    case isFalse => simp at member
  have pairwise : (if s.inPass then s.ran else []).Pairwise fun x y => x.time ≤ y.time := by
    split
    case isTrue inPass => exact (good.ordered inPass).1
    case isFalse => exact List.Pairwise.nil
  have all : ∀ x ∈ (if s.inPass then s.ran else []) ++ [⟨tmp.item, s.now + tmp.time⟩],
      x.time ≤ s.now + tmp.time := by
    intro x member
    rcases List.mem_append.mp member with member | member
    · exact old x member
    · obtain rfl := List.mem_singleton.mp member
      exact Int.le_refl _
  refine ⟨?_, ?_, ?_⟩
  · refine List.pairwise_append.mpr ⟨pairwise, by simp, fun x member y last => ?_⟩
    rw [List.mem_singleton.mp last]
    exact old x member
  · intro x member
    have := all x member
    omega
  · intro x member y present
    have := all x member
    have := bounded y present
    omega

/-- The job behind the head is the guard when the head is not. -/
theorem guarded_popped (good : Good guard s) (queue : s.sched.jobQueue = tmp :: rest)
    (other : tmp.item.job ≠ guard) : ∃ e ∈ shift tmp.time rest, e.item.job = guard := by
  obtain ⟨e, member, isGuard⟩ := good.guarded
  rw [queue] at member
  rcases List.mem_cons.mp member with rfl | member
  · exact absurd isGuard other
  · obtain ⟨f, queued, same⟩ := (mem_item_shift (d := tmp.time)).mpr ⟨e, member, Eq.refl e.item⟩
    exact ⟨f, queued, by rw [same, isGuard]⟩

end

theorem pop_refines (good : Good guard s) (legal : Legal guard s .pop) (clean : Clean guard s .pop) :
    Refines guard s .pop := by
  obtain ⟨time, head, due⟩ := legal
  obtain ⟨tmp, rest, queue⟩ := List.exists_cons_of_ne_nil good.queued
  have more : rest ≠ [] := by
    have := (clean tmp (by simp [queue])).1
    rwa [queue] at this
  obtain rfl : tmp.time = time := by simpa [Scheduler.headTime, queue] using head
  have increasing := good.increasing
  have fits := good.fits
  have sums := good.sums
  have conserved := good.conserved
  rw [queue] at increasing fits sums conserved
  have popIncreasing : Increasing (shift tmp.time rest) :=
    increasing_shift.mpr fun e member => increasing e (List.mem_of_mem_tail member)
  have popFits : Fits (shift tmp.time rest) := fits_shift_tail fits sums
  have deadlines : s.deadlines = ⟨tmp.item, s.now + tmp.time⟩ :: absolute (s.now + tmp.time) rest := by
    rw [State.deadlines, queue, absolute_cons]
  have least : ∀ y ∈ absolute (s.now + tmp.time) rest, s.now + tmp.time ≤ y.time :=
    base_le_absolute increasing
  have made : TimedQueue.Step guard _ _ _ := .pop s.abstract _ _ deadlines
    (by simp only [State.abstract]; omega) least
  by_cases isGuard : tmp.item.job = guard
  · have inserted := (clean tmp (by simp [queue])).2 isGuard
    rw [queue, List.tail_cons] at inserted
    have positive : 0 ≤ schedTimeMax := by decide
    have slot : tmp.item = ⟨tmp.item.cell, guard⟩ := by rw [← isGuard]
    have again : schedGuard guard
        { jobQueue := shift tmp.time rest
          freeJobQueue := tmp.item.cell :: s.sched.freeJobQueue } =
        some { jobQueue := insertAt schedTimeMax tmp.item (shift tmp.time rest)
               freeJobQueue := s.sched.freeJobQueue } := by
      rw [slot] at inserted ⊢
      obtain ⟨next, others, rfl⟩ := List.exists_cons_of_ne_nil more
      exact schedAdd_eq_insertAt
        (s := { jobQueue := shift tmp.time (next :: others), freeJobQueue := _ })
        (List.cons_ne_nil _ _) rfl positive (sums_popped sums) inserted
    have jobs : absolute s.now (insertAt schedTimeMax tmp.item (shift tmp.time rest)) =
        withJob ⟨tmp.item, s.now + schedTimeMax⟩ (absolute (s.now + tmp.time) rest) := by
      rw [absolute_insertAt, absolute_popped, withJob]
    refine ⟨_, by
      simp only [step, popJob_eq good queue more, handOver, isGuard, if_pos, Option.bind_some, again]
      exact rfl, ⟨increasing_insertAt popIncreasing, inserted,
      fits_absolute_insertAt (sums_popped sums) positive (Int.le_refl _),
      guard_insertAt (Or.inl isGuard), ?_, fun _ => ordered_popped good queue due ?_⟩, ?_⟩
    · refine List.Perm.trans ?_ conserved
      refine ((cells_insertAt _ _ _).append_right _).trans ?_
      rw [cells_shift]
      exact List.Perm.refl _
    · intro y member
      rw [State.deadlines, jobs, withJob, (before_since_perm _ _ _).mem_iff] at member
      rcases List.mem_cons.mp member with rfl | member
      · dsimp only
        omega
      · exact least y member
    · rw [if_pos isGuard] at made
      dsimp only [State.abstract] at made
      rw [← jobs] at made
      exact made
  · refine ⟨_, by
      simp only [step, popJob_eq good queue more, handOver, if_neg isGuard, Option.bind_some]
      exact rfl, ⟨popIncreasing, popFits, sums_popped sums, guarded_popped good queue isGuard, ?_,
      fun _ => ordered_popped good queue due ?_⟩, ?_⟩
    · dsimp only
      rw [cells_shift]
      exact List.perm_middle.trans conserved
    · intro y member
      rw [State.deadlines, absolute_popped] at member
      exact least y member
    · rw [if_neg isGuard] at made
      rw [← absolute_popped] at made
      exact made

theorem ret_refines (good : Good guard s) (legal : Legal guard s .ret) :
    Refines guard s .ret := by
  obtain ⟨_, time, head, positive⟩ := legal
  obtain ⟨⟨queue, free⟩, now, inPass, ran⟩ := s
  cases queue with
  | nil => simp [Scheduler.headTime] at head
  | cons cur rest =>
    obtain rfl : cur.time = time := by simpa [Scheduler.headTime] using head
    refine ⟨_, rfl, ⟨good.increasing, good.fits, good.sums, good.guarded, good.conserved, by simp⟩, ?_⟩
    refine TimedQueue.Step.ret (State.abstract _) fun x member => ?_
    have later := head_le_absolute _ good.increasing x member
    dsimp only [State.abstract] at later ⊢
    omega

theorem step_refines {act : Act J} (good : Good guard s) (legal : Legal guard s act)
    (clean : Clean guard s act) : Refines guard s act := by
  cases act with
  | add job jobTime => exact add_refines good legal clean
  | findRemove job => exact findRemove_refines good legal clean
  | advance cycles => exact advance_refines good legal clean
  | pop => exact pop_refines good legal clean
  | ret => exact ret_refines good legal

/-! ### Whole runs -/

omit [DecidableEq J] in
theorem initial_good (start : initial guard = some s) : Good guard s := by
  obtain ⟨sched, init, rfl⟩ := Option.map_eq_some_iff.mp start
  have heap : (List.range schedHeapSize).reverse = 127 :: (List.range 127).reverse := by decide
  rw [schedInit, heap] at init
  obtain rfl := Option.some.inj init
  have range : int32Min ≤ schedTimeMax ∧ schedTimeMax ≤ int32Max := by decide
  refine ⟨by simp [Increasing], ?_, ?_, ⟨_, List.mem_singleton_self _, rfl⟩, ?_, by simp⟩
  · intro e member
    rw [List.mem_singleton.mp member]
    exact range
  · intro e member
    rw [List.mem_singleton.mp member, Int.zero_add]
    exact range
  · show (127 :: (List.range 127).reverse).Perm (List.range schedHeapSize)
    rw [← heap]
    exact List.reverse_perm _

/-- The runs of the timed queue. -/
inductive TimedQueue.Run (guard : J) : List (Act J) → TimedQueue J → TimedQueue J → Prop where
  | nil (a : TimedQueue J) : Run guard [] a a
  | cons {act : Act J} {acts : List (Act J)} {a b c : TimedQueue J} (first : TimedQueue.Step guard act a b)
      (rest : Run guard acts b c) : Run guard (act :: acts) a c

theorem run_good {acts : List (Act J)} (good : Good guard s) (clean : CleanRun guard s acts) :
    ∃ t, run guard s acts = some t ∧ Good guard t ∧ TimedQueue.Run guard acts s.abstract t.abstract := by
  induction acts generalizing s with
  | nil => exact ⟨s, rfl, good, .nil _⟩
  | cons act rest ih =>
    obtain ⟨legal, cleanStep, cleanRest⟩ := clean
    obtain ⟨u, stepped, goodNext, first⟩ := step_refines good legal cleanStep
    obtain ⟨t, ran, goodLast, others⟩ := ih goodNext (cleanRest u stepped)
    exact ⟨t, by rw [run, stepped]; exact ran, goodLast, .cons first others⟩

/-- Every run of the scheduler from `sched_init` whose steps are clean is a run of the timed queue:
each call has the effect on the deadlines that it should have, a pass hands over due jobs only,
earliest first, and returns when none is left. The invariant holds in every state the run reaches,
since every beginning of a clean run is one. -/
theorem sched_refines_timedQueue (guard : J) (s : State J) (start : initial guard = some s)
    (acts : List (Act J)) (clean : CleanRun guard s acts) :
    ∃ t, run guard s acts = some t ∧ Good guard t ∧ TimedQueue.Run guard acts s.abstract t.abstract :=
  run_good (initial_good start) clean

end

/-- A job is queued in front of the guard, comes due and is handed over. -/
theorem sched_refines_timedQueue_one_job :
    ∃ s, initial 0 = some s ∧ CleanRun 0 s [.add 1 5, .advance 5, .pop, .ret] ∧
      ∃ t, run 0 s [.add 1 5, .advance 5, .pop, .ret] = some t ∧ Good 0 t ∧
        TimedQueue.Run 0 [.add 1 5, .advance 5, .pop, .ret] s.abstract t.abstract := by
  have clean : ∀ s ∈ initial 0, CleanRun 0 s [.add 1 5, .advance 5, .pop, .ret] := by decide +kernel
  exact ⟨_, rfl, clean _ rfl, sched_refines_timedQueue 0 _ rfl _ (clean _ rfl)⟩

/-- With no other job queued the guard comes due after `INT32_MAX` cycles, and `do_scheduler` then
reads the time of an entry that is not there. -/
theorem sched_guard_alone :
    ¬ ∀ s, initial 0 = some s → ∀ acts, LegalRun 0 s acts →
      ∃ t, run 0 s acts = some t ∧ Good 0 t ∧ TimedQueue.Run 0 acts s.abstract t.abstract := by
  intro claim
  have legal : ∀ s ∈ initial 0, LegalRun 0 s [.advance 2147483647, .pop] := by decide +kernel
  have stuck : ∀ s ∈ initial 0, run 0 s [.advance 2147483647, .pop] = none := by decide +kernel
  obtain ⟨t, ran, _⟩ := claim _ rfl _ (legal _ rfl)
  rw [stuck _ rfl] at ran
  cases ran

end Or1ksim.Sched
