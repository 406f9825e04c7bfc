import Or1ksim.Tick.InStep

/-!
# Whether a pass of the scheduler returns

A pass runs jobs until none is due. It returns because every job that is added while it runs is due
later: a job of the tick timer takes its delay from the period that the guest has written.
-/

namespace Or1ksim.Tick

open DeltaList (Timed)
open Sched (headTime_due popJob_head overdue_range Fits Sorted duesOf withDue dueAt int32)
open Cpu
open Programs (Keeps)

variable {δ : Type}

def period (m : Machine δ) : Word := m.sprs sprTtmr &&& ttmrTp

theorem period_small (m : Machine δ) : (period m).toNat < 2 ^ 28 := by
  have := tp_toNat (m.sprs sprTtmr)
  unfold period
  omega

/-- Jobs of devices that are queued for later, as `check_int` is, which queues itself. -/
structure Punctual (u : Debug.DebugConfig δ) : Prop where
  jobs : ∀ n d, (u.cpu.devJob n d).2 = [] ∨ ∃ job t, (u.cpu.devJob n d).2 = [.schedAdd job t] ∧ 0 < t.val ∧ t.val ≤ 2 ^ 28
  checkInt : ∀ d, ∃ t, (u.cpu.devJob u.checkInt d).2 = [.schedAdd u.checkInt t]

theorem Elsewhere.stays {kept : Job → Bool} {s s' : Machine δ} (other : Elsewhere kept s s') (ordered : Ordered s) {job : Job} {t : Int}
    (is : kept job = true) (inside : ⟨job, t⟩ ∈ s.scheduler.due) : ⟨job, t⟩ ∈ s'.scheduler.due := by
  have inside : t ∈ Tick.dues job s := Sched.mem_duesOf_iff.mpr inside
  rw [← other.dues ordered job is] at inside
  exact Sched.mem_duesOf inside

/-! ### What a job adds -/

/-- The jobs that a job adds. -/
def Adds (u : Debug.DebugConfig δ) (s : Machine δ) (added : Option (Timed Job)) : Job → Prop
  | .guard => added = some ⟨.guard, Sched.schedTimeMax⟩
  | .tickRaiseExcept => added = some ⟨.tickRaiseExcept, dueAt s.scheduler (Sched.overdue 1 s.scheduler.jobQueue)⟩
  | .tickRestart => added = some ⟨.tickRestart, (period s).toNat⟩
  | .tickOneShot | .picRepInt => added = none
  | .dev n => added = none ∧ n ≠ u.checkInt ∨
    ∃ job t, added = some ⟨.dev job, t⟩ ∧ 0 < t ∧ t ≤ 2 ^ 28 ∧ (n = u.checkInt → job = u.checkInt)

def requeue (added : Option (Timed Job)) (l : List (Timed Job)) : List (Timed Job) :=
  match added with
  | none => l
  | some x => withDue x l

theorem mem_requeue {added : Option (Timed Job)} {l : List (Timed Job)} {y : Timed Job} :
    y ∈ requeue added l ↔ added = some y ∨ y ∈ l := by
  cases added with
  | none => exact ⟨.inr, fun is => is.resolve_left nofun⟩
  | some x =>
    refine ((Sched.withDue_perm x l).mem_iff).trans (List.mem_cons.trans ?_)
    exact or_congr ⟨fun same => congrArg some same.symm, fun same => (Option.some.inj same).symm⟩ Iff.rfl

/-- The jobs that are due. -/
def overdueJobs (l : List (Timed Job)) : Nat := l.countP fun x => x.time ≤ 0

theorem overdueJobs_requeue {added : Option (Timed Job)} (later : ∀ x ∈ added, 0 < x.time) (l : List (Timed Job)) :
    overdueJobs (requeue added l) = overdueJobs l := by
  cases added with
  | none => rfl
  | some x =>
    have notDue : ¬ decide (x.time ≤ 0) = true := by
      have := later x rfl
      simp only [decide_eq_true_eq]
      omega
    exact ((Sched.withDue_perm x l).countP_eq _).trans (List.countP_cons_of_neg notDue)

section
variable {u : Debug.DebugConfig δ} {job : Job} {time : Int} {m s : Machine δ}

theorem schedAdd_ok (queue : s.scheduler.jobQueue ≠ []) (cell : s.scheduler.freeJobQueue ≠ []) (job : Job) (time : Int) :
    ∃ s', schedAdd job time s = .ok ((), s') ∧ Added job time s s' := by
  have ran : ∃ s', schedAdd job time s = .ok ((), s') := by
    unfold schedAdd Sched.schedAdd
    cases cells : s.scheduler.freeJobQueue with
    | nil => exact absurd cells cell
    | cons newJob free =>
      cases entries : s.scheduler.jobQueue with
      | nil => exact absurd entries queue
      | cons head tail => exact ⟨_, rfl⟩
  obtain ⟨s', ran⟩ := ran
  exact ⟨s', ran, schedAdd_added ran⟩

/-- What a job leaves behind. -/
structure Done (u : Debug.DebugConfig δ) (job : Job) (added : Option (Timed Job)) (s s' : Machine δ) : Prop where
  adds : Adds u s added job
  ordered : Ordered s'
  period : period s' = period s
  due : s'.scheduler.due = requeue added s.scheduler.due

theorem Added.requeued {time : Int} {s' : Machine δ} (added : Added job time s s') (ordered : Ordered s) (nonneg : 0 ≤ time)
    (fits : time ≤ Sched.int32Max) : s'.scheduler.due = requeue (some ⟨job, time⟩) s.scheduler.due := by
  have due := added.due ordered
  rw [dueAt_nonneg nonneg fits] at due
  exact due

theorem Added.period {s' : Machine δ} (added : Added job time s s') : period s' = period s := by
  rw [added.rest]
  rfl

theorem guard_done (ordered : Ordered s) (queue : s.scheduler.jobQueue ≠ []) (cell : s.scheduler.freeJobQueue ≠ []) :
    ∃ s' added, runJob u.cpu .guard s = .ok ((), s') ∧ Done u .guard added s s' := by
  obtain ⟨s', ran, added⟩ := schedAdd_ok queue cell .guard Sched.schedTimeMax
  refine ⟨s', some ⟨.guard, Sched.schedTimeMax⟩, ?_, rfl, added.ordered ordered, added.period,
    added.requeued ordered (by decide) (by decide)⟩
  have guard : Sched.schedGuard Job.guard s.scheduler = Sched.schedAdd s.scheduler .guard (int32 Sched.schedTimeMax) := by
    unfold Sched.schedGuard
    cases entries : s.scheduler.jobQueue with
    | nil => exact absurd entries queue
    | cons head tail => rfl
  unfold schedAdd at ran
  cases result : Sched.schedAdd s.scheduler Job.guard (int32 Sched.schedTimeMax) with
  | none =>
    rw [result] at ran
    cases ran
  | some q =>
    rw [result] at ran
    cases ran
    simp only [runJob, guard, result]

theorem raise_done (ordered : Ordered s) (queue : s.scheduler.jobQueue ≠ []) (cell : s.scheduler.freeJobQueue ≠ []) :
    ∃ s' added, runJob u.cpu .tickRaiseExcept s = .ok ((), s') ∧ Done u .tickRaiseExcept added s s' := by
  let pending : Machine δ := setSpr sprTtmr (s.sprs sprTtmr ||| ttmrIp) s
  have orderedP : Ordered pending := ⟨ordered.fits, ordered.sorted⟩
  obtain ⟨t, ran, added⟩ := schedAdd_ok (s := pending) queue cell .tickRaiseExcept (Sched.overdue 1 s.scheduler.jobQueue)
  have due := added.due orderedP
  rw [overdue_range (by decide)] at due
  have next : schedNextInsn .tickRaiseExcept pending = .ok ((), t) := by
    rw [← ran]
    unfold schedNextInsn schedAdd Sched.schedNextInsn
    rw [overdue_range (by decide)]
    rfl
  let after : Machine δ := if has t.sr srTee then exceptHandle .tick (t.sprs sprEearBase) t else t
  have entered : Elsewhere tickJob t after := by
    show Elsewhere tickJob t (if _ then _ else _)
    split
    · exact exceptHandle_elsewhere _ _ t
    · exact .refl t
  have scheduler : after.scheduler = t.scheduler := by
    show (if _ then _ else _ : Machine δ).scheduler = _
    split
    · exact exceptHandle_scheduler _ _ t
    · rfl
  refine ⟨after, _, ?_, rfl, entered.ordered (added.ordered orderedP), ?_, (congrArg Sched.Scheduler.due scheduler).trans due⟩
  · show tickRaiseExcept s = _
    unfold tickRaiseExcept
    rw [Programs.modify_bind]
    exact Programs.bind_of_ok next
  · have same : period after = period t := congrArg (fun r : Timer => r.ttmr &&& ttmrTp) entered.timer
    exact same.trans (added.period.trans (pending_bits (s.sprs sprTtmr)).2.2.1)

theorem restart_done (ordered : Ordered s) (queue : s.scheduler.jobQueue ≠ []) (cell : s.scheduler.freeJobQueue ≠ []) :
    ∃ s' added, runJob u.cpu .tickRestart s = .ok ((), s') ∧ Done u .tickRestart added s s' := by
  let started : Machine δ := setSpr sprTtcr 0 { s with cycleCountAtTickStart := s.cycles }
  have orderedS : Ordered started := ⟨ordered.fits, ordered.sorted⟩
  obtain ⟨s', ran, added⟩ := schedAdd_ok (s := started) queue cell .tickRestart (period s).toNat
  have small := period_small s
  exact ⟨s', some ⟨.tickRestart, (period s).toNat⟩, ran, rfl, added.ordered orderedS, added.period,
    added.requeued orderedS (by omega) (by unfold Sched.int32Max; omega)⟩

theorem dev_done (punctual : Punctual u) (n : Nat) (ordered : Ordered s) (queue : s.scheduler.jobQueue ≠ [])
    (cell : s.scheduler.freeJobQueue ≠ []) : ∃ s' added, runJob u.cpu (.dev n) s = .ok ((), s') ∧ Done u (.dev n) added s s' := by
  let answered : Machine δ := { s with dev := (u.cpu.devJob n s.dev).1 }
  have orderedA : Ordered answered := ⟨ordered.fits, ordered.sorted⟩
  rcases punctual.jobs n s.dev with none | ⟨job, t, one, positive, short⟩
  · have other : n ≠ u.checkInt := by
      rintro rfl
      obtain ⟨t, one⟩ := punctual.checkInt s.dev
      rw [none] at one
      cases one
    refine ⟨answered, .none, ?_, .inl ⟨rfl, other⟩, orderedA, rfl, rfl⟩
    show devEvents u.cpu (u.cpu.devJob n s.dev).2 answered = _
    rw [none]
    rfl
  · obtain ⟨s', ran, added⟩ := schedAdd_ok (s := answered) queue cell (.dev job) t.val
    have again : n = u.checkInt → job = u.checkInt := by
      rintro rfl
      obtain ⟨t', one'⟩ := punctual.checkInt s.dev
      rw [one] at one'
      exact (DevEvent.schedAdd.inj (List.cons.inj one').1).1
    refine ⟨s', some ⟨.dev job, t.val⟩, ?_, .inr ⟨job, t.val, rfl, by omega, by omega, again⟩, added.ordered orderedA, added.period,
      added.requeued orderedA (by omega) (by unfold Sched.int32Max; omega)⟩
    show devEvents u.cpu (u.cpu.devJob n s.dev).2 answered = _
    rw [one]
    exact Programs.bind_of_ok ran

/-- A job comes to its end when the queue has another one, and a cell is free. -/
theorem runJob_done (punctual : Punctual u) (ordered : Ordered s) (queue : s.scheduler.jobQueue ≠ [])
    (cell : s.scheduler.freeJobQueue ≠ []) (job : Job) : ∃ s' added, runJob u.cpu job s = .ok ((), s') ∧ Done u job added s s' := by
  cases job with
  | guard => exact guard_done ordered queue cell
  | tickRaiseExcept => exact raise_done ordered queue cell
  | tickRestart => exact restart_done ordered queue cell
  | tickOneShot => exact ⟨_, none, rfl, rfl, ⟨ordered.fits, ordered.sorted⟩, rfl, rfl⟩
  | picRepInt =>
    have raised : Elsewhere tickJob s _ := picRepInt_elsewhere s () _ rfl
    refine ⟨_, none, rfl, rfl, raised.ordered ordered, ?_, ?_⟩
    · exact congrArg (fun r : Timer => r.ttmr &&& ttmrTp) raised.timer
    · show (if _ then _ else _ : Machine δ).scheduler.due = _
      split
      · rw [exceptHandle_scheduler]
        rfl
      · rfl
  | dev n => exact dev_done punctual n ordered queue cell

theorem popJob_rest {q r : Sched.Scheduler Job} {tmp : Sched.Entry Job} (popped : Sched.popJob q = some (tmp, r)) :
    r.jobQueue ≠ [] ∧ r.freeJobQueue ≠ [] := by
  obtain ⟨queue, cells⟩ := q
  match queue with
  | [] => cases popped
  | [_] => cases popped
  | cur :: next :: rest =>
    cases popped
    exact ⟨List.cons_ne_nil _ _, List.cons_ne_nil _ _⟩

theorem popJob_two {q : Sched.Scheduler Job} {x y : Timed Job} (first : x ∈ q.due) (second : y ∈ q.due) (differ : x.item ≠ y.item) :
    ∃ tmp r, Sched.popJob q = some (tmp, r) := by
  obtain ⟨queue, cells⟩ := q
  match queue with
  | [] => cases first
  | [e] =>
    rw [List.mem_singleton.mp first, List.mem_singleton.mp second] at differ
    exact absurd rfl differ
  | cur :: next :: rest => exact ⟨_, _, rfl⟩

theorem headTime_of_mem {q : Sched.Scheduler Job} {x : Timed Job} (inside : x ∈ q.due) : ∃ time, q.headTime = some time := by
  unfold Sched.Scheduler.due at inside
  unfold Sched.Scheduler.headTime
  cases queue : q.jobQueue with
  | nil =>
    rw [queue] at inside
    cases inside
  | cons head tail => exact ⟨_, rfl⟩

/-- One job of a pass: it is taken off the queue, and may add another one. -/
theorem job_step (punctual : Punctual u) {tmp : Sched.Entry Job} {q : Sched.Scheduler Job} (ordered : Ordered m)
    (popped : Sched.popJob m.scheduler = some (tmp, q)) :
    ∃ s' added, runJob u.cpu tmp.item.job { m with scheduler := q } = .ok ((), s') ∧
      Popped tmp.item.job tmp.time m { m with scheduler := q } ∧ Done u tmp.item.job added { m with scheduler := q } s' := by
  have taken := popJob_popped ordered popped
  obtain ⟨queue, cell⟩ := popJob_rest popped
  obtain ⟨s', added, ran, done⟩ := runJob_done punctual taken.ordered queue cell tmp.item.job
  exact ⟨s', added, ran, taken, done⟩

theorem Done.mem {added : Option (Timed Job)} {s' : Machine δ} (done : Done u job added s s') {y : Timed Job} :
    y ∈ s'.scheduler.due ↔ added = some y ∨ y ∈ s.scheduler.due := by
  rw [done.due]
  exact mem_requeue

/-- A queued job is still queued when another one has been run. -/
theorem Done.stays {added : Option (Timed Job)} {s' : Machine δ} (done : Done u job added s s') (popped : Popped job time m s)
    {y : Timed Job} (inside : y ∈ m.scheduler.due) (other : y ≠ ⟨job, time⟩) : y ∈ s'.scheduler.due := by
  rw [popped.due] at inside
  rw [done.due]
  exact mem_requeue.mpr (.inr ((List.mem_cons.mp inside).resolve_left other))

end

/-! ### Jobs that are always queued -/

/-- The guard and `check_int` are queued. -/
structure Manned (u : Debug.DebugConfig δ) (m : Machine δ) : Prop where
  ordered : Ordered m
  guard : ∃ t, ⟨.guard, t⟩ ∈ m.scheduler.due
  checkInt : ∃ t, ⟨.dev u.checkInt, t⟩ ∈ m.scheduler.due

section
variable {u : Debug.DebugConfig δ} {job : Job} {time : Int} {m s : Machine δ}

theorem Manned.elsewhere {s' : Machine δ} (manned : Manned u s) (other : Elsewhere otherJob s s') : Manned u s' := by
  obtain ⟨ordered, ⟨t, guard⟩, ⟨t', check⟩⟩ := manned
  exact ⟨other.ordered ordered, ⟨t, other.stays ordered rfl guard⟩, t', other.stays ordered rfl check⟩

theorem Manned.of_scheduler {m' : Machine δ} (manned : Manned u m) (same : m'.scheduler = m.scheduler) : Manned u m' := by
  obtain ⟨⟨fits, sorted⟩, guard, check⟩ := manned
  exact ⟨⟨same ▸ fits, same ▸ sorted⟩, same ▸ guard, same ▸ check⟩

theorem Manned.popJob (manned : Manned u m) : ∃ tmp q, Sched.popJob m.scheduler = some (tmp, q) := by
  obtain ⟨-, ⟨t, guard⟩, ⟨t', check⟩⟩ := manned
  exact popJob_two guard check nofun

theorem Manned.head (manned : Manned u m) : ∃ time, m.scheduler.headTime = some time := by
  obtain ⟨-, ⟨t, guard⟩, -⟩ := manned
  exact headTime_of_mem guard

theorem Manned.step {added : Option (Timed Job)} {s' : Machine δ} (manned : Manned u m) (popped : Popped job time m s)
    (done : Done u job added s s') : Manned u s' := by
  obtain ⟨-, ⟨t, guard⟩, ⟨t', check⟩⟩ := manned
  refine ⟨done.ordered, ?_, ?_⟩
  · by_cases same : (⟨.guard, t⟩ : Timed Job) = ⟨job, time⟩
    · cases same
      exact ⟨_, done.mem.mpr (.inl done.adds)⟩
    · exact ⟨t, done.stays popped guard same⟩
  · by_cases same : (⟨.dev u.checkInt, t'⟩ : Timed Job) = ⟨job, time⟩
    · cases same
      rcases done.adds with ⟨-, other⟩ | ⟨job, t, adds, -, -, again⟩
      · exact absurd rfl other
      · rw [again rfl] at adds
        exact ⟨t, done.mem.mpr (.inl adds)⟩
    · exact ⟨t', done.stays popped check same⟩

theorem doScheduler_manned (punctual : Punctual u) {fuel : Nat} {m' : Machine δ} (manned : Manned u m)
    (ran : doScheduler u.cpu fuel m = .ok ((), m')) : Manned u m' := by
  induction fuel generalizing m with
  | zero => cases ran
  | succ fuel ih =>
    obtain ⟨tmp, q, mid, time, popped, job, -, more⟩ := doScheduler_step ran
    obtain ⟨s', added, ran', taken, done⟩ := job_step punctual manned.ordered popped
    cases ran'.symm.trans job
    have manned' := manned.step taken done
    rcases more with ⟨-, ran⟩ | ⟨-, rfl⟩
    · exact ih manned' ran
    · exact manned'

end

/-! ### Jobs that are added are due later -/

/-- A pass after `n` cycles whose deadlines differ by what an `int32_t` can hold. -/
structure Near (n : Int) (m : Machine δ) : Prop where
  short : n + 2 ^ 28 ≤ Sched.int32Max
  guard : ∀ t, ⟨.guard, t⟩ ∈ m.scheduler.due → 0 < t
  range : ∀ x ∈ m.scheduler.due, -n ≤ x.time ∧ x.time ≤ Sched.int32Max - n

theorem overdue_positive {n : Int} {s : Machine δ} (ordered : Ordered s) (nonneg : 0 ≤ n) (short : n + 2 ^ 28 ≤ Sched.int32Max)
    (range : ∀ x ∈ s.scheduler.due, -n ≤ x.time ∧ x.time ≤ Sched.int32Max - n) : 0 < Sched.overdue 1 s.scheduler.jobQueue := by
  obtain ⟨fits, sorted⟩ := ordered
  unfold Sched.Scheduler.due at sorted range
  unfold Sched.int32Max at short range
  cases queue : s.scheduler.jobQueue with
  | nil => exact Int.one_pos
  | cons cur rest =>
    rw [queue] at fits sorted range
    rw [Sched.dues_cons, Int.zero_add, (Sched.fits_cons.mp fits).1] at sorted range
    have first := range _ List.mem_cons_self
    dsimp only at first
    unfold Sched.overdue
    split
    · have sum : int32 (1 - cur.time) = 1 - cur.time :=
        Sched.int32_of_range (by unfold Sched.int32Min; omega) (by unfold Sched.int32Max; omega)
      rw [sum]
      cases rest with
      | nil =>
        show 0 < 1 - cur.time
        omega
      | cons next rest =>
        -- the entry behind the head stands at its deadline less the head's
        rw [Sched.dues_cons] at sorted range
        have second := range _ (List.mem_cons_of_mem _ List.mem_cons_self)
        have later := (List.pairwise_cons.mp sorted).1 _ List.mem_cons_self
        dsimp only at second later
        have gap : int32 (int32 (cur.time + next.time) - cur.time) = next.time := by
          rw [Int.sub_eq_add_neg, Sched.int32_add, show cur.time + next.time + -cur.time = next.time by omega]
          exact (Sched.fits_cons.mp (Sched.fits_cons.mp fits).2).1
        rw [Sched.int32_of_range (by unfold Sched.int32Min; omega) (by unfold Sched.int32Max; omega)] at gap
        unfold Sched.overdue
        rw [if_neg (by omega)]
        omega
    · exact Int.one_pos

/-- What holds in a pass after `n` cycles. -/
structure Passing (u : Debug.DebugConfig δ) (n : Int) (m : Machine δ) : Prop where
  manned : Manned u m
  restart : period m ≠ 0 ∨ ∀ t, ⟨.tickRestart, t⟩ ∈ m.scheduler.due → 0 < t
  raise : dues .tickRaiseExcept m = [] ∨ ∃ t, dues .tickRaiseExcept m = [t] ∧ (t ≤ 0 → Near n m)

theorem duesOf_requeue {job : Job} {added : Option (Timed Job)} (other : ∀ x ∈ added, x.item ≠ job) (l : List (Timed Job)) :
    duesOf job (requeue added l) = duesOf job l := by
  cases added with
  | none => rfl
  | some x => exact Sched.duesOf_withDue_other (other x rfl) x.time l

section
variable {u : Debug.DebugConfig δ} {job : Job} {time n : Int} {m s s' : Machine δ} {added : Option (Timed Job)}

theorem Popped.mem (popped : Popped job time m s) : ⟨job, time⟩ ∈ m.scheduler.due := by
  rw [popped.due]
  exact List.mem_cons_self

theorem Popped.keeps (popped : Popped job time m s) {x : Timed Job} (inside : x ∈ s.scheduler.due) : x ∈ m.scheduler.due := by
  rw [popped.due]
  exact List.mem_cons_of_mem _ inside

theorem Popped.period (popped : Popped job time m s) : period s = period m := by
  rw [popped.rest]
  rfl

theorem period_pos (running : period m ≠ 0) : 0 < (period m).toNat :=
  Nat.pos_of_ne_zero fun none => running (BitVec.eq_of_toNat_eq none)

theorem Passing.later (passing : Passing u n m) (nonneg : 0 ≤ n) (popped : Popped job time m s) (late : time ≤ 0)
    (adds : Adds u s added job) : ∀ x ∈ added, 0 < x.time := by
  rintro x rfl
  cases job with
  | guard =>
    cases adds
    decide
  | picRepInt | tickOneShot => cases adds
  | tickRestart =>
    cases adds
    have running : Tick.period s ≠ 0 := by
      rw [popped.period]
      refine passing.restart.resolve_right fun later => ?_
      have := later time popped.mem
      omega
    have := period_pos running
    dsimp only
    omega
  | tickRaiseExcept =>
    have near : Near n m := by
      obtain ⟨t, one, near⟩ := passing.raise.resolve_left fun none => by
        rw [popped.self] at none
        cases none
      rw [popped.self] at one
      cases (List.cons.inj one).1
      exact near late
    have positive := overdue_positive popped.ordered nonneg near.short fun x inside => near.range x (popped.keeps inside)
    cases adds
    show 0 < dueAt _ _
    unfold dueAt
    rw [if_pos (Int.le_of_lt positive)]
    exact positive
  | dev k =>
    rcases adds with ⟨none, -⟩ | ⟨_, t, adds, positive, -, -⟩
    · cases none
    · cases adds
      exact positive

theorem Adds.other (adds : Adds u s added job) (differ : job ≠ .tickRaiseExcept) : ∀ x ∈ added, x.item ≠ .tickRaiseExcept := by
  rintro x rfl
  cases job with
  | guard | tickRestart =>
    cases adds
    exact nofun
  | picRepInt | tickOneShot => cases adds
  | tickRaiseExcept => exact absurd rfl differ
  | dev k =>
    rcases adds with ⟨none, -⟩ | ⟨_, t, adds, -⟩
    · cases none
    · cases adds
      exact nofun

theorem Adds.near (adds : Adds u s added job) (notGuard : job ≠ .guard) (differ : job ≠ .tickRaiseExcept) :
    ∀ x ∈ added, x.time ≤ 2 ^ 28 := by
  rintro x rfl
  cases job with
  | guard => exact absurd rfl notGuard
  | tickRaiseExcept => exact absurd rfl differ
  | picRepInt | tickOneShot => cases adds
  | tickRestart =>
    cases adds
    have := period_small s
    dsimp only
    omega
  | dev k =>
    rcases adds with ⟨none, -⟩ | ⟨_, t, adds, -, short, -⟩
    · cases none
    · cases adds
      exact short

theorem Near.step (near : Near n m) (popped : Popped job time m s) (late : time ≤ 0) (differ : job ≠ .tickRaiseExcept)
    (done : Done u job added s s') (nonneg : 0 ≤ n) (later : ∀ x ∈ added, 0 < x.time) : Near n s' := by
  have notGuard : job ≠ .guard := by
    rintro rfl
    have := near.guard time popped.mem
    omega
  refine ⟨near.short, fun t inside => ?_, fun x inside => ?_⟩
  · rcases done.mem.mp inside with adds | inside
    · exact later _ adds
    · exact near.guard t (popped.keeps inside)
  · rcases done.mem.mp inside with adds | inside
    · have := later x adds
      have := done.adds.near notGuard differ x adds
      have := near.short
      omega
    · exact near.range x (popped.keeps inside)

theorem Passing.step (passing : Passing u n m) (nonneg : 0 ≤ n) (popped : Popped job time m s) (late : time ≤ 0)
    (done : Done u job added s s') : Passing u n s' := by
  have later := passing.later nonneg popped late done.adds
  refine ⟨passing.manned.step popped done, ?_, ?_⟩
  · rw [done.period, popped.period]
    refine passing.restart.imp id fun restart t inside => ?_
    rcases done.mem.mp inside with adds | inside
    · exact later _ adds
    · exact restart t (popped.keeps inside)
  · by_cases same : job = .tickRaiseExcept
    · subst same
      have gone : dues .tickRaiseExcept s = [] := by
        obtain ⟨t, one, -⟩ := passing.raise.resolve_left fun none => by
          rw [popped.self] at none
          cases none
        rw [popped.self] at one
        exact (List.cons.inj one).2
      have adds := done.adds
      refine .inr ⟨dueAt s.scheduler (Sched.overdue 1 s.scheduler.jobQueue), ?_, fun late => ?_⟩
      · unfold dues
        rw [done.due, adds]
        exact Sched.duesOf_withDue_self gone _
      · have : 0 < dueAt s.scheduler (Sched.overdue 1 s.scheduler.jobQueue) := later _ adds
        omega
    · have kept : dues .tickRaiseExcept s' = dues .tickRaiseExcept m := by
        rw [← popped.other same]
        unfold dues
        rw [done.due]
        exact duesOf_requeue (done.adds.other same) _
      rw [kept]
      exact passing.raise.imp id fun ⟨t, one, near⟩ => ⟨t, one, fun due => (near due).step popped late same done nonneg later⟩

/-- Each job of a pass leaves one job less that is due. -/
theorem overdueJobs_step (popped : Popped job time m s) (late : time ≤ 0) (done : Done u job added s s')
    (later : ∀ x ∈ added, 0 < x.time) :
    overdueJobs m.scheduler.due = overdueJobs s'.scheduler.due + 1 := by
  rw [popped.due, done.due, overdueJobs_requeue later]
  exact List.countP_cons_of_pos (decide_eq_true late)

end

/-! ### Whether the pass returns -/

section
variable {u : Debug.DebugConfig δ} {n : Int} {m mid : Machine δ}

theorem getSched_bind {β : Type} (f : Sched.Scheduler Job → Sim δ β) (m : Machine δ) :
    ((do pure (← get).scheduler : Sim δ (Sched.Scheduler Job)) >>= f) m = f m.scheduler m := rfl

theorem doScheduler_next {c : Config δ} {tmp : Sched.Entry Job} {q : Sched.Scheduler Job} {time : Int}
    (popped : Sched.popJob m.scheduler = some (tmp, q)) (ran : runJob c tmp.item.job { m with scheduler := q } = .ok ((), mid))
    (head : mid.scheduler.headTime = some time) (fuel : Nat) :
    doScheduler c (fuel + 1) m = if time ≤ 0 then doScheduler c fuel mid else .ok ((), mid) := by
  conv_lhs => unfold doScheduler Sched.doScheduler
  rw [getSched_bind, popped]
  dsimp only
  rw [Programs.modify_bind]
  refine (Programs.bind_of_ok ran).trans ?_
  rw [getSched_bind, head]
  dsimp only
  split <;> rfl

/-- A pass returns: the induction is on the number of jobs that are due. -/
theorem doScheduler_returns (punctual : Punctual u) (nonneg : 0 ≤ n) {time : Int} (passing : Passing u n m)
    (head : m.scheduler.headTime = some time) (late : time ≤ 0) :
    ∃ fuel m', doScheduler u.cpu fuel m = .ok ((), m') ∧ ∀ x ∈ m'.scheduler.due, 0 < x.time := by
  generalize count : overdueJobs m.scheduler.due = k
  induction k generalizing m time with
  | zero =>
    obtain ⟨job, first⟩ := headTime_due passing.manned.ordered.fits head
    have := List.countP_eq_zero.mp count _ (List.mem_of_mem_head? first)
    exact absurd (decide_eq_true late) this
  | succ k ih =>
    obtain ⟨tmp, q, popped⟩ := passing.manned.popJob
    obtain ⟨mid, added, ran, taken, done⟩ := job_step punctual passing.manned.ordered popped
    cases head.symm.trans (popJob_head popped)
    have passing' := passing.step nonneg taken late done
    have fewer := overdueJobs_step taken late done (passing.later nonneg taken late done.adds)
    obtain ⟨time', head'⟩ := passing'.manned.head
    by_cases late' : time' ≤ 0
    · obtain ⟨fuel, m', ran', early⟩ := ih passing' head' late' (by omega)
      refine ⟨fuel + 1, m', ?_, early⟩
      rw [doScheduler_next popped ran head', if_pos late']
      exact ran'
    · refine ⟨1, mid, ?_, fun x inside => ?_⟩
      · rw [doScheduler_next popped ran head', if_neg late']
      · have := ordered_head passing'.manned.ordered head' x inside
        omega

/-- The timer is to be restarted without a delay. -/
structure Stuck (m : Machine δ) : Prop where
  ordered : Ordered m
  period : period m = 0
  restart : ∃ t, ⟨.tickRestart, t⟩ ∈ m.scheduler.due ∧ t ≤ 0

theorem Stuck.step {job : Job} {time : Int} {added : Option (Timed Job)} {s s' : Machine δ} (stuck : Stuck m)
    (popped : Popped job time m s) (done : Done u job added s s') : Stuck s' := by
  obtain ⟨-, none, t, restart, late⟩ := stuck
  have none' : Tick.period s = 0 := popped.period.trans none
  refine ⟨done.ordered, done.period.trans none', ?_⟩
  by_cases same : (⟨.tickRestart, t⟩ : Timed Job) = ⟨job, time⟩
  · cases same
    refine ⟨(Tick.period s).toNat, done.mem.mpr (.inl done.adds), ?_⟩
    rw [none']
    decide
  · exact ⟨t, done.stays popped restart same, late⟩

theorem Stuck.head (stuck : Stuck m) {time : Int} (head : m.scheduler.headTime = some time) : time ≤ 0 := by
  obtain ⟨ordered, -, t, restart, late⟩ := stuck
  exact Int.le_trans (ordered_head ordered head _ restart) late

theorem doScheduler_stuck (punctual : Punctual u) (stuck : Stuck m) (fuel : Nat) (m' : Machine δ) :
    doScheduler u.cpu fuel m ≠ .ok ((), m') := by
  intro ran
  induction fuel generalizing m with
  | zero => cases ran
  | succ fuel ih =>
    obtain ⟨tmp, q, mid, time, popped, job, head, more⟩ := doScheduler_step ran
    obtain ⟨s', added, ran', taken, done⟩ := job_step punctual stuck.ordered popped
    cases ran'.symm.trans job
    have stuck' := stuck.step taken done
    rcases more with ⟨-, ran⟩ | ⟨early, rfl⟩
    · exact ih stuck' ran
    · have := stuck'.head head
      omega

end

/-! ### Runs -/

section
variable {u : Debug.DebugConfig δ} {m m' : Machine δ} {n : Fin (2 ^ 31)}

theorem guard_own : Own fun job => job = .guard := ⟨rfl, fun _ => rfl⟩

theorem simReset_manned (ran : Debug.simReset u m = .ok ((), m')) : Manned u m' := by
  have inStep := simReset_inStep ran
  obtain ⟨cell, free, hooked, added, hooks, add, rfl⟩ := simReset_ok ran
  have alone : Ordered { m with scheduler := ⟨[⟨⟨cell, Job.guard⟩, Sched.schedTimeMax⟩], free⟩, dev := (u.resetHooks m.dev).1 } :=
    ordered_guardAlone { m with dev := (u.resetHooks m.dev).1 } cell free
  have hooked' := devEvents_elsewhere guard_own u.cpu _ _ _ _ hooks
  have ordered : Ordered (Debug.unitsReset u.cpu hooked) := ⟨(hooked'.ordered alone).fits, (hooked'.ordered alone).sorted⟩
  have guard : ⟨.guard, int32 (0 + Sched.schedTimeMax)⟩ ∈ hooked.scheduler.due := hooked'.stays alone rfl List.mem_cons_self
  have added' := schedAdd_added add
  have due := added'.requeued ordered (by decide) (by decide)
  have manned : Manned u added := by
    refine ⟨added'.ordered ordered, ⟨int32 (0 + Sched.schedTimeMax), ?_⟩, 1, ?_⟩
    · rw [due]
      exact mem_requeue.mpr (.inr guard)
    · rw [due]
      exact mem_requeue.mpr (.inl rfl)
  have reset : Elsewhere otherJob { added with memCycles := 0, cycles := 0 } (cpuReset { added with memCycles := 0 }) :=
    cpuReset_elsewhere { added with memCycles := 0 }
  have cleared : Manned u { added with memCycles := 0, cycles := 0 } := manned.of_scheduler rfl
  exact cleared.elsewhere reset

theorem advance_due (inStep : InStep m) :
    (Sched.advance m.scheduler n.val).due = m.scheduler.due.map fun x => { x with time := x.time - n.val } := by
  refine Sched.due_advance inStep.jobs.ordered.sorted fun x first => ?_
  have := inStep.nonneg x (List.mem_of_mem_head? first)
  have := n.isLt
  unfold Sched.int32Min
  omega

/-- The machine when the clock has gone on. -/
def advanced (n : Fin (2 ^ 31)) (m : Machine δ) : Machine δ :=
  { m with cycles := m.cycles + n.val, scheduler := Sched.advance m.scheduler n.val }

theorem advanced_mem (inStep : InStep m) {job : Job} {t : Int} :
    ⟨job, t⟩ ∈ (advanced n m).scheduler.due ↔ ⟨job, t + n.val⟩ ∈ m.scheduler.due := by
  show ⟨job, t⟩ ∈ (Sched.advance m.scheduler n.val).due ↔ _
  rw [advance_due inStep, List.mem_map]
  constructor
  · rintro ⟨x, inside, same⟩
    cases same
    rw [Int.sub_add_cancel]
    exact inside
  · intro inside
    exact ⟨_, inside, by rw [Int.add_sub_cancel]⟩

theorem advanced_manned (inStep : InStep m) (manned : Manned u m) : Manned u (advanced n m) := by
  obtain ⟨-, ⟨t, guard⟩, ⟨t', check⟩⟩ := manned
  refine ⟨(advance_jobs inStep).ordered, ⟨t - n.val, (advanced_mem inStep).mpr ?_⟩, t' - n.val, (advanced_mem inStep).mpr ?_⟩
  · rw [Int.sub_add_cancel]
    exact guard
  · rw [Int.sub_add_cancel]
    exact check

theorem clock_eq {c : Config δ} {fuel : Nat} {time : Int} (head : (advanced n m).scheduler.headTime = some time) :
    clock c fuel n m = if time ≤ 0 then doScheduler c fuel (advanced n m) else .ok ((), advanced n m) := by
  unfold clock
  rw [Programs.modify_bind, Programs.get_bind]
  unfold advanced at head ⊢
  rw [head]
  dsimp only
  split <;> rfl

theorem step_manned (punctual : Punctual u) {fuel : Nat} {act : Act} (inStep : InStep m) (manned : Manned u m)
    (ran : step u.cpu fuel act m = .ok ((), m')) : Manned u m' := by
  cases act with
  | writeTtmr value =>
    change schedTimerJob (m.sprs sprTtmr) (ttmrWritten value m) = _ at ran
    exact (manned.of_scheduler (ttmrWritten_scheduler value m)).elsewhere (schedTimerJob_elsewhere _ _ _ _ ran)
  | writeTtcr value =>
    change schedTimerJob (m.sprs sprTtmr) { setSpr sprTtcr value m with cycleCountAtTickStart := m.cycles - value.toNat } = _ at ran
    have written : Manned u { setSpr sprTtcr value m with cycleCountAtTickStart := m.cycles - value.toNat } := manned.of_scheduler rfl
    exact written.elsewhere (schedTimerJob_elsewhere _ _ _ _ ran)
  | clock n =>
    have manned' := advanced_manned (n := n) inStep manned
    obtain ⟨time, head⟩ := manned'.head
    change clock u.cpu fuel n m = _ at ran
    rw [clock_eq head] at ran
    split at ran
    · exact doScheduler_manned punctual manned' ran
    · cases ran
      exact manned'

theorem reached_manned (punctual : Punctual u) (reached : Reached u m) : Manned u m := by
  induction reached with
  | reset ran => exact simReset_manned ran
  | step act fuel before ran ih => exact step_manned punctual (reached_inStep before) ih ran

/-- A step in which the sum of `sched_next_insn` fits its `int32_t`: when the interrupt is due, the guard is not queued anew. -/
def Calm (n : Fin (2 ^ 31)) (m : Machine δ) : Prop :=
  ∀ t ∈ dues .tickRaiseExcept m, t ≤ n.val → n.val + 2 ^ 28 ≤ Sched.int32Max ∧ ∀ g ∈ dues .guard m, (n.val : Int) < g

theorem advanced_near (inStep : InStep m) (short : (n.val : Int) + 2 ^ 28 ≤ Sched.int32Max) (guard : ∀ g ∈ dues .guard m,
    (n.val : Int) < g) :
    Near n.val (advanced n m) := by
  refine ⟨short, fun t inside => ?_, fun x inside => ?_⟩
  · have := guard _ (Sched.mem_duesOf_iff.mpr ((advanced_mem inStep).mp inside))
    omega
  · have before := (advanced_mem inStep).mp inside
    have := inStep.nonneg _ before
    have := (Sched.due_range _ before).2
    dsimp only at *
    omega

theorem advanced_passing (inStep : InStep m) (manned : Manned u m) (calm : Calm n m)
    (running : mode m = ttmrRt → period m = 0 → (n.val : Int) < untilMatch m) : Passing u n.val (advanced n m) := by
  refine ⟨advanced_manned inStep manned, ?_, ?_⟩
  · by_cases none : period m = 0
    · refine .inr fun t inside => ?_
      have queued : t + n.val ∈ dues .tickRestart m := Sched.mem_duesOf_iff.mpr ((advanced_mem inStep).mp inside)
      rw [inStep.jobs.restart] at queued
      split at queued
      · next auto =>
        have := List.mem_singleton.mp queued
        have := running auto none
        omega
      · cases queued
    · exact .inl none
  · have each : dues .tickRaiseExcept (advanced n m) = (dues .tickRaiseExcept m).map (· - (n.val : Int)) := by
      show duesOf _ (Sched.advance m.scheduler n.val).due = _
      rw [advance_due inStep, Sched.duesOf_map_sub]
      rfl
    rw [each]
    rcases inStep.jobs.raise with none | ⟨-, t, one, -⟩
    · exact .inl (by rw [none]; rfl)
    · refine .inr ⟨t - n.val, by rw [one]; rfl, fun late => ?_⟩
      obtain ⟨short, guard⟩ := calm t (by rw [one]; exact List.mem_singleton_self t) (by omega)
      exact advanced_near inStep short guard

theorem advanced_stuck (inStep : InStep m) (auto : mode m = ttmrRt) (none : period m = 0) (due : untilMatch m ≤ n.val) :
    Stuck (advanced n m) := by
  have queued : untilMatch m ∈ dues .tickRestart m := by
    rw [inStep.jobs.restart, if_pos auto]
    exact List.mem_singleton_self _
  refine ⟨(advance_jobs inStep).ordered, none, untilMatch m - n.val, (advanced_mem inStep).mpr ?_, by omega⟩
  rw [Int.sub_add_cancel]
  exact Sched.mem_duesOf queued

theorem clock_stuck (punctual : Punctual u) (stuck : Stuck (advanced n m)) (fuel : Nat) (m' : Machine δ) :
    clock u.cpu fuel n m ≠ .ok ((), m') := by
  intro ran
  obtain ⟨t, restart, -⟩ := stuck.restart
  obtain ⟨time, head⟩ := headTime_of_mem restart
  rw [clock_eq head, if_pos (stuck.head head)] at ran
  exact doScheduler_stuck punctual stuck fuel m' ran

/-- In every run, the pass behind a step of the clock returns unless the timer restarts itself with a period of 0. -/
theorem pass_returns_iff (u : Debug.DebugConfig δ) (punctual : Punctual u) (m : Machine δ) (reached : Reached u m) (n : Fin (2 ^ 31))
    (calm : Calm n m) :
    (∃ fuel m', clock u.cpu fuel n m = .ok ((), m') ∧ ∀ x ∈ m'.scheduler.due, 0 < x.time) ↔
      (mode m = ttmrRt → period m = 0 → (n.val : Int) < untilMatch m) := by
  have inStep := reached_inStep reached
  constructor
  · rintro ⟨fuel, m', ran, -⟩ auto none
    refine Int.lt_of_not_ge fun due => ?_
    exact clock_stuck punctual (advanced_stuck inStep auto none due) fuel m' ran
  · intro running
    have passing := advanced_passing inStep (reached_manned punctual reached) calm running
    obtain ⟨time, head⟩ := passing.manned.head
    by_cases late : time ≤ 0
    · obtain ⟨fuel, m', ran, early⟩ := doScheduler_returns punctual (Int.natCast_nonneg _) passing head late
      refine ⟨fuel, m', ?_, early⟩
      rw [clock_eq head, if_pos late]
      exact ran
    · refine ⟨0, advanced n m, ?_, fun x inside => ?_⟩
      · rw [clock_eq head, if_neg late]
      · have := ordered_head passing.manned.ordered head x inside
        omega

end

theorem bareDebug_punctual : Punctual bareDebug where
  jobs n _ := .inr ⟨n, 100000, rfl, by decide, by decide⟩
  checkInt _ := ⟨100000, rfl⟩

/-- The auto-restart mode with a period of 5. -/
theorem pass_returns_auto : ∃ m fuel m', Reached bareDebug m ∧ clock bareDebug.cpu fuel 7 m = .ok ((), m') := by
  obtain ⟨m, reached, is⟩ := reached_written 0x40000005 (fun m => (period m, dues .tickRaiseExcept m)) (a := (5, [])) (by decide +kernel)
  obtain ⟨five, none⟩ := Prod.mk.inj is
  have calm : Calm 7 m := by
    intro t inside
    rw [none] at inside
    cases inside
  obtain ⟨fuel, m', ran, -⟩ := (pass_returns_iff bareDebug bareDebug_punctual m reached 7 calm).mpr fun _ zero =>
    absurd (five.symm.trans zero) (by decide)
  exact ⟨m, fuel, m', reached, ran⟩

/-- With a period of 0 the restart is due again at once. -/
theorem restart_forever : ∃ m, Reached bareDebug m ∧ ∀ fuel m', clock bareDebug.cpu fuel 1 m ≠ .ok ((), m') := by
  obtain ⟨m, reached, is⟩ :=
    reached_written 0x40000000 (fun m => (mode m, period m, untilMatch m)) (a := (ttmrRt, 0, 0)) (by decide +kernel)
  obtain ⟨auto, is⟩ := Prod.mk.inj is
  obtain ⟨none, now⟩ := Prod.mk.inj is
  have due : untilMatch m ≤ (1 : Fin (2 ^ 31)).val := by
    rw [now]
    decide
  exact ⟨m, reached, clock_stuck bareDebug_punctual (advanced_stuck (reached_inStep reached) auto none due)⟩

end Or1ksim.Tick
