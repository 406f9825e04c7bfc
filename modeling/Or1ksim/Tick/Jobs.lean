import Or1ksim.Sched.Due
import Or1ksim.Debug.Jtag

/-!
# The jobs of the tick timer

What the rest of the simulator leaves alone: the registers of the tick timer, and when its three jobs
are due.
-/

namespace Or1ksim.Tick

open Sched (Fits Sorted duesOf withDue dueAt int32)
open Cpu
open Programs (Keeps)

variable {δ : Type} {kept : Job → Bool}

/-- The registers and the clock of the tick timer. -/
structure Timer where
  ttmr : Word
  ttcr : Word
  tickCounting : Bool
  cycles : Int
  cycleCountAtTickStart : Int

def timer (m : Machine δ) : Timer := ⟨m.sprs sprTtmr, m.sprs sprTtcr, m.tickCounting, m.cycles, m.cycleCountAtTickStart⟩

/-- Jobs that no device adds or removes. -/
structure Own (kept : Job → Bool) : Prop where
  picRepInt : kept .picRepInt = false
  dev : ∀ n, kept (.dev n) = false

def tickJob : Job → Bool
  | .tickRaiseExcept | .tickRestart | .tickOneShot => true
  | _ => false

theorem tickJob_own : Own tickJob := ⟨rfl, fun _ => rfl⟩

/-- The deadlines of a job. -/
def dues (job : Job) (m : Machine δ) : List Int := duesOf job m.scheduler.due

structure Ordered (m : Machine δ) : Prop where
  fits : Fits m.scheduler.jobQueue
  sorted : Sorted m.scheduler.due

/-- No job is overdue. -/
def Nonneg (m : Machine δ) : Prop := ∀ x ∈ m.scheduler.due, 0 ≤ x.time

/-- What happens outside of the tick timer, and leaves some jobs as they are queued. -/
structure Elsewhere (kept : Job → Bool) (s s' : Machine δ) : Prop where
  timer : timer s' = timer s
  ordered : Ordered s → Ordered s'
  dues : Ordered s → ∀ job, kept job = true → dues job s' = dues job s
  nonneg : Ordered s → Nonneg s → Nonneg s'

namespace Elsewhere

variable {s t u : Machine δ}

theorem refl (s : Machine δ) : Elsewhere kept s s := ⟨rfl, id, fun _ _ _ => rfl, fun _ => id⟩

theorem trans (first : Elsewhere kept s t) (second : Elsewhere kept t u) : Elsewhere kept s u where
  timer := second.timer.trans first.timer
  ordered ordered := second.ordered (first.ordered ordered)
  dues ordered job tick := (second.dues (first.ordered ordered) job tick).trans (first.dues ordered job tick)
  nonneg ordered nonneg := second.nonneg (first.ordered ordered) (first.nonneg ordered nonneg)

theorem of_same (timer : Tick.timer t = Tick.timer s) (scheduler : t.scheduler = s.scheduler) : Elsewhere kept s t where
  timer := timer
  ordered ordered := ⟨scheduler ▸ ordered.fits, scheduler ▸ ordered.sorted⟩
  dues _ job _ := congrArg (fun q : Sched.Scheduler Job => duesOf job q.due) scheduler
  nonneg _ nonneg := by
    unfold Nonneg
    rw [scheduler]
    exact nonneg

theorem setSpr (s : Machine δ) {r : SprNo} (ttmr : r ≠ sprTtmr) (ttcr : r ≠ sprTtcr) (v : Word) : Elsewhere kept s (setSpr r v s) := by
  refine of_same ?_ rfl
  have kept {q : SprNo} (other : r ≠ q) : (Cpu.setSpr r v s).sprs q = s.sprs q := if_neg (Ne.symm other)
  unfold Tick.timer
  rw [kept ttmr, kept ttcr]
  rfl

end Elsewhere

/-! ### Exceptions -/

theorem setStallState_elsewhere (state : Bool) (s : Machine δ) : Elsewhere kept s (setStallState state s) := by
  unfold setStallState
  split <;> exact .of_same rfl rfl

theorem enterException_elsewhere (e : Exception) (ea : Word) (s : Machine δ) : Elsewhere kept s (enterException e ea s) := by
  have saved : Elsewhere kept s _ := ((Elsewhere.setSpr s (r := sprEearBase) (by decide) (by decide) ea).trans
    (.setSpr _ (r := sprEsrBase) (by decide) (by decide) s.sr)).trans (.setSpr _ (r := sprSr) (by decide) (by decide) (exceptSr s.sr))
  unfold enterException
  dsimp only
  split
  · exact saved.trans (.of_same rfl rfl)
  · next epcr _ =>
    have last := saved.trans (.setSpr _ (r := sprEpcrBase) (by decide) (by decide) epcr)
    exact last.trans (.of_same rfl rfl)

theorem debugIgnoreException_elsewhere (e : Exception) (s : Machine δ) : Elsewhere kept s (debugIgnoreException e s).2 :=
  (Elsewhere.setSpr s (r := sprDrr) (by decide) (by decide) _).trans (setStallState_elsewhere _ _)

theorem exceptHandle_elsewhere (e : Exception) (ea : Word) (s : Machine δ) : Elsewhere kept s (exceptHandle e ea s) := by
  have cleared : Elsewhere kept s { s with loadlockActive := false } := .of_same rfl rfl
  have asked := cleared.trans (debugIgnoreException_elsewhere e _)
  unfold exceptHandle
  dsimp only
  split
  · exact asked
  · exact asked.trans (enterException_elsewhere e ea _)

theorem exceptHandle_scheduler (e : Exception) (ea : Word) (s : Machine δ) : (exceptHandle e ea s).scheduler = s.scheduler := by
  have asked : (debugIgnoreException e { s with loadlockActive := false }).2.scheduler = s.scheduler := by
    show (setStallState _ _).scheduler = _
    unfold setStallState
    split <;> rfl
  rw [← asked]
  unfold exceptHandle
  dsimp only
  split
  · rfl
  · unfold enterException
    dsimp only
    split <;> rfl

/-! ### The queue -/

/-- A job added to the queue. -/
structure Added (job : Job) (time : Int) (s s' : Machine δ) : Prop where
  rest : s' = { s with scheduler := s'.scheduler }
  ordered : Ordered s → Ordered s'
  due : Ordered s → s'.scheduler.due = withDue ⟨job, dueAt s.scheduler (int32 time)⟩ s.scheduler.due

theorem schedAdd_added {job : Job} {time : Int} {s s' : Machine δ} (ran : schedAdd job time s = .ok ((), s')) : Added job time s s' := by
  unfold schedAdd at ran
  cases added : Sched.schedAdd s.scheduler job (int32 time) with
  | none =>
    rw [added] at ran
    cases ran
  | some q =>
    rw [added] at ran
    cases ran
    have due (ordered : Ordered s) := Sched.due_schedAdd ordered.fits (Sched.int32_int32 time) added
    exact ⟨rfl, fun ordered => ⟨Sched.fits_schedAdd ordered.fits (Sched.int32_int32 time) added, by
      show Sorted q.due
      rw [due ordered]
      exact Sched.sorted_withDue ordered.sorted⟩, due⟩

theorem dueAt_nonneg {q : Sched.Scheduler Job} {time : Int} (nonneg : 0 ≤ time) (fits : time ≤ Sched.int32Max) :
    dueAt q (int32 time) = time := by
  rw [Sched.int32_of_range (by unfold Sched.int32Min; omega) fits]
  exact if_pos nonneg

section
variable {job : Job} {time : Int} {s s' : Machine δ}

theorem Added.nonneg (added : Added job time s s') (ordered : Ordered s) (nonneg : 0 ≤ time) (fits : time ≤ Sched.int32Max)
    (before : Nonneg s) : Nonneg s' := by
  have due := added.due ordered
  rw [dueAt_nonneg nonneg fits] at due
  intro x inside
  rw [due, (Sched.withDue_perm _ _).mem_iff] at inside
  rcases List.mem_cons.mp inside with rfl | inside
  · exact nonneg
  · exact before x inside

theorem Added.elsewhere (added : Added job time s s') (other : kept job = false) (nonneg : 0 ≤ time) (fits : time ≤ Sched.int32Max) :
    Elsewhere kept s s' where
  timer := by rw [added.rest]; rfl
  ordered := added.ordered
  dues ordered j tick := by
    have differ : job ≠ j := by
      rintro rfl
      rw [other] at tick
      cases tick
    unfold dues
    rw [added.due ordered, Sched.duesOf_withDue_other differ]
  nonneg ordered := added.nonneg ordered nonneg fits

end

theorem schedAdd_elsewhere {job : Job} (other : kept job = false) {time : Int} (nonneg : 0 ≤ time) (fits : time ≤ Sched.int32Max) :
    Keeps (Elsewhere (δ := δ) kept) (schedAdd job time) :=
  fun _ _ _ ran => (schedAdd_added ran).elsewhere other nonneg fits

theorem ordered_erased {s : Machine δ} (ordered : Ordered s) (job : Job) :
    Ordered { s with scheduler := Sched.schedFindRemove s.scheduler job } where
  fits := Sched.fits_schedFindRemove ordered.fits job
  sorted := by
    show Sorted (Sched.schedFindRemove s.scheduler job).due
    rw [Sched.due_schedFindRemove]
    exact ordered.sorted.sublist List.eraseP_sublist

theorem nonneg_erased {s : Machine δ} (nonneg : Nonneg s) (job : Job) :
    Nonneg { s with scheduler := Sched.schedFindRemove s.scheduler job } := by
  intro x inside
  have inside : x ∈ (Sched.schedFindRemove s.scheduler job).due := inside
  rw [Sched.due_schedFindRemove] at inside
  exact nonneg x (List.mem_of_mem_eraseP inside)

theorem schedFindRemove_elsewhere {job : Job} (other : kept job = false) :
    Keeps (Elsewhere (δ := δ) kept) (schedFindRemove job) := by
  apply Keeps.modify
  refine fun s => ⟨rfl, fun ordered => ordered_erased ordered job, fun _ j tick => ?_, fun _ nonneg => nonneg_erased nonneg job⟩
  have differ : job ≠ j := by
    rintro rfl
    rw [other] at tick
    cases tick
  show duesOf j (Sched.schedFindRemove s.scheduler job).due = _
  rw [Sched.due_schedFindRemove, Sched.duesOf_eraseP_other differ]
  rfl

/-! ### Devices -/

theorem Elsewhere.bind {α β : Type} {p : Sim δ α} {f : α → Sim δ β} (first : Keeps (Elsewhere kept) p) (rest : ∀ a,
    Keeps (Elsewhere kept) (f a)) :
    Keeps (Elsewhere kept) (p >>= f) := by
  intro s b s' ran
  obtain ⟨a, mid, left, right⟩ := Programs.bind_ok ran
  exact (first _ _ _ left).trans (rest a _ _ _ right)

theorem picRepInt_elsewhere : Keeps (Elsewhere (δ := δ) kept) picRepInt := by
  apply Keeps.modify
  intro s
  split
  · exact exceptHandle_elsewhere _ _ s
  · exact .refl s

theorem reportInterrupt_elsewhere (own : Own kept) (c : Config δ) (line : Fin 32) : Keeps (Elsewhere kept) (reportInterrupt c line) := by
  refine Elsewhere.bind (Keeps.modify fun s => .setSpr s (by decide) (by decide) _) fun _ s a s' ran => ?_
  rw [Programs.get_bind] at ran
  split at ran
  · split at ran
    · cases ran
      exact exceptHandle_elsewhere _ _ s
    · cases ran
      exact .refl s
  · split at ran
    · cases ran
      exact .refl s
    · rw [Programs.set_bind] at ran
      have noted : Elsewhere kept s _ := .setSpr s (r := sprPicsr) (by decide) (by decide) (s.sprs sprPicsr ||| lineMask line)
      split at ran
      · exact noted.trans (schedAdd_elsewhere own.picRepInt (Int.le_refl 0) (by decide) _ _ _ ran)
      · cases ran
        exact noted

theorem devEvent_elsewhere (own : Own kept) (c : Config δ) (e : DevEvent) : Keeps (Elsewhere kept) (devEvent c e) := by
  cases e with
  | reportInterrupt line => exact reportInterrupt_elsewhere own c line
  | clearInterrupt line => exact Keeps.modify fun s => .setSpr s (by decide) (by decide) _
  | schedAdd job time => exact schedAdd_elsewhere (own.dev job) (by omega) (by unfold Sched.int32Max; omega)
  | schedFindRemove job => exact schedFindRemove_elsewhere (own.dev job)
  | verifyMemoryarea addr => exact Keeps.modify fun s => .of_same rfl rfl
  | simDone => exact keeps_stop _

theorem devEvents_elsewhere (own : Own kept) (c : Config δ) (es : List DevEvent) : Keeps (Elsewhere kept) (devEvents c es) := by
  induction es with
  | nil => exact Keeps.pure Elsewhere.refl ()
  | cons e es ih => exact Elsewhere.bind (devEvent_elsewhere own c e) fun _ => ih

theorem dues_guardAlone (cell : Nat) (job : Job) (tick : tickJob job = true) :
    duesOf job (Sched.dues 0 [⟨⟨cell, Job.guard⟩, Sched.schedTimeMax⟩]) = [] := by
  have differ : Job.guard ≠ job := by
    rintro rfl
    cases tick
  exact Sched.duesOf_cons_other differ _ []

theorem ordered_guardAlone (s : Machine δ) (cell : Nat) (free : List Nat) :
    Ordered { s with scheduler := ⟨[⟨⟨cell, Job.guard⟩, Sched.schedTimeMax⟩], free⟩ } where
  fits := Sched.fits_cons.mpr ⟨show int32 Sched.schedTimeMax = Sched.schedTimeMax by decide, nofun⟩
  sorted := List.pairwise_singleton _ _

theorem nonneg_guardAlone (s : Machine δ) (cell : Nat) (free : List Nat) :
    Nonneg { s with scheduler := ⟨[⟨⟨cell, Job.guard⟩, Sched.schedTimeMax⟩], free⟩ } := by
  intro x inside
  rw [List.mem_singleton.mp inside]
  show 0 ≤ int32 (0 + Sched.schedTimeMax)
  decide

theorem runJob_elsewhere (c : Config δ) {job : Job} (other : tickJob job = false) : Keeps (Elsewhere tickJob) (runJob c job) := by
  cases job with
  | guard =>
    intro s a s' ran
    unfold runJob at ran
    dsimp only at ran
    cases guard : Sched.schedGuard Job.guard s.scheduler with
    | none =>
      rw [guard] at ran
      cases ran
    | some q =>
      rw [guard] at ran
      cases ran
      unfold Sched.schedGuard at guard
      cases queue : s.scheduler.jobQueue with
      | nil =>
        rw [queue] at guard
        dsimp only at guard
        cases cells : s.scheduler.freeJobQueue with
        | nil =>
          rw [cells] at guard
          cases guard
        | cons cell free =>
          rw [cells] at guard
          cases guard
          refine ⟨rfl, fun _ => ordered_guardAlone s cell free, fun _ j tick => ?_, fun _ _ => nonneg_guardAlone s cell free⟩
          refine (dues_guardAlone cell j tick).trans ?_
          unfold dues Sched.Scheduler.due
          rw [queue]
          rfl
      | cons head tail =>
        rw [queue] at guard
        dsimp only at guard
        have ran : schedAdd .guard Sched.schedTimeMax s = .ok ((), { s with scheduler := q }) := by
          unfold schedAdd
          rw [show int32 Sched.schedTimeMax = Sched.schedTimeMax by decide, guard]
        exact (schedAdd_added ran).elsewhere rfl (by decide) (by decide)
  | picRepInt => exact picRepInt_elsewhere
  | dev n =>
    intro s a s' ran
    have before : Elsewhere tickJob s { s with dev := (c.devJob n s.dev).1 } := .of_same rfl rfl
    exact before.trans (devEvents_elsewhere tickJob_own c _ _ _ _ ran)
  | tickRaiseExcept | tickRestart | tickOneShot => cases other

end Or1ksim.Tick
