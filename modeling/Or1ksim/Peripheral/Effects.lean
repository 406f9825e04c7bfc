import Or1ksim.Sched.Queue

/-!
# What a peripheral asks for

A peripheral reports and clears its interrupt, and adds jobs to the scheduler and removes them. It does
not look at the queue, so what is queued follows from what it has asked for.
-/

namespace Or1ksim.Peripheral

open Sched (Scheduler Entry)

variable {J : Type}

inductive Effect (J : Type) where
  | reportInterrupt
  | clearInterrupt
  | schedAdd (job : J) (time : Int)
  | schedFindRemove (job : J)
  deriving DecidableEq, Repr

/-- The scheduler, and the interrupt line of the peripheral: whether `report_interrupt` was called last. -/
structure Bus (J : Type) where
  scheduler : Scheduler J
  line : Bool
  deriving DecidableEq

def jobs (s : Scheduler J) : List J := s.jobQueue.map fun e => e.item.job

def Effect.line (asserted : Bool) : Effect J → Bool
  | .reportInterrupt => true
  | .clearInterrupt => false
  | _ => asserted

/-- The interrupt line after some effects. -/
def lineAfter (asserted : Bool) (es : List (Effect J)) : Bool := es.foldl Effect.line asserted

@[simp] theorem lineAfter_nil (asserted : Bool) : lineAfter (J := J) asserted [] = asserted := rfl

@[simp] theorem lineAfter_snoc (asserted : Bool) (es : List (Effect J)) (e : Effect J) :
    lineAfter asserted (es ++ [e]) = e.line (lineAfter asserted es) := List.foldl_append

theorem seek_append (jobTime alltime : Int) (q : List (Entry J)) :
    (Sched.seek jobTime alltime q).1 ++ (Sched.seek jobTime alltime q).2.2 = q := by
  induction q generalizing alltime with
  | nil => rfl
  | cons cur rest ih =>
    unfold Sched.seek
    split
    · match rest with
      | [] => rfl
      | next :: tail => exact congrArg (cur :: ·) (ih _)
    · rfl

theorem map_addTime (d : Int) (q : List (Entry J)) :
    (Sched.addTime d q).map (fun e => e.item.job) = q.map fun e => e.item.job := by
  cases q <;> rfl

theorem jobs_schedAdd {s s' : Scheduler J} {job : J} {time : Int} (added : Sched.schedAdd s job time = some s') :
    (jobs s').Perm (job :: jobs s) := by
  obtain ⟨queue, cells⟩ := s
  match queue, cells with
  | [], _ => cases added
  | _ :: _, [] => cases added
  | head :: tail, newJob :: free =>
    have split := congrArg (List.map fun e : Entry J => e.item.job) (seek_append time head.time (head :: tail))
    rw [List.map_append] at split
    unfold Sched.schedAdd at added
    dsimp only at added
    cases added
    unfold jobs
    rw [← split, List.map_append, List.map_cons, map_addTime]
    exact List.perm_middle

theorem jobs_popJob {s s' : Scheduler J} {tmp : Entry J} (popped : Sched.popJob s = some (tmp, s')) :
    jobs s = tmp.item.job :: jobs s' := by
  obtain ⟨queue, cells⟩ := s
  match queue with
  | [] => cases popped
  | [_] => cases popped
  | cur :: next :: rest =>
    cases popped
    rfl

theorem jobs_advance (s : Scheduler J) (n : Int) : jobs (Sched.advance s n) = jobs s := map_addTime _ _

section
variable [DecidableEq J]

def Effect.perform (b : Bus J) : Effect J → Option (Bus J)
  | .reportInterrupt => some { b with line := true }
  | .clearInterrupt => some { b with line := false }
  | .schedAdd job time => (Sched.schedAdd b.scheduler job (Sched.int32 time)).map fun s => { b with scheduler := s }
  | .schedFindRemove job => some { b with scheduler := Sched.schedFindRemove b.scheduler job }

def perform (b : Bus J) : List (Effect J) → Option (Bus J)
  | [] => some b
  | e :: es => (e.perform b).bind fun b => perform b es

/-! ### How often a job is queued -/

def queued (job : J) (s : Scheduler J) : Nat := (jobs s).count job

def Effect.count (job : J) (n : Nat) : Effect J → Nat
  | .schedAdd other _ => if other = job then n + 1 else n
  | .schedFindRemove other => if other = job then n - 1 else n
  | _ => n

/-- How often a job is queued after some effects, when it was queued `n` times before. -/
def tally (job : J) (n : Nat) (es : List (Effect J)) : Nat := es.foldl (Effect.count job) n

@[simp] theorem tally_nil (job : J) (n : Nat) : tally job n [] = n := rfl

@[simp] theorem tally_snoc (job : J) (n : Nat) (es : List (Effect J)) (e : Effect J) :
    tally job n (es ++ [e]) = e.count job (tally job n es) := List.foldl_append

theorem jobs_findRemove {job : J} {q rest : List (Entry J)} {cell : Nat} (found : Sched.findRemove job q = some (rest, cell)) :
    rest.map (fun e => e.item.job) = (q.map fun e => e.item.job).erase job := by
  induction q generalizing rest cell with
  | nil => cases found
  | cons cur tail ih =>
    unfold Sched.findRemove at found
    split at found
    · next same =>
      cases found
      rw [map_addTime, List.map_cons, same, List.erase_cons_head]
    · next other =>
      cases more : Sched.findRemove job tail with
      | none =>
        rw [more] at found
        cases found
      | some r =>
        rw [more] at found
        cases found
        rw [List.map_cons, List.map_cons, List.erase_cons_tail (by simpa using other), ih more]

theorem jobs_absent {job : J} {q : List (Entry J)} (absent : Sched.findRemove job q = none) : job ∉ q.map fun e => e.item.job := by
  induction q with
  | nil => exact List.not_mem_nil
  | cons cur tail ih =>
    unfold Sched.findRemove at absent
    split at absent
    · cases absent
    · next other =>
      intro inside
      rcases List.mem_cons.mp inside with same | inside
      · exact other same.symm
      · exact ih (Option.map_eq_none_iff.mp absent) inside

theorem jobs_schedFindRemove (s : Scheduler J) (job : J) : jobs (Sched.schedFindRemove s job) = (jobs s).erase job := by
  unfold Sched.schedFindRemove
  cases found : Sched.findRemove job s.jobQueue with
  | none => exact (List.erase_of_not_mem (jobs_absent found)).symm
  | some r =>
    obtain ⟨rest, cell⟩ := r
    exact jobs_findRemove found

theorem Effect.perform_queued {e : Effect J} {b b' : Bus J} (job : J) (ran : e.perform b = some b') :
    queued job b'.scheduler = e.count job (queued job b.scheduler) := by
  cases e with
  | reportInterrupt | clearInterrupt =>
    cases ran
    rfl
  | schedAdd other time =>
    obtain ⟨s, added, rfl⟩ := Option.map_eq_some_iff.mp ran
    refine ((jobs_schedAdd added).count_eq job).trans ?_
    rw [List.count_cons]
    unfold Effect.count
    dsimp only
    split
    · next same => rw [if_pos (by simpa using same)]; rfl
    · next differ => rw [if_neg (by simpa using differ)]; rfl
  | schedFindRemove other =>
    cases ran
    unfold queued
    rw [jobs_schedFindRemove, List.count_erase]
    unfold Effect.count
    dsimp only
    split
    · next same => rw [if_pos (by simpa using same)]
    · next differ => rw [if_neg (by simpa using differ)]; rfl

theorem perform_queued {es : List (Effect J)} {b b' : Bus J} (job : J) (ran : perform b es = some b') :
    queued job b'.scheduler = tally job (queued job b.scheduler) es := by
  induction es generalizing b with
  | nil =>
    cases ran
    rfl
  | cons e es ih =>
    obtain ⟨mid, first, rest⟩ := Option.bind_eq_some_iff.mp ran
    rw [ih rest, Effect.perform_queued job first]
    rfl

theorem Effect.perform_line {e : Effect J} {b b' : Bus J} (ran : e.perform b = some b') : b'.line = e.line b.line := by
  cases e with
  | reportInterrupt | clearInterrupt | schedFindRemove =>
    cases ran
    rfl
  | schedAdd job time =>
    obtain ⟨s, -, rfl⟩ := Option.map_eq_some_iff.mp ran
    rfl

theorem perform_line {es : List (Effect J)} {b b' : Bus J} (ran : perform b es = some b') : b'.line = lineAfter b.line es := by
  induction es generalizing b with
  | nil =>
    cases ran
    rfl
  | cons e es ih =>
    obtain ⟨mid, first, rest⟩ := Option.bind_eq_some_iff.mp ran
    rw [ih rest, Effect.perform_line first]
    rfl

end

end Or1ksim.Peripheral
