import Mathlib

/-!
# A server that works in order

Jobs are handed to a single server, which completes them one after another. What is known of it is when each job is complete. The times
until few enough of them are left follow from the times that the jobs take.
-/

namespace FifoServer

/-- The time until something holds. -/
structure Waits (ready : Int → Prop) (start wait : Int) : Prop where
  nonneg : 0 ≤ wait
  reached : ready (start + wait)
  least : ∀ t, start ≤ t → t < start + wait → ¬ready t

theorem Waits.unique {ready : Int → Prop} {start wait wait' : Int} (first : Waits ready start wait) (second : Waits ready start wait') :
    wait = wait' := by
  obtain less | same | more := lt_trichotomy wait wait'
  · exact absurd first.reached (second.least _ (le_add_of_nonneg_right first.nonneg) (add_lt_add_right less start))
  · exact same
  · exact absurd second.reached (first.least _ (le_add_of_nonneg_right second.nonneg) (add_lt_add_right more start))

theorem Waits.now {ready : Int → Prop} {start : Int} (reached : ready start) : Waits ready start 0 where
  nonneg := le_refl 0
  reached := (add_zero start).symm ▸ reached
  least t from_start before := absurd before (by omega)

/-- The jobs that are not complete at a time. -/
def left (done : List Int) (t : Int) : Nat := done.countP fun c => t < c

/-- When the server comes to a job that is handed over at a time. -/
def begins (done : List Int) (t : Int) : Int := max t (done.getLast?.getD t)

/-- When jobs are complete that are worked on from a time on. -/
def completions : Int → List Int → List Int
  | _, [] => []
  | t, job :: jobs => (t + job) :: completions (t + job) jobs

@[simp] theorem length_completions (t : Int) (jobs : List Int) : (completions t jobs).length = jobs.length := by
  induction jobs generalizing t with
  | nil => rfl
  | cons job jobs ih => exact congrArg (· + 1) (ih (t + job))

theorem completions_snoc (t : Int) (jobs : List Int) (job : Int) :
    completions t (jobs ++ [job]) = completions t jobs ++ [t + jobs.sum + job] := by
  induction jobs generalizing t with
  | nil => rw [List.nil_append, completions, completions, completions, List.sum_nil, add_zero, List.nil_append]
  | cons first jobs ih => rw [List.cons_append, completions, ih, completions, List.cons_append, List.sum_cons, add_assoc t first]

theorem completions_bounds {t : Int} {jobs : List Int} (nonneg : ∀ job ∈ jobs, 0 ≤ job) :
    ∀ c ∈ completions t jobs, t ≤ c ∧ c ≤ t + jobs.sum := by
  induction jobs generalizing t with
  | nil => exact fun c inside => nomatch inside
  | cons job jobs ih =>
    intro c inside
    have first := nonneg job List.mem_cons_self
    have others : ∀ job ∈ jobs, 0 ≤ job := fun job inside => nonneg job (List.mem_cons_of_mem _ inside)
    have rest : 0 ≤ jobs.sum := List.sum_nonneg others
    rw [List.sum_cons]
    obtain rfl | later := List.mem_cons.mp inside
    · omega
    · have := ih others c later
      omega

theorem left_append (done done' : List Int) (t : Int) : left (done ++ done') t = left done t + left done' t := List.countP_append

theorem left_old {done : List Int} {t : Int} (old : ∀ c ∈ done, c ≤ t) : left done t = 0 :=
  List.countP_eq_zero.mpr fun c inside => by
    rw [decide_eq_true_eq, not_lt]
    exact old c inside

theorem left_all {done : List Int} {t : Int} (new : ∀ c ∈ done, t < c) : left done t = done.length :=
  List.countP_eq_length.mpr fun c inside => decide_eq_true (new c inside)

/-- A server has completed all jobs up to now, and has some to do from now on. -/
structure Serves (done : List Int) (now : Int) (jobs : List Int) : Prop where
  nonneg : ∀ job ∈ jobs, 0 ≤ job
  split : ∃ old, done = old ++ completions now jobs ∧ ∀ c ∈ old, c ≤ now

namespace Serves
variable {done jobs : List Int} {now job : Int}

theorem start (now : Int) : Serves [] now [] where
  nonneg _ inside := nomatch inside
  split := ⟨[], rfl, fun _ inside => nomatch inside⟩

theorem tail_nonneg (serves : Serves done now (job :: jobs)) : ∀ j ∈ jobs, 0 ≤ j :=
  fun j inside => serves.nonneg j (List.mem_cons_of_mem _ inside)

/-- The first job is complete. -/
theorem next (serves : Serves done now (job :: jobs)) : Serves done (now + job) jobs := by
  obtain ⟨old, rfl, before⟩ := serves.split
  have later := serves.nonneg job List.mem_cons_self
  refine ⟨serves.tail_nonneg, old ++ [now + job], ?_, fun c inside => ?_⟩
  · rw [List.append_assoc]
    rfl
  · obtain inside | last := List.mem_append.mp inside
    · exact (before c inside).trans (le_add_of_nonneg_right later)
    · exact (List.mem_singleton.mp last).le

/-- Some time has been spent on the first job. -/
theorem spend (serves : Serves done now (job :: jobs)) {t : Int} (later : now ≤ t) (within : t - now ≤ job) :
    Serves done t ((job - (t - now)) :: jobs) := by
  obtain ⟨old, rfl, before⟩ := serves.split
  refine ⟨fun j inside => ?_, old, ?_, fun c inside => (before c inside).trans later⟩
  · obtain rfl | inside := List.mem_cons.mp inside
    · omega
    · exact serves.tail_nonneg j inside
  · rw [completions, completions, show t + (job - (t - now)) = now + job by omega]

theorem idle (serves : Serves done now []) {t : Int} (later : now ≤ t) : Serves done t [] := by
  obtain ⟨old, rfl, before⟩ := serves.split
  exact ⟨serves.nonneg, old, rfl, fun c inside => (before c inside).trans later⟩

theorem flush (serves : Serves done now jobs) : Serves done (now + jobs.sum) [] := by
  induction jobs generalizing now with
  | nil => exact serves.idle (by rw [List.sum_nil, add_zero])
  | cons job jobs ih =>
    rw [List.sum_cons, ← add_assoc]
    exact ih serves.next

theorem finish (serves : Serves done now jobs) : begins done now = now + jobs.sum := by
  obtain ⟨old, rfl, before⟩ := serves.split
  unfold begins
  obtain rfl | ⟨init, last, rfl⟩ := jobs.eq_nil_or_concat'
  · rw [completions, List.append_nil, List.sum_nil, add_zero]
    cases end_ : old.getLast? with
    | none => exact max_self now
    | some c => exact max_eq_left (before c (List.mem_of_getLast? end_))
  · have total : 0 ≤ (init ++ [last]).sum := List.sum_nonneg serves.nonneg
    rw [completions_snoc, ← List.append_assoc, List.getLast?_append_of_ne_nil _ (List.cons_ne_nil _ _), List.getLast?_singleton,
      Option.getD_some,
      List.sum_append, List.sum_singleton, add_assoc]
    rw [List.sum_append, List.sum_singleton] at total
    exact max_eq_right (le_add_of_nonneg_right total)

/-- A job is handed over. -/
theorem take (serves : Serves done now jobs) (nonneg : 0 ≤ job) : Serves (done ++ [begins done now + job]) now (jobs ++ [job]) := by
  have finish := serves.finish
  obtain ⟨old, rfl, before⟩ := serves.split
  refine ⟨fun j inside => ?_, old, ?_, before⟩
  · obtain inside | last := List.mem_append.mp inside
    · exact serves.nonneg j inside
    · exact List.mem_singleton.mp last ▸ nonneg
  · rw [completions_snoc, finish, List.append_assoc]

theorem left_le (serves : Serves done now jobs) : left done now ≤ jobs.length := by
  obtain ⟨old, rfl, before⟩ := serves.split
  rw [left_append, left_old before, Nat.zero_add, ← length_completions now jobs]
  exact List.countP_le_length

/-- With as many jobs as there may be too many, one is to be completed. -/
theorem waits_next (serves : Serves done now (job :: jobs)) : Waits (fun t => left done t < jobs.length + 1) now job where
  nonneg := serves.nonneg job List.mem_cons_self
  reached := Nat.lt_succ_of_le serves.next.left_le
  least t _ before := by
    obtain ⟨old, rfl, _⟩ := serves.split
    have all : ∀ c ∈ completions now (job :: jobs), t < c := fun c inside => by
      obtain rfl | later := List.mem_cons.mp inside
      · exact before
      · exact lt_of_lt_of_le before (completions_bounds serves.tail_nonneg c later).1
    rw [left_append, left_all all, length_completions, List.length_cons]
    omega

/-- All jobs are to be completed. -/
theorem waits_flush (serves : Serves done now jobs) : Waits (fun t => left done t < 1) now jobs.sum where
  nonneg := List.sum_nonneg serves.nonneg
  reached := Nat.lt_succ_of_le serves.flush.left_le
  least t from_now before := by
    obtain rfl | ⟨init, last, rfl⟩ := jobs.eq_nil_or_concat'
    · rw [List.sum_nil, add_zero] at before
      exact absurd before (not_lt.mpr from_now)
    · obtain ⟨old, rfl, _⟩ := serves.split
      rw [List.sum_append, List.sum_singleton, ← add_assoc] at before
      have late : left [now + init.sum + last] t = 1 := left_all fun c inside => (List.mem_singleton.mp inside) ▸ before
      rw [completions_snoc, left_append, left_append, late]
      omega

end Serves

end FifoServer
