import Or1ksim.Lib.DeltaList

/-!
# The job scheduler

`support/sched.c`: a queue of jobs with `int32_t` times, each counting from its predecessor, and a
free list of the cells that hold no job. The linked lists are Lean lists; a cell keeps its identity
through `Slot.cell`. A `none` result is a dereference of a null pointer: an empty queue, or an
exhausted free list.
-/

namespace Or1ksim.Sched

open DeltaList (Timed)

/-- A value stored in an `int32_t`. -/
def int32 (x : Int) : Int := x.bmod (2 ^ 32)

def int32Max : Int := 2 ^ 31 - 1

def int32Min : Int := -2 ^ 31

theorem int32_of_range {x : Int} (low : int32Min ≤ x) (high : x ≤ int32Max) : int32 x = x := by
  unfold int32Min at low
  unfold int32Max at high
  exact Int.bmod_eq_of_le (by omega) (by omega)

def schedHeapSize : Nat := 128

def schedTimeMax : Int := int32Max

/-- A `sched_entry` and the job it holds: the function and its parameter together. -/
structure Slot (J : Type) where
  cell : Nat
  job : J
  deriving DecidableEq, Repr

abbrev Entry (J : Type) := Timed (Slot J)

structure Scheduler (J : Type) where
  jobQueue : List (Entry J)
  freeJobQueue : List Nat
  deriving DecidableEq, Repr

variable {J : Type}

/-- The time of the queue's head. -/
def Scheduler.headTime (s : Scheduler J) : Option Int := s.jobQueue.head?.map Timed.time

/-- The walk of `sched_add`: the entries passed, `alltime`, and the entries from `cur` on. -/
def seek (jobTime : Int) : Int → List (Entry J) → List (Entry J) × Int × List (Entry J)
  | alltime, [] => ([], alltime, [])
  | alltime, cur :: rest =>
    if alltime < jobTime then
      match rest with
      | [] => ([cur], alltime, [])
      | next :: tail =>
        let found := seek jobTime (int32 (alltime + next.time)) (next :: tail)
        (cur :: found.1, found.2)
    else ([], alltime, cur :: rest)

/-- Adds `d` to the time of the first entry, if there is one. -/
def addTime (d : Int) : List (Entry J) → List (Entry J)
  | [] => []
  | cur :: rest => { cur with time := int32 (cur.time + d) } :: rest

def schedAdd (s : Scheduler J) (job : J) (jobTime : Int) : Option (Scheduler J) :=
  match s.jobQueue, s.freeJobQueue with
  | [], _ => none
  | _ :: _, [] => none
  | head :: tail, newJob :: free =>
    let found := seek jobTime head.time (head :: tail)
    let alltime := found.2.1
    let cur := found.2.2
    let curTime := (cur.head?.map Timed.time).getD 0
    let time :=
      if found.1 ≠ [] then int32 (jobTime - int32 (alltime - curTime))
      else if 0 ≤ jobTime then jobTime else curTime
    some { jobQueue := found.1 ++ ⟨⟨newJob, job⟩, time⟩ :: addTime (-time) cur, freeJobQueue := free }

/-- The loop of `sched_find_remove`: the queue without the job, and the cell it was in. -/
def findRemove [DecidableEq J] (job : J) : List (Entry J) → Option (List (Entry J) × Nat)
  | [] => none
  | cur :: rest =>
    if cur.item.job = job then some (addTime cur.time rest, cur.item.cell)
    else (findRemove job rest).map fun found => (cur :: found.1, found.2)

def schedFindRemove [DecidableEq J] (s : Scheduler J) (job : J) : Scheduler J :=
  match findRemove job s.jobQueue with
  | none => s
  | some found => { jobQueue := found.1, freeJobQueue := found.2 :: s.freeJobQueue }

/-- `sched_guard`, the job that keeps the queue from emptying. -/
def schedGuard (guard : J) (s : Scheduler J) : Option (Scheduler J) :=
  match s.jobQueue with
  | _ :: _ => schedAdd s guard schedTimeMax
  | [] =>
    match s.freeJobQueue with
    | [] => none
    | cell :: free => some { jobQueue := [⟨⟨cell, guard⟩, schedTimeMax⟩], freeJobQueue := free }

/-- Every cell goes back to the free list, in front of those already there. -/
def schedReset (guard : J) (s : Scheduler J) : Option (Scheduler J) :=
  schedGuard guard
    { jobQueue := []
      freeJobQueue := (s.jobQueue.map fun e => e.item.cell).reverse ++ s.freeJobQueue }

def schedInit (guard : J) : Option (Scheduler J) :=
  schedGuard guard { jobQueue := [], freeJobQueue := (List.range schedHeapSize).reverse }

/-- The first half of an iteration of `do_scheduler`: the head leaves the queue and gives its time
to its successor, which is read without a test. -/
def popJob (s : Scheduler J) : Option (Entry J × Scheduler J) :=
  match s.jobQueue with
  | tmp :: next :: rest =>
    some (tmp, { jobQueue := addTime tmp.time (next :: rest)
                 freeJobQueue := tmp.item.cell :: s.freeJobQueue })
  | _ => none

/-- `do_scheduler`, over whatever state the jobs work on: `crash` follows a null pointer, and `func`
is the job's function applied to its parameter. -/
def doScheduler {m : Type → Type} [Monad m] (crash outOfFuel : m Unit) (getSched : m (Scheduler J))
    (setSched : Scheduler J → m Unit) (func : J → m Unit) : Nat → m Unit
  | 0 => outOfFuel
  | fuel + 1 => do
    match popJob (← getSched) with
    | none => crash
    | some (tmp, rest) =>
      setSched rest
      func tmp.item.job
      match (← getSched).headTime with
      | none => crash
      | some time =>
        if time ≤ 0 then doScheduler crash outOfFuel getSched setSched func fuel else pure ()

/-- The clock of `exec_main`: `cycles` have passed since the head's time was last brought up to date. -/
def advance (s : Scheduler J) (cycles : Int) : Scheduler J :=
  { s with jobQueue := addTime (-cycles) s.jobQueue }

/-- The walk of `sched_next_insn` over the overdue entries. -/
def overdue : Int → List (Entry J) → Int
  | cycles, [] => cycles
  | cycles, cur :: rest => if cur.time < 0 then overdue (int32 (cycles - cur.time)) rest else cycles

def schedNextInsn (s : Scheduler J) (job : J) : Option (Scheduler J) :=
  schedAdd s job (overdue 1 s.jobQueue)

end Or1ksim.Sched
