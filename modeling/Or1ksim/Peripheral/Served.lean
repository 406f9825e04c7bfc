import Or1ksim.Peripheral.Effects

/-!
# A peripheral and the scheduler

A peripheral is called for an access or for a job, and what it asks for is done when the call ends.
-/

namespace Or1ksim.Peripheral

open Sched (Scheduler)

/-- A peripheral, with what it is connected to. -/
structure System (D J : Type) where
  dev : D
  bus : Bus J

section
variable {D J : Type}

def System.advance (s : System D J) (n : Nat) : System D J :=
  { s with bus := { s.bus with scheduler := Sched.advance s.bus.scheduler n } }

/-- The job at the head of the queue is due, and it leaves the queue. -/
structure Due (s : System D J) (job : J) (scheduler : Scheduler J) : Prop where
  time : s.bus.scheduler.headTime.any (· ≤ 0) = true
  popped : ∃ tmp, Sched.popJob s.bus.scheduler = some (tmp, scheduler) ∧ tmp.item.job = job

theorem Due.jobs {s : System D J} {job : J} {scheduler : Scheduler J} (due : Due s job scheduler) :
    jobs s.bus.scheduler = job :: jobs scheduler := by
  obtain ⟨tmp, popped, rfl⟩ := due.popped
  exact jobs_popJob popped

theorem Due.unique {s : System D J} {job other : J} {scheduler rest : Scheduler J} (due : Due s job scheduler)
    (due' : Due s other rest) :
    other = job := by
  have heads := due'.jobs.symm.trans due.jobs
  exact (List.cons.inj heads).1

instance (s : System D J) (P : J → Prop) [DecidablePred P] : Decidable (∀ job scheduler, Due s job scheduler → P job) :=
  decidable_of_iff (s.bus.scheduler.headTime.any (· ≤ 0) = true → ∀ popped ∈ Sched.popJob s.bus.scheduler, P popped.1.item.job) <| by
    refine ⟨fun keeps job scheduler due => ?_, fun keeps time popped inside => keeps _ popped.2 ⟨time, popped.1, inside, rfl⟩⟩
    obtain ⟨tmp, popped, rfl⟩ := due.popped
    exact keeps due.time _ popped

variable [DecidableEq J] {effects : D → List (Effect J)} {s s' : System D J}

/-- A call ends when the scheduler has done what the peripheral asks for. -/
def System.serve (effects : D → List (Effect J)) (s : System D J) (f : D → Option D) : Option (System D J) :=
  (f s.dev).bind fun d => (perform s.bus (effects d)).map fun bus => ⟨d, bus⟩

/-- The job that is due, if one is. -/
def System.runDue (effects : D → List (Effect J)) (s : System D J) (f : J → D → Option D) : Option (System D J) :=
  if s.bus.scheduler.headTime.any (· ≤ 0) then
    (Sched.popJob s.bus.scheduler).bind fun (tmp, scheduler) => System.serve effects ⟨s.dev, scheduler, s.bus.line⟩ (f tmp.item.job)
  else some s

/-- A job of another peripheral is added. -/
def System.add (s : System D J) (job : J) (time : Int) : Option (System D J) :=
  ((Effect.schedAdd job time).perform s.bus).map fun bus => { s with bus }

theorem serve_some {f : D → Option D} (ran : s.serve effects f = some s') :
    f s.dev = some s'.dev ∧ perform s.bus (effects s'.dev) = some s'.bus := by
  obtain ⟨d, is, ran⟩ := Option.bind_eq_some_iff.mp ran
  obtain ⟨bus, performed, rfl⟩ := Option.map_eq_some_iff.mp ran
  exact ⟨is, performed⟩

theorem runDue_cases {f : J → D → Option D} (ran : s.runDue effects f = some s') :
    (s' = s ∧ ∀ job scheduler, ¬ Due s job scheduler) ∨ ∃ job scheduler, Due s job scheduler ∧
      System.serve effects ⟨s.dev, scheduler, s.bus.line⟩ (f job) = some s' := by
  unfold System.runDue at ran
  split at ran
  · next due =>
    obtain ⟨⟨tmp, scheduler⟩, popped, ran⟩ := Option.bind_eq_some_iff.mp ran
    exact .inr ⟨tmp.item.job, scheduler, ⟨due, tmp, popped, rfl⟩, ran⟩
  · next idle => exact .inl ⟨(Option.some.inj ran).symm, fun _ _ due => idle due.time⟩

theorem add_some {job : J} {time : Int} (ran : s.add job time = some s') :
    s'.dev = s.dev ∧ perform s.bus [.schedAdd job time] = some s'.bus := by
  obtain ⟨bus, performed, rfl⟩ := Option.map_eq_some_iff.mp ran
  exact ⟨rfl, by unfold perform; rw [performed]; rfl⟩

end

end Or1ksim.Peripheral
