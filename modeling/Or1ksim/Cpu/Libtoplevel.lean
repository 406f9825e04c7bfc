import Or1ksim.Cpu.Step

/-!
# The loop of the library

`or1ksim_run` is a second copy of the loop of `exec_main`, which returns when its duration has passed or the processor is
stalled. A run that is cut into calls goes through the states of `exec_main`, as long as no call returns between an
instruction and the update of the clock, where it has cycles to charge or a job to run.
-/

namespace Or1ksim.Cpu

open Programs (Sim)

variable {δ : Type}

/-! ### The code -/

inductive ReturnCode where
  | ok | brkpt | halted
  deriving DecidableEq, Repr

/-- The machine and what `runtime.sim` keeps for the library: where the quantum ends, and the requests of the 32 lines. -/
structure Library (δ : Type) where
  machine : Machine δ
  endCycles : Int
  extIntSet : Word
  extIntClr : Word

abbrev LibSim (δ : Type) := Programs.Sim (Library δ) Stop

def onMachine {α : Type} (p : Cpu.Sim δ α) : LibSim δ α := fun l => do
  let (a, m) ← p l.machine
  pure (a, { l with machine := m })

/-- A duration in seconds: whether it is negative, and how many cycles it makes. -/
structure Duration where
  forever : Bool
  cycles : Int

/-- Why a call returns when the processor is stalled. -/
def stallCode (m : Machine δ) : ReturnCode := if m.halted then .halted else .brkpt

/-- The part of an iteration that may return. -/
def clockOnce (c : Config δ) : Cpu.Sim δ (Option ReturnCode) := do
  modify fun m => { m with memCycles := 0 }
  if ← cpuClock c then pure (some (stallCode (← get)))
  else
    modify fun m => if has (m.sprs sprDmr1) dmr1St then setStallState true m else m
    let m ← get
    pure (if m.stalled then some (stallCode m) else none)

/-- The requests that are set, from the lowest line on; each is cleared when it has been served. -/
def serveRequests (request : Library δ → Word) (clear : Word → Library δ → Library δ) (serve : Fin 32 → Cpu.Sim δ Unit) :
    LibSim δ Unit := do
  if request (← get) ≠ 0 then
    (List.finRange 32).forM fun i => do
      if has (request (← get)) (lineMask i) then
        onMachine (serve i)
        modify fun l => clear (request l &&& ~~~lineMask i) l

/-- The queue is brought up to date, and what is due runs. -/
def updateQueue (c : Config δ) (fuel : Nat) (timeStart : Int) : Cpu.Sim δ Unit := do
  modify fun m => { m with scheduler := Sched.advance m.scheduler (m.cycles - timeStart) }
  match (← get).scheduler.headTime with
  | none => stop .crash
  | some time => if time ≤ 0 then doScheduler c fuel

/-- An iteration of `or1ksim_run`, with the code that it returns if it does. -/
def runIteration (c : Config δ) (fuel : Nat) : LibSim δ (Option ReturnCode) := do
  let timeStart := (← get).machine.cycles
  match ← onMachine (clockOnce c) with
  | some rc => pure (some rc)
  | none =>
    onMachine (modify fun m => { m with cycles := m.cycles + Sched.int32 m.memCycles })
    serveRequests Library.extIntSet (fun left l => { l with extIntSet := left }) (reportInterrupt c)
    serveRequests Library.extIntClr (fun left l => { l with extIntClr := left }) clearInterrupt
    onMachine (updateQueue c fuel timeStart)
    pure none

def runLoop (c : Config δ) (fuel : Nat) (d : Duration) : Nat → LibSim δ ReturnCode
  | 0 => fun _ => .error .outOfFuel
  | n + 1 => do
    let l ← get
    if d.forever || l.machine.cycles < l.endCycles then
      match ← runIteration c fuel with
      | some rc => pure rc
      | none => runLoop c fuel d n
    else pure .ok

def resetDuration (d : Duration) (l : Library δ) : Library δ := { l with endCycles := l.machine.cycles + d.cycles }

/-- `or1ksim_run`, for at most `n` iterations. -/
def or1ksimRun (c : Config δ) (fuel : Nat) (d : Duration) (n : Nat) : LibSim δ ReturnCode := do
  let m := (← get).machine
  if m.stalled then pure (stallCode m)
  else
    modify (resetDuration d)
    runLoop c fuel d n

/-! ### Runs -/

/-- What happens to the processor: a step of the clock, which starts in a state, and the end of a stall. -/
inductive Event (δ : Type) where
  | step (m : Machine δ)
  | resume

def steps (log : List (Event δ)) : Nat := log.countP fun e => match e with
  | .step _ => true
  | .resume => false

/-- The runs of the library, cut into calls anywhere, and resumed between calls. A call that is going on has a duration. -/
inductive Called (c : Config δ) (fuel : Nat) (start : Library δ) : List (Event δ) → Option Duration → Library δ → Prop where
  | start : Called c fuel start [] none start
  | call {log : List (Event δ)} {l : Library δ} (d : Duration) (before : Called c fuel start log none l)
      (ready : l.machine.stalled = false) :
      Called c fuel start log (some d) (resetDuration d l)
  | goesOn {log : List (Event δ)} {l l' : Library δ} {d : Duration} (before : Called c fuel start log (some d) l)
      (within : (d.forever || l.machine.cycles < l.endCycles) = true) (ran : runIteration c fuel l = .ok (none, l')) :
      Called c fuel start (log ++ [.step l.machine]) (some d) l'
  | returns {log : List (Event δ)} {l l' : Library δ} {d : Duration} {rc : ReturnCode} (before : Called c fuel start log (some d) l)
      (within : (d.forever || l.machine.cycles < l.endCycles) = true) (ran : runIteration c fuel l = .ok (some rc, l')) :
      Called c fuel start (log ++ [.step l.machine]) none l'
  | ends {log : List (Event δ)} {l : Library δ} {d : Duration} (before : Called c fuel start log (some d) l)
      (passed : (d.forever || l.machine.cycles < l.endCycles) = false) : Called c fuel start log none l
  | resume {log : List (Event δ)} {l : Library δ} (before : Called c fuel start log none l) (waits : l.machine.stalled = true) :
      Called c fuel start (log ++ [.resume]) none { l with machine := setStallState false l.machine }

/-- The runs of `exec_main`, which waits when the processor is stalled and the debug unit is there. -/
inductive Main (c : Config δ) (fuel : Nat) (start : Machine δ) : Nat → Machine δ → Prop where
  | start : Main c fuel start 0 start
  | step {n : Nat} {m m' : Machine δ} (before : Main c fuel start n m) (ready : c.debugEnabled = true → m.stalled = false)
      (ran : execMainStep c fuel m = .ok ((), m')) : Main c fuel start (n + 1) m'
  | resume {n : Nat} {m : Machine δ} (before : Main c fuel start n m) (debug : c.debugEnabled = true) (waits : m.stalled = true) :
      Main c fuel start n (setStallState false m)

/-- An instruction that leaves the processor stalled, or to be stalled, costs no cycles and leaves no job due. -/
structure Idle (c : Config δ) (before after : Machine δ) : Prop where
  debug : c.debugEnabled = true
  cycles : after.cycles = before.cycles
  memCycles : Sched.int32 after.memCycles = 0
  later : ∃ time, after.scheduler.headTime = some time ∧ 0 < time ∧ time ≤ Sched.int32Max

/-- The step starts with the processor running, and no call returns behind it with something left to do. -/
def Charged (c : Config δ) : Event δ → Prop
  | .step m => (c.debugEnabled = true → m.stalled = false) ∧ ∀ hit m', cpuClock c { m with memCycles := 0 } = .ok (hit, m') →
      hit = false ∧ (m'.stalled = true ∨ has (m'.sprs sprDmr1) dmr1St = true → Idle c m m')
  | .resume => c.debugEnabled = true

/-! ### One iteration -/

section
variable {c : Config δ} {fuel : Nat}

theorem onMachine_ok {α : Type} {p : Cpu.Sim δ α} {l l' : Library δ} {a : α} (ran : onMachine p l = .ok (a, l')) :
    ∃ m, p l.machine = .ok (a, m) ∧ l' = { l with machine := m } := by
  unfold onMachine at ran
  cases run : p l.machine with
  | error e =>
    rw [run] at ran
    cases ran
  | ok r =>
    rw [run] at ran
    cases ran
    exact ⟨_, rfl, rfl⟩

/-- The state behind the check for single stepping. -/
def stepped (m : Machine δ) : Machine δ := if has (m.sprs sprDmr1) dmr1St then setStallState true m else m

theorem clockOnce_ok {m m' : Machine δ} {rc : Option ReturnCode} (ran : clockOnce c m = .ok (rc, m')) :
    ∃ hit n, cpuClock c { m with memCycles := 0 } = .ok (hit, n) ∧
      (hit = false → m' = stepped n ∧ (rc = none ↔ (stepped n).stalled = false)) := by
  rw [clockOnce, Programs.modify_bind] at ran
  obtain ⟨hit, n, clocked, rest⟩ := Programs.bind_ok ran
  refine ⟨hit, n, clocked, ?_⟩
  rintro rfl
  cases rest
  refine ⟨rfl, ?_⟩
  show (if (stepped n).stalled then some (stallCode (stepped n)) else none) = none ↔ _
  cases (stepped n).stalled <;> simp

/-- What `exec_main` does behind the clock. -/
def charge (c : Config δ) (fuel : Nat) (timeStart : Int) : Cpu.Sim δ Unit := do
  modify fun m => { m with cycles := m.cycles + Sched.int32 m.memCycles }
  updateQueue c fuel timeStart

theorem execMainStep_clock {m n : Machine δ} (pm : c.pmEnabled = 0) {hit : Bool}
    (clocked : cpuClock c { m with memCycles := 0 } = .ok (hit, n)) :
    execMainStep c fuel m = charge c fuel m.cycles (if c.debugEnabled && has (n.sprs sprDmr1) dmr1St
      then setStallState true n else n) := by
  rw [execMainStep, Programs.get_bind, Programs.modify_bind, Programs.get_bind, pm, decide_eq_true rfl, Bool.true_or, if_pos rfl]
  exact Programs.bind_of_ok clocked

theorem stepped_running {m : Machine δ} (runs : (stepped m).stalled = false) :
    has (m.sprs sprDmr1) dmr1St = false ∧ stepped m = m ∧ m.stalled = false := by
  unfold stepped at runs ⊢
  cases single : has (m.sprs sprDmr1) dmr1St with
  | true =>
    rw [single] at runs
    cases runs
  | false =>
    rw [single] at runs
    exact ⟨rfl, rfl, runs⟩

theorem serveRequests_none {request : Library δ → Word} {clear : Word → Library δ → Library δ} {serve : Fin 32 → Cpu.Sim δ Unit}
    {l l' : Library δ} {a : Unit} (ran : serveRequests request clear serve l = .ok (a, l')) (none : request l = 0) : l' = l := by
  rw [serveRequests, Programs.get_bind, if_neg (not_not.mpr none)] at ran
  cases ran
  rfl

theorem addTime_zero {J : Type} {q : Sched.Scheduler J} {time : Int} (head : q.headTime = some time) (low : 0 < time)
    (high : time ≤ Sched.int32Max) :
    Sched.advance q 0 = q := by
  obtain ⟨queue, cells⟩ := q
  match queue with
  | [] => cases head
  | cur :: rest =>
    have is : cur.time = time := Option.some.inj head
    have same : Sched.int32 (cur.time + -0) = cur.time := by
      rw [neg_zero, add_zero, is]
      exact Sched.int32_of_range (by unfold Sched.int32Min; omega) high
    show (⟨{ cur with time := Sched.int32 (cur.time + -0) } :: rest, cells⟩ : Sched.Scheduler J) = _
    rw [same]

/-- Nothing happens behind the clock when there are no cycles to charge and nothing is due. -/
theorem charge_idle {m : Machine δ} {time : Int} (memCycles : Sched.int32 m.memCycles = 0) (head : m.scheduler.headTime = some time)
    (low : 0 < time) (high : time ≤ Sched.int32Max) : charge c fuel m.cycles m = .ok ((), m) := by
  have counted : ({ m with cycles := m.cycles + Sched.int32 m.memCycles } : Machine δ) = m := by
    rw [memCycles, add_zero]
  have settled : ({ m with scheduler := Sched.advance m.scheduler (m.cycles - m.cycles) } : Machine δ) = m := by
    rw [sub_self, addTime_zero head low high]
  rw [charge, Programs.modify_bind, counted, updateQueue, Programs.modify_bind, settled, Programs.get_bind, head]
  simp only [if_neg (not_le.mpr low)]
  rfl

/-- An iteration that goes on is one of `exec_main`. -/
theorem runIteration_main {l l' : Library δ} (pm : c.pmEnabled = 0) (set : l.extIntSet = 0) (clr : l.extIntClr = 0)
    (charged : Charged c (.step l.machine)) (ran : runIteration c fuel l = .ok (none, l')) :
    execMainStep c fuel l.machine = .ok ((), l'.machine) ∧ l'.extIntSet = 0 ∧ l'.extIntClr = 0 := by
  rw [runIteration, Programs.get_bind] at ran
  obtain ⟨rc, mid, clocked, rest⟩ := Programs.bind_ok ran
  cases rc with
  | some rc => cases rest
  | none =>
    obtain ⟨m, once, rfl⟩ := onMachine_ok clocked
    obtain ⟨hit, n, clock, told⟩ := clockOnce_ok once
    obtain ⟨rfl, -⟩ := charged.2 hit n clock
    obtain ⟨rfl, none⟩ := told rfl
    obtain ⟨single, same, -⟩ := stepped_running (none.mp rfl)
    rw [execMainStep_clock pm clock, single, Bool.and_false, if_neg Bool.false_ne_true, charge, Programs.modify_bind]
    rw [same] at rest
    obtain ⟨_, counted, first, rest⟩ := Programs.bind_ok rest
    cases first
    obtain ⟨_, served, first, rest⟩ := Programs.bind_ok rest
    obtain rfl := serveRequests_none first set
    obtain ⟨_, served, first, rest⟩ := Programs.bind_ok rest
    obtain rfl := serveRequests_none first clr
    obtain ⟨_, settled, first, rest⟩ := Programs.bind_ok rest
    obtain ⟨m, updated, rfl⟩ := onMachine_ok first
    cases rest
    exact ⟨updated, set, clr⟩

/-- A call that returns with nothing left to do has made a step of `exec_main`. -/
theorem runIteration_returns {l l' : Library δ} {rc : ReturnCode} (pm : c.pmEnabled = 0) (charged : Charged c (.step l.machine))
    (ran : runIteration c fuel l = .ok (some rc, l')) :
    execMainStep c fuel l.machine = .ok ((), l'.machine) ∧ l'.extIntSet = l.extIntSet ∧ l'.extIntClr = l.extIntClr := by
  rw [runIteration, Programs.get_bind] at ran
  obtain ⟨rc', mid, clocked, rest⟩ := Programs.bind_ok ran
  cases rc' with
  | none =>
    obtain ⟨_, counted, first, rest⟩ := Programs.bind_ok rest
    obtain ⟨_, served, first, rest⟩ := Programs.bind_ok rest
    obtain ⟨_, served, first, rest⟩ := Programs.bind_ok rest
    obtain ⟨_, settled, first, rest⟩ := Programs.bind_ok rest
    cases rest
  | some rc' =>
    cases rest
    obtain ⟨m, once, rfl⟩ := onMachine_ok clocked
    refine ⟨?_, rfl, rfl⟩
    obtain ⟨hit, n, clock, told⟩ := clockOnce_ok once
    obtain ⟨rfl, stalls⟩ := charged.2 hit n clock
    obtain ⟨rfl, some⟩ := told rfl
    have waits : n.stalled = true ∨ has (n.sprs sprDmr1) dmr1St = true := by
      by_contra neither
      rw [not_or, Bool.not_eq_true, Bool.not_eq_true] at neither
      have runs : (stepped n).stalled = false := by
        unfold stepped
        rw [neither.2]
        exact neither.1
      cases some.mpr runs
    obtain ⟨debug, cycles, memCycles, time, head, low, high⟩ := stalls waits
    rw [execMainStep_clock pm clock, debug, Bool.true_and]
    have kept : (stepped n).cycles = l.machine.cycles ∧ (stepped n).memCycles = n.memCycles ∧ (stepped n).scheduler = n.scheduler := by
      unfold stepped setStallState
      split <;> exact ⟨cycles, rfl, rfl⟩
    obtain ⟨cycles, mem, scheduler⟩ := kept
    show charge c fuel l.machine.cycles (stepped n) = .ok ((), stepped n)
    rw [← cycles]
    exact charge_idle (mem ▸ memCycles) (scheduler ▸ head) low high

/-! ### Whole runs -/

variable {start : Library δ}

theorem steps_step (log : List (Event δ)) (m : Machine δ) : steps (log ++ [.step m]) = steps log + 1 := List.countP_append

theorem steps_resume (log : List (Event δ)) : steps (log ++ [.resume]) = steps log := List.countP_append

/-- A call of `or1ksim_run` that returns is part of a run. -/
theorem runLoop_called {n : Nat} {d : Duration} {log : List (Event δ)} {l l' : Library δ} {rc : ReturnCode}
    (before : Called c fuel start log (some d) l) (ran : runLoop c fuel d n l = .ok (rc, l')) :
      ∃ log', Called c fuel start (log ++ log') none l' := by
  induction n generalizing log l with
  | zero => cases ran
  | succ n ih =>
    rw [runLoop, Programs.get_bind] at ran
    cases within : d.forever || l.machine.cycles < l.endCycles with
    | false =>
      rw [within, if_neg Bool.false_ne_true] at ran
      cases ran
      exact ⟨[], by rw [List.append_nil]; exact before.ends within⟩
    | true =>
      rw [within, if_pos rfl] at ran
      obtain ⟨code, mid, iterated, rest⟩ := Programs.bind_ok ran
      cases code with
      | some code =>
        cases rest
        exact ⟨_, before.returns within iterated⟩
      | none =>
        obtain ⟨log', after⟩ := ih (before.goesOn within iterated) rest
        exact ⟨_, List.append_assoc .. ▸ after⟩

theorem or1ksimRun_called {n : Nat} {d : Duration} {log : List (Event δ)} {l l' : Library δ} {rc : ReturnCode}
    (before : Called c fuel start log none l) (ran : or1ksimRun c fuel d n l = .ok (rc, l')) :
      ∃ log', Called c fuel start (log ++ log') none l' := by
  rw [or1ksimRun, Programs.get_bind] at ran
  cases waits : l.machine.stalled with
  | true =>
    rw [waits, if_pos rfl] at ran
    cases ran
    exact ⟨[], by rw [List.append_nil]; exact before⟩
  | false =>
    rw [waits, if_neg Bool.false_ne_true, Programs.modify_bind] at ran
    exact runLoop_called (before.call d waits) ran

theorem Called.simulates {log : List (Event δ)} {mode : Option Duration} {l : Library δ} (run : Called c fuel start log mode l)
    (pm : c.pmEnabled = 0) (set : start.extIntSet = 0) (clr : start.extIntClr = 0) (charged : ∀ e ∈ log, Charged c e) :
    Main c fuel start.machine (steps log) l.machine ∧ l.extIntSet = 0 ∧ l.extIntClr = 0 := by
  induction run with
  | start => exact ⟨.start, set, clr⟩
  | call d _ _ ih => exact ih charged
  | goesOn _ _ ran ih =>
    obtain ⟨main, set, clr⟩ := ih fun e inside => charged e (List.mem_append_left _ inside)
    have last := charged _ (List.mem_append_right _ (List.mem_singleton_self _))
    obtain ⟨ran, set, clr⟩ := runIteration_main pm set clr last ran
    rw [steps_step]
    exact ⟨main.step last.1 ran, set, clr⟩
  | returns _ _ ran ih =>
    obtain ⟨main, set, clr⟩ := ih fun e inside => charged e (List.mem_append_left _ inside)
    have last := charged _ (List.mem_append_right _ (List.mem_singleton_self _))
    obtain ⟨ran, set', clr'⟩ := runIteration_returns pm last ran
    rw [steps_step]
    exact ⟨main.step last.1 ran, set'.trans set, clr'.trans clr⟩
  | ends _ _ ih => exact ih charged
  | resume _ waits ih =>
    obtain ⟨main, set, clr⟩ := ih fun e inside => charged e (List.mem_append_left _ inside)
    have debug : c.debugEnabled = true := charged _ (List.mem_append_right _ (List.mem_singleton_self _))
    rw [steps_resume]
    exact ⟨main.resume debug waits, set, clr⟩

/-- A processor that runs is not resumed before its first step. -/
theorem Main.unmoved {n : Nat} {m m' : Machine δ} (run : Main c fuel m n m') (none : n = 0) (runs : m.stalled = false) : m' = m := by
  induction run with
  | start => rfl
  | step => cases none
  | resume _ _ waits ih =>
    rw [ih none, runs] at waits
    cases waits

theorem Main.once {n : Nat} {m m' : Machine δ} (run : Main c fuel m n m') (one : n = 1) (runs : m.stalled = false) :
    ∃ m₁, execMainStep c fuel m = .ok ((), m₁) ∧ m'.cycles = m₁.cycles := by
  induction run with
  | start => cases one
  | step before _ ran =>
    rw [before.unmoved (Nat.succ.inj one) runs] at ran
    exact ⟨_, ran, rfl⟩
  | resume _ _ _ ih => exact ih one

/-- However a run is cut into calls, it goes through the states of `exec_main` when every step is charged. -/
theorem calls_simulate_main {log : List (Event δ)} {mode : Option Duration} {l : Library δ} (run : Called c fuel start log mode l)
    (pm : c.pmEnabled = 0) (set : start.extIntSet = 0) (clr : start.extIntClr = 0) (charged : ∀ e ∈ log, Charged c e) :
    Main c fuel start.machine (steps log) l.machine := (run.simulates pm set clr charged).1

end

/-! ### A core with a debug unit -/

def steppedConfig : Config (Word → Word) :=
  { Config.bare [⟨"l.sw", "I(rA),rB", "11 0x5  IIIII AAAAA BBBB BIII IIII IIII", "l_sw"⟩] [.words] with debugEnabled := true }

/-- At an instruction that is not in the table, with `DMR1` as given. -/
def steppedLibrary (dmr1 : Word) : Library (Word → Word) where
  machine := { Machine.bare (fun _ => 0) 0 0x2000 with sprs := fun r => if r = sprDmr1 then dmr1 else 0 }
  endCycles := 0
  extIntSet := 0
  extIntClr := 0

/-- With memory from 0x2000 to 0x3fff, the last word of which stores the register 2. Behind it the fetch is a bus error, which the debug
unit takes. -/
def ramConfig : Config (Word → Word) :=
  { steppedConfig with areas := [{ Area.words with
    addrMask := fun _ => 0xffffe000, addrCompare := fun _ => 0x2000, sizeMask := fun _ => 0x1fff }] }

def ramLibrary : Library (Word → Word) where
  machine := { Machine.bare (fun a => if a = 0x1ffc then 0xd4011000 else 0) 0 0x3ffc with
    reg := fun r => if r = 1 then 0x2000 else if r = 2 then 7 else 0
    sprs := fun r => if r = sprSr then srSm else if r = sprDsr then 0xffffffff else 0 }
  endCycles := 0
  extIntSet := 0
  extIntClr := 0

/-- What `Charged` asks of the clock. -/
structure Clocked where
  hit : Bool
  waits : Bool
  cycles : Int
  memCycles : Int
  head : Option Int
  deriving DecidableEq

def clockTold (m : Machine (Word → Word)) : Option Clocked :=
  (cpuClock ramConfig { m with memCycles := 0 }).toOption.map fun r =>
    ⟨r.1, r.2.stalled || has (r.2.sprs sprDmr1) dmr1St, r.2.cycles, r.2.memCycles, r.2.scheduler.headTime⟩

theorem clockTold_ok {m m' : Machine (Word → Word)} {hit : Bool} {seen : Clocked} (told : clockTold m = some seen)
    (clock : cpuClock ramConfig { m with memCycles := 0 } = .ok (hit, m')) :
    hit = seen.hit ∧ (m'.stalled = true ∨ has (m'.sprs sprDmr1) dmr1St = true → seen.waits = true) ∧ m'.cycles = seen.cycles ∧
      m'.memCycles = seen.memCycles ∧ m'.scheduler.headTime = seen.head := by
  rw [clockTold, clock] at told
  obtain rfl := Option.some.inj told
  exact ⟨rfl, fun waits => (Bool.or_eq_true _ _).mpr waits, rfl, rfl, rfl⟩

theorem charged_running {m : Machine (Word → Word)} {cycles memCycles : Int} {head : Option Int} (runs : m.stalled = false)
    (told : clockTold m = some ⟨false, false, cycles, memCycles, head⟩) : Charged ramConfig (.step m) :=
  ⟨fun _ => runs, fun _ _ clock => ⟨(clockTold_ok told clock).1,
    fun waits => absurd ((clockTold_ok told clock).2.1 waits) Bool.false_ne_true⟩⟩

theorem charged_idle {m : Machine (Word → Word)} {waits : Bool} {cycles time : Int} (runs : m.stalled = false) (same : m.cycles = cycles)
    (told : clockTold m = some ⟨false, waits, cycles, 0, some time⟩) (later : 0 < time ∧ time ≤ Sched.int32Max) :
      Charged ramConfig (.step m) := by
  refine ⟨fun _ => runs, fun hit m' clock => ?_⟩
  obtain ⟨hit, -, cycles, memCycles, head⟩ := clockTold_ok told clock
  exact ⟨hit, fun _ => ⟨rfl, cycles.trans same.symm, by rw [memCycles]; rfl, time, head, later⟩⟩

/-- The library is called for ten cycles, and again when the processor has been resumed. The first call makes a step that goes on, and
each makes one that stalls the processor. -/
theorem calls_simulate_main_resumed : ∃ log l, Called ramConfig 5 ramLibrary log none l ∧ steps log = 3 ∧ l.machine.cycles = 2 ∧
    l.machine.dev 0 = 7 ∧ Main ramConfig 5 ramLibrary.machine 3 l.machine := by
  let ten : Duration := ⟨false, 10⟩
  let iterate (l : Library (Word → Word)) := (runIteration ramConfig 5 l).toOption
  let resumed (l : Library (Word → Word)) : Library (Word → Word) := { l with machine := setStallState false l.machine }
  let start := resetDuration ten ramLibrary
  have seen₁ : (iterate start).map (fun r => (r.1, decide (r.2.machine.cycles < r.2.endCycles), clockTold r.2.machine,
    r.2.machine.stalled,
      r.2.machine.cycles)) = some (none, true, some ⟨false, true, 2, 0, some 2147483645⟩, false, 2) := by decide +kernel
  have seen₂ : ((iterate start).bind fun r => iterate r.2).map (fun r => (r.1, r.2.machine.stalled, clockTold (resumed r.2).machine,
      (resumed r.2).machine.cycles)) = some (some .brkpt, true, some ⟨false, true, 2, 0, some 2147483645⟩, 2) := by decide +kernel
  have seen₃ : (((iterate start).bind fun r => iterate r.2).bind fun r => iterate (resetDuration ten (resumed r.2))).map
      (fun r => (r.1, r.2.machine.cycles, r.2.machine.dev 0)) = some (some .brkpt, 2, 7) := by decide +kernel
  obtain ⟨⟨code₁, l₁⟩, ran₁, is₁⟩ := Option.map_eq_some_iff.mp seen₁
  rw [ran₁, Option.bind_some] at seen₂ seen₃
  obtain ⟨⟨code₂, l₂⟩, ran₂, is₂⟩ := Option.map_eq_some_iff.mp seen₂
  rw [ran₂, Option.bind_some] at seen₃
  obtain ⟨⟨code₃, l₃⟩, ran₃, is₃⟩ := Option.map_eq_some_iff.mp seen₃
  simp only [Prod.mk.injEq] at is₁ is₂ is₃
  obtain ⟨rfl, within, clock₁, runs, cycles₁⟩ := is₁
  obtain ⟨rfl, waits, clock₂, cycles₂⟩ := is₂
  obtain ⟨rfl, cycles, stored⟩ := is₃
  have ok {r : Option ReturnCode} {l l' : Library (Word → Word)} (ran : iterate l = some (r, l')) : runIteration ramConfig 5 l =
      .ok (r, l') := by
    cases run : runIteration ramConfig 5 l with
    | error e =>
      rw [show iterate l = _ from congrArg Except.toOption run] at ran
      cases ran
    | ok r' =>
      rw [show iterate l = _ from congrArg Except.toOption run] at ran
      obtain rfl := Option.some.inj ran
      rfl
  have none : Called ramConfig 5 ramLibrary [] none ramLibrary := .start
  have first := (none.call ten rfl).goesOn rfl (ok ran₁)
  have second := (first.returns (by rw [within]; rfl) (ok ran₂)).resume waits
  have third := (second.call ten rfl).returns (decide_eq_true (lt_add_of_pos_right _ (by decide))) (ok ran₃)
  have clock₀ : clockTold (resetDuration ten ramLibrary).machine = some ⟨false, false, 0, 2, some 2147483647⟩ := by decide +kernel
  have later : (0 : Int) < 2147483645 ∧ (2147483645 : Int) ≤ Sched.int32Max := by decide
  refine ⟨_, l₃, third, rfl, cycles, stored, calls_simulate_main third rfl rfl rfl fun e inside => ?_⟩
  simp only [List.nil_append, List.cons_append, List.mem_cons, List.not_mem_nil, or_false] at inside
  obtain rfl | rfl | rfl | rfl := inside
  · exact charged_running rfl clock₀
  · exact charged_idle runs cycles₁ clock₁ later
  · exact rfl
  · exact charged_idle rfl cycles₂ clock₂ later

/-- A single step costs a cycle, which the library does not charge. -/
theorem single_step_uncharged : ¬ ∀ (start l : Library (Word → Word)) (log : List (Event (Word → Word))) (mode : Option Duration),
    Called steppedConfig 5 start log mode l → start.extIntSet = 0 → start.extIntClr = 0 → start.machine.breakpoints = [] →
      Main steppedConfig 5 start.machine (steps log) l.machine := by
  intro claim
  have seen : (runIteration steppedConfig 5 (resetDuration ⟨false, 10⟩ (steppedLibrary dmr1St))).toOption.map
    (fun r => (r.1, r.2.machine.cycles)) =
      some (some .brkpt, 0) := by decide +kernel
  have charged : (execMainStep steppedConfig 5 (steppedLibrary dmr1St).machine).toOption.map (fun r => r.2.cycles) = some 1 := by
    decide +kernel
  cases ran : runIteration steppedConfig 5 (resetDuration ⟨false, 10⟩ (steppedLibrary dmr1St)) with
  | error e =>
    rw [ran] at seen
    cases seen
  | ok r =>
    obtain ⟨code, l⟩ := r
    rw [ran] at seen
    obtain ⟨rfl, cycles⟩ := Prod.mk.inj (Option.some.inj seen)
    have run := (Called.start.call ⟨false, 10⟩ rfl).returns rfl ran
    obtain ⟨m, stepped, same⟩ := (claim _ _ _ _ run rfl rfl rfl).once rfl rfl
    rw [stepped] at charged
    have one : m.cycles = 1 := Option.some.inj charged
    rw [one] at same
    exact absurd (cycles.symm.trans same) (by decide)

end Or1ksim.Cpu
