import Or1ksim.Tick.InStep

/-!
# What the tick counter counts

The counter is computed from the cycle at which it would have been zero while the timer runs, and stands in its register
while the timer is stopped. A reader sees neither: only the last setting, and the enabled time since then.
-/

namespace Or1ksim.Tick

open Cpu
open Programs (Keeps)

variable {δ : Type}

/-- The last setting of `TTCR`, and the cycles since then during which the timer was enabled. -/
structure Count where
  setting : Word
  enabled : Nat
  deriving DecidableEq

def Count.value (k : Count) : Word := k.setting + BitVec.ofNat 32 k.enabled

/-- What the counter goes through, in any order: writes, the clock, and jobs whenever they come. -/
inductive Event where
  | writeTtmr (value : Word)
  | writeTtcr (value : Word)
  | cycles (n : Nat)
  | job (job : Job)

def perform (c : Config δ) : Event → Sim δ Unit
  | .writeTtmr value => mtspr c sprTtmr value
  | .writeTtcr value => mtspr c sprTtcr value
  | .cycles n => modify fun m => { m with cycles := m.cycles + n }
  | .job job => runJob c job

/-- The count after an event in the state `m`. -/
def Count.after (k : Count) (m : Machine δ) : Event → Count
  | .writeTtmr _ => k
  | .writeTtcr value => ⟨value, 0⟩
  | .cycles n => { k with enabled := k.enabled + if m.tickCounting then n else 0 }
  | .job .tickRestart => ⟨0, 0⟩
  | .job .tickOneShot => ⟨m.sprs sprTtmr &&& ttmrTp, 0⟩
  | .job _ => k

/-- The runs from a reset, with the count. Between the events the rest of the simulator runs, and leaves the timer alone. -/
inductive Counting (u : Debug.DebugConfig δ) : Count → Machine δ → Prop where
  | reset {m m' : Machine δ} (ran : Debug.simReset u m = .ok ((), m')) : Counting u ⟨0, 0⟩ m'
  | event {k : Count} {m m' : Machine δ} (e : Event) (before : Counting u k m) (ran : perform u.cpu e m = .ok ((), m')) :
      Counting u (k.after m e) m'
  | elsewhere {k : Count} {m m' : Machine δ} (before : Counting u k m) (same : timer m' = timer m) : Counting u k m'

/-! ### Events -/

section
variable {c : Config δ} {m m' s : Machine δ}

theorem read_counting (counts : m.tickCounting = true) :
    sprReadTtcr m = BitVec.ofInt 32 (m.cycles - m.cycleCountAtTickStart) := if_pos counts

theorem read_stopped (stopped : m.tickCounting = false) : sprReadTtcr m = m.sprs sprTtcr :=
  if_neg (by rw [stopped]; exact Bool.false_ne_true)

/-- A counter that is set to its register reads as its register, whether it runs or not. -/
theorem read_settled (settled : m.cycleCountAtTickStart = m.cycles - (m.sprs sprTtcr).toNat) : sprReadTtcr m = m.sprs sprTtcr := by
  cases counts : m.tickCounting with
  | false => exact read_stopped counts
  | true =>
    rw [read_counting counts, settled, Int.sub_sub_self, BitVec.ofInt_natCast, BitVec.ofNat_toNat, BitVec.setWidth_eq]

/-- A write of `TTMR` brings the register up to date and starts or stops the counter at it. -/
theorem ttmrWritten_read (value : Word) (m : Machine δ) : sprReadTtcr (ttmrWritten value m) = sprReadTtcr m := by
  rw [read_settled rfl]
  unfold ttmrWritten
  dsimp only
  split
  · next counts => exact (read_counting (m := m) counts).symm
  · next stopped => exact (read_stopped (m := m) (Bool.eq_false_iff.mpr stopped)).symm

theorem writeTtmr_read {value : Word} (ran : mtspr c sprTtmr value m = .ok ((), m')) : sprReadTtcr m' = sprReadTtcr m := by
  change schedTimerJob (m.sprs sprTtmr) (ttmrWritten value m) = _ at ran
  rw [sprReadTtcr_congr (schedTimerJob_elsewhere _ _ _ _ ran).timer, ttmrWritten_read]

theorem writeTtcr_read {value : Word} (ran : mtspr c sprTtcr value m = .ok ((), m')) : sprReadTtcr m' = value := by
  change schedTimerJob (m.sprs sprTtmr) { setSpr sprTtcr value m with cycleCountAtTickStart := m.cycles - value.toNat } = _ at ran
  rw [sprReadTtcr_congr (schedTimerJob_elsewhere _ _ _ _ ran).timer]
  exact read_settled rfl

theorem cycles_read (n : Nat) (m : Machine δ) :
    sprReadTtcr { m with cycles := m.cycles + n } = sprReadTtcr m + BitVec.ofNat 32 (if m.tickCounting then n else 0) := by
  unfold sprReadTtcr
  dsimp only
  cases m.tickCounting with
  | false => exact (BitVec.add_zero _).symm
  | true =>
    rw [if_pos rfl, if_pos rfl, if_pos rfl, ← BitVec.ofInt_natCast, ← BitVec.ofInt_add]
    congr 1
    omega

theorem restart_read (ran : tickRestart m = .ok ((), m')) : sprReadTtcr m' = 0 := by
  change schedAdd .tickRestart _ (setSpr sprTtcr 0 { m with cycleCountAtTickStart := m.cycles }) = _ at ran
  have same : timer m' = timer (setSpr sprTtcr 0 { m with cycleCountAtTickStart := m.cycles }) := by
    rw [(schedAdd_added ran).rest]
    rfl
  rw [sprReadTtcr_congr same]
  exact read_settled (Int.sub_zero _).symm

theorem oneShot_read (ran : tickOneShot m = .ok ((), m')) : sprReadTtcr m' = m.sprs sprTtmr &&& ttmrTp := by
  cases ran
  exact read_stopped rfl

theorem raise_read (ran : tickRaiseExcept m = .ok ((), m')) : sprReadTtcr m' = sprReadTtcr m := by
  unfold tickRaiseExcept at ran
  rw [Programs.modify_bind] at ran
  obtain ⟨_, mid, next, ran⟩ := Programs.bind_ok ran
  obtain ⟨time, added⟩ := schedNextInsn_added next
  have pending : sprReadTtcr mid = sprReadTtcr m := by
    rw [added.rest]
    rfl
  cases ran
  dsimp only
  split
  · exact (sprReadTtcr_congr (exceptHandle_elsewhere _ _ mid : Elsewhere tickJob mid _).timer).trans pending
  · exact pending

theorem otherJob_read {job : Job} (other : tickJob job = false) (ran : runJob c job m = .ok ((), m')) : sprReadTtcr m' = sprReadTtcr m :=
  sprReadTtcr_congr (runJob_elsewhere c other _ _ _ ran).timer

end

theorem perform_counts {c : Config δ} {k : Count} {m m' : Machine δ} (counted : sprReadTtcr m = k.value) (e : Event)
    (ran : perform c e m = .ok ((), m')) : sprReadTtcr m' = (k.after m e).value := by
  have set (v : Word) : (⟨v, 0⟩ : Count).value = v := BitVec.add_zero v
  cases e with
  | writeTtmr value => exact (writeTtmr_read ran).trans counted
  | writeTtcr value => exact (writeTtcr_read ran).trans (set value).symm
  | cycles n =>
    cases ran
    rw [cycles_read, counted]
    show k.setting + BitVec.ofNat 32 k.enabled + _ = k.setting + BitVec.ofNat 32 (k.enabled + _)
    rw [BitVec.ofNat_add, BitVec.add_assoc]
  | job job =>
    change runJob c job m = .ok ((), m') at ran
    cases job with
    | tickRestart => exact (restart_read ran).trans (set 0).symm
    | tickOneShot => exact (oneShot_read ran).trans (set _).symm
    | tickRaiseExcept => exact (raise_read ran).trans counted
    | guard => exact (otherJob_read (c := c) rfl ran).trans counted
    | picRepInt => exact (otherJob_read (c := c) rfl ran).trans counted
    | dev n => exact (otherJob_read (c := c) rfl ran).trans counted

theorem simReset_read {u : Debug.DebugConfig δ} {m m' : Machine δ} (ran : Debug.simReset u m = .ok ((), m')) : sprReadTtcr m' = 0 := by
  obtain ⟨cell, free, hooked, added, -, add, rfl⟩ := simReset_ok ran
  have added' : Elsewhere tickJob _ _ := schedAdd_elsewhere (tickJob_own.dev u.checkInt) (by decide) (by decide) _ _ _ add
  have reset : Elsewhere tickJob _ _ := cpuReset_elsewhere { added with memCycles := 0 }
  have stopped : (cpuReset { added with memCycles := 0 }).tickCounting = false :=
    (congrArg Timer.tickCounting reset.timer).trans (congrArg Timer.tickCounting added'.timer)
  rw [read_stopped stopped]
  exact (congrArg Timer.ttcr reset.timer).trans (congrArg Timer.ttcr added'.timer)

/-- In every run, `TTCR` reads as its last setting and the enabled time since then. -/
theorem ttcr_counts (u : Debug.DebugConfig δ) (k : Count) (m : Machine δ) (run : Counting u k m) :
    sprReadTtcr m = k.setting + BitVec.ofNat 32 k.enabled := by
  induction run with
  | reset ran => exact simReset_read ran
  | event e _ ran ih => exact perform_counts ih e ran
  | elsewhere _ same ih => exact (sprReadTtcr_congr same).trans ih

/-- A counter that starts at 3 and runs for a cycle. -/
theorem ttcr_counts_one :
    ∃ m, Counting bareDebug ⟨3, 1⟩ m ∧ sprReadTtcr m = 3 + BitVec.ofNat 32 1 := by
  let enable : Sim Unit Unit := perform bareDebug.cpu (.writeTtmr 0xc0000005)
  let set : Sim Unit Unit := perform bareDebug.cpu (.writeTtcr 3)
  obtain ⟨m, ran, counts⟩ := exists_ran (p := Debug.simReset bareDebug >>= fun _ => enable >>= fun _ => set) (m := Machine.bare () 0 0)
    (f := fun m => m.tickCounting) (a := true) (by decide +kernel)
  obtain ⟨_, _, reset, ran⟩ := Programs.bind_ok ran
  obtain ⟨_, _, enabled, ran⟩ := Programs.bind_ok ran
  have run : Counting bareDebug ⟨3, 0⟩ m := .event (.writeTtcr 3) (.event (.writeTtmr 0xc0000005) (.reset reset) enabled) ran
  have later := Counting.event (.cycles 1) run rfl
  have one : (⟨3, 0⟩ : Count).after m (.cycles 1) = ⟨3, 1⟩ := by
    unfold Count.after
    dsimp only
    rw [counts]
    rfl
  rw [one] at later
  exact ⟨_, later, ttcr_counts bareDebug ⟨3, 1⟩ _ later⟩

/-! ### Passes -/

theorem doScheduler_counting {u : Debug.DebugConfig δ} {fuel : Nat} {k : Count} {m m' : Machine δ} (run : Counting u k m)
    (ran : doScheduler u.cpu fuel m = .ok ((), m')) : ∃ k', Counting u k' m' := by
  induction fuel generalizing m k with
  | zero => cases ran
  | succ fuel ih =>
    obtain ⟨tmp, q, mid, time, -, job, -, more⟩ := doScheduler_step ran
    have popped : Counting u k { m with scheduler := q } := .elsewhere run rfl
    have done := Counting.event (.job tmp.item.job) popped job
    obtain ⟨-, ran⟩ | ⟨-, rfl⟩ := more
    · exact ih done ran
    · exact ⟨_, done⟩

/-- Every state of the runs of the timer has its count. -/
theorem Reached.counting {u : Debug.DebugConfig δ} {m : Machine δ} (reached : Reached u m) : ∃ k, Counting u k m := by
  induction reached with
  | reset ran => exact ⟨_, .reset ran⟩
  | @step m m' act fuel _ ran ih =>
    obtain ⟨k, run⟩ := ih
    cases act with
    | writeTtmr value => exact ⟨_, .event (.writeTtmr value) run ran⟩
    | writeTtcr value => exact ⟨_, .event (.writeTtcr value) run ran⟩
    | clock n =>
      change clock _ _ n _ = _ at ran
      unfold clock at ran
      rw [Programs.modify_bind, Programs.get_bind] at ran
      have advanced : Counting u _ { m with cycles := m.cycles + n.val, scheduler := Sched.advance m.scheduler n.val } :=
        .elsewhere (.event (.cycles n.val) run rfl) rfl
      dsimp only at ran
      cases head : (Sched.advance m.scheduler n.val).headTime with
      | none =>
        rw [head] at ran
        cases ran
      | some time =>
        rw [head] at ran
        dsimp only at ran
        split at ran
        · exact doScheduler_counting advanced ran
        · cases ran
          exact ⟨_, advanced⟩

end Or1ksim.Tick
