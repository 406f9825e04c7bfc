import Or1ksim.Tick.Jobs

/-!
# The tick timer and the scheduler stay in step

The counter of the tick timer is computed when it is read, and its jobs stand in the queue of the
scheduler. In every run of guest writes and of the clock the two agree on when the counter meets the
period.
-/

namespace Or1ksim.Tick

open Sched (Fits Sorted duesOf withDue dueAt int32 headTime_due popJob_head overdue_range)
open Cpu
open Programs (Keeps)

variable {δ : Type}

def mode (m : Machine δ) : Word := m.sprs sprTtmr &&& ttmrM

def interruptEnabled (m : Machine δ) : Bool := has (m.sprs sprTtmr) ttmrIe

def interruptPending (m : Machine δ) : Bool := has (m.sprs sprTtmr) ttmrIp

/-- The cycles until the counter meets the period, modulo the width of `TTMR[TP]`. -/
def untilMatch (m : Machine δ) : Int :=
  (((m.sprs sprTtmr &&& ttmrTp).toNat : Int) - (sprReadTtcr m &&& ttmrTp).toNat) % 2 ^ 28

/-! ### The count -/

theorem tp_toNat (w : Word) : (w &&& ttmrTp).toNat = w.toNat % 2 ^ 28 := by
  rw [BitVec.toNat_and, show ttmrTp.toNat = 2 ^ 28 - 1 by decide, Nat.and_two_pow_sub_one_eq_mod]

theorem cyclesUntilExcept_toNat {a b : Word} (small : a.toNat < 2 ^ 28) (small' : b.toNat < 2 ^ 28) :
    ((cyclesUntilExcept a b).toNat : Int) = ((a.toNat : Int) - b.toNat) % 2 ^ 28 := by
  unfold cyclesUntilExcept
  split
  · next le =>
    rw [BitVec.le_def] at le
    rw [BitVec.toNat_sub]
    omega
  · next lt =>
    rw [BitVec.not_le, BitVec.lt_def] at lt
    rw [BitVec.toNat_add, BitVec.toNat_add, BitVec.toNat_sub, show (0x0fffffff : Word).toNat = 0x0fffffff from rfl,
      show (1 : Word).toNat = 1 from rfl]
    omega

theorem untilMatch_eq (m : Machine δ) :
    ((cyclesUntilExcept (m.sprs sprTtmr &&& ttmrTp) (sprReadTtcr m &&& ttmrTp)).toNat : Int) = untilMatch m :=
  cyclesUntilExcept_toNat (by rw [tp_toNat]; omega) (by rw [tp_toNat]; omega)

theorem untilMatch_bounds (m : Machine δ) : 0 ≤ untilMatch m ∧ untilMatch m < 2 ^ 28 := by
  unfold untilMatch
  omega

theorem sprReadTtcr_congr {s s' : Machine δ} (same : timer s' = timer s) : sprReadTtcr s' = sprReadTtcr s := by
  obtain ⟨_, ttcr, counting, cycles, start⟩ := Timer.mk.inj same
  unfold sprReadTtcr
  rw [ttcr, counting, cycles, start]

theorem untilMatch_congr {s s' : Machine δ} (same : timer s' = timer s) : untilMatch s' = untilMatch s := by
  have ttmr : s'.sprs sprTtmr = s.sprs sprTtmr := congrArg Timer.ttmr same
  unfold untilMatch
  rw [ttmr, sprReadTtcr_congr same]

/-! ### When the jobs are due -/

/-- The jobs of the timer are due in `d` cycles. In a pass of the scheduler those that are overdue have
not been run yet. -/
structure Jobs (inPass : Prop) (d : Int) (m : Machine δ) : Prop where
  ordered : Ordered m
  counting : mode m ≠ ttmrSr → (m.tickCounting = true ↔ mode m ≠ 0)
  restart : dues .tickRestart m = if mode m = ttmrRt then [d] else []
  oneShot : dues .tickOneShot m = if mode m = ttmrSr ∧ m.tickCounting = true then [d] else []
  raise : dues .tickRaiseExcept m = [] ∨ interruptEnabled m = true ∧ ∃ t, dues .tickRaiseExcept m = [t] ∧
    (interruptPending m = false → mode m ≠ 0 → inPass ∧ t ≤ 0 ∨ m.tickCounting = true ∧ t = d)
  due : m.tickCounting = true → (inPass → 0 < d) → d = untilMatch m

theorem Jobs.elsewhere {inPass : Prop} {d : Int} {s s' : Machine δ} (jobs : Jobs inPass d s) (other : Elsewhere tickJob s s') :
    Jobs inPass d s' := by
  obtain ⟨ttmr, ttcr, counting, -, -⟩ := Timer.mk.inj other.timer
  have same : mode s' = mode s := congrArg (· &&& ttmrM) ttmr
  have enabled : interruptEnabled s' = interruptEnabled s := congrArg (has · ttmrIe) ttmr
  have pending : interruptPending s' = interruptPending s := congrArg (has · ttmrIp) ttmr
  have kept := other.dues jobs.ordered
  constructor
  · exact other.ordered jobs.ordered
  · rw [same, counting]
    exact jobs.counting
  · rw [kept _ rfl, same]
    exact jobs.restart
  · rw [kept _ rfl, same, counting]
    exact jobs.oneShot
  · rw [kept _ rfl, enabled, pending, same, counting]
    exact jobs.raise
  · rw [counting, untilMatch_congr other.timer]
    exact jobs.due

/-! ### Writes -/

def erase (job : Job) (m : Machine δ) : Machine δ := { m with scheduler := Sched.schedFindRemove m.scheduler job }

/-- The first half of `sched_timer_job`. -/
def removed (prevTtmr : Word) (m : Machine δ) : Machine δ :=
  let m := if has prevTtmr ttmrIe && !interruptPending m then erase .tickRaiseExcept m else m
  if prevTtmr &&& ttmrM = ttmrRt then erase .tickRestart m
  else if prevTtmr &&& ttmrM = ttmrSr then erase .tickOneShot m
  else m

/-- The second half of `sched_timer_job`. -/
def queued (m : Machine δ) : Sim δ Unit :=
  let cycles := cyclesUntilExcept (m.sprs sprTtmr &&& ttmrTp) (sprReadTtcr m &&& ttmrTp)
  let raise := interruptEnabled m && !interruptPending m
  if mode m = 0 then
    if cycles = 0 && raise then schedAdd .tickRaiseExcept 0 else pure ()
  else if mode m = ttmrRt then
    schedAdd .tickRestart cycles.toNat >>= fun _ => if raise then schedAdd .tickRaiseExcept cycles.toNat else pure ()
  else if mode m = ttmrSr then
    if m.tickCounting then
      schedAdd .tickOneShot cycles.toNat >>= fun _ => if raise then schedAdd .tickRaiseExcept cycles.toNat else pure ()
    else pure ()
  else if raise then schedAdd .tickRaiseExcept cycles.toNat else pure ()

theorem schedTimerJob_eq (prevTtmr : Word) (m : Machine δ) : schedTimerJob prevTtmr m = queued m (removed prevTtmr m) := by
  unfold schedTimerJob removed
  rw [Programs.get_bind]
  dsimp only
  cases raised : has prevTtmr ttmrIe && !has (m.sprs sprTtmr) ttmrIp with
  | true =>
    rw [show (has prevTtmr ttmrIe && !interruptPending m) = true from raised]
    by_cases restart : prevTtmr &&& ttmrM = ttmrRt
    · simp only [if_pos restart, if_true]
      rfl
    · by_cases oneShot : prevTtmr &&& ttmrM = ttmrSr
      · simp only [if_neg restart, if_pos oneShot, if_true]
        rfl
      · simp only [if_neg restart, if_neg oneShot, if_true]
        rfl
  | false =>
    rw [show (has prevTtmr ttmrIe && !interruptPending m) = false from raised]
    by_cases restart : prevTtmr &&& ttmrM = ttmrRt
    · simp only [if_pos restart, Bool.false_eq_true, if_false]
      rfl
    · by_cases oneShot : prevTtmr &&& ttmrM = ttmrSr
      · simp only [if_neg restart, if_pos oneShot, Bool.false_eq_true, if_false]
        rfl
      · simp only [if_neg restart, if_neg oneShot, Bool.false_eq_true, if_false]
        rfl

theorem dues_erase_self (job : Job) (m : Machine δ) : dues job (erase job m) = (dues job m).tail := by
  show duesOf job (Sched.schedFindRemove m.scheduler job).due = _
  rw [Sched.due_schedFindRemove, Sched.duesOf_eraseP_self]
  rfl

theorem dues_erase_other {job other : Job} (differ : other ≠ job) (m : Machine δ) : dues job (erase other m) = dues job m := by
  show duesOf job (Sched.schedFindRemove m.scheduler other).due = _
  rw [Sched.due_schedFindRemove, Sched.duesOf_eraseP_other differ]
  rfl

theorem tail_few {l : List Int} (few : l = [] ∨ ∃ d, l = [d]) : l.tail = [] := by
  rcases few with rfl | ⟨d, rfl⟩ <;> rfl

theorem schedAdd_dues {job : Job} {time : Int} {s s' : Machine δ} (ran : schedAdd job time s = .ok ((), s')) (ordered : Ordered s)
    (nonneg : 0 ≤ time) (fits : time ≤ Sched.int32Max) :
    Ordered s' ∧ timer s' = timer s ∧ (dues job s = [] → dues job s' = [time]) ∧ ∀ other, job ≠ other →
      dues other s' = dues other s := by
  have added := schedAdd_added ran
  have due := added.due ordered
  rw [dueAt_nonneg nonneg fits] at due
  refine ⟨added.ordered ordered, by rw [added.rest]; rfl, fun absent => ?_, fun other differ => ?_⟩
  · unfold dues
    rw [due]
    exact Sched.duesOf_withDue_self absent time
  · unfold dues
    rw [due]
    exact Sched.duesOf_withDue_other differ time _

/-- No job is left of those that a write replaces. -/
structure Cleared (m : Machine δ) : Prop where
  ordered : Ordered m
  restart : dues .tickRestart m = []
  oneShot : dues .tickOneShot m = []
  raise : dues .tickRaiseExcept m = [] ∨
    interruptEnabled m = true ∧ interruptPending m = true ∧ ∃ t, dues .tickRaiseExcept m = [t]

theorem removed_cleared {prevTtmr : Word} {m : Machine δ} (ordered : Ordered m)
    (restart : dues .tickRestart m = [] ∨ prevTtmr &&& ttmrM = ttmrRt ∧ ∃ d, dues .tickRestart m = [d])
    (oneShot : dues .tickOneShot m = [] ∨ prevTtmr &&& ttmrM = ttmrSr ∧ ∃ d, dues .tickOneShot m = [d])
    (raise : dues .tickRaiseExcept m = [] ∨ has prevTtmr ttmrIe = true ∧ (interruptPending m = true → interruptEnabled m = true) ∧
      ∃ t, dues .tickRaiseExcept m = [t]) :
    timer (removed prevTtmr m) = timer m ∧ Cleared (removed prevTtmr m) := by
  have first : ∃ s, s = (if has prevTtmr ttmrIe && !interruptPending m then erase .tickRaiseExcept m else m) ∧ timer s = timer m ∧
      Ordered s ∧ dues .tickRestart s = dues .tickRestart m ∧ dues .tickOneShot s = dues .tickOneShot m ∧
      (dues .tickRaiseExcept s = [] ∨ interruptEnabled m = true ∧ interruptPending m = true ∧ ∃ t, dues .tickRaiseExcept s = [t]) := by
    refine ⟨_, rfl, ?_⟩
    split
    · refine ⟨rfl, ordered_erased ordered _, dues_erase_other (by decide) m, dues_erase_other (by decide) m, .inl ?_⟩
      rw [dues_erase_self, tail_few (raise.imp id fun is => is.2.2)]
    · next kept =>
      refine ⟨rfl, ordered, rfl, rfl, raise.imp id fun ⟨before, pending, t, one⟩ => ?_⟩
      have : interruptPending m = true := by
        rw [before] at kept
        simpa using kept
      exact ⟨pending this, this, t, one⟩
  obtain ⟨s, is, same, orderedS, restartS, oneShotS, raiseS⟩ := first
  have enabled : interruptEnabled s = interruptEnabled m := congrArg (fun t : Timer => has t.ttmr ttmrIe) same
  have pending : interruptPending s = interruptPending m := congrArg (fun t : Timer => has t.ttmr ttmrIp) same
  rw [← restartS] at restart
  rw [← oneShotS] at oneShot
  rw [← enabled, ← pending] at raiseS
  unfold removed
  rw [← is]
  dsimp only
  split
  · next mode =>
    have none : dues .tickOneShot s = [] := oneShot.resolve_right fun other => absurd (mode.symm.trans other.1) (by decide)
    refine ⟨same, ordered_erased orderedS _, ?_, ?_, ?_⟩
    · rw [dues_erase_self, tail_few (restart.imp id And.right)]
    · rw [dues_erase_other (by decide)]
      exact none
    · rw [dues_erase_other (by decide)]
      exact raiseS
  · next notRestart =>
    have gone : dues .tickRestart s = [] := restart.resolve_right fun other => notRestart other.1
    split
    · refine ⟨same, ordered_erased orderedS _, ?_, ?_, ?_⟩
      · rw [dues_erase_other (by decide)]
        exact gone
      · rw [dues_erase_self, tail_few (oneShot.imp id And.right)]
      · rw [dues_erase_other (by decide)]
        exact raiseS
    · next notOneShot => exact ⟨same, orderedS, gone, oneShot.resolve_right fun other => notOneShot other.1, raiseS⟩

/-- The job that raises the interrupt, when it is added at all. -/
theorem schedAdd_raise {go : Bool} {time : Int} {m s s' : Machine δ}
    (may : go = true → interruptEnabled m = true ∧ interruptPending m = false)
    (ran : (if go then schedAdd .tickRaiseExcept time else pure ()) s = .ok ((), s')) (ordered : Ordered s) (nonneg : 0 ≤ time)
    (fits : time ≤ Sched.int32Max)
    (raise : dues .tickRaiseExcept s = [] ∨ interruptEnabled m = true ∧ interruptPending m = true ∧ ∃ t, dues .tickRaiseExcept s = [t]) :
    Ordered s' ∧ timer s' = timer s ∧ (∀ other, Job.tickRaiseExcept ≠ other → dues other s' = dues other s) ∧
      (dues .tickRaiseExcept s' = [] ∨ interruptEnabled m = true ∧ ∃ t, dues .tickRaiseExcept s' = [t] ∧
        (interruptPending m = false → t = time)) := by
  cases go with
  | false =>
    cases ran
    exact ⟨ordered, rfl, fun _ _ => rfl, raise.imp id fun ⟨enabled, pending, t, one⟩ =>
      ⟨enabled, t, one, fun other => absurd (pending.symm.trans other) (by decide)⟩⟩
  | true =>
    obtain ⟨enabled, notPending⟩ := may rfl
    obtain ⟨orderedS, same, self, others⟩ := schedAdd_dues ran ordered nonneg fits
    have none : dues .tickRaiseExcept s = [] := raise.resolve_right fun other => absurd (other.2.1.symm.trans notPending) (by decide)
    exact ⟨orderedS, same, others, .inr ⟨enabled, time, self none, fun _ => rfl⟩⟩

theorem queued_jobs {m s s' : Machine δ} (same : timer s = timer m) (cleared : Cleared s)
    (counting : mode m ≠ ttmrSr → (m.tickCounting = true ↔ mode m ≠ 0)) (ran : queued m s = .ok ((), s')) :
    Jobs False (untilMatch s') s' := by
  have bounds := untilMatch_bounds m
  have int32 : untilMatch m ≤ Sched.int32Max := by
    unfold Sched.int32Max
    omega
  have enabled : interruptEnabled s = interruptEnabled m := congrArg (fun t : Timer => has t.ttmr ttmrIe) same
  have pending : interruptPending s = interruptPending m := congrArg (fun t : Timer => has t.ttmr ttmrIp) same
  have raise := cleared.raise
  rw [enabled, pending] at raise
  have flag (is : (interruptEnabled m && !interruptPending m) = true) : interruptEnabled m = true ∧ interruptPending m = false := by
    simpa using is
  have done (after : timer s' = timer m) (ordered : Ordered s')
    (restart : dues .tickRestart s' = if mode m = ttmrRt then [untilMatch m] else [])
      (oneShot : dues .tickOneShot s' = if mode m = ttmrSr ∧ m.tickCounting = true then [untilMatch m] else [])
      (raise : dues .tickRaiseExcept s' = [] ∨ interruptEnabled m = true ∧ ∃ t, dues .tickRaiseExcept s' = [t] ∧
        (interruptPending m = false → mode m ≠ 0 → m.tickCounting = true ∧ t = untilMatch m)) : Jobs False (untilMatch s') s' := by
    have mode' : mode s' = mode m := congrArg (fun t : Timer => t.ttmr &&& ttmrM) after
    have counting' : s'.tickCounting = m.tickCounting := congrArg Timer.tickCounting after
    have enabled' : interruptEnabled s' = interruptEnabled m := congrArg (fun t : Timer => has t.ttmr ttmrIe) after
    have pending' : interruptPending s' = interruptPending m := congrArg (fun t : Timer => has t.ttmr ttmrIp) after
    rw [untilMatch_congr after]
    refine ⟨ordered, by rwa [mode', counting'], by rwa [mode'], by rwa [mode', counting'], ?_, fun _ _ => (untilMatch_congr after).symm⟩
    rw [enabled', pending', mode', counting']
    exact raise.imp id fun ⟨enabled, t, one, at'⟩ => ⟨enabled, t, one, fun notPending running => .inr (at' notPending running)⟩
  unfold queued at ran
  rw [untilMatch_eq] at ran
  split at ran
  · next off =>
    obtain ⟨ordered, after, others, raised⟩ := schedAdd_raise
      (fun go => flag (by simp only [Bool.and_eq_true] at go ⊢; exact go.2)) ran cleared.ordered (Int.le_refl 0) (by decide) raise
    refine done (after.trans same) ordered ?_ ?_ (raised.imp id fun ⟨enabled, t, one, _⟩ => ⟨enabled, t, one, fun _ on => absurd off on⟩)
    · rw [others _ (by decide), cleared.restart, if_neg]
      rw [off]
      decide
    · rw [others _ (by decide), cleared.oneShot, if_neg]
      rw [off]
      exact fun both => absurd both.1 (by decide)
  · next on =>
    split at ran
    · next auto =>
      obtain ⟨_, t, added, ran⟩ := Programs.bind_ok ran
      obtain ⟨ordered₁, after₁, self, others₁⟩ := schedAdd_dues added cleared.ordered bounds.1 int32
      have raise₁ := raise
      rw [← others₁ _ (by decide)] at raise₁
      obtain ⟨ordered, after, others, raised⟩ := schedAdd_raise flag ran ordered₁ bounds.1 int32 raise₁
      have counts : m.tickCounting = true := (counting (by rw [auto]; decide)).mpr on
      refine done ((after.trans after₁).trans same) ordered ?_ ?_
        (raised.imp id fun ⟨enabled, t, one, at'⟩ => ⟨enabled, t, one, fun notPending _ => ⟨counts, at' notPending⟩⟩)
      · rw [others _ (by decide), self cleared.restart, if_pos auto]
      · rw [others _ (by decide), others₁ _ (by decide), cleared.oneShot, if_neg]
        rw [auto]
        exact fun both => absurd both.1 (by decide)
    · next notAuto =>
      split at ran
      · next single =>
        split at ran
        · next counts =>
          obtain ⟨_, t, added, ran⟩ := Programs.bind_ok ran
          obtain ⟨ordered₁, after₁, self, others₁⟩ := schedAdd_dues added cleared.ordered bounds.1 int32
          have raise₁ := raise
          rw [← others₁ _ (by decide)] at raise₁
          obtain ⟨ordered, after, others, raised⟩ := schedAdd_raise flag ran ordered₁ bounds.1 int32 raise₁
          refine done ((after.trans after₁).trans same) ordered ?_ ?_
            (raised.imp id fun ⟨enabled, t, one, at'⟩ => ⟨enabled, t, one, fun notPending _ => ⟨counts, at' notPending⟩⟩)
          · rw [others _ (by decide), others₁ _ (by decide), cleared.restart, if_neg notAuto]
          · rw [others _ (by decide), self cleared.oneShot, if_pos ⟨single, counts⟩]
        · next stopped =>
          cases ran
          refine done same cleared.ordered ?_ ?_ (raise.imp id fun ⟨enabled, pending, t, one⟩ => ⟨enabled, t, one, fun other => ?_⟩)
          · rw [cleared.restart, if_neg notAuto]
          · rw [cleared.oneShot, if_neg fun both => stopped both.2]
          · exact absurd (pending.symm.trans other) (by decide)
      · next notSingle =>
        obtain ⟨ordered, after, others, raised⟩ := schedAdd_raise flag ran cleared.ordered bounds.1 int32 raise
        have counts : m.tickCounting = true := (counting notSingle).mpr on
        refine done (after.trans same) ordered ?_ ?_
          (raised.imp id fun ⟨enabled, t, one, at'⟩ => ⟨enabled, t, one, fun notPending _ => ⟨counts, at' notPending⟩⟩)
        · rw [others _ (by decide), cleared.restart, if_neg notAuto]
        · rw [others _ (by decide), cleared.oneShot, if_neg fun both => notSingle both.1]

/-- A write leaves the queue to `sched_timer_job`. -/
theorem schedTimerJob_jobs {d : Int} {prevTtmr : Word} {m s s' : Machine δ} (jobs : Jobs False d m) (prev : prevTtmr = m.sprs sprTtmr)
    (same : s.scheduler = m.scheduler) (pending : interruptPending s = true → s.sprs sprTtmr = m.sprs sprTtmr)
    (counting : mode s ≠ ttmrSr → (s.tickCounting = true ↔ mode s ≠ 0)) (ran : schedTimerJob prevTtmr s = .ok ((), s')) :
    Jobs False (untilMatch s') s' := by
  have dues (job : Job) : dues job s = dues job m := congrArg (fun q : Sched.Scheduler Job => duesOf job q.due) same
  have cleared : timer (removed prevTtmr s) = timer s ∧ Cleared (removed prevTtmr s) :=
    removed_cleared ⟨same ▸ jobs.ordered.fits, same ▸ jobs.ordered.sorted⟩
    (by
      rw [dues, jobs.restart, prev]
      split
      · next auto => exact .inr ⟨auto, d, rfl⟩
      · exact .inl rfl)
    (by
      rw [dues, jobs.oneShot, prev]
      split
      · next single => exact .inr ⟨single.1, d, rfl⟩
      · exact .inl rfl)
    (by
      rw [dues, prev]
      refine jobs.raise.imp id fun ⟨enabled, t, one, _⟩ => ⟨enabled, fun is => ?_, t, one⟩
      unfold interruptEnabled
      rw [pending is]
      exact enabled)
  rw [schedTimerJob_eq] at ran
  exact queued_jobs cleared.1 cleared.2 counting ran

theorem writeTtcr_jobs {c : Config δ} {d : Int} {value : Word} {m s' : Machine δ} (jobs : Jobs False d m)
    (ran : mtspr c sprTtcr value m = .ok ((), s')) : Jobs False (untilMatch s') s' :=
  schedTimerJob_jobs (s := { setSpr sprTtcr value m with cycleCountAtTickStart := m.cycles - value.toNat }) jobs rfl rfl (fun _ => rfl)
    jobs.counting ran

/-- `TTMR` written, with its interrupt cleared and the counter brought up to date. -/
def ttmrWritten (value : Word) (m : Machine δ) : Machine δ :=
  let m := setSpr sprTtmr value m
  let m := setSpr sprTtmr (m.sprs sprTtmr &&& ~~~ttmrIp) m
  let m := if m.tickCounting then setSpr sprTtcr (BitVec.ofInt 32 (m.cycles - m.cycleCountAtTickStart)) m else m
  { m with cycleCountAtTickStart := m.cycles - (m.sprs sprTtcr).toNat, tickCounting := has value ttmrM }

theorem ttmrWritten_ttmr (value : Word) (m : Machine δ) : (ttmrWritten value m).sprs sprTtmr = value &&& ~~~ttmrIp := by
  unfold ttmrWritten
  dsimp only
  split <;> rfl

theorem ttmrWritten_scheduler (value : Word) (m : Machine δ) : (ttmrWritten value m).scheduler = m.scheduler := by
  unfold ttmrWritten
  dsimp only
  split <;> rfl

theorem writeTtmr_jobs {c : Config δ} {d : Int} {value : Word} {m s' : Machine δ} (jobs : Jobs False d m)
    (ran : mtspr c sprTtmr value m = .ok ((), s')) : Jobs False (untilMatch s') s' := by
  have clear : value &&& ~~~ttmrIp &&& ttmrIp = 0 := by
    rw [BitVec.and_assoc, show ~~~ttmrIp &&& ttmrIp = 0 by decide]
    exact BitVec.and_zero
  have modes : value &&& ~~~ttmrIp &&& ttmrM = value &&& ttmrM := by
    rw [BitVec.and_assoc, show ~~~ttmrIp &&& ttmrM = ttmrM by decide]
  change schedTimerJob (m.sprs sprTtmr) (ttmrWritten value m) = _ at ran
  refine schedTimerJob_jobs jobs rfl (ttmrWritten_scheduler value m) ?_ ?_ ran
  · intro pending
    unfold interruptPending has at pending
    rw [ttmrWritten_ttmr, clear] at pending
    exact absurd pending (by decide)
  · intro _
    unfold mode
    rw [ttmrWritten_ttmr, modes]
    exact decide_eq_true_iff

/-! ### A pass of the scheduler -/

/-- A job taken off the queue. -/
structure Popped (job : Job) (time : Int) (m s : Machine δ) : Prop where
  rest : s = { m with scheduler := s.scheduler }
  ordered : Ordered s
  due : m.scheduler.due = ⟨job, time⟩ :: s.scheduler.due

theorem popJob_popped {m : Machine δ} {tmp : Sched.Entry Job} {q : Sched.Scheduler Job} (ordered : Ordered m)
    (popped : Sched.popJob m.scheduler = some (tmp, q)) : Popped tmp.item.job tmp.time m { m with scheduler := q } := by
  obtain ⟨due, -, fits⟩ := Sched.due_popJob ordered.fits popped
  have sorted := ordered.sorted
  rw [due] at sorted
  exact ⟨rfl, ⟨fits, (List.pairwise_cons.mp sorted).2⟩, due⟩

section
variable {job : Job} {time d : Int} {m s s' : Machine δ}

theorem Popped.timer (popped : Popped job time m s) : timer s = timer m := by
  rw [popped.rest]
  rfl

theorem Popped.self (popped : Popped job time m s) : dues job m = time :: dues job s := by
  unfold dues
  rw [popped.due, Sched.duesOf_cons_self]

theorem Popped.other (popped : Popped job time m s) {other : Job} (differ : job ≠ other) : dues other s = dues other m := by
  unfold dues
  rw [popped.due, Sched.duesOf_cons_other differ]

theorem Popped.elsewhere (popped : Popped job time m s) (other : tickJob job = false) : Elsewhere tickJob m s where
  timer := popped.timer
  ordered _ := popped.ordered
  dues _ j tick := by
    refine popped.other ?_
    rintro rfl
    rw [other] at tick
    cases tick
  nonneg _ nonneg x inside := nonneg x (by
    rw [popped.due]
    exact List.mem_cons_of_mem _ inside)

theorem schedNextInsn_added (ran : schedNextInsn job s = .ok ((), s')) : ∃ time, Added job time s s' := by
  refine ⟨Sched.overdue 1 s.scheduler.jobQueue, schedAdd_added ?_⟩
  unfold schedAdd
  rw [overdue_range (by decide)]
  exact ran

theorem pending_bits (w : Word) :
    (w ||| ttmrIp) &&& ttmrM = w &&& ttmrM ∧ (w ||| ttmrIp) &&& ttmrIe = w &&& ttmrIe ∧ (w ||| ttmrIp) &&& ttmrTp = w &&& ttmrTp ∧
      (w ||| ttmrIp) &&& ttmrIp ≠ 0 := by
  have keeps {mask : Word} (apart : ttmrIp &&& mask = 0) : (w ||| ttmrIp) &&& mask = w &&& mask := by
    rw [BitVec.and_or_distrib_right, apart]
    exact BitVec.or_zero
  refine ⟨keeps (by decide), keeps (by decide), keeps (by decide), fun none => ?_⟩
  have bit := congrArg (BitVec.getLsbD · 28) none
  simp only [BitVec.getLsbD_and, BitVec.getLsbD_or, show ttmrIp.getLsbD 28 = true by decide, Bool.or_true, Bool.and_self] at bit
  cases bit

theorem raise_jobs (jobs : Jobs True d m) (popped : Popped .tickRaiseExcept time m s) (ran : tickRaiseExcept s = .ok ((), s')) :
    Jobs True d s' := by
  obtain ⟨enabled, t, one, -⟩ : interruptEnabled m = true ∧ ∃ t, dues .tickRaiseExcept m = [t] ∧ _ := by
    refine jobs.raise.resolve_left fun none => ?_
    rw [popped.self] at none
    cases none
  have gone : dues .tickRaiseExcept s = [] := by
    rw [popped.self] at one
    exact (List.cons.inj one).2
  unfold tickRaiseExcept at ran
  rw [Programs.modify_bind] at ran
  obtain ⟨_, t, next, ran⟩ := Programs.bind_ok ran
  obtain ⟨time', added⟩ := schedNextInsn_added next
  have entered (u : Machine δ) : Elsewhere tickJob u (if has u.sr srTee then exceptHandle .tick (u.sprs sprEearBase) u else u) := by
    split
    · exact exceptHandle_elsewhere _ _ u
    · exact .refl u
  refine Jobs.elsewhere ?_ (Keeps.modify entered _ _ _ ran)
  have ordered : Ordered (setSpr sprTtmr (s.sprs sprTtmr ||| ttmrIp) s) := ⟨popped.ordered.fits, popped.ordered.sorted⟩
  obtain ⟨modes, enables, periods, pends⟩ := pending_bits (s.sprs sprTtmr)
  obtain ⟨ttmr, ttcr, counting, cycles, start⟩ := Timer.mk.inj popped.timer
  have ttmr' : t.sprs sprTtmr = s.sprs sprTtmr ||| ttmrIp := by
    rw [added.rest]
    rfl
  have mode' : mode t = mode m := by
    unfold mode
    rw [ttmr', modes, ttmr]
  have enabled' : interruptEnabled t = interruptEnabled m := by
    unfold interruptEnabled has
    rw [ttmr', enables, ttmr]
  have pending' : interruptPending t = true := by
    unfold interruptPending has
    rw [ttmr']
    exact decide_eq_true pends
  have counting' : t.tickCounting = m.tickCounting := by
    rw [added.rest]
    exact counting
  have until' : untilMatch t = untilMatch m := by
    have read : sprReadTtcr t = sprReadTtcr m := by
      rw [added.rest]
      unfold sprReadTtcr
      rw [← ttcr, ← counting, ← cycles, ← start]
      rfl
    unfold untilMatch
    rw [ttmr', periods, ttmr, read]
  have others {other : Job} (differ : Job.tickRaiseExcept ≠ other) : dues other t = dues other m := by
    rw [← popped.other differ]
    unfold dues
    rw [added.due ordered, Sched.duesOf_withDue_other differ]
    rfl
  constructor
  · exact added.ordered ordered
  · rw [mode', counting']
    exact jobs.counting
  · rw [others (by decide), mode']
    exact jobs.restart
  · rw [others (by decide), mode', counting']
    exact jobs.oneShot
  · rw [enabled', pending']
    refine .inr ⟨enabled, dueAt s.scheduler (int32 time'), ?_, fun other => absurd other (by decide)⟩
    unfold dues
    rw [added.due ordered]
    exact Sched.duesOf_withDue_self gone _
  · rw [counting', until']
    exact jobs.due

theorem restart_jobs (jobs : Jobs True d m) (popped : Popped .tickRestart time m s) (late : time ≤ 0)
    (ran : tickRestart s = .ok ((), s')) :
    ∃ d', Jobs True d' s' := by
  have auto : mode m = ttmrRt ∧ time = d ∧ dues .tickRestart s = [] := by
    have queued := popped.self.symm.trans jobs.restart
    split at queued
    · next auto => exact ⟨auto, List.cons.inj queued⟩
    · cases queued
  obtain ⟨auto, rfl, gone⟩ := auto
  obtain ⟨ttmr, ttcr, counting, cycles, -⟩ := Timer.mk.inj popped.timer
  have mode' : mode s = mode m := congrArg (· &&& ttmrM) ttmr
  have counts : m.tickCounting = true := (jobs.counting (by rw [auto]; decide)).mpr (by rw [auto]; decide)
  have period := tp_toNat (s.sprs sprTtmr)
  -- `SPR_TTMR_TP` of the register, added as it stands
  change schedAdd .tickRestart (s.sprs sprTtmr &&& ttmrTp).toNat
    (setSpr sprTtcr 0 { s with cycleCountAtTickStart := s.cycles }) = _ at ran
  obtain ⟨ordered, after, self, others⟩ := schedAdd_dues ran ⟨popped.ordered.fits, popped.ordered.sorted⟩ (by omega)
    (by unfold Sched.int32Max; omega)
  obtain ⟨ttmr', ttcr', counting', cycles', start'⟩ := Timer.mk.inj after
  have modes : mode s' = ttmrRt := (congrArg (· &&& ttmrM) ttmr').trans (mode'.trans auto)
  have match' : untilMatch s' = (s.sprs sprTtmr &&& ttmrTp).toNat := by
    have read : sprReadTtcr s' = 0 := by
      unfold sprReadTtcr
      rw [counting', cycles', start', ttcr']
      show (if s.tickCounting = true then BitVec.ofInt 32 (s.cycles - s.cycles) else 0) = 0
      rw [Int.sub_self]
      split <;> rfl
    have ttmr'' : s'.sprs sprTtmr = s.sprs sprTtmr := ttmr'
    unfold untilMatch
    rw [read, ttmr'', show ((0 : Word) &&& ttmrTp).toNat = 0 by decide]
    omega
  refine ⟨(s.sprs sprTtmr &&& ttmrTp).toNat, ordered, ?_, ?_, ?_, ?_, fun _ _ => match'.symm⟩
  · intro _
    rw [modes, counting']
    exact iff_of_true (counting.trans counts) (by decide)
  · rw [modes, if_pos rfl]
    exact self gone
  · rw [modes, if_neg fun both => absurd both.1 (by decide), others _ (by decide)]
    refine (popped.other (by decide)).trans (jobs.oneShot.trans (if_neg fun both => ?_))
    rw [auto] at both
    exact absurd both.1 (by decide)
  · have raise := jobs.raise
    rw [← popped.other (by decide)] at raise
    rw [others _ (by decide)]
    refine raise.imp id fun ⟨enabled, t, one, at'⟩ => ⟨?_, t, one, fun notPending _ => .inl ⟨trivial, ?_⟩⟩
    · exact (congrArg (has · ttmrIe) (ttmr'.trans ttmr)).trans enabled
    · have notPending : interruptPending m = false := (congrArg (has · ttmrIp) (ttmr'.trans ttmr)).symm.trans notPending
      rcases at' notPending (by rw [auto]; decide) with ⟨-, due⟩ | ⟨-, rfl⟩
      · exact due
      · exact late

theorem oneShot_jobs (jobs : Jobs True d m) (popped : Popped .tickOneShot time m s) (late : time ≤ 0)
    (ran : tickOneShot s = .ok ((), s')) :
    Jobs True d s' := by
  have single : (mode m = ttmrSr ∧ m.tickCounting = true) ∧ time = d ∧ dues .tickOneShot s = [] := by
    have queued := popped.self.symm.trans jobs.oneShot
    split at queued
    · next single => exact ⟨single, List.cons.inj queued⟩
    · cases queued
  obtain ⟨⟨single, counts⟩, rfl, gone⟩ := single
  obtain ⟨ttmr, -, -, -, -⟩ := Timer.mk.inj popped.timer
  have after : s' = setSpr sprTtcr (s.sprs sprTtmr &&& ttmrTp) { s with tickCounting := false } :=
    (Prod.mk.inj (Except.ok.inj ran)).2.symm
  have ttmr' : s'.sprs sprTtmr = m.sprs sprTtmr := by
    rw [after]
    exact ttmr
  have modes : mode s' = ttmrSr := (congrArg (· &&& ttmrM) ttmr').trans single
  have stopped : s'.tickCounting = false := by
    rw [after]
    rfl
  have kept (job : Job) : dues job s' = dues job s := by
    rw [after]
    rfl
  constructor
  · rw [after]
    exact ⟨popped.ordered.fits, popped.ordered.sorted⟩
  · exact fun other => absurd modes other
  · rw [kept, popped.other (by decide), jobs.restart, single, modes]
  · rw [kept, gone, if_neg]
    rw [stopped]
    exact fun both => absurd both.2 (by decide)
  · have raise := jobs.raise
    rw [← popped.other (by decide)] at raise
    rw [kept]
    refine raise.imp id fun ⟨enabled, t, one, at'⟩ => ⟨?_, t, one, fun notPending _ => .inl ⟨trivial, ?_⟩⟩
    · exact (congrArg (has · ttmrIe) ttmr').trans enabled
    · have notPending : interruptPending m = false := (congrArg (has · ttmrIp) ttmr').symm.trans notPending
      rcases at' notPending (by rw [single]; decide) with ⟨-, due⟩ | ⟨-, rfl⟩
      · exact due
      · exact late
  · rw [stopped]
    exact fun other => absurd other (by decide)

theorem runJob_jobs {c : Config δ} (jobs : Jobs True d m) (popped : Popped job time m s) (late : time ≤ 0)
    (ran : runJob c job s = .ok ((), s')) : ∃ d', Jobs True d' s' := by
  cases job with
  | tickRaiseExcept => exact ⟨d, raise_jobs jobs popped ran⟩
  | tickRestart => exact restart_jobs jobs popped late ran
  | tickOneShot => exact ⟨d, oneShot_jobs jobs popped late ran⟩
  | guard => exact ⟨d, jobs.elsewhere ((popped.elsewhere rfl).trans (runJob_elsewhere c rfl _ _ _ ran))⟩
  | picRepInt => exact ⟨d, jobs.elsewhere ((popped.elsewhere rfl).trans (runJob_elsewhere c rfl _ _ _ ran))⟩
  | dev n => exact ⟨d, jobs.elsewhere ((popped.elsewhere rfl).trans (runJob_elsewhere c rfl _ _ _ ran))⟩

end

/-! ### Whole passes -/

section
variable {c : Config δ} {m m' : Machine δ} {fuel : Nat}

theorem doScheduler_step (ran : doScheduler c (fuel + 1) m = .ok ((), m')) :
    ∃ tmp q mid time, Sched.popJob m.scheduler = some (tmp, q) ∧ runJob c tmp.item.job { m with scheduler := q } = .ok ((), mid) ∧
      mid.scheduler.headTime = some time ∧ (time ≤ 0 ∧ doScheduler c fuel mid = .ok ((), m') ∨ 0 < time ∧ m' = mid) := by
  unfold doScheduler Sched.doScheduler at ran
  obtain ⟨_, _, got, ran⟩ := Programs.bind_ok ran
  cases got
  cases popped : Sched.popJob m.scheduler with
  | none =>
    rw [popped] at ran
    cases ran
  | some r =>
    obtain ⟨tmp, q⟩ := r
    rw [popped] at ran
    dsimp only at ran
    rw [Programs.modify_bind] at ran
    obtain ⟨_, mid, job, ran⟩ := Programs.bind_ok ran
    obtain ⟨_, _, got, ran⟩ := Programs.bind_ok ran
    cases got
    cases head : mid.scheduler.headTime with
    | none =>
      rw [head] at ran
      cases ran
    | some time =>
      rw [head] at ran
      dsimp only at ran
      refine ⟨tmp, q, mid, time, rfl, job, head, ?_⟩
      split at ran
      · next late => exact .inl ⟨late, ran⟩
      · next early =>
        cases ran
        exact .inr ⟨Int.lt_of_not_ge early, rfl⟩

theorem ordered_head {time : Int} (ordered : Ordered m) (head : m.scheduler.headTime = some time) :
    ∀ x ∈ m.scheduler.due, time ≤ x.time := by
  obtain ⟨job, first⟩ := headTime_due ordered.fits head
  exact ordered.sorted.head_le first

theorem doScheduler_jobs {d time : Int} (jobs : Jobs True d m) (head : m.scheduler.headTime = some time) (late : time ≤ 0)
    (ran : doScheduler c fuel m = .ok ((), m')) : ∃ d', Jobs True d' m' ∧ ∀ x ∈ m'.scheduler.due, 0 < x.time := by
  induction fuel generalizing m d time with
  | zero => cases ran
  | succ fuel ih =>
    obtain ⟨tmp, q, mid, time', popped, job, head', more⟩ := doScheduler_step ran
    cases head.symm.trans (popJob_head popped)
    obtain ⟨d', jobs'⟩ := runJob_jobs jobs (popJob_popped jobs.ordered popped) late job
    rcases more with ⟨late', ran⟩ | ⟨early, rfl⟩
    · exact ih jobs' head' late' ran
    · refine ⟨d', jobs', fun x inside => ?_⟩
      have := ordered_head jobs'.ordered head' x inside
      omega

end

/-! ### The clock -/

/-- What `exec_main` does behind an instruction: the cycles of an instruction are an `int`. -/
def clock (c : Config δ) (fuel : Nat) (n : Fin (2 ^ 31)) : Sim δ Unit := do
  modify fun m => { m with cycles := m.cycles + n.val, scheduler := Sched.advance m.scheduler n.val }
  match (← get).scheduler.headTime with
  | none => stop .crash
  | some time => if time ≤ 0 then doScheduler c fuel

/-- What holds between instructions. -/
structure InStep (m : Machine δ) : Prop where
  jobs : Jobs False (untilMatch m) m
  nonneg : Nonneg m

section
variable {c : Config δ} {m m' : Machine δ} {n : Fin (2 ^ 31)} {d : Int}

/-- Jobs that are not overdue are due when the counter meets the period. -/
theorem Jobs.settle (jobs : Jobs True d m) (early : ∀ x ∈ m.scheduler.due, 0 < x.time) : InStep m := by
  have positive {job : Job} {t : Int} (is : dues job m = [t]) : 0 < t := by
    have inside : t ∈ dues job m := by
      rw [is]
      exact List.mem_singleton_self t
    exact early _ (Sched.mem_duesOf inside)
  have exact' (counts : m.tickCounting = true) (is : 0 < d) : d = untilMatch m := jobs.due counts fun _ => is
  refine ⟨⟨jobs.ordered, jobs.counting, ?_, ?_, ?_, fun _ _ => rfl⟩, fun x inside => Int.le_of_lt (early x inside)⟩
  · have restart := jobs.restart
    split at restart
    · next auto =>
      have counts : m.tickCounting = true := (jobs.counting (by rw [auto]; decide)).mpr (by rw [auto]; decide)
      rw [restart, if_pos auto, ← exact' counts (positive restart)]
    · next other => rw [restart, if_neg other]
  · have oneShot := jobs.oneShot
    split at oneShot
    · next single => rw [oneShot, if_pos single, ← exact' single.2 (positive oneShot)]
    · next other => rw [oneShot, if_neg other]
  · refine jobs.raise.imp id fun ⟨enabled, t, one, at'⟩ => ⟨enabled, t, one, fun notPending running => .inr ?_⟩
    have := positive one
    rcases at' notPending running with ⟨-, late⟩ | ⟨counts, rfl⟩
    · omega
    · exact ⟨counts, exact' counts this⟩

theorem untilMatch_later (counts : m.tickCounting = true) (early : (n.val : Int) < untilMatch m) (q : Sched.Scheduler Job) :
    untilMatch { m with cycles := m.cycles + n.val, scheduler := q } = untilMatch m - n.val := by
  have read : (sprReadTtcr { m with cycles := m.cycles + n.val, scheduler := q }).toNat = ((sprReadTtcr m).toNat + n.val) % 2 ^ 32 := by
    unfold sprReadTtcr
    rw [if_pos counts, if_pos counts]
    rw [BitVec.toNat_ofInt, BitVec.toNat_ofInt]
    dsimp only
    omega
  unfold untilMatch at early ⊢
  rw [tp_toNat, tp_toNat] at early ⊢
  rw [tp_toNat, read]
  dsimp only
  omega

theorem advance_jobs (inStep : InStep m) :
    Jobs True (untilMatch m - n.val) { m with cycles := m.cycles + n.val, scheduler := Sched.advance m.scheduler n.val } := by
  obtain ⟨jobs, nonneg⟩ := inStep
  have due : (Sched.advance m.scheduler n.val).due = m.scheduler.due.map fun x => { x with time := x.time - n.val } := by
    refine Sched.due_advance jobs.ordered.sorted fun x first => ?_
    have := nonneg x (List.mem_of_mem_head? first)
    have := n.isLt
    unfold Sched.int32Min
    omega
  have each (job : Job) : dues job { m with cycles := m.cycles + n.val, scheduler := Sched.advance m.scheduler n.val } =
      (dues job m).map (· - (n.val : Int)) := by
    unfold dues
    dsimp only
    rw [due, Sched.duesOf_map_sub]
  constructor
  · refine ⟨Sched.fits_addTime jobs.ordered.fits, ?_⟩
    show Sorted (Sched.advance m.scheduler n.val).due
    rw [due]
    exact List.pairwise_map.mpr (jobs.ordered.sorted.imp fun le => Int.sub_le_sub_right le _)
  · exact jobs.counting
  · rw [each, jobs.restart]
    exact apply_ite (List.map (· - (n.val : Int))) _ _ _
  · rw [each, jobs.oneShot]
    exact apply_ite (List.map (· - (n.val : Int))) _ _ _
  · rw [each]
    rcases jobs.raise with none | ⟨enabled, t, one, at'⟩
    · rw [none]
      exact .inl rfl
    · rw [one]
      refine .inr ⟨enabled, t - n.val, rfl, fun notPending running => .inr ?_⟩
      rcases at' notPending running with ⟨off, -⟩ | ⟨counts, rfl⟩
      · exact off.elim
      · exact ⟨counts, rfl⟩
  · intro counts early
    exact (untilMatch_later (m := m) (n := n) counts (by have := early trivial; omega) _).symm

theorem clock_inStep {fuel : Nat} (inStep : InStep m) (ran : clock c fuel n m = .ok ((), m')) : InStep m' := by
  have jobs := advance_jobs (n := n) inStep
  unfold clock at ran
  rw [Programs.modify_bind, Programs.get_bind] at ran
  dsimp only at ran jobs
  cases head : (Sched.advance m.scheduler n.val).headTime with
  | none =>
    rw [head] at ran
    cases ran
  | some time =>
    rw [head] at ran
    dsimp only at ran
    split at ran
    · next late =>
      obtain ⟨d', jobs', early⟩ := doScheduler_jobs jobs head late ran
      exact jobs'.settle early
    · next early =>
      cases ran
      refine jobs.settle fun x inside => ?_
      have := ordered_head jobs.ordered head x inside
      omega

end

/-! ### Runs -/

/-- Between instructions nothing that is added is overdue. -/
def NoneOverdue (m : Machine δ) : Prop := Ordered m ∧ Nonneg m

theorem NoneOverdue.of_scheduler {m s : Machine δ} (none : NoneOverdue m) (same : s.scheduler = m.scheduler) : NoneOverdue s := by
  refine ⟨⟨same ▸ none.1.fits, same ▸ none.1.sorted⟩, ?_⟩
  unfold Nonneg
  rw [same]
  exact none.2

/-- The jobs that are not the timer's. -/
def otherJob (job : Job) : Bool := !tickJob job

theorem Elsewhere.ite {kept : Job → Bool} {p : Sim δ Unit} (keeps : Keeps (Elsewhere kept) p) (go : Bool) :
    Keeps (Elsewhere kept) (if go then p else pure ()) := by
  cases go with
  | false => exact Keeps.pure Elsewhere.refl ()
  | true => exact keeps

/-- Writes leave the other jobs alone, and add none that is overdue. -/
theorem queued_elsewhere (m : Machine δ) : Keeps (Elsewhere otherJob) (queued m) := by
  have bounds := untilMatch_bounds m
  have add {job : Job} (own : otherJob job = false) : Keeps (Elsewhere (δ := δ) otherJob)
      (schedAdd job (cyclesUntilExcept (m.sprs sprTtmr &&& ttmrTp) (sprReadTtcr m &&& ttmrTp)).toNat) := by
    rw [untilMatch_eq]
    exact schedAdd_elsewhere own bounds.1 (by unfold Sched.int32Max; omega)
  unfold queued
  dsimp only
  split
  · exact Elsewhere.ite (schedAdd_elsewhere rfl (Int.le_refl 0) (by decide)) _
  · split
    · exact Elsewhere.bind (add rfl) fun _ => Elsewhere.ite (add rfl) _
    · split
      · exact Elsewhere.ite (Elsewhere.bind (add rfl) fun _ => Elsewhere.ite (add rfl) _) _
      · exact Elsewhere.ite (add rfl) _

theorem removed_elsewhere (prevTtmr : Word) (m : Machine δ) : Elsewhere otherJob m (removed prevTtmr m) := by
  have erased {job : Job} (own : otherJob job = false) (m : Machine δ) : Elsewhere otherJob m (erase job m) :=
    schedFindRemove_elsewhere own m () _ rfl
  have first : Elsewhere otherJob m (if has prevTtmr ttmrIe && !interruptPending m then erase .tickRaiseExcept m else m) := by
    split
    · exact erased rfl m
    · exact .refl m
  unfold removed
  dsimp only
  split
  · exact first.trans (erased rfl _)
  · split
    · exact first.trans (erased rfl _)
    · exact first

theorem schedTimerJob_elsewhere (prevTtmr : Word) : Keeps (Elsewhere (δ := δ) otherJob) (schedTimerJob prevTtmr) := by
  intro s a s' ran
  rw [schedTimerJob_eq] at ran
  exact (removed_elsewhere prevTtmr s).trans (queued_elsewhere s _ _ _ ran)

/-- What happens to the tick timer: the writes of the guest, and the clock. -/
inductive Act where
  | writeTtmr (value : Word)
  | writeTtcr (value : Word)
  | clock (n : Fin (2 ^ 31))
  deriving DecidableEq

def step (c : Config δ) (fuel : Nat) : Act → Sim δ Unit
  | .writeTtmr value => mtspr c sprTtmr value
  | .writeTtcr value => mtspr c sprTtcr value
  | .clock n => clock c fuel n

/-- The states of the runs from a reset. A pass that does not return reaches none. -/
inductive Reached (u : Debug.DebugConfig δ) : Machine δ → Prop where
  | reset {m m' : Machine δ} (ran : Debug.simReset u m = .ok ((), m')) : Reached u m'
  | step {m m' : Machine δ} (act : Act) (fuel : Nat) (before : Reached u m) (ran : step u.cpu fuel act m = .ok ((), m')) : Reached u m'

theorem step_inStep {c : Config δ} {fuel : Nat} {act : Act} {m m' : Machine δ} (inStep : InStep m)
    (ran : step c fuel act m = .ok ((), m')) :
    InStep m' := by
  have none : NoneOverdue m := ⟨inStep.jobs.ordered, inStep.nonneg⟩
  cases act with
  | writeTtmr value =>
    refine ⟨writeTtmr_jobs inStep.jobs ran, ?_⟩
    change schedTimerJob (m.sprs sprTtmr) (ttmrWritten value m) = _ at ran
    obtain ⟨ordered, nonneg⟩ := none.of_scheduler (ttmrWritten_scheduler value m)
    exact (schedTimerJob_elsewhere _ _ _ _ ran).nonneg ordered nonneg
  | writeTtcr value =>
    refine ⟨writeTtcr_jobs inStep.jobs ran, ?_⟩
    change schedTimerJob (m.sprs sprTtmr) { setSpr sprTtcr value m with cycleCountAtTickStart := m.cycles - value.toNat } = _ at ran
    obtain ⟨ordered, nonneg⟩ : NoneOverdue { setSpr sprTtcr value m with cycleCountAtTickStart := m.cycles - value.toNat } :=
      none.of_scheduler rfl
    exact (schedTimerJob_elsewhere _ _ _ _ ran).nonneg ordered nonneg
  | clock n => exact clock_inStep inStep ran

/-- After `sched_reset` the guard stands alone. -/
theorem schedReset_alone {q r : Sched.Scheduler Job} (reset : Sched.schedReset Job.guard q = some r) :
    ∃ cell free, r = ⟨[⟨⟨cell, Job.guard⟩, Sched.schedTimeMax⟩], free⟩ := by
  unfold Sched.schedReset Sched.schedGuard at reset
  dsimp only at reset
  split at reset
  · cases reset
  · next cell free _ =>
    cases reset
    exact ⟨cell, free, rfl⟩

theorem cpuReset_elsewhere {kept : Job → Bool} (s : Machine δ) : Elsewhere kept { s with cycles := 0 } (cpuReset s) := by
  have updated (s : Machine δ) : Elsewhere kept s (updatePc s) :=
    (Elsewhere.setSpr s (r := sprPpc) (by decide) (by decide) s.pc).trans (.of_same rfl rfl)
  let started : Machine δ := { s with
    cycles := 0
    reg := fun _ => 0
    insnAddr := 0
    insn := 0
    sbuf := { s.sbuf with head := 0, tail := 0, count := 0, prevCycles := 0 }
    pc := resetVector s
    pcnext := resetVector s + 4 }
  have begun : Elsewhere kept { s with cycles := 0 } started := .of_same rfl rfl
  have done : Elsewhere kept (updatePc (exceptHandle .reset 0 started)) (cpuReset s) := .of_same rfl rfl
  exact ((begun.trans (exceptHandle_elsewhere .reset 0 started)).trans (updated _)).trans done

/-- The steps of a reset: the guard alone, the hooks of the devices, `check_int` and the core. -/
theorem simReset_ok {u : Debug.DebugConfig δ} {m m' : Machine δ} (ran : Debug.simReset u m = .ok ((), m')) :
    ∃ cell free hooked added,
      devEvents u.cpu (u.resetHooks m.dev).2
        { m with scheduler := ⟨[⟨⟨cell, Job.guard⟩, Sched.schedTimeMax⟩], free⟩, dev := (u.resetHooks m.dev).1 } = .ok ((), hooked) ∧
      schedAdd (.dev u.checkInt) 1 (Debug.unitsReset u.cpu hooked) = .ok ((), added) ∧ m' = cpuReset { added with memCycles := 0 } := by
  unfold Debug.simReset at ran
  rw [Programs.get_bind] at ran
  cases reset : Sched.schedReset Job.guard m.scheduler with
  | none =>
    rw [reset] at ran
    cases ran
  | some q =>
    rw [reset] at ran
    obtain ⟨cell, free, rfl⟩ := schedReset_alone reset
    dsimp only at ran
    rw [Programs.set_bind] at ran
    obtain ⟨_, hooked, hooks, ran⟩ := Programs.bind_ok ran
    rw [Programs.modify_bind] at ran
    obtain ⟨_, added, add, ran⟩ := Programs.bind_ok ran
    cases ran
    exact ⟨cell, free, hooked, added, hooks, add, rfl⟩

theorem simReset_inStep {u : Debug.DebugConfig δ} {m m' : Machine δ} (ran : Debug.simReset u m = .ok ((), m')) : InStep m' := by
  obtain ⟨cell, free, hooked, added, hooks, add, rfl⟩ := simReset_ok ran
  have none : NoneOverdue { m with scheduler := ⟨[⟨⟨cell, Job.guard⟩, Sched.schedTimeMax⟩], free⟩, dev := (u.resetHooks m.dev).1 } :=
    ⟨ordered_guardAlone { m with dev := (u.resetHooks m.dev).1 } cell free, nonneg_guardAlone m cell free⟩
  have hooked' := devEvents_elsewhere tickJob_own u.cpu _ _ _ _ hooks
  have added' : Elsewhere tickJob _ _ := schedAdd_elsewhere (tickJob_own.dev u.checkInt) (by decide) (by decide) _ _ _ add
  have reset' : Elsewhere tickJob _ _ := cpuReset_elsewhere { added with memCycles := 0 }
  have none₁ : NoneOverdue (Debug.unitsReset u.cpu hooked) :=
    NoneOverdue.of_scheduler ⟨hooked'.ordered none.1, hooked'.nonneg none.1 none.2⟩ rfl
  have none₂ : NoneOverdue { added with memCycles := 0, cycles := 0 } :=
    NoneOverdue.of_scheduler ⟨added'.ordered none₁.1, added'.nonneg none₁.1 none₁.2⟩ rfl
  have absent (job : Job) (tick : tickJob job = true) : dues job (cpuReset { added with memCycles := 0 }) = [] := by
    refine (reset'.dues none₂.1 job tick).trans ((added'.dues none₁.1 job tick).trans ?_)
    exact (hooked'.dues none.1 job tick).trans (dues_guardAlone cell job tick)
  have ttmr : (cpuReset { added with memCycles := 0 }).sprs sprTtmr = 0 :=
    (congrArg Timer.ttmr reset'.timer).trans (congrArg Timer.ttmr added'.timer)
  have stopped : (cpuReset { added with memCycles := 0 }).tickCounting = false :=
    (congrArg Timer.tickCounting reset'.timer).trans (congrArg Timer.tickCounting added'.timer)
  have off : mode (cpuReset { added with memCycles := 0 }) = 0 := by
    unfold mode
    rw [ttmr]
    rfl
  refine ⟨⟨reset'.ordered none₂.1, fun _ => ?_, ?_, ?_, .inl (absent _ rfl), fun _ _ => rfl⟩, reset'.nonneg none₂.1 none₂.2⟩
  · rw [off, stopped]
    decide
  · rw [absent _ rfl, off, if_neg (by decide)]
  · rw [absent _ rfl, off, if_neg fun both => absurd both.1 (by decide)]

theorem reached_inStep {u : Debug.DebugConfig δ} {m : Machine δ} (reached : Reached u m) : InStep m := by
  induction reached with
  | reset ran => exact simReset_inStep ran
  | step act fuel _ ran ih => exact step_inStep ih ran

/-- In every run of guest writes and clock steps from a reset, each job of the timer is queued at most once, when its mode asks for it,
and is due in the cycles that the counter needs to meet the period. -/
theorem timer_in_step (u : Debug.DebugConfig δ) (m : Machine δ) (reached : Reached u m) :
    dues .tickRestart m = (if mode m = ttmrRt then [untilMatch m] else []) ∧
    dues .tickOneShot m = (if mode m = ttmrSr ∧ m.tickCounting = true then [untilMatch m] else []) ∧
    (dues .tickRaiseExcept m).length ≤ 1 ∧
    (interruptEnabled m = true → interruptPending m = false → mode m ≠ 0 → ∀ t ∈ dues .tickRaiseExcept m, t = untilMatch m) := by
  obtain ⟨jobs, -⟩ := reached_inStep reached
  refine ⟨jobs.restart, jobs.oneShot, ?_, fun _ notPending running t inside => ?_⟩
  · rcases jobs.raise with none | ⟨-, t, one, -⟩
    · rw [none]
      exact Nat.zero_le 1
    · rw [one]
      exact Nat.le_refl 1
  · rcases jobs.raise with none | ⟨-, s, one, at'⟩
    · rw [none] at inside
      cases inside
    · rw [one] at inside
      obtain rfl := List.mem_singleton.mp inside
      exact ((at' notPending running).resolve_left fun both => both.1).2

/-- A machine without devices. -/
def bareDebug : Debug.DebugConfig Unit :=
  { cpu := { Config.bare [] [] with devJob := fun n d => (d, [.schedAdd n 100000]) }
    writeprog8 := fun _ => none
    resetHooks := fun d => (d, [])
    checkInt := 0
    or32BigEndian := true }

theorem exists_ran {α : Type} {p : Sim δ Unit} {m : Machine δ} {f : Machine δ → α} {a : α}
    (value : (p m).toOption.map (fun r => f r.2) = some a) : ∃ m', p m = .ok ((), m') ∧ f m' = a := by
  cases ran : p m with
  | error e =>
    rw [ran] at value
    cases value
  | ok r =>
    rw [ran] at value
    exact ⟨r.2, rfl, Option.some.inj value⟩

/-- A write of `TTMR` behind the reset. -/
theorem reached_written {α : Type} (value : Word) (f : Machine Unit → α) {a : α}
    (is : ((Debug.simReset bareDebug >>= fun _ => step bareDebug.cpu 0 (.writeTtmr value)) (Machine.bare () 0 0)).toOption.map
      (fun r => f r.2) = some a) : ∃ m, Reached bareDebug m ∧ f m = a := by
  obtain ⟨m, ran, value⟩ := exists_ran is
  obtain ⟨_, _, reset, write⟩ := Programs.bind_ok ran
  exact ⟨m, .step _ 0 (.reset reset) write, value⟩

/-- The auto-restart mode, with a period of 5. -/
theorem timer_in_step_auto :
    ∃ m, Reached bareDebug m ∧ mode m = ttmrRt ∧ dues .tickRestart m = (if mode m = ttmrRt then [untilMatch m] else []) := by
  obtain ⟨m, reached, auto⟩ := reached_written 0x60000005 mode (a := ttmrRt) (by decide +kernel)
  exact ⟨m, reached, auto, (timer_in_step bareDebug m reached).1⟩

end Or1ksim.Tick
