import Or1ksim.Sched.Due

/-!
# Jobs for the next instruction

What a pass of `do_scheduler` does to the deadlines whatever its jobs do, and where `sched_next_insn` puts a job that is to run
after the next instruction.
-/

namespace Or1ksim.Sched

open DeltaList (Timed Increasing absolute)

variable {J : Type}

/-- The queue as the scheduler keeps it. -/
structure Orderly (s : Scheduler J) : Prop where
  fits : Fits s.jobQueue
  sorted : Sorted s.due

/-- What jobs do to the queue. -/
abbrev Effects (J : Type) := J → Scheduler J → Scheduler J → Prop

/-- The jobs keep the queue orderly, and take no `job` out of it. -/
structure Effects.Spare (func : Effects J) (job : J) : Prop where
  orderly : ∀ {other q q'}, func other q q' → Orderly q → Orderly q'
  keeps : ∀ {other q q'}, func other q q' → Orderly q → ∀ {t}, ⟨job, t⟩ ∈ q.due → ⟨job, t⟩ ∈ q'.due

/-- `do_scheduler` from its test on: the jobs that it runs with their deadlines, and the queue that it leaves. -/
inductive Settles (func : Effects J) : Scheduler J → List (Timed J) → Scheduler J → Prop where
  | early {s : Scheduler J} {time : Int} (head : s.headTime = some time) (early : 0 < time) : Settles func s [] s
  | late {s q mid s' : Scheduler J} {tmp : Entry J} {ran : List (Timed J)} (popped : popJob s = some (tmp, q)) (late : tmp.time ≤ 0)
      (run : func tmp.item.job q mid) (rest : Settles func mid ran s') : Settles func s (⟨tmp.item.job, tmp.time⟩ :: ran) s'

/-- The deadline of a job that `sched_next_insn` added: nothing that is left of the pass runs it, and the pass behind the next
instruction does. The cycles of an instruction are an `int`. -/
def RunsNext (job : J) (d : Int) (s : Scheduler J) : Prop :=
  ∀ func : Effects J, func.Spare job → ∀ ran s₁, Settles func s ran s₁ →
    ⟨job, d⟩ ∉ ran ∧ ∀ n : Fin (2 ^ 31), 0 < n.val → ∀ ran' s₂, Settles func (advance s₁ n.val) ran' s₂ → ⟨job, d - n.val⟩ ∈ ran'

/-! ### Passes -/

section
variable {func : Effects J} {job : J} {s s' : Scheduler J} {ran : List (Timed J)} {t : Int}

theorem Orderly.head_le (orderly : Orderly s) (head : s.headTime = some t) : ∀ x ∈ s.due, t ≤ x.time := by
  obtain ⟨job, first⟩ := headTime_due orderly.fits head
  exact orderly.sorted.head_le first

theorem Orderly.popJob {q : Scheduler J} {tmp : Entry J} (orderly : Orderly s) (popped : popJob s = some (tmp, q)) : Orderly q := by
  obtain ⟨due, -, fits⟩ := due_popJob orderly.fits popped
  have sorted := orderly.sorted
  rw [due] at sorted
  exact ⟨fits, (List.pairwise_cons.mp sorted).2⟩

theorem Settles.orderly (settles : Settles func s ran s') (spare : func.Spare job) (orderly : Orderly s) : Orderly s' := by
  induction settles with
  | early => exact orderly
  | late popped _ run _ ih => exact ih (spare.orderly run (orderly.popJob popped))

theorem Settles.overdue (settles : Settles func s ran s') : ∀ x ∈ ran, x.time ≤ 0 := by
  induction settles with
  | early => exact fun x none => absurd none List.not_mem_nil
  | late _ late _ _ ih =>
    intro x inside
    obtain rfl | inside := List.mem_cons.mp inside
    · exact late
    · exact ih x inside

/-- A pass runs everything that is overdue, and leaves what is not. -/
theorem Settles.mem (settles : Settles func s ran s') (spare : func.Spare job) (orderly : Orderly s) (queued : ⟨job, t⟩ ∈ s.due) :
    (t ≤ 0 → ⟨job, t⟩ ∈ ran) ∧ (0 < t → ⟨job, t⟩ ∈ s'.due) := by
  induction settles with
  | early head early =>
    have later := orderly.head_le head _ queued
    exact ⟨fun overdue => absurd (Int.le_trans later overdue) (Int.not_le.mpr early), fun _ => queued⟩
  | late popped late run _ ih =>
    have after := spare.orderly run (orderly.popJob popped)
    rw [(due_popJob orderly.fits popped).1] at queued
    obtain same | queued := List.mem_cons.mp queued
    · have time : t = _ := congrArg Timed.time same
      rw [← same]
      exact ⟨fun _ => List.mem_cons_self, fun early => absurd (time ▸ late) (Int.not_le.mpr early)⟩
    · obtain ⟨runs, stays⟩ := ih after (spare.keeps run (orderly.popJob popped) queued)
      exact ⟨fun overdue => List.mem_cons_of_mem _ (runs overdue), stays⟩

theorem Settles.head (settles : Settles func s ran s') : ∃ time, s'.headTime = some time ∧ 0 < time := by
  induction settles with
  | early head early => exact ⟨_, head, early⟩
  | late _ _ _ _ ih => exact ih

/-- An instruction behind a pass moves every deadline. -/
theorem Settles.advanced (settles : Settles func s ran s') (orderly : Orderly s') (n : Fin (2 ^ 31)) :
    (advance s' n.val).due = s'.due.map fun x => { x with time := x.time - n.val } := by
  obtain ⟨time, head, early⟩ := settles.head
  refine due_advance orderly.sorted fun x first => ?_
  obtain ⟨other, first'⟩ := headTime_due orderly.fits head
  rw [first'] at first
  cases first
  have := n.isLt
  unfold int32Min
  dsimp only
  omega

theorem Orderly.advance {n : Nat} (orderly : Orderly s) (moved : (advance s n).due = s.due.map fun x => { x with time := x.time - n }) :
    Orderly (advance s n) := by
  refine ⟨fits_addTime orderly.fits, ?_⟩
  rw [moved]
  exact List.pairwise_map.mpr (orderly.sorted.imp fun le => Int.sub_le_sub_right le _)

end

/-! ### Passes that come to their end -/

section
variable {job : J} {s s' : Scheduler J}

/-- Jobs that leave the queue alone, or put a late `job` into it. -/
def restock (job : J) : Effects J := fun _ q q' => q' = q ∨ schedAdd q job int32Max = some q'

theorem restock_spare (job : J) : (restock job).Spare job where
  orderly := by
    rintro other q q' (rfl | added) orderly
    · exact orderly
    · have due := due_schedAdd orderly.fits (by decide) added
      refine ⟨fits_schedAdd orderly.fits (by decide) added, ?_⟩
      rw [due]
      exact sorted_withDue orderly.sorted
  keeps := by
    rintro other q q' (rfl | added) orderly t queued
    · exact queued
    · rw [due_schedAdd orderly.fits (by decide) added, (withDue_perm _ _).mem_iff]
      exact List.mem_cons_of_mem _ queued

theorem headTime_isSome (queued : s.jobQueue ≠ []) : ∃ time, s.headTime = some time := by
  obtain ⟨cur, rest, is⟩ := List.exists_cons_of_ne_nil queued
  exact ⟨cur.time, by unfold Scheduler.headTime; rw [is]; rfl⟩

theorem due_length (s : Scheduler J) : s.due.length = s.jobQueue.length := by
  have items := congrArg List.length (map_item_dues 0 s.jobQueue)
  rwa [List.length_map, List.length_map] at items

theorem popJob_isSome (more : 2 ≤ s.jobQueue.length) :
    ∃ tmp q, popJob s = some (tmp, q) ∧ q.jobQueue.length + 1 = s.jobQueue.length := by
  obtain ⟨queue, cells⟩ := s
  match queue with
  | [] => simp at more
  | [_] => simp at more
  | cur :: next :: rest => exact ⟨_, _, rfl, rfl⟩

/-- Jobs that leave the queue alone come to an end if something is not due. -/
theorem settles_of_later {later : Timed J} (orderly : Orderly s) (queued : later ∈ s.due) (early : 0 < later.time) :
    ∃ ran s', Settles (restock job) s ran s' := by
  generalize count : s.jobQueue.length = n
  induction n generalizing s with
  | zero =>
    have none := due_length s
    rw [count, List.length_eq_zero_iff] at none
    rw [none] at queued
    cases queued
  | succ n ih =>
    obtain ⟨time, head⟩ := headTime_isSome (s := s) (by rintro none; rw [none] at count; cases count)
    by_cases due : 0 < time
    · exact ⟨[], s, .early head due⟩
    -- The head is due, and `later` stands behind it.
    · obtain ⟨first, isFirst⟩ := headTime_due orderly.fits head
      have more : 2 ≤ s.jobQueue.length := by
        rw [← due_length]
        obtain ⟨x, l, is⟩ := List.exists_cons_of_ne_nil (List.ne_nil_of_mem queued)
        rw [is] at isFirst queued ⊢
        cases isFirst
        obtain rfl | behind := List.mem_cons.mp queued
        · exact absurd early due
        · have := List.length_pos_of_mem behind
          rw [List.length_cons]
          omega
      obtain ⟨tmp, q, popped, fewer⟩ := popJob_isSome more
      have late : tmp.time ≤ 0 := by
        cases head.symm.trans (popJob_head popped)
        exact Int.not_lt.mp due
      have behind : later ∈ q.due := by
        rw [(due_popJob orderly.fits popped).1] at queued
        obtain rfl | behind := List.mem_cons.mp queued
        · exact absurd early (Int.not_lt.mpr late)
        · exact behind
      obtain ⟨ran, s', settles⟩ := ih (orderly.popJob popped) behind (by omega)
      exact ⟨_, s', .late popped late (.inl rfl) settles⟩

/-- Jobs that put a late one into the queue come to an end. -/
theorem settles_restock (orderly : Orderly s) (more : 2 ≤ s.jobQueue.length) : ∃ ran s', Settles (restock job) s ran s' := by
  obtain ⟨time, head⟩ := headTime_isSome (s := s) (by rintro none; rw [none] at more; simp at more)
  by_cases due : 0 < time
  · exact ⟨[], s, .early head due⟩
  · obtain ⟨tmp, q, popped, -⟩ := popJob_isSome more
    have late : tmp.time ≤ 0 := by
      cases head.symm.trans (popJob_head popped)
      exact Int.not_lt.mp due
    have orderly := orderly.popJob popped
    obtain ⟨mid, added⟩ : ∃ mid, schedAdd q job int32Max = some mid := by
      obtain ⟨queue, cells⟩ := s
      match queue with
      | [] => cases popped
      | [_] => cases popped
      | cur :: next :: rest =>
        cases popped
        exact ⟨_, rfl⟩
    have due := due_schedAdd orderly.fits (by decide) added
    have queued : (⟨job, int32Max⟩ : Timed J) ∈ mid.due := by
      rw [due, (withDue_perm _ _).mem_iff]
      exact List.mem_cons_self
    have restocked : restock job tmp.item.job q mid := .inr added
    obtain ⟨ran, s', settles⟩ := settles_of_later ((restock_spare job).orderly restocked orderly) queued
      (show 0 < int32Max by decide)
    exact ⟨_, s', .late popped late (.inr added) settles⟩

end

/-! ### The next instruction -/

section
variable {job : J} {s s' : Scheduler J} {d : Int}

/-- A job that is due in one cycle runs after the next instruction. -/
theorem runsNext_one (orderly : Orderly s) (queued : ⟨job, 1⟩ ∈ s.due) : RunsNext job 1 s := by
  intro func spare ran s₁ settles
  have orderly₁ := settles.orderly spare orderly
  refine ⟨fun run => absurd (settles.overdue _ run) (show ¬ (1 : Int) ≤ 0 by decide), fun n some ran' s₂ settles' => ?_⟩
  have moved := settles.advanced orderly₁ n
  have stays := (settles.mem spare orderly queued).2 (by decide)
  have queued₁ : (⟨job, 1 - n.val⟩ : Timed J) ∈ (advance s₁ n.val).due := by
    rw [moved]
    exact List.mem_map.mpr ⟨_, stays, rfl⟩
  exact (settles'.mem spare (orderly₁.advance moved) queued₁).1 (by omega)

theorem runsNext_iff (orderly : Orderly s) (queued : ⟨job, d⟩ ∈ s.due) (more : 2 ≤ s.jobQueue.length) : RunsNext job d s ↔ d = 1 := by
  constructor
  · intro runs
    obtain ⟨ran, s₁, settles⟩ := (settles_restock orderly more : ∃ ran s₁, Settles (restock job) s ran s₁)
    obtain ⟨notRun, next⟩ := runs _ (restock_spare job) ran s₁ settles
    obtain ⟨due, stays⟩ := settles.mem (restock_spare job) orderly queued
    have positive : 0 < d := Int.not_le.mp fun overdue => notRun (due overdue)
    have orderly₁ := settles.orderly (restock_spare job) orderly
    have moved : (advance s₁ 1).due = s₁.due.map fun x => { x with time := x.time - 1 } := settles.advanced orderly₁ ⟨1, by decide⟩
    -- Were the deadline further away, one cycle would not be enough.
    by_contra other
    have queued₁ : (⟨job, d - 1⟩ : Timed J) ∈ (advance s₁ 1).due := by
      rw [moved]
      exact List.mem_map.mpr ⟨_, stays positive, rfl⟩
    obtain ⟨ran', s₂, settles'⟩ := settles_of_later (orderly₁.advance moved) queued₁ (by dsimp only; omega)
    have late := settles'.overdue _ (next ⟨1, by decide⟩ Nat.one_pos ran' s₂ settles')
    have : d - 1 ≤ 0 := late
    omega
  · rintro rfl
    exact runsNext_one orderly queued

theorem sorted_of_increasing (increasing : Increasing s.jobQueue) (sums : Fits (absolute 0 s.jobQueue)) : Sorted s.due := by
  have exact : s.due = (absolute 0 s.jobQueue).map fun e => ⟨e.item.job, e.time⟩ := by
    unfold Scheduler.due
    clear increasing
    generalize (0 : Int) = base at sums ⊢
    generalize s.jobQueue = queue at sums ⊢
    induction queue generalizing base with
    | nil => rfl
    | cons cur rest ih =>
      have here : int32 (base + cur.time) = base + cur.time := sums.int32 (DeltaList.absolute_cons base cur rest ▸ List.mem_cons_self)
      rw [dues_cons, DeltaList.absolute_cons, List.map_cons, here]
      exact congrArg _ (ih _ fun e inside => sums e (List.mem_cons_of_mem _ inside))
  rw [exact]
  exact List.pairwise_map.mpr (DeltaList.absolute_sorted increasing)

/-- The walk of `sched_next_insn` passes the head alone, and counts how late it is. -/
theorem overdue_eq {cur : Entry J} {rest : List (Entry J)} (increasing : Increasing (cur :: rest)) :
    overdue 1 (cur :: rest) = if cur.time < 0 then int32 (1 - cur.time) else 1 := by
  unfold overdue
  split
  · cases rest with
    | nil => rfl
    | cons next rest =>
      have later : ¬ next.time < 0 := Int.not_lt.mpr (increasing next List.mem_cons_self)
      exact if_neg later
  · rfl

/-- The new job is due in one cycle if the head is not late. -/
theorem dueAt_overdue_iff {time : Int} (increasing : Increasing s.jobQueue) (fits : Fits s.jobQueue) (head : s.headTime = some time) :
    dueAt s (overdue 1 s.jobQueue) = 1 ↔ 0 ≤ time := by
  obtain ⟨queue, cells⟩ := s
  match queue with
  | [] => cases head
  | cur :: rest =>
    cases head
    obtain ⟨low, high⟩ := fits cur List.mem_cons_self
    unfold int32Min at low
    dsimp only at increasing
    rw [overdue_eq increasing]
    by_cases late : cur.time < 0
    · rw [if_pos late]
      refine iff_of_false (fun one => ?_) (Int.not_le.mpr late)
      unfold dueAt at one
      by_cases small : 1 - cur.time ≤ int32Max
      · rw [int32_of_range (by unfold int32Min; omega) small, if_pos (by omega)] at one
        omega
      -- The sum does not fit, and is stored as a negative number.
      · unfold int32Max at small
        have wrapped : int32 (1 - cur.time) = 1 - cur.time - 2 ^ 32 := by
          rw [← int32_of_range (x := 1 - cur.time - 2 ^ 32) (by unfold int32Min; omega) (by unfold int32Max; omega), int32_eq_iff]
          exact ⟨1, by omega⟩
        rw [wrapped, if_neg (by omega)] at one
        change (if cur.time < 1 - cur.time - 2 ^ 32 then _ else _) = (1 : Int) at one
        split at one <;> omega
    · rw [if_neg late]
      exact iff_of_true (if_pos (by decide)) (Int.not_lt.mp late)

/-- In a pass or outside of one, with any queue: a job that `sched_next_insn` adds runs after the next instruction if and only if
the head of the queue is not late. -/
theorem schedNextInsn_runsNext_iff (increasing : Increasing s.jobQueue) (fits : Fits s.jobQueue) (sums : Fits (absolute 0 s.jobQueue))
    (added : schedNextInsn s job = some s') :
    ∃ d, s'.due = withDue ⟨job, d⟩ s.due ∧ (RunsNext job d s' ↔ ∀ time ∈ s.headTime, 0 ≤ time) := by
  have orderly : Orderly s := ⟨fits, sorted_of_increasing increasing sums⟩
  have range : int32 (overdue 1 s.jobQueue) = overdue 1 s.jobQueue := overdue_range (by decide) _
  have due := due_schedAdd fits range added
  have perm := withDue_perm ⟨job, dueAt s (overdue 1 s.jobQueue)⟩ s.due
  obtain ⟨time, head⟩ : ∃ time, s.headTime = some time := by
    refine headTime_isSome fun none => ?_
    unfold schedNextInsn schedAdd at added
    rw [none] at added
    cases added
  have orderly' : Orderly s' := ⟨fits_schedAdd fits range added, by rw [due]; exact sorted_withDue orderly.sorted⟩
  have queued : ⟨job, dueAt s (overdue 1 s.jobQueue)⟩ ∈ s'.due := by
    rw [due, perm.mem_iff]
    exact List.mem_cons_self
  have more : 2 ≤ s'.jobQueue.length := by
    have some : 0 < s.due.length := by
      obtain ⟨other, first⟩ := headTime_due fits head
      exact List.length_pos_of_mem (List.mem_of_mem_head? first)
    have one := perm.length_eq
    rw [← due, due_length, List.length_cons] at one
    omega
  refine ⟨_, due, (runsNext_iff orderly' queued more).trans ?_⟩
  rw [dueAt_overdue_iff increasing fits head, head]
  exact ⟨fun nonneg time same => Option.some.inj same ▸ nonneg, fun all => all time rfl⟩

end

/-- A job that is due in 5 cycles. -/
theorem schedNextInsn_runsNext_iff_five :
    let s : Scheduler Nat := ⟨[⟨⟨0, 7⟩, 5⟩], [1, 2]⟩
    ∃ s' d, schedNextInsn s 3 = some s' ∧ s'.due = withDue ⟨3, d⟩ s.due ∧ (RunsNext 3 d s' ↔ ∀ time ∈ s.headTime, 0 ≤ time) := by
  intro s
  obtain ⟨d, due, runs⟩ :=
    schedNextInsn_runsNext_iff (show Increasing s.jobQueue by unfold Increasing; decide) (by decide) (by decide) rfl
  exact ⟨_, d, rfl, due, runs⟩

/-- A job that is late by two cycles is left in the pass: the new job is due in three, and one instruction of one cycle does not run
it. -/
theorem schedNextInsn_late :
    ¬ ∀ s s' : Scheduler Nat, Increasing s.jobQueue → Fits s.jobQueue → Fits (absolute 0 s.jobQueue) → schedNextInsn s 3 = some s' →
      ∃ d, s'.due = withDue ⟨3, d⟩ s.due ∧ RunsNext 3 d s' := by
  intro claim
  let s : Scheduler Nat := ⟨[⟨⟨0, 7⟩, -2⟩, ⟨⟨1, 0⟩, 100⟩], [2, 3]⟩
  let s' : Scheduler Nat := ⟨[⟨⟨0, 7⟩, -2⟩, ⟨⟨2, 3⟩, 5⟩, ⟨⟨1, 0⟩, 95⟩], [3]⟩
  obtain ⟨d, due, runs⟩ := claim s s' (by unfold Increasing; decide) (by decide) (by decide) (by decide)
  have due' : s'.due = [⟨7, -2⟩, ⟨3, 3⟩, ⟨0, 98⟩] := by decide
  have orderly : Orderly s' := ⟨by decide, by rw [due']; unfold Sorted; decide⟩
  have queued : (⟨3, d⟩ : Timed Nat) ∈ s'.due := by
    rw [due, (withDue_perm _ _).mem_iff]
    exact List.mem_cons_self
  have one := (runsNext_iff orderly queued (by decide)).mp runs
  rw [due', one] at queued
  exact absurd queued (by decide)

end Or1ksim.Sched
