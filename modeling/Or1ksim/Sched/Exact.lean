import Or1ksim.Sched.Queue

/-!
# The scheduler without overflow

While every stored time fits in an `int32_t`, the operations of `sched.c` are the operations of a
delta list in exact arithmetic.
-/

namespace Or1ksim.Sched

open DeltaList

variable {J : Type}

/-- Every time can be stored in an `int32_t`. -/
def Fits (q : List (Entry J)) : Prop := ∀ e ∈ q, int32Min ≤ e.time ∧ e.time ≤ int32Max

instance (q : List (Entry J)) : Decidable (Fits q) :=
  inferInstanceAs (Decidable (∀ e ∈ q, int32Min ≤ e.time ∧ e.time ≤ int32Max))

theorem Fits.int32 {q : List (Entry J)} (fits : Fits q) {e : Entry J} (member : e ∈ q) :
    int32 e.time = e.time := int32_of_range (fits e member).1 (fits e member).2

theorem addTime_eq_shift {d : Int} {q : List (Entry J)} (fits : Fits (shift d q)) :
    addTime d q = shift d q := by
  cases q with
  | nil => rfl
  | cons cur rest =>
    have stored := fits.int32 (e := { cur with time := cur.time + d }) (by simp)
    simpa [addTime] using stored

/-- The time `sched_add` gives to the new entry once the walk has stopped. -/
def gap (jobTime alltime : Int) (cur : List (Entry J)) : Int :=
  jobTime - (alltime - (cur.head?.map Timed.time).getD 0)

theorem seek_stop {jobTime alltime : Int} (late : ¬ alltime < jobTime) (q : List (Entry J)) :
    seek jobTime alltime q = ([], alltime, q) := by
  cases q with
  | nil => rfl
  | cons cur rest => cases rest <;> simp [seek, late]

theorem seek_still {jobTime alltime : Int} {cur : Entry J} {rest : List (Entry J)}
    (still : (seek jobTime alltime (cur :: rest)).1 = []) : ¬ alltime < jobTime := by
  intro earlier
  cases rest <;> simp [seek, earlier] at still

/-- The walk of `sched_add`, which adds up `alltime` from `base`, stops where `insertAt` does. -/
theorem seek_insertAt {base : Int} (jobTime : Int) (x : Slot J) {cur : Entry J} {rest : List (Entry J)}
    (fits : Fits (absolute base (cur :: rest))) :
    let found := seek jobTime (base + cur.time) (cur :: rest)
    found.1 ++ ⟨x, gap jobTime found.2.1 found.2.2⟩ :: shift (-gap jobTime found.2.1 found.2.2) found.2.2 =
      insertAt (jobTime - base) x (cur :: rest) := by
  induction rest generalizing base cur with
  | nil =>
    by_cases earlier : base + cur.time < jobTime
    · have skip : cur.time < jobTime - base := by omega
      have time : gap jobTime (base + cur.time) ([] : List (Entry J)) = jobTime - base - cur.time := by
        simp [gap]; omega
      simp [seek, earlier, insertAt, skip, time]
    · have stop : ¬ cur.time < jobTime - base := by omega
      have time : gap jobTime (base + cur.time) [cur] = jobTime - base := by simp [gap]
      rw [insertAt, if_neg stop]
      simp [seek_stop earlier, time]
      omega
  | cons next tail ih =>
    by_cases earlier : base + cur.time < jobTime
    · have skip : cur.time < jobTime - base := by omega
      have inner : Fits (absolute (base + cur.time) (next :: tail)) :=
        fun e member => fits e (List.mem_cons_of_mem _ member)
      have sum : int32 (base + cur.time + next.time) = base + cur.time + next.time :=
        inner.int32 (e := { next with time := base + cur.time + next.time }) (by simp)
      have tailInsert := ih inner
      have left : jobTime - base - cur.time = jobTime - (base + cur.time) := by omega
      rw [seek, if_pos earlier, insertAt, if_pos skip, left, ← tailInsert]
      simp only [sum, List.cons_append]
    · have stop : ¬ cur.time < jobTime - base := by omega
      have time : gap jobTime (base + cur.time) (cur :: next :: tail) = jobTime - base := by simp [gap]
      rw [insertAt, if_neg stop]
      simp [seek_stop earlier, time]
      omega

/-- The walk stops past an entry only with that entry's deadline in `alltime`. -/
theorem seek_alltime {base : Int} (jobTime : Int) {cur : Entry J} {rest : List (Entry J)}
    (fits : Fits (absolute base (cur :: rest)))
    (passed : (seek jobTime (base + cur.time) (cur :: rest)).1 ≠ []) :
    let found := seek jobTime (base + cur.time) (cur :: rest)
    int32 (found.2.1 - (found.2.2.head?.map Timed.time).getD 0) =
      found.2.1 - (found.2.2.head?.map Timed.time).getD 0 := by
  have here : int32 (base + cur.time) = base + cur.time :=
    fits.int32 (e := { cur with time := base + cur.time }) (by simp)
  induction rest generalizing base cur with
  | nil =>
    by_cases earlier : base + cur.time < jobTime
    · simp [seek, earlier, here]
    · simp [seek, earlier] at passed
  | cons next tail ih =>
    by_cases earlier : base + cur.time < jobTime
    · have inner : Fits (absolute (base + cur.time) (next :: tail)) :=
        fun e member => fits e (List.mem_cons_of_mem _ member)
      have sum : int32 (base + cur.time + next.time) = base + cur.time + next.time :=
        inner.int32 (e := { next with time := base + cur.time + next.time }) (by simp)
      rw [seek, if_pos earlier]
      simp only [sum]
      by_cases more : (seek jobTime (base + cur.time + next.time) (next :: tail)).1 = []
      · simp [seek_stop (seek_still more), here]
      · exact ih inner more sum
    · simp [seek, earlier] at passed

/-- `sched_add` with a nonnegative time inserts into the delta list. -/
theorem schedAdd_eq_insertAt {s : Scheduler J} {job : J} {jobTime : Int} {newJob : Nat} {free : List Nat}
    (queued : s.jobQueue ≠ []) (freeCell : s.freeJobQueue = newJob :: free) (nonneg : 0 ≤ jobTime)
    (sums : Fits (absolute 0 s.jobQueue)) (fits : Fits (insertAt jobTime ⟨newJob, job⟩ s.jobQueue)) :
    schedAdd s job jobTime =
      some { jobQueue := insertAt jobTime ⟨newJob, job⟩ s.jobQueue, freeJobQueue := free } := by
  obtain ⟨queue, cells⟩ := s
  subst freeCell
  cases queue with
  | nil => exact absurd rfl queued
  | cons head tail =>
    have inserted := seek_insertAt jobTime ⟨newJob, job⟩ sums
    have alltime := seek_alltime jobTime sums
    simp only [Int.sub_zero, Int.zero_add] at inserted alltime
    simp only [schedAdd]
    generalize hfound : seek jobTime head.time (head :: tail) = found at inserted alltime ⊢
    have time : (if found.1 ≠ [] then
          int32 (jobTime - int32 (found.2.1 - (found.2.2.head?.map Timed.time).getD 0))
        else if 0 ≤ jobTime then jobTime else (found.2.2.head?.map Timed.time).getD 0) =
        gap jobTime found.2.1 found.2.2 := by
      by_cases passed : found.1 = []
      · -- the walk has not moved: `alltime` is the head's own time
        have still : found = ([], head.time, head :: tail) := by
          rw [← hfound] at passed ⊢
          exact seek_stop (seek_still passed) _
        simp [still, nonneg, gap]
      · rw [if_pos passed, alltime passed]
        exact fits.int32 (e := ⟨⟨newJob, job⟩, gap jobTime found.2.1 found.2.2⟩) (by simp [← inserted])
    rw [time, addTime_eq_shift, inserted]
    intro e member
    exact fits e (by rw [← inserted]; simp [member])

/-! ### Ranges and cells of the exact operations -/

/-- The cells of the queue. -/
def cells (q : List (Entry J)) : List Nat := q.map fun e => e.item.cell

theorem fits_absolute_insertAt {t : Int} {x : Slot J} {q : List (Entry J)} (sums : Fits (absolute 0 q))
    (nonneg : 0 ≤ t) (bounded : t ≤ int32Max) : Fits (absolute 0 (insertAt t x q)) := by
  intro e member
  rw [absolute_insertAt, (before_since_perm _ _ _).mem_iff] at member
  rcases List.mem_cons.mp member with rfl | old
  · unfold int32Min
    dsimp only
    omega
  · exact sums e old

theorem fits_shift_tail {tmp : Entry J} {rest : List (Entry J)} (fits : Fits (tmp :: rest))
    (sums : Fits (absolute 0 (tmp :: rest))) : Fits (shift tmp.time rest) := by
  cases rest with
  | nil => intro e member; simp at member
  | cons next tail =>
    intro e member
    rcases List.mem_cons.mp member with rfl | member
    · have := sums { next with time := 0 + tmp.time + next.time } (by simp)
      dsimp only at this ⊢
      omega
    · exact fits e (by simp [member])

theorem fits_absolute_shift {c : Nat} {q : List (Entry J)} (increasing : Increasing q)
    (sums : Fits (absolute 0 q)) (fits : Fits (shift (-c) q)) : Fits (absolute 0 (shift (-c) q)) := by
  cases q with
  | nil => exact sums
  | cons cur rest =>
    intro e member
    have low := head_le_absolute 0 (increasing_shift (d := -c).mpr increasing) e member
    have head := (fits { cur with time := cur.time + -c } (by simp)).1
    rw [absolute_shift, absolute_add] at member
    obtain ⟨old, present, rfl⟩ := List.mem_map.mp member
    have high := (sums old present).2
    dsimp only at low head ⊢
    omega

theorem cells_insertAt (t : Int) (x : Slot J) (q : List (Entry J)) :
    (cells (insertAt t x q)).Perm (x.cell :: cells q) := by
  have perm := (insertAt_perm t x q).map Slot.cell
  simpa [cells, Function.comp_def] using perm

theorem cells_shift (d : Int) (q : List (Entry J)) : cells (shift d q) = cells q := by
  cases q <;> simp [cells]

theorem mem_insertAt_item {t : Int} {x y : Slot J} {q : List (Entry J)} :
    (∃ e ∈ insertAt t x q, e.item = y) ↔ y = x ∨ ∃ e ∈ q, e.item = y := by
  have perm := (insertAt_perm t x q).mem_iff (a := y)
  simpa [List.mem_map] using perm

theorem guard_insertAt {guard : J} {t : Int} {x : Slot J} {q : List (Entry J)}
    (guarded : x.job = guard ∨ ∃ e ∈ q, e.item.job = guard) :
    ∃ e ∈ insertAt t x q, e.item.job = guard := by
  rcases guarded with fresh | ⟨e, member, job⟩
  · obtain ⟨e, present, same⟩ := mem_insertAt_item (q := q) (t := t).mpr (Or.inl (Eq.refl x))
    exact ⟨e, present, by rw [same, fresh]⟩
  · obtain ⟨f, present, same⟩ := mem_insertAt_item (t := t) (x := x).mpr (Or.inr ⟨e, member, Eq.refl e.item⟩)
    exact ⟨f, present, by rw [same, job]⟩

/-! ### Removal -/

variable [DecidableEq J]

/-- Whether a slot holds `job`. -/
def holds (job : J) (slot : Slot J) : Bool := slot.job = job

theorem findRemove_none {job : J} {q : List (Entry J)} (found : findRemove job q = none) :
    eraseFirst (holds job) q = q ∧ ∀ e ∈ q, holds job e.item = false := by
  induction q with
  | nil => simp [eraseFirst]
  | cons cur rest ih =>
    by_cases hit : cur.item.job = job
    · simp [findRemove, hit] at found
    · simp only [findRemove, hit, if_false, Option.map_eq_none_iff] at found
      obtain ⟨same, absent⟩ := ih found
      simp [eraseFirst, holds, hit, same] at absent ⊢
      exact absent

theorem findRemove_some {job : J} {q r : List (Entry J)} {cell : Nat}
    (fits : Fits (eraseFirst (holds job) q)) (found : findRemove job q = some (r, cell)) :
    r = eraseFirst (holds job) q ∧
      (cells q).Perm (cell :: cells r) := by
  induction q generalizing r cell with
  | nil => simp [findRemove] at found
  | cons cur rest ih =>
    by_cases hit : cur.item.job = job
    · have removed : eraseFirst (holds job) (cur :: rest) = shift cur.time rest := by simp [eraseFirst, holds, hit]
      rw [removed] at fits ⊢
      simp only [findRemove, hit, if_true, Option.some.injEq, Prod.mk.injEq] at found
      obtain ⟨rfl, rfl⟩ := found
      refine ⟨addTime_eq_shift fits, ?_⟩
      cases rest <;> simp [addTime, cells]
    · have kept : eraseFirst (holds job) (cur :: rest) = cur :: eraseFirst (holds job) rest := by
        simp [eraseFirst, holds, hit]
      rw [kept] at fits ⊢
      simp only [findRemove, hit, if_false, Option.map_eq_some_iff, Prod.exists, Prod.mk.injEq] at found
      obtain ⟨r', cell', inner, rfl, rfl⟩ := found
      obtain ⟨same, perm⟩ := ih (fun e member => fits e (List.mem_cons_of_mem _ member)) inner
      subst same
      exact ⟨rfl, (perm.cons _).trans (List.Perm.swap _ _ _)⟩

end Or1ksim.Sched
