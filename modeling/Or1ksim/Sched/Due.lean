import Or1ksim.Sched.Exact

/-!
# When jobs are due

The sums of the stored times, added up as `sched_add` does. They are exact whatever the differences
do: an operation changes the deadlines that it means to change, even where a difference does not fit
and is stored wrapped.
-/

namespace Or1ksim.Sched

open DeltaList (Timed before since before_since_perm)

variable {J : Type}

theorem int32_add (a b : Int) : int32 (int32 a + b) = int32 (a + b) := Int.bmod_add_bmod

theorem int32_add_right (a b : Int) : int32 (a + int32 b) = int32 (a + b) := Int.add_bmod_bmod

theorem int32_range (x : Int) : int32Min ≤ int32 x ∧ int32 x ≤ int32Max := by
  have low := Int.le_bmod (x := x) (m := 2 ^ 32) (by decide)
  have high := Int.bmod_lt (x := x) (m := 2 ^ 32) (by decide)
  unfold int32 int32Min int32Max
  omega

theorem int32_int32 (x : Int) : int32 (int32 x) = int32 x := Int.bmod_bmod

theorem int32_eq_iff {a b : Int} : int32 a = int32 b ↔ (2 ^ 32 : Int) ∣ a - b :=
  Int.bmod_eq_bmod_iff_bmod_sub_eq_zero.trans Int.dvd_iff_bmod_eq_zero.symm

/-- The deadlines of a queue, counted from `base`. -/
def dues (base : Int) : List (Entry J) → List (Timed J)
  | [] => []
  | cur :: rest => ⟨cur.item.job, int32 (base + cur.time)⟩ :: dues (int32 (base + cur.time)) rest

def Scheduler.due (s : Scheduler J) : List (Timed J) := dues 0 s.jobQueue

theorem dues_cons (base : Int) (cur : Entry J) (rest : List (Entry J)) :
    dues base (cur :: rest) = ⟨cur.item.job, int32 (base + cur.time)⟩ :: dues (int32 (base + cur.time)) rest := rfl

theorem dues_base {a b : Int} (same : int32 a = int32 b) (q : List (Entry J)) : dues a q = dues b q := by
  cases q with
  | nil => rfl
  | cons cur rest =>
    have head : int32 (a + cur.time) = int32 (b + cur.time) := by rw [← int32_add a, same, int32_add]
    unfold dues
    rw [head]

theorem dues_addTime (base d : Int) (q : List (Entry J)) : dues base (addTime d q) = dues (base + d) q := by
  cases q with
  | nil => rfl
  | cons cur rest =>
    have head : int32 (base + int32 (cur.time + d)) = int32 (base + d + cur.time) := by
      rw [int32_add_right, show base + (cur.time + d) = base + d + cur.time by omega]
    unfold addTime dues
    dsimp only
    rw [head]

/-- The deadline of the last entry, from which the times behind it count. -/
def endDue (base : Int) : List (Entry J) → Int
  | [] => base
  | cur :: rest => endDue (int32 (base + cur.time)) rest

theorem dues_append (base : Int) (p q : List (Entry J)) : dues base (p ++ q) = dues base p ++ dues (endDue base p) q := by
  induction p generalizing base with
  | nil => rfl
  | cons cur rest ih => exact congrArg (List.cons _) (ih _)

theorem map_item_dues (base : Int) (q : List (Entry J)) : (dues base q).map Timed.item = q.map fun e => e.item.job := by
  induction q generalizing base with
  | nil => rfl
  | cons cur rest ih => exact congrArg (List.cons _) (ih _)

/-- The deadlines are sorted. -/
def Sorted (l : List (Timed J)) : Prop := l.Pairwise fun a b => a.time ≤ b.time

/-- `x` put in front of the first deadline that is not earlier. -/
def withDue (x : Timed J) (l : List (Timed J)) : List (Timed J) := before x.time l ++ x :: since x.time l

theorem withDue_perm (x : Timed J) (l : List (Timed J)) : (withDue x l).Perm (x :: l) := before_since_perm x.time x l

/-! ### Adding a job -/

/-- The walk passes the earlier deadlines and stops at the first that is not. -/
theorem seek_dues (t base : Int) (cur : Entry J) (rest : List (Entry J)) :
    let found := seek t (int32 (base + cur.time)) (cur :: rest)
    found.1 ++ found.2.2 = cur :: rest ∧ (∀ x ∈ dues base found.1, x.time < t) ∧
      (∀ x ∈ (dues (endDue base found.1) found.2.2).head?, ¬ x.time < t) ∧
      int32 (found.2.1 - (found.2.2.head?.map Timed.time).getD 0) = int32 (endDue base found.1) := by
  induction rest generalizing base cur with
  | nil =>
    by_cases earlier : int32 (base + cur.time) < t
    · rw [seek, if_pos earlier]
      refine ⟨rfl, fun x inside => ?_, (fun x none => by cases none), ?_⟩
      · cases List.mem_singleton.mp inside
        exact earlier
      · exact congrArg int32 (Int.sub_zero _)
    · rw [seek_stop earlier]
      refine ⟨rfl, (fun x none => by cases none), fun x first => ?_, ?_⟩
      · cases first
        exact earlier
      · show int32 (int32 (base + cur.time) - cur.time) = int32 base
        rw [Int.sub_eq_add_neg, int32_add, Int.add_neg_cancel_right]
  | cons next tail ih =>
    by_cases earlier : int32 (base + cur.time) < t
    · rw [seek, if_pos earlier]
      obtain ⟨whole, passed, stopped, at'⟩ := ih (int32 (base + cur.time)) next
      refine ⟨congrArg (List.cons cur) whole, fun x inside => ?_, stopped, at'⟩
      rcases List.mem_cons.mp inside with rfl | inside
      · exact earlier
      · exact passed x inside
    · rw [seek_stop earlier]
      refine ⟨rfl, (fun x none => by cases none), fun x first => ?_, ?_⟩
      · cases first
        exact earlier
      · show int32 (int32 (base + cur.time) - cur.time) = int32 base
        rw [Int.sub_eq_add_neg, int32_add, Int.add_neg_cancel_right]

theorem before_since_split {t : Int} {l r : List (Timed J)} (early : ∀ x ∈ l, x.time < t) (late : ∀ x ∈ r.head?, ¬ x.time < t) :
    before t (l ++ r) = l ∧ since t (l ++ r) = r := by
  have all : ∀ x ∈ l, decide (x.time < t) = true := fun x inside => decide_eq_true (early x inside)
  unfold before since
  rw [List.takeWhile_append_of_pos all, List.dropWhile_append_of_pos all]
  cases r with
  | nil => exact ⟨List.append_nil l, rfl⟩
  | cons x r =>
    have stops : ¬ decide (x.time < t) = true := fun is => late x rfl (of_decide_eq_true is)
    exact ⟨(congrArg (l ++ ·) (List.takeWhile_cons_of_neg stops)).trans (List.append_nil l), List.dropWhile_cons_of_neg stops⟩

theorem endDue_range {base : Int} (range : int32 base = base) (q : List (Entry J)) : int32 (endDue base q) = endDue base q := by
  induction q generalizing base with
  | nil => exact range
  | cons cur rest ih => exact ih (int32_int32 _)

/-- The deadline that `sched_add` gives: a negative time in front of the head is the head's. -/
def dueAt (s : Scheduler J) (t : Int) : Int :=
  if 0 ≤ t then t else (s.headTime.map fun head => if head < t then t else head).getD t

theorem due_schedAdd {s s' : Scheduler J} {job : J} {t : Int} (fits : Fits s.jobQueue) (range : int32 t = t)
    (added : schedAdd s job t = some s') : s'.due = withDue ⟨job, dueAt s t⟩ s.due := by
  obtain ⟨queue, cells⟩ := s
  match queue, cells with
  | [], _ => cases added
  | _ :: _, [] => cases added
  | head :: tail, newJob :: free =>
    have stored : int32 (0 + head.time) = head.time := by
      rw [Int.zero_add]
      exact fits.int32 List.mem_cons_self
    obtain ⟨whole, passed, stopped, at'⟩ := seek_dues t 0 head tail
    rw [stored] at whole passed stopped at'
    unfold schedAdd at added
    dsimp only at added whole passed stopped at'
    obtain rfl := Option.some.inj added
    generalize seek t head.time (head :: tail) = found at *
    obtain ⟨early, alltime, late⟩ := found
    dsimp only at whole passed stopped at' ⊢
    have split : Scheduler.due ⟨head :: tail, newJob :: free⟩ = dues 0 early ++ dues (endDue 0 early) late := by
      unfold Scheduler.due
      dsimp only
      rw [← whole, dues_append]
    generalize is : (if early ≠ [] then int32 (t - int32 (alltime - (late.head?.map Timed.time).getD 0)) else if 0 ≤ t then t
      else (late.head?.map Timed.time).getD 0) = time
    have moved : Scheduler.due ⟨early ++ ⟨⟨newJob, job⟩, time⟩ :: addTime (-time) late, free⟩ =
        dues 0 early ++ ⟨job, int32 (endDue 0 early + time)⟩ :: dues (endDue 0 early) late := by
      have behind : int32 (int32 (endDue 0 early + time) + -time) = int32 (endDue 0 early) := by
        rw [int32_add, Int.add_neg_cancel_right]
      unfold Scheduler.due
      dsimp only
      rw [dues_append]
      show dues 0 early ++ _ :: dues _ (addTime (-time) late) = _
      rw [dues_addTime, dues_base behind]
    rw [moved, split]
    suffices new : int32 (endDue 0 early + time) = dueAt ⟨head :: tail, newJob :: free⟩ t ∧
        (∀ x ∈ dues 0 early, x.time < dueAt ⟨head :: tail, newJob :: free⟩ t) ∧
        ∀ x ∈ (dues (endDue 0 early) late).head?, ¬ x.time < dueAt ⟨head :: tail, newJob :: free⟩ t by
      obtain ⟨due, first, second⟩ := new
      obtain ⟨front, back⟩ := before_since_split first second
      unfold withDue
      rw [front, back, due]
    match early with
    | [] =>
      obtain rfl : late = head :: tail := whole
      have stays : ¬ head.time < t := by
        have := stopped ⟨head.item.job, int32 (0 + head.time)⟩ rfl
        rwa [stored] at this
      have at0 : dueAt ⟨head :: tail, newJob :: free⟩ t = time := by
        rw [← is]
        by_cases nonneg : 0 ≤ t
        · exact (if_pos nonneg).trans (if_pos nonneg).symm
        · exact (if_neg nonneg).trans ((if_neg stays).trans (if_neg nonneg).symm)
      have value : time = t ∨ time = head.time := by
        rw [← is]
        by_cases nonneg : 0 ≤ t
        · exact .inl (if_pos nonneg)
        · exact .inr (if_neg nonneg)
      rw [at0]
      refine ⟨?_, (fun x none => by cases none), fun x first => ?_⟩
      · show int32 (0 + time) = time
        rcases value with rfl | rfl
        · rw [Int.zero_add, range]
        · exact stored
      · cases first
        show ¬ int32 (0 + head.time) < time
        rw [stored]
        rcases value with rfl | rfl
        · exact stays
        · exact Int.lt_irrefl _
    | first :: early =>
      obtain ⟨rfl, -⟩ := List.cons.inj whole
      have earlier : first.time < t := by
        have := passed ⟨first.item.job, int32 (0 + first.time)⟩ List.mem_cons_self
        rwa [stored] at this
      have at0 : dueAt ⟨first :: tail, newJob :: free⟩ t = t := by
        by_cases nonneg : 0 ≤ t
        · exact if_pos nonneg
        · exact (if_neg nonneg).trans (if_pos earlier)
      rw [at0]
      refine ⟨?_, passed, stopped⟩
      rw [← is, if_pos (List.cons_ne_nil _ _), at', int32_add_right, endDue_range rfl,
        show endDue 0 (first :: early) + (t - endDue 0 (first :: early)) = t by omega, range]

/-! ### What is stored fits -/

theorem fits_cons {cur : Entry J} {rest : List (Entry J)} : Fits (cur :: rest) ↔ int32 cur.time = cur.time ∧ Fits rest := by
  constructor
  · exact fun fits => ⟨fits.int32 List.mem_cons_self, fun e inside => fits e (List.mem_cons_of_mem _ inside)⟩
  · rintro ⟨head, rest⟩ e inside
    rcases List.mem_cons.mp inside with rfl | inside
    · rw [← head]
      exact int32_range _
    · exact rest e inside

theorem fits_append {p q : List (Entry J)} : Fits (p ++ q) ↔ Fits p ∧ Fits q :=
  List.forall_mem_append

theorem fits_addTime {d : Int} {q : List (Entry J)} (fits : Fits q) : Fits (addTime d q) := by
  cases q with
  | nil => exact fits
  | cons cur rest => exact fits_cons.mpr ⟨int32_int32 _, (fits_cons.mp fits).2⟩

theorem fits_schedAdd {s s' : Scheduler J} {job : J} {t : Int} (fits : Fits s.jobQueue) (range : int32 t = t)
    (added : schedAdd s job t = some s') : Fits s'.jobQueue := by
  obtain ⟨queue, cells⟩ := s
  match queue, cells with
  | [], _ => cases added
  | _ :: _, [] => cases added
  | head :: tail, newJob :: free =>
    have stored : int32 (0 + head.time) = head.time := by
      rw [Int.zero_add]
      exact fits.int32 List.mem_cons_self
    obtain ⟨whole, -⟩ := seek_dues t 0 head tail
    rw [stored] at whole
    unfold schedAdd at added
    dsimp only at added whole
    obtain rfl := Option.some.inj added
    dsimp only at fits ⊢
    rw [← whole, fits_append] at fits
    refine fits_append.mpr ⟨fits.1, fits_cons.mpr ⟨?_, fits_addTime fits.2⟩⟩
    dsimp only
    split
    · exact int32_int32 _
    · split
      · exact range
      · cases first : (seek t head.time (head :: tail)).2.2 with
        | nil => rfl
        | cons cur rest =>
          rw [first] at fits
          exact (fits_cons.mp fits.2).1

section
variable [DecidableEq J]

theorem fits_findRemove {job : J} {q r : List (Entry J)} {cell : Nat} (fits : Fits q) (found : findRemove job q = some (r, cell)) :
    Fits r := by
  induction q generalizing r cell with
  | nil => cases found
  | cons cur rest ih =>
    obtain ⟨head, tail⟩ := fits_cons.mp fits
    unfold findRemove at found
    split at found
    · cases found
      exact fits_addTime tail
    · obtain ⟨⟨r', cell'⟩, inner, same⟩ := Option.map_eq_some_iff.mp found
      cases same
      exact fits_cons.mpr ⟨head, ih tail inner⟩

/-! ### Taking a job out -/

theorem dues_findRemove {job : J} {base : Int} {q r : List (Entry J)} {cell : Nat} (found : findRemove job q = some (r, cell)) :
    dues base r = (dues base q).eraseP fun x => x.item = job := by
  induction q generalizing base r cell with
  | nil => cases found
  | cons cur rest ih =>
    unfold findRemove at found
    split at found
    · next hit =>
      cases found
      rw [dues_addTime, dues_cons, List.eraseP_cons_of_pos (by simpa using hit)]
      exact dues_base (int32_int32 _).symm _
    · next miss =>
      obtain ⟨⟨r', cell'⟩, inner, same⟩ := Option.map_eq_some_iff.mp found
      cases same
      rw [dues_cons, dues_cons, List.eraseP_cons_of_neg (by simpa using miss), ih inner]

theorem dues_absent {job : J} {base : Int} {q : List (Entry J)} (absent : findRemove job q = none) :
    (dues base q).eraseP (fun x => x.item = job) = dues base q := by
  apply List.eraseP_of_forall_not
  intro x inside
  have named : x.item ∈ q.map fun e => e.item.job := by
    rw [← map_item_dues base]
    exact List.mem_map_of_mem inside
  obtain ⟨e, queued, same⟩ := List.mem_map.mp named
  have := (findRemove_none absent).2 e queued
  unfold holds at this
  simpa [same] using this

theorem due_schedFindRemove (s : Scheduler J) (job : J) : (schedFindRemove s job).due = s.due.eraseP fun x => x.item = job := by
  unfold schedFindRemove
  cases found : findRemove job s.jobQueue with
  | none => exact (dues_absent found).symm
  | some r =>
    obtain ⟨rest, cell⟩ := r
    exact dues_findRemove found

theorem fits_schedFindRemove {s : Scheduler J} (fits : Fits s.jobQueue) (job : J) : Fits (schedFindRemove s job).jobQueue := by
  unfold schedFindRemove
  cases found : findRemove job s.jobQueue with
  | none => exact fits
  | some r =>
    obtain ⟨rest, cell⟩ := r
    exact fits_findRemove fits found

end

theorem due_popJob {s s' : Scheduler J} {tmp : Entry J} (fits : Fits s.jobQueue) (popped : popJob s = some (tmp, s')) :
    s.due = ⟨tmp.item.job, tmp.time⟩ :: s'.due ∧ s'.due ≠ [] ∧ Fits s'.jobQueue := by
  obtain ⟨queue, cells⟩ := s
  match queue with
  | [] => cases popped
  | [_] => cases popped
  | cur :: next :: rest =>
    cases popped
    obtain ⟨head, tail⟩ := fits_cons.mp fits
    refine ⟨?_, List.cons_ne_nil _ _, fits_addTime tail⟩
    unfold Scheduler.due
    dsimp only
    rw [dues_addTime, dues_cons, Int.zero_add, head]

theorem popJob_head {s s' : Scheduler J} {tmp : Entry J} (popped : popJob s = some (tmp, s')) : s.headTime = some tmp.time := by
  obtain ⟨queue, cells⟩ := s
  match queue with
  | [] => cases popped
  | [_] => cases popped
  | cur :: next :: rest =>
    cases popped
    rfl

theorem headTime_due {s : Scheduler J} {time : Int} (fits : Fits s.jobQueue) (head : s.headTime = some time) :
    ∃ job, s.due.head? = some ⟨job, time⟩ := by
  unfold Scheduler.headTime at head
  unfold Scheduler.due
  cases queue : s.jobQueue with
  | nil =>
    rw [queue] at head
    cases head
  | cons cur rest =>
    rw [queue] at head fits
    cases head
    refine ⟨cur.item.job, ?_⟩
    rw [dues_cons, Int.zero_add, (fits_cons.mp fits).1]
    rfl

theorem dues_shift (base d : Int) (q : List (Entry J)) :
    dues (base + d) q = (dues base q).map fun x => { x with time := int32 (x.time + d) } := by
  induction q generalizing base with
  | nil => rfl
  | cons cur rest ih =>
    have head : int32 (base + d + cur.time) = int32 (int32 (base + cur.time) + d) := by
      rw [int32_add, show base + d + cur.time = base + cur.time + d by omega]
    rw [dues_cons, dues_cons, List.map_cons, head, ← ih, dues_base (int32_int32 _)]

theorem due_range {s : Scheduler J} : ∀ x ∈ s.due, int32Min ≤ x.time ∧ x.time ≤ int32Max := by
  unfold Scheduler.due
  generalize (0 : Int) = base
  induction s.jobQueue generalizing base with
  | nil => exact fun x none => by cases none
  | cons cur rest ih =>
    intro x inside
    rcases List.mem_cons.mp inside with rfl | inside
    · exact int32_range _
    · exact ih _ x inside

theorem Sorted.head_le {l : List (Timed J)} (sorted : Sorted l) {x : Timed J} (first : l.head? = some x) : ∀ y ∈ l, x.time ≤ y.time := by
  cases l with
  | nil => cases first
  | cons z l =>
    cases first
    intro y inside
    rcases List.mem_cons.mp inside with rfl | inside
    · exact Int.le_refl _
    · exact (List.pairwise_cons.mp sorted).1 y inside

theorem overdue_range {c : Int} (range : int32 c = c) (q : List (Entry J)) : int32 (overdue c q) = overdue c q := by
  induction q generalizing c with
  | nil => exact range
  | cons cur rest ih =>
    unfold overdue
    split
    · exact ih (int32_int32 _)
    · exact range

theorem due_advance {s : Scheduler J} {n : Nat} (sorted : Sorted s.due) (low : ∀ x ∈ s.due.head?, int32Min ≤ x.time - n) :
    (advance s n).due = s.due.map fun x => { x with time := x.time - n } := by
  have moved : (advance s n).due = s.due.map fun x => { x with time := int32 (x.time + -n) } :=
    (dues_addTime 0 (-n) s.jobQueue).trans (dues_shift 0 (-n) s.jobQueue)
  rw [moved]
  apply List.map_congr_left
  intro x inside
  obtain ⟨first, isFirst⟩ : ∃ first, s.due.head? = some first := by
    cases queue : s.due with
    | nil =>
      rw [queue] at inside
      cases inside
    | cons y l => exact ⟨y, rfl⟩
  have := low first isFirst
  have := sorted.head_le isFirst x inside
  have := (due_range x inside).2
  rw [int32_of_range (by omega) (by omega)]
  rfl

theorem sorted_withDue {x : Timed J} {l : List (Timed J)} (sorted : Sorted l) : Sorted (withDue x l) := by
  have split := DeltaList.before_append_since x.time l
  have early : ∀ y ∈ before x.time l, y.time < x.time := by
    intro y inside
    exact of_decide_eq_true (List.mem_takeWhile_imp (p := fun e : Timed J => decide (e.time < x.time)) inside)
  have late : ∀ y ∈ since x.time l, x.time ≤ y.time := by
    rw [← split] at sorted
    have tail := (List.pairwise_append.mp sorted).2.1
    intro y inside
    cases rest : since x.time l with
    | nil =>
      rw [rest] at inside
      cases inside
    | cons z r =>
      have stops : ¬ decide (z.time < x.time) = true := by
        have := List.head?_dropWhile_not (fun e : Timed J => decide (e.time < x.time)) l
        unfold since at rest
        rw [rest] at this
        simpa using this
      rw [rest] at tail inside
      have := Sorted.head_le tail rfl y inside
      have : ¬ z.time < x.time := fun is => stops (decide_eq_true is)
      omega
  unfold Sorted withDue
  rw [← split] at sorted
  obtain ⟨front, back, cross⟩ := List.pairwise_append.mp sorted
  refine List.pairwise_append.mpr ⟨front, List.pairwise_cons.mpr ⟨late, back⟩, fun a isFront b isBack => ?_⟩
  rcases List.mem_cons.mp isBack with rfl | isBack
  · exact Int.le_of_lt (early a isFront)
  · exact cross a isFront b isBack

/-! ### One job -/

section
variable [DecidableEq J]

/-- The deadlines of one job. -/
def duesOf (job : J) (l : List (Timed J)) : List Int := (l.filter fun x => x.item = job).map Timed.time

theorem duesOf_cons_self (job : J) (t : Int) (l : List (Timed J)) : duesOf job (⟨job, t⟩ :: l) = t :: duesOf job l := by
  unfold duesOf
  rw [List.filter_cons_of_pos (by simp), List.map_cons]

theorem duesOf_cons_other {job other : J} (differ : other ≠ job) (t : Int) (l : List (Timed J)) :
    duesOf job (⟨other, t⟩ :: l) = duesOf job l := by
  unfold duesOf
  rw [List.filter_cons_of_neg (by simpa using differ)]

theorem duesOf_append (job : J) (l r : List (Timed J)) : duesOf job (l ++ r) = duesOf job l ++ duesOf job r := by
  unfold duesOf
  rw [List.filter_append, List.map_append]

theorem duesOf_withDue_other {job other : J} (differ : other ≠ job) (t : Int) (l : List (Timed J)) :
    duesOf job (withDue ⟨other, t⟩ l) = duesOf job l := by
  unfold withDue
  rw [duesOf_append, duesOf_cons_other differ, ← duesOf_append, DeltaList.before_append_since]

/-- Added again, a job that was not queued is queued once. -/
theorem duesOf_withDue_self {job : J} {l : List (Timed J)} (absent : duesOf job l = []) (t : Int) :
    duesOf job (withDue ⟨job, t⟩ l) = [t] := by
  rw [← DeltaList.before_append_since t l, duesOf_append] at absent
  obtain ⟨front, back⟩ := List.append_eq_nil_iff.mp absent
  unfold withDue
  rw [duesOf_append, duesOf_cons_self]
  dsimp only
  rw [front, back]
  rfl

theorem duesOf_eraseP_self (job : J) (l : List (Timed J)) : duesOf job (l.eraseP fun x => x.item = job) = (duesOf job l).tail := by
  induction l with
  | nil => rfl
  | cons x l ih =>
    obtain ⟨item, t⟩ := x
    by_cases hit : item = job
    · subst hit
      rw [List.eraseP_cons_of_pos (by simp), duesOf_cons_self, List.tail_cons]
    · rw [List.eraseP_cons_of_neg (by simpa using hit), duesOf_cons_other hit, duesOf_cons_other hit, ih]

theorem duesOf_eraseP_other {job other : J} (differ : other ≠ job) (l : List (Timed J)) :
    duesOf job (l.eraseP fun x => x.item = other) = duesOf job l := by
  induction l with
  | nil => rfl
  | cons x l ih =>
    obtain ⟨item, t⟩ := x
    by_cases hit : item = other
    · subst hit
      rw [List.eraseP_cons_of_pos (by simp), duesOf_cons_other differ]
    · rw [List.eraseP_cons_of_neg (by simpa using hit)]
      by_cases own : item = job
      · subst own
        rw [duesOf_cons_self, duesOf_cons_self, ih]
      · rw [duesOf_cons_other own, duesOf_cons_other own, ih]

theorem duesOf_map_sub (job : J) (n : Int) (l : List (Timed J)) :
    duesOf job (l.map fun x => { x with time := x.time - n }) = (duesOf job l).map (· - n) := by
  unfold duesOf
  rw [List.filter_map, List.map_map, List.map_map]
  rfl

theorem mem_duesOf_iff {job : J} {t : Int} {l : List (Timed J)} : t ∈ duesOf job l ↔ ⟨job, t⟩ ∈ l := by
  unfold duesOf
  constructor
  · intro inside
    obtain ⟨x, kept, rfl⟩ := List.mem_map.mp inside
    obtain ⟨queued, same⟩ := List.mem_filter.mp kept
    obtain rfl : x.item = job := of_decide_eq_true same
    exact queued
  · intro queued
    exact List.mem_map.mpr ⟨_, List.mem_filter.mpr ⟨queued, decide_eq_true rfl⟩, rfl⟩

theorem mem_duesOf {job : J} {t : Int} {l : List (Timed J)} (inside : t ∈ duesOf job l) : ⟨job, t⟩ ∈ l := mem_duesOf_iff.mp inside

end

end Or1ksim.Sched
