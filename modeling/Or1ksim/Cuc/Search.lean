import Or1ksim.Lib.Improvement
import Or1ksim.Cuc.Graph

/-!
# The search for ways to unroll a loop

`analyse_function` tries how a loop of one block may be prerolled and unrolled, goes on as long as the time falls, and keeps
the trials in an array. It sorts them by their time and deletes the ones that are worse than others, once before and once
behind the options with shared resources.
-/

namespace Or1ksim.Cuc

open Improvement

/-- `MAX_PREROLL`. -/
def maxPreroll : Nat := 32

/-- `MAX_UNROLL`. -/
def maxUnroll : Nat := 32

/-- What `analyse_timings` finds for a function. -/
structure Estimate where
  newTime : Int
  size : BitVec 64

/-- What is found for a number of prerolls and of unrollings; once each is the function as it is. -/
abbrev Estimates := Nat → Nat → Estimate

/-- Numbers of the type `double`: what their order compares, and how the code adds and subtracts them. -/
structure Doubles (σ : Type) where
  value : BitVec 64 → σ
  add : BitVec 64 → BitVec 64 → BitVec 64
  sub : BitVec 64 → BitVec 64 → BitVec 64

def timComp (a b : Timings) : Int := if a.newTime < b.newTime then -1 else if a.newTime > b.newTime then 1 else 0

/-- `qsort` with `tim_comp`: any order of those that compare equal. -/
structure Qsort where
  sort : List Timings → List Timings
  perm : ∀ l, (sort l).Perm l
  sorted : ∀ l, (sort l).Pairwise fun a b => timComp a b ≤ 0

section
variable (est : Estimates) (b : Int)

def preunrollBb (preroll unroll : Nat) : Timings :=
  { b, preroll, unroll, newTime := (est preroll unroll).newTime, size := (est preroll unroll).size }

/-- `t[nt++] = x`, for an index of the array. -/
def store (t : List Timings) (x : Timings) : Option (List Timings) :=
  if t.length < maxUnroll * maxPreroll then some (t ++ [x]) else none

/-- The inner loop. It has `left` rounds at most to go: `j` has come to `MAX_PREROLL + 1` when there are none. -/
def prerolls (i : Nat) : (left j : Nat) → Timings → List Timings → Option (List Timings)
  | 0, _, _, t => some t
  | left + 1, j, pt, t => do
    let cpt := preunrollBb est b (j + 1) i
    let t ← store t cpt
    if pt.newTime > cpt.newTime then prerolls i left (j + 1) cpt t else some t

/-- The outer loop. -/
def unrolls : (left i : Nat) → Timings → List Timings → Option (List Timings)
  | 0, _, _, t => some t
  | left + 1, i, ut, t => do
    let t ← prerolls est b i maxPreroll 1 ut t
    let cut := preunrollBb est b 1 (i + 1)
    let t ← store t cut
    if ut.newTime > cut.newTime then unrolls left (i + 1) cut t else some t

def trials : Option (List Timings) := unrolls est b maxUnroll 1 (preunrollBb est b 1 1) [preunrollBb est b 1 1]

end

section
variable {σ : Type} [LinearOrder σ] (D : Doubles σ)

def Timings.sizeValue (t : Timings) : σ := D.value t.size

/-- "Delete timings, that have worst time and bigger size than other": the size they are compared with is that of the first. -/
def deleteWorse : List Timings → List Timings := smallerThanFirst (Timings.sizeValue D)

/-- An option with the shared resources of a timing of the block. -/
def withShared (base : Estimate) (s t : Timings) : Timings :=
  { t with
    size := D.add t.size (D.sub s.size base.size)
    newTime := t.newTime + (s.newTime - base.newTime)
    shared := s.shared }

/-- `t[j] = x` for all of them, but for those behind the end of the array. -/
def appendUntilFull : List Timings → List Timings → Option (List Timings)
  | t, [] => some t
  | t, x :: more => do
    let t ← store t x
    if t.length ≥ maxUnroll * maxPreroll then some t else appendUntilFull t more

/-- "Add results from CSM". -/
def addShared (base : Estimate) (tim t : List Timings) : Option (List Timings) :=
  appendUntilFull t (tim.flatMap fun s => t.map (withShared D base s))

/-- The options for the loop in block `b` after the first filtering and after the second. -/
def search (Q : Qsort) (est : Estimates) (b : Int) (tim : List Timings) : Option (List Timings × List Timings) := do
  let t ← trials est b
  let first := deleteWorse D (Q.sort t)
  let t ← addShared D (est 1 1) tim first
  some (first, deleteWorse D (Q.sort t))

end

/-! ### The trials -/

section
variable (est : Estimates) (b : Int)

/-- The trials of one number of unrollings. -/
def row (i : Nat) : (left j : Nat) → List Timings
  | 0, _ => []
  | left + 1, j =>
    preunrollBb est b (j + 1) i :: if (est (j + 1) i).newTime < (est j i).newTime then row i left (j + 1) else []

def rows : (left i : Nat) → List Timings
  | 0, _ => []
  | left + 1, i =>
    row est b i maxPreroll 1 ++ preunrollBb est b 1 (i + 1) :: if (est 1 (i + 1)).newTime <
      (est 1 i).newTime then rows left (i + 1) else []

variable {est b}

theorem prerolls_eq (i left j : Nat) (t : List Timings) :
    prerolls est b i left j (preunrollBb est b j i) t = (row est b i left j).foldlM store t := by
  induction left generalizing j t with
  | zero => rfl
  | succ left ih =>
    rw [prerolls, row, List.foldlM_cons]
    congr 1
    funext t'
    show (if (est (j + 1) i).newTime < (est j i).newTime then _ else _) = _
    split
    · exact ih (j + 1) t'
    · rfl

theorem unrolls_eq (left i : Nat) (t : List Timings) :
    unrolls est b left i (preunrollBb est b 1 i) t = (rows est b left i).foldlM store t := by
  induction left generalizing i t with
  | zero => rfl
  | succ left ih =>
    rw [unrolls, rows, prerolls_eq, List.foldlM_append]
    congr 1
    funext t'
    rw [List.foldlM_cons]
    dsimp only
    congr 1
    funext t''
    show (if (est 1 (i + 1)).newTime < (est 1 i).newTime then _ else _) = _
    split
    · exact ih (i + 1) t''
    · rfl

theorem foldlM_store (l t : List Timings) (fits : t.length ≤ maxUnroll * maxPreroll) :
    l.foldlM store t = if t.length + l.length ≤ maxUnroll * maxPreroll then some (t ++ l) else none := by
  induction l generalizing t with
  | nil =>
    rw [List.length_nil, Nat.add_zero, if_pos fits, List.append_nil]
    rfl
  | cons x l ih =>
    rw [List.foldlM_cons, store, List.length_cons]
    by_cases room : t.length < maxUnroll * maxPreroll
    · have length : (t ++ [x]).length = t.length + 1 := List.length_append
      rw [if_pos room]
      show List.foldlM store (t ++ [x]) l = _
      rw [ih _ (by omega), length, List.append_assoc]
      exact if_congr (by omega) rfl rfl
    · rw [if_neg room, if_neg (by omega)]
      rfl

theorem row_length (i left j : Nat) : (row est b i left j).length = rounds (fun j => (est j i).newTime) left j := by
  induction left generalizing j with
  | zero => rfl
  | succ left ih =>
    rw [row, rounds, List.length_cons]
    split
    · rw [ih]
    · rfl

theorem rows_length (left i : Nat) :
    (rows est b left i).length =
      ∑ m ∈ Finset.range (rounds (fun i => (est 1 i).newTime) left i), (rounds (fun j => (est j (i + m)).newTime) maxPreroll 1 + 1) := by
  induction left generalizing i with
  | zero => rfl
  | succ left ih =>
    rw [rows, rounds, List.length_append, List.length_cons, row_length]
    split
    · have next (m : Nat) : i + 1 + m = i + (m + 1) := by omega
      rw [ih, Finset.sum_range_succ', Nat.add_zero, Nat.add_comm, Nat.add_right_comm]
      simp only [next]
      rfl
    · rw [Finset.sum_range_one]
      rfl

theorem row_eq (i left j : Nat) :
    row est b i left j = (List.range (rounds (fun j => (est j i).newTime) left j)).map fun n => preunrollBb est b (j + n + 1) i := by
  induction left generalizing j with
  | zero => rfl
  | succ left ih =>
    rw [row, rounds]
    split
    · have next (n : Nat) : j + 1 + n + 1 = j + (n + 1) + 1 := by omega
      rw [ih, List.range_succ_eq_map, List.map_cons, List.map_map]
      simp only [next, Nat.add_zero]
      rfl
    · rfl

theorem rows_eq (left i : Nat) :
    rows est b left i =
      (List.range (rounds (fun i => (est 1 i).newTime) left i)).flatMap fun m =>
        row est b (i + m) maxPreroll 1 ++ [preunrollBb est b 1 (i + m + 1)] := by
  induction left generalizing i with
  | zero => rfl
  | succ left ih =>
    rw [rows, rounds]
    split
    · have next (m : Nat) : i + 1 + m = i + (m + 1) := by omega
      rw [ih, List.range_succ_eq_map, List.flatMap_cons, List.flatMap_map, List.append_cons, Nat.add_zero]
      simp only [next]
      rfl
    · rw [List.range_one, List.flatMap_singleton, Nat.add_zero]
      rfl

end

/-- The unrolling has a row of prerolls: all unrollings before it have improved the time. -/
def Estimates.RowTried (est : Estimates) (m : Nat) : Prop :=
  m < maxUnroll ∧ ∀ k < m, (est 1 (1 + k + 1)).newTime < (est 1 (1 + k)).newTime

/-- The prerolls and unrollings that are tried: the function as it is; behind each preroll that improves the time one more; and behind
each unrolling that improves it one more. -/
inductive Estimates.Tried (est : Estimates) : Nat → Nat → Prop where
  | base : Tried est 1 1
  | preroll {m n : Nat} (row : est.RowTried m) (few : n < maxPreroll)
      (improved : ∀ k < n, (est (1 + k + 1) (1 + m)).newTime < (est (1 + k) (1 + m)).newTime) : Tried est (1 + n + 1) (1 + m)
  | unroll {m : Nat} (row : est.RowTried m) : Tried est 1 (1 + m + 1)

/-- What was found for them. -/
def Estimates.options (est : Estimates) : Set Estimate := {e | ∃ preroll unroll, est.Tried preroll unroll ∧ est preroll unroll = e}

/-- The trials fit in the array: without prerolls not all of the unrollings that are tried improve the time, or few enough prerolls are
tried for them. -/
def Estimates.Fit (est : Estimates) : Prop :=
  (∀ i < maxUnroll - 1, (est 1 (1 + i + 1)).newTime < (est 1 (1 + i)).newTime) →
    ∑ i ∈ Finset.range maxUnroll,
      ((Finset.range maxPreroll).filter fun j => ∀ k < j, (est (1 + k + 1) (1 + i)).newTime < (est (1 + k) (1 + i)).newTime).card ≤
    maxUnroll * maxPreroll - maxUnroll - 1

theorem fit_iff (est : Estimates) (b : Int) : 1 + (rows est b maxUnroll 1).length ≤ maxUnroll * maxPreroll ↔ est.Fit := by
  have limit := rounds_le (fun i => (est 1 i).newTime) maxUnroll 1
  have all := rounds_all_iff (fun i => (est 1 i).newTime) (maxUnroll - 1) 1
  have each (i : Nat) := rounds_eq_card (fun j => (est j (1 + i)).newTime) maxPreroll 1
  unfold Estimates.Fit
  rw [rows_length, ← all, Finset.sum_add_distrib, Finset.sum_const, Finset.card_range, smul_eq_mul, Nat.mul_one]
  simp only [← each]
  have few (made : Nat) : (∑ i ∈ Finset.range made, rounds (fun j => (est j (1 + i)).newTime) maxPreroll 1) ≤ made * maxPreroll := by
    have bound := Finset.sum_le_card_nsmul (Finset.range made) _ _ fun i _ => rounds_le (fun j => (est j (1 + i)).newTime) maxPreroll 1
    rwa [Finset.card_range, smul_eq_mul] at bound
  show _ ↔ (rounds (fun i => (est 1 i).newTime) maxUnroll 1 = maxUnroll → _)
  generalize rounds (fun i => (est 1 i).newTime) maxUnroll 1 = made at limit
  have bound := few made
  simp only [maxUnroll, maxPreroll] at *
  constructor
  · rintro fits rfl
    omega
  · intro fits
    by_cases every : made = 32
    · have := fits every
      subst every
      omega
    · omega

/-- All trials: the function as it is, and what is tried as long as the time falls. -/
def tried (est : Estimates) (b : Int) : List Timings := preunrollBb est b 1 1 :: rows est b maxUnroll 1

theorem mem_tried_iff {est : Estimates} {b : Int} {x : Timings} :
    x ∈ tried est b ↔ ∃ preroll unroll, est.Tried preroll unroll ∧ preunrollBb est b preroll unroll = x := by
  rw [tried, List.mem_cons, rows_eq, List.mem_flatMap]
  constructor
  · rintro (rfl | ⟨m, made, inside⟩)
    · exact ⟨1, 1, .base, rfl⟩
    · have row : est.RowTried m := (lt_rounds_iff _ _ _ _).mp (List.mem_range.mp made)
      rw [List.mem_append, row_eq, List.mem_map, List.mem_singleton] at inside
      obtain ⟨n, few, rfl⟩ | rfl := inside
      · obtain ⟨few, improved⟩ := (lt_rounds_iff _ _ _ _).mp (List.mem_range.mp few)
        exact ⟨_, _, .preroll row few improved, rfl⟩
      · exact ⟨_, _, .unroll row, rfl⟩
  · rintro ⟨preroll, unroll, made, rfl⟩
    cases made with
    | base => exact .inl rfl
    | @preroll m n row few improved =>
      refine .inr ⟨m, List.mem_range.mpr ((lt_rounds_iff _ _ _ _).mpr row), List.mem_append_left _ ?_⟩
      rw [row_eq]
      exact List.mem_map.mpr ⟨n, List.mem_range.mpr ((lt_rounds_iff _ _ _ _).mpr ⟨few, improved⟩), rfl⟩
    | @unroll m row =>
      exact .inr ⟨m, List.mem_range.mpr ((lt_rounds_iff _ _ _ _).mpr row), List.mem_append_right _ (List.mem_singleton_self _)⟩

def Timings.estimate (t : Timings) : Estimate := ⟨t.newTime, t.size⟩

theorem estimate_tried (est : Estimates) (b : Int) : Timings.estimate '' {x | x ∈ tried est b} = est.options := by
  ext e
  constructor
  · rintro ⟨x, inside, rfl⟩
    obtain ⟨preroll, unroll, made, rfl⟩ := mem_tried_iff.mp inside
    exact ⟨preroll, unroll, made, rfl⟩
  · rintro ⟨preroll, unroll, made, rfl⟩
    exact ⟨_, mem_tried_iff.mpr ⟨preroll, unroll, made, rfl⟩, rfl⟩

theorem trials_eq (est : Estimates) (b : Int) : trials est b =
    if 1 + (rows est b maxUnroll 1).length ≤ maxUnroll * maxPreroll then some (tried est b) else none := by
  have one : [preunrollBb est b 1 1].length ≤ maxUnroll * maxPreroll := show 1 ≤ maxUnroll * maxPreroll by decide
  rw [trials, unrolls_eq, foldlM_store _ _ one]
  rfl

/-! ### The options with shared resources -/

theorem appendUntilFull_eq (t l : List Timings) (room : t.length < maxUnroll * maxPreroll) :
    appendUntilFull t l = some (t ++ l.take (maxUnroll * maxPreroll - t.length)) := by
  induction l generalizing t with
  | nil => rw [appendUntilFull, List.take_nil, List.append_nil]
  | cons x l ih =>
    obtain ⟨left, places⟩ : ∃ left, maxUnroll * maxPreroll - t.length = left + 1 := ⟨_, (Nat.succ_pred_eq_of_pos (by omega)).symm⟩
    have length : (t ++ [x]).length = t.length + 1 := List.length_append
    rw [appendUntilFull, store, if_pos room, places, List.take_succ_cons]
    show (if (t ++ [x]).length ≥ maxUnroll * maxPreroll then some (t ++ [x]) else appendUntilFull (t ++ [x]) l) = _
    split
    · rw [show left = 0 by omega, List.take_zero]
    · rw [ih _ (by omega), length, show maxUnroll * maxPreroll - (t.length + 1) = left by omega, List.append_assoc]
      rfl

theorem appendUntilFull_full_iff (t l : List Timings) (full : maxUnroll * maxPreroll ≤ t.length) :
    (∃ t', appendUntilFull t l = some t') ↔ l = [] := by
  cases l with
  | nil => exact iff_of_true ⟨t, rfl⟩ rfl
  | cons x l =>
    have overrun : appendUntilFull t (x :: l) = none := by
      rw [appendUntilFull, store, if_neg (not_lt.mpr full)]
      rfl
    rw [overrun]
    refine iff_of_false ?_ (List.cons_ne_nil x l)
    rintro ⟨t', done⟩
    exact absurd done.symm (Option.some_ne_none t')

/-! ### What is left -/

theorem timComp_nonpos_iff (x y : Timings) : timComp x y ≤ 0 ↔ x.newTime ≤ y.newTime := by
  unfold timComp
  split
  · exact iff_of_true (by decide) (by omega)
  · split
    · exact iff_of_false (by decide) (by omega)
    · exact iff_of_true (by decide) (by omega)

/-- Insertion into a sorted list. -/
def insertionQsort : Qsort where
  sort := List.insertionSort fun a b => timComp a b ≤ 0
  perm := List.perm_insertionSort _
  sorted l := by
    have total : Std.Total fun a b : Timings => timComp a b ≤ 0 :=
      ⟨fun a b => by rw [timComp_nonpos_iff, timComp_nonpos_iff]; exact le_total _ _⟩
    have trans : IsTrans Timings fun a b => timComp a b ≤ 0 :=
      ⟨fun a b c => by rw [timComp_nonpos_iff, timComp_nonpos_iff, timComp_nonpos_iff]; exact le_trans⟩
    exact List.pairwise_insertionSort _ l

/-- `qsort` with one of the fastest options before all others. -/
def Qsort.leading (Q : Qsort) (f : Timings) : Qsort where
  sort l := if f ∈ l ∧ ∀ x ∈ l, f.newTime ≤ x.newTime then f :: Q.sort (l.erase f) else Q.sort l
  perm l := by
    split
    case isTrue fastest => exact ((Q.perm _).cons f).trans (List.perm_cons_erase fastest.1).symm
    case isFalse => exact Q.perm l
  sorted l := by
    split
    case isTrue fastest =>
      refine List.pairwise_cons.mpr ⟨fun x inside => ?_, Q.sorted _⟩
      exact (timComp_nonpos_iff f x).mpr (fastest.2 x (List.mem_of_mem_erase ((Q.perm _).mem_iff.mp inside)))
    case isFalse => exact Q.sorted l

theorem Qsort.leading_sort {Q : Qsort} {f : Timings} {l : List Timings} (inside : f ∈ l) (least : ∀ x ∈ l, f.newTime ≤ x.newTime) :
    (Q.leading f).sort l = f :: Q.sort (l.erase f) := if_pos ⟨inside, least⟩

section
variable {σ : Type} [LinearOrder σ] (D : Doubles σ)

/-- No option that is left is dominated by another one. -/
def Useful : List Timings → Prop := Undominated Timings.newTime (Timings.sizeValue D)

/-- Sorted options of which none as fast as the first is smaller, and the slower of the smaller ones are smaller still. -/
def Traded : List Timings → Prop
  | [] => True
  | first :: rest => TradeOff Timings.newTime (Timings.sizeValue D) first rest

variable {D}

theorem useful_iff (Q : Qsort) (t : List Timings) : Useful D (deleteWorse D (Q.sort t)) ↔ Traded D (Q.sort t) := by
  have sorted := Q.sorted t
  cases shown : Q.sort t with
  | nil => exact iff_of_true (fun x none => absurd none List.not_mem_nil) trivial
  | cons first rest =>
    rw [shown, List.pairwise_cons] at sorted
    exact undominated_iff fun x inside => (timComp_nonpos_iff first x).mp (sorted.1 x inside)

theorem deleteWorse_tried (Q : Qsort) (est : Estimates) (b : Int) : deleteWorse D (Q.sort (tried est b)) ≠ [] := by
  have length := (Q.perm (tried est b)).length_eq
  cases sorted : Q.sort (tried est b) with
  | nil =>
    rw [sorted] at length
    exact absurd length.symm (Nat.succ_ne_zero _)
  | cons first rest => exact List.cons_ne_nil _ _

/-- Options of which none dominates another trade time for size in any order, and all of them stay. -/
theorem traded_of_useful (Q : Qsort) {t : List Timings} (useful : Useful D t) : Traded D (Q.sort t) := by
  rw [← useful_iff]
  have stay : ∀ x ∈ deleteWorse D (Q.sort t), x ∈ t := by
    intro x left
    apply (Q.perm t).mem_iff.mp
    cases sorted : Q.sort t with
    | nil => rwa [sorted] at left
    | cons first rest =>
      rw [sorted] at left
      exact List.mem_cons.mpr ((mem_smallerThanFirst.mp left).imp_right And.left)
  exact fun x xIn y yIn => useful x (stay x xIn) y (stay y yIn)

/-- Whatever order options of one time are sorted in. -/
theorem traded_sorted_iff (Q₀ : Qsort) (t : List Timings) :
    (∀ Q : Qsort, Traded D (Q.sort t)) ↔ TradesOff Timings.newTime (Timings.sizeValue D) {x | x ∈ t} := by
  constructor
  · intro all
    let rest (f : Timings) : List Timings := Q₀.sort (t.erase f)
    refine @tradesOff_of_all _ _ _ _ _ _ _ _ rest (fun f inside least x => ?_) fun f inside least => ?_
    · exact ((Q₀.perm _).cons f).mem_iff.trans (List.perm_cons_erase inside).symm.mem_iff
    · have traded := all (Q₀.leading f)
      rwa [Qsort.leading_sort inside least] at traded
  · intro trades Q
    have sorted := Q.sorted t
    have same (x : Timings) : x ∈ Q.sort t ↔ x ∈ t := (Q.perm t).mem_iff
    cases shown : Q.sort t with
    | nil => trivial
    | cons first rest =>
      rw [shown] at sorted same
      exact trades.tradeOff same fun x inside => (timComp_nonpos_iff first x).mp (List.rel_of_pairwise_cons sorted inside)

variable (D)

/-- The options that are left with those that are added to them. -/
def extended (base : Estimate) (tim t : List Timings) : List Timings :=
  t ++ (tim.flatMap fun s => t.map (withShared D base s)).take (maxUnroll * maxPreroll - t.length)

variable {D}

omit [LinearOrder σ] in
theorem addShared_some_iff {base : Estimate} {tim t t' : List Timings} (any : t ≠ []) :
    addShared D base tim t = some t' ↔ (tim ≠ [] → t.length < maxUnroll * maxPreroll) ∧ t' = extended D base tim t := by
  unfold addShared extended
  have nothing : (tim.flatMap fun s => t.map (withShared D base s)) = [] ↔ tim = [] := by
    rw [List.flatMap_eq_nil_iff]
    constructor
    · intro all
      apply List.eq_nil_iff_forall_not_mem.mpr
      intro s inside
      exact any (List.map_eq_nil_iff.mp (all s inside))
    · rintro rfl s inside
      exact absurd inside List.not_mem_nil
  by_cases room : t.length < maxUnroll * maxPreroll
  · rw [appendUntilFull_eq _ _ room, Option.some.injEq, eq_comm]
    exact ⟨fun same => ⟨fun _ => room, same⟩, And.right⟩
  · have full := appendUntilFull_full_iff t (tim.flatMap fun s => t.map (withShared D base s)) (not_lt.mp room)
    constructor
    · intro done
      have none := full.mp ⟨t', done⟩
      rw [none] at done
      refine ⟨fun more => absurd (nothing.mp none) more, ?_⟩
      rw [none, List.take_nil, List.append_nil]
      exact (Option.some.inj done).symm
    · rintro ⟨more, rfl⟩
      have none : tim = [] := by_contra fun some => room (more some)
      rw [none, List.flatMap_nil, List.take_nil, List.append_nil]
      rfl

/-- The array holds the trials and both filterings leave only useful options, exactly when the trials fit, the sorted ones trade time
for size, and with options of the block that share resources the array has place for one of them and all of these trade, too. -/
theorem search_shared_iff (Q : Qsort) (est : Estimates) (b : Int) (tim : List Timings) :
    (∃ first second, search D Q est b tim = some (first, second) ∧ Useful D first ∧ Useful D second) ↔
      est.Fit ∧ Traded D (Q.sort (tried est b)) ∧
        (tim ≠ [] → (deleteWorse D (Q.sort (tried est b))).length < maxUnroll * maxPreroll ∧
          Traded D (Q.sort (extended D (est 1 1) tim (deleteWorse D (Q.sort (tried est b)))))) := by
  rw [← fit_iff est b, ← useful_iff, ← useful_iff]
  unfold search
  rw [trials_eq]
  by_cases fits : 1 + (rows est b maxUnroll 1).length ≤ maxUnroll * maxPreroll
  · rw [if_pos fits, Option.bind_eq_bind, Option.bind_some]
    dsimp only
    have added {t' : List Timings} :
        addShared D (est 1 1) tim (deleteWorse D (Q.sort (tried est b))) = some t' ↔ _ := addShared_some_iff (deleteWorse_tried Q est b)
    constructor
    · rintro ⟨first, second, done, useful, useful'⟩
      obtain ⟨t', extends_, ended⟩ := Option.bind_eq_some_iff.mp done
      cases ended
      obtain ⟨room, rfl⟩ := added.mp extends_
      exact ⟨fits, useful, fun more => ⟨room more, useful'⟩⟩
    · rintro ⟨-, useful, rest⟩
      have extends_ := added.mpr ⟨fun more => (rest more).1, rfl⟩
      refine ⟨_, _, Option.bind_eq_some_iff.mpr ⟨_, extends_, rfl⟩, useful, ?_⟩
      by_cases more : tim = []
      · subst more
        rw [useful_iff]
        apply traded_of_useful
        unfold extended
        rwa [List.flatMap_nil, List.take_nil, List.append_nil]
      · exact (rest more).2
  · rw [if_neg fits]
    constructor
    · rintro ⟨first, second, done, -⟩
      exact absurd done.symm (Option.some_ne_none _)
    · exact fun both => absurd both.1 fits

/-- The options of the loop trade time for size. -/
def Estimates.Traded (est : Estimates) (D : Doubles σ) : Prop := TradesOff Estimate.newTime (fun e => D.value e.size) est.options

/-- In whatever order `qsort` leaves options of one time, the array holds the trials and both filterings leave only useful options,
exactly when the trials fit and what was found for them trades time for size. The blocks have no options that share resources: `csm` is
not compiled. -/
theorem search_useful_iff (est : Estimates) (b : Int) :
    (∀ Q : Qsort, ∃ first second, search D Q est b [] = some (first, second) ∧ Useful D first ∧ Useful D second) ↔
      est.Fit ∧ est.Traded D := by
  have each (Q : Qsort) := search_shared_iff (D := D) Q est b []
  have options : est.Traded D ↔ ∀ Q : Qsort, Traded D (Q.sort (tried est b)) := by
    rw [traded_sorted_iff insertionQsort, Estimates.Traded, ← estimate_tried est b, tradesOff_image]
    rfl
  rw [options]
  constructor
  · intro all
    exact ⟨((each insertionQsort).mp (all _)).1, fun Q => ((each Q).mp (all Q)).2.1⟩
  · rintro ⟨fit, traded⟩ Q
    exact (each Q).mpr ⟨fit, traded Q, fun more => absurd rfl more⟩

end

/-! ### Trials that improve, and trials that do not -/

/-- The order of the numbers that are not negative is that of their encodings. -/
def encoded : Doubles Nat := { value := BitVec.toNat, add := fun x _ => x, sub := fun x _ => x }

/-- Every trial is an improvement. -/
def improving : Estimates := fun preroll unroll => ⟨-(100 * unroll + preroll), 0⟩

/-- The sizes are 5, 9, 4 and 7, for the function as it is, two and three prerolls and two unrollings. -/
def mixed : Estimates
  | 2, _ => ⟨8, 0x4022000000000000⟩
  | 3, _ => ⟨9, 0x4010000000000000⟩
  | _, 2 => ⟨10, 0x401c000000000000⟩
  | _, _ => ⟨10, 0x4014000000000000⟩

/-- What is left of them. The second is faster and smaller than the third. -/
def mixedLeft : List Timings := [preunrollBb mixed 0 2 1, preunrollBb mixed 0 3 1, preunrollBb mixed 0 1 1, preunrollBb mixed 0 1 2]

theorem search_overruns_and_keeps_worse :
    search encoded insertionQsort improving 0 [] = none ∧
      ∃ first second, search encoded insertionQsort mixed 0 [] = some (first, second) ∧ ¬ Useful encoded first ∧
        ¬ Useful encoded second := by
  constructor
  · have many : ¬ 1 + (rows improving 0 maxUnroll 1).length ≤ maxUnroll * maxPreroll := by decide +kernel
    rw [search, trials_eq, if_neg many]
    rfl
  · refine ⟨_, _, show search encoded insertionQsort mixed 0 [] = some (mixedLeft, mixedLeft) by decide +kernel, ?_, ?_⟩ <;>
      exact fun useful => useful (preunrollBb mixed 0 3 1) (by decide) (preunrollBb mixed 0 1 1) (by decide)
        ⟨by decide, by decide, .inl (by decide)⟩

end Or1ksim.Cuc
