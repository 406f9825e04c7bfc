import Mathlib

/-!
# Delta lists

A delta list keeps times as differences: the head's time counts from a base, every later time
from its predecessor. `absolute` is the meaning of such a list, and each operation below is
described by what it does to that meaning.
-/

namespace DeltaList

/-- An item with a time: a difference in a delta list, a deadline in its meaning. -/
structure Timed (α : Type) where
  item : α
  time : Int
  deriving DecidableEq, Repr

variable {α : Type}

/-- The deadlines of a delta list whose head counts from `base`. -/
def absolute (base : Int) : List (Timed α) → List (Timed α)
  | [] => []
  | cur :: rest => { cur with time := base + cur.time } :: absolute (base + cur.time) rest

@[simp] theorem absolute_nil (base : Int) : absolute base ([] : List (Timed α)) = [] := rfl

@[simp] theorem absolute_cons (base : Int) (cur : Timed α) (rest : List (Timed α)) :
    absolute base (cur :: rest) =
      { cur with time := base + cur.time } :: absolute (base + cur.time) rest := rfl

@[simp] theorem map_item_absolute (base : Int) (q : List (Timed α)) :
    (absolute base q).map Timed.item = q.map Timed.item := by
  induction q generalizing base with
  | nil => rfl
  | cons cur rest ih => simp [ih]

theorem absolute_add (base d : Int) (q : List (Timed α)) :
    absolute (base + d) q = (absolute base q).map fun e => { e with time := e.time + d } := by
  induction q generalizing base with
  | nil => rfl
  | cons cur rest ih =>
    have sum : base + d + cur.time = base + cur.time + d := by omega
    simp [sum, ih]

/-- Every difference after the head's is nonnegative. -/
def Increasing (q : List (Timed α)) : Prop := ∀ e ∈ q.tail, 0 ≤ e.time

theorem base_le_absolute {base : Int} {q : List (Timed α)} (nonneg : ∀ e ∈ q, 0 ≤ e.time) :
    ∀ e ∈ absolute base q, base ≤ e.time := by
  induction q generalizing base with
  | nil => simp
  | cons cur rest ih =>
    have head : 0 ≤ cur.time := nonneg cur (by simp)
    intro e member
    rcases List.mem_cons.mp member with rfl | member
    · dsimp only; omega
    · have := ih (fun x hx => nonneg x (List.mem_cons_of_mem _ hx)) e member
      omega

/-- In an increasing delta list the deadlines are sorted. -/
theorem absolute_sorted {base : Int} {q : List (Timed α)} (increasing : Increasing q) :
    (absolute base q).Pairwise (fun a b => a.time ≤ b.time) := by
  induction q generalizing base with
  | nil => exact List.Pairwise.nil
  | cons cur rest ih =>
    refine List.pairwise_cons.mpr ⟨base_le_absolute increasing, ih ?_⟩
    exact fun e member => increasing e (List.mem_of_mem_tail member)

theorem head_le_absolute (base : Int) {cur : Timed α} {rest : List (Timed α)}
    (increasing : Increasing (cur :: rest)) :
    ∀ e ∈ absolute base (cur :: rest), base + cur.time ≤ e.time := by
  intro e member
  rcases List.mem_cons.mp member with rfl | member
  · exact Int.le_refl _
  · exact base_le_absolute increasing e member

/-! ### Moving the base -/

/-- Adds `d` to the head's difference. -/
def shift (d : Int) : List (Timed α) → List (Timed α)
  | [] => []
  | cur :: rest => { cur with time := cur.time + d } :: rest

@[simp] theorem shift_nil (d : Int) : shift d ([] : List (Timed α)) = [] := rfl

@[simp] theorem shift_cons (d : Int) (cur : Timed α) (rest : List (Timed α)) :
    shift d (cur :: rest) = { cur with time := cur.time + d } :: rest := rfl

@[simp] theorem tail_shift (d : Int) (q : List (Timed α)) : (shift d q).tail = q.tail := by
  cases q <;> rfl

theorem absolute_shift (base d : Int) (q : List (Timed α)) :
    absolute base (shift d q) = absolute (base + d) q := by
  cases q with
  | nil => rfl
  | cons cur rest =>
    have sum : base + (cur.time + d) = base + d + cur.time := by omega
    simp [sum]

theorem increasing_shift {d : Int} {q : List (Timed α)} : Increasing (shift d q) ↔ Increasing q := by
  simp [Increasing]

/-! ### Insertion -/

/-- Inserts `x` with time `t` in front of the first entry that is not earlier. -/
def insertAt (t : Int) (x : α) : List (Timed α) → List (Timed α)
  | [] => [⟨x, t⟩]
  | cur :: rest =>
    if cur.time < t then cur :: insertAt (t - cur.time) x rest
    else ⟨x, t⟩ :: { cur with time := cur.time - t } :: rest

/-- The entries of the meaning that stand in front of deadline `t`. -/
def before (t : Int) (q : List (Timed α)) : List (Timed α) := q.takeWhile (fun e => e.time < t)

/-- The entries of the meaning from deadline `t` on. -/
def since (t : Int) (q : List (Timed α)) : List (Timed α) := q.dropWhile (fun e => e.time < t)

theorem before_append_since (t : Int) (q : List (Timed α)) : before t q ++ since t q = q :=
  List.takeWhile_append_dropWhile

/-- Insertion adds one deadline and leaves every other one as it is. -/
theorem absolute_insertAt (base t : Int) (x : α) (q : List (Timed α)) :
    absolute base (insertAt t x q) =
      before (base + t) (absolute base q) ++ ⟨x, base + t⟩ :: since (base + t) (absolute base q) := by
  induction q generalizing base t with
  | nil => rfl
  | cons cur rest ih =>
    by_cases earlier : cur.time < t
    · have skip : base + cur.time < base + t := by omega
      have sum : base + cur.time + (t - cur.time) = base + t := by omega
      simp [insertAt, earlier, before, since, skip, ih, sum]
    · have stop : ¬ base + cur.time < base + t := by omega
      have sum : base + t + (cur.time - t) = base + cur.time := by omega
      simp [insertAt, earlier, before, since, stop, sum]

theorem insertAt_nonneg {t : Int} {x : α} {q : List (Timed α)} (ht : 0 ≤ t)
    (nonneg : ∀ e ∈ q, 0 ≤ e.time) : ∀ e ∈ insertAt t x q, 0 ≤ e.time := by
  induction q generalizing t with
  | nil =>
    intro e member
    obtain rfl := List.mem_singleton.mp member
    exact ht
  | cons cur rest ih =>
    have tail : ∀ e ∈ rest, 0 ≤ e.time := fun e he => nonneg e (List.mem_cons_of_mem _ he)
    intro e member
    rw [insertAt] at member
    split at member
    · rcases List.mem_cons.mp member with rfl | member
      · exact nonneg _ (by simp)
      · exact ih (by omega) tail e member
    · rcases List.mem_cons.mp member with rfl | member
      · exact ht
      · rcases List.mem_cons.mp member with rfl | member
        · dsimp only; omega
        · exact tail e member

theorem increasing_insertAt {t : Int} {x : α} {q : List (Timed α)} (increasing : Increasing q) :
    Increasing (insertAt t x q) := by
  cases q with
  | nil => simp [insertAt, Increasing]
  | cons cur rest =>
    rw [insertAt]
    split
    · exact insertAt_nonneg (by omega) increasing
    · intro e member
      rcases List.mem_cons.mp member with rfl | member
      · dsimp only; omega
      · exact increasing e member

theorem before_since_perm (t : Int) (x : Timed α) (q : List (Timed α)) :
    (before t q ++ x :: since t q).Perm (x :: q) := by
  have swap : (before t q ++ x :: since t q).Perm (x :: (before t q ++ since t q)) := List.perm_middle
  rwa [before_append_since] at swap

theorem insertAt_perm (t : Int) (x : α) (q : List (Timed α)) :
    ((insertAt t x q).map Timed.item).Perm (x :: q.map Timed.item) := by
  induction q generalizing t with
  | nil => exact List.Perm.refl _
  | cons cur rest ih =>
    rw [insertAt]
    split
    · exact ((ih _).cons _).trans (List.Perm.swap _ _ _)
    · exact List.Perm.refl _

/-! ### Removal -/

/-- Removes the first item that satisfies `p` and gives its difference to its successor. -/
def eraseFirst (p : α → Bool) : List (Timed α) → List (Timed α)
  | [] => []
  | cur :: rest => if p cur.item then shift cur.time rest else cur :: eraseFirst p rest

/-- Removal takes one deadline out and leaves every other one as it is. -/
theorem absolute_eraseFirst (base : Int) (p : α → Bool) (q : List (Timed α)) :
    absolute base (eraseFirst p q) = (absolute base q).eraseP (fun e => p e.item) := by
  induction q generalizing base with
  | nil => rfl
  | cons cur rest ih =>
    cases hit : p cur.item with
    | true => simp [eraseFirst, hit, absolute_shift]
    | false => simp [eraseFirst, hit, ih]

theorem shift_nonneg {d : Int} {q : List (Timed α)} (hd : 0 ≤ d) (nonneg : ∀ e ∈ q, 0 ≤ e.time) :
    ∀ e ∈ shift d q, 0 ≤ e.time := by
  cases q with
  | nil => simp
  | cons cur rest =>
    intro e member
    have head := nonneg cur (by simp)
    rcases List.mem_cons.mp member with rfl | member
    · dsimp only; omega
    · exact nonneg e (List.mem_cons_of_mem _ member)

theorem eraseFirst_nonneg {p : α → Bool} {q : List (Timed α)} (nonneg : ∀ e ∈ q, 0 ≤ e.time) :
    ∀ e ∈ eraseFirst p q, 0 ≤ e.time := by
  induction q with
  | nil => simp [eraseFirst]
  | cons cur rest ih =>
    have head := nonneg cur (by simp)
    have tail : ∀ e ∈ rest, 0 ≤ e.time := fun e he => nonneg e (List.mem_cons_of_mem _ he)
    rw [eraseFirst]
    split
    · exact shift_nonneg head tail
    · intro e member
      rcases List.mem_cons.mp member with rfl | member
      · exact head
      · exact ih tail e member

theorem increasing_eraseFirst {p : α → Bool} {q : List (Timed α)} (increasing : Increasing q) :
    Increasing (eraseFirst p q) := by
  cases q with
  | nil => exact increasing
  | cons cur rest =>
    rw [eraseFirst]
    split
    · exact fun e member => increasing e (List.mem_of_mem_tail (by simpa using member))
    · exact eraseFirst_nonneg increasing

end DeltaList
