import Mathlib

/-!
# Searching for better options

A loop that tries one option after another goes on as long as the time falls. Of the options that it finds only those
are of use that no other is as good as in time and size.
-/

namespace Improvement

variable {α τ σ : Type*} [LinearOrder τ] [LinearOrder σ]

/-! ### While the time falls -/

/-- How many of `n` rounds a loop makes from `k` on, when it ends after the first one that is no improvement. -/
def rounds (time : Nat → τ) : Nat → Nat → Nat
  | 0, _ => 0
  | n + 1, k => if time (k + 1) < time k then rounds time n (k + 1) + 1 else 1

theorem rounds_le (time : Nat → τ) (n k : Nat) : rounds time n k ≤ n := by
  induction n generalizing k with
  | zero => exact Nat.le_refl 0
  | succ n ih =>
    rw [rounds]
    split
    · exact Nat.succ_le_succ (ih _)
    · omega

theorem lt_rounds_iff (time : Nat → τ) (n k m : Nat) :
    m < rounds time n k ↔ m < n ∧ ∀ i < m, time (k + i + 1) < time (k + i) := by
  induction n generalizing k m with
  | zero => exact ⟨fun none => absurd none (Nat.not_lt_zero m), fun both => absurd both.1 (Nat.not_lt_zero m)⟩
  | succ n ih =>
    rw [rounds]
    cases m with
    | zero =>
      refine ⟨fun _ => ⟨Nat.succ_pos n, fun i none => absurd none (Nat.not_lt_zero i)⟩, fun _ => ?_⟩
      split
      · exact Nat.succ_pos _
      · exact Nat.one_pos
    | succ m =>
      by_cases falls : time (k + 1) < time k
      · rw [if_pos falls, Nat.succ_lt_succ_iff, ih, Nat.succ_lt_succ_iff]
        refine and_congr_right fun _ => ⟨fun later i inside => ?_, fun all i inside => ?_⟩
        · cases i with
          | zero => exact falls
          | succ i =>
            have here := later i (Nat.lt_of_succ_lt_succ inside)
            rwa [show k + 1 + i = k + (i + 1) by omega] at here
        · rw [show k + 1 + i = k + (i + 1) by omega]
          exact all (i + 1) (Nat.succ_lt_succ inside)
      · rw [if_neg falls]
        exact ⟨fun less => absurd less (by omega), fun both => absurd (both.2 0 (Nat.succ_pos m)) falls⟩

/-- A round is made when all before it were improvements. -/
theorem rounds_eq_card (time : Nat → τ) (n k : Nat) :
    rounds time n k = ((Finset.range n).filter fun m => ∀ i < m, time (k + i + 1) < time (k + i)).card := by
  have same : (Finset.range n).filter (fun m => ∀ i < m, time (k + i + 1) < time (k + i)) = Finset.range (rounds time n k) := by
    ext m
    rw [Finset.mem_filter, Finset.mem_range, Finset.mem_range, lt_rounds_iff]
  rw [same, Finset.card_range]

theorem rounds_all_iff (time : Nat → τ) (n k : Nat) :
    rounds time (n + 1) k = n + 1 ↔ ∀ i < n, time (k + i + 1) < time (k + i) := by
  have last := lt_rounds_iff time (n + 1) k n
  have limit := rounds_le time (n + 1) k
  constructor
  · intro all
    exact (last.mp (by omega)).2
  · intro falls
    have := last.mpr ⟨Nat.lt_succ_self n, falls⟩
    omega

/-! ### What is of use -/

variable (time : α → τ) (size : α → σ)

/-- As fast and as small as the other, and better in one of the two. -/
def Dominates (x y : α) : Prop := time x ≤ time y ∧ size x ≤ size y ∧ (time x < time y ∨ size x < size y)

def Undominated (l : List α) : Prop := ∀ x ∈ l, ∀ y ∈ l, ¬ Dominates time size x y

/-- The first option, and those that are smaller than it. -/
def smallerThanFirst : List α → List α
  | [] => []
  | first :: rest => first :: rest.filter fun x => size x < size first

/-- None as fast as the first is smaller than it; and of those that are smaller, the slower ones are smaller still. -/
structure TradeOff (first : α) (l : List α) : Prop where
  fastest : ∀ x ∈ l, time x = time first → size first ≤ size x
  slower : ∀ x ∈ l, ∀ y ∈ l, size x < size first → size y < size first → time x < time y → size y < size x
  equal : ∀ x ∈ l, ∀ y ∈ l, size x < size first → size y < size first → time x = time y → size x = size y

variable {time size}

theorem mem_smallerThanFirst {first x : α} {rest : List α} :
    x ∈ smallerThanFirst size (first :: rest) ↔ x = first ∨ x ∈ rest ∧ size x < size first := by
  rw [smallerThanFirst, List.mem_cons, List.mem_filter, decide_eq_true_iff]

/-- Among options of which none is faster than the first. -/
theorem undominated_iff {first : α} {rest : List α} (least : ∀ x ∈ rest, time first ≤ time x) :
    Undominated time size (smallerThanFirst size (first :: rest)) ↔ TradeOff time size first rest := by
  have kept {x : α} (inside : x ∈ rest) (smaller : size x < size first) : x ∈ smallerThanFirst size (first :: rest) :=
    mem_smallerThanFirst.mpr (.inr ⟨inside, smaller⟩)
  have itself : first ∈ smallerThanFirst size (first :: rest) := mem_smallerThanFirst.mpr (.inl rfl)
  constructor
  · intro undominated
    constructor
    · intro x inside same
      by_contra smaller
      rw [not_le] at smaller
      exact undominated x (kept inside smaller) first itself ⟨same.le, smaller.le, .inr smaller⟩
    · intro x xIn y yIn xSmaller ySmaller faster
      by_contra larger
      exact undominated x (kept xIn xSmaller) y (kept yIn ySmaller) ⟨faster.le, not_lt.mp larger, .inl faster⟩
    · intro x xIn y yIn xSmaller ySmaller same
      rcases lt_trichotomy (size x) (size y) with less | equal | more
      · exact absurd ⟨same.le, less.le, .inr less⟩ (undominated x (kept xIn xSmaller) y (kept yIn ySmaller))
      · exact equal
      · exact absurd ⟨same.ge, more.le, .inr more⟩ (undominated y (kept yIn ySmaller) x (kept xIn xSmaller))
  · rintro ⟨fastest, slower, equal⟩ x xKept y yKept ⟨time_le, size_le, better⟩
    rcases mem_smallerThanFirst.mp xKept with rfl | ⟨xIn, xSmaller⟩ <;> rcases mem_smallerThanFirst.mp yKept with rfl | ⟨yIn, ySmaller⟩
    · exact better.elim (lt_irrefl _) (lt_irrefl _)
    · exact absurd size_le (not_le.mpr ySmaller)
    · have same := le_antisymm time_le (least x xIn)
      exact absurd (fastest x xIn same) (not_le.mpr xSmaller)
    · rcases time_le.lt_or_eq with faster | same
      · exact absurd size_le (not_le.mpr (slower x xIn y yIn xSmaller ySmaller faster))
      · have size_eq := equal x xIn y yIn xSmaller ySmaller same
        exact better.elim (fun faster => absurd same faster.ne) fun smaller => absurd size_eq smaller.ne

/-- Options that trade time for size, in whatever order they come: the fastest ones are equally large, and of those that are smaller the
slower ones are smaller still. -/
structure TradesOff (time : α → τ) (size : α → σ) (s : Set α) : Prop where
  fastest : ∀ f ∈ s, (∀ x ∈ s, time f ≤ time x) → ∀ x ∈ s, time x = time f → size x = size f
  slower : ∀ f ∈ s, (∀ x ∈ s, time f ≤ time x) → ∀ x ∈ s, ∀ y ∈ s, size x < size f → size y < size f → time x < time y → size y < size x
  equal : ∀ f ∈ s, (∀ x ∈ s, time f ≤ time x) → ∀ x ∈ s, ∀ y ∈ s, size x < size f → size y < size f → time x = time y → size x = size y

theorem TradesOff.tradeOff {s : Set α} (trades : TradesOff time size s) {first : α} {rest : List α} (same : ∀ x,
    x ∈ first :: rest ↔ x ∈ s)
    (least : ∀ x ∈ rest, time first ≤ time x) : TradeOff time size first rest := by
  have inside {x : α} (there : x ∈ rest) : x ∈ s := (same x).mp (List.mem_cons_of_mem _ there)
  have itself : first ∈ s := (same first).mp List.mem_cons_self
  have fastest : ∀ x ∈ s, time first ≤ time x := fun x there =>
    (List.mem_cons.mp ((same x).mpr there)).elim (fun this => this ▸ le_rfl) (least x)
  constructor
  · exact fun x there equally => (trades.fastest first itself fastest x (inside there) equally).ge
  · exact fun x xIn y yIn => trades.slower first itself fastest x (inside xIn) y (inside yIn)
  · exact fun x xIn y yIn => trades.equal first itself fastest x (inside xIn) y (inside yIn)

/-- They do when they trade behind each of the fastest. -/
theorem tradesOff_of_all {s : Set α} {rest : α → List α} (same : ∀ f ∈ s, (∀ x ∈ s, time f ≤ time x) → ∀ x, x ∈ f :: rest f ↔ x ∈ s)
    (all : ∀ f ∈ s, (∀ x ∈ s, time f ≤ time x) → TradeOff time size f (rest f)) : TradesOff time size s := by
  have behind {f x : α} (itself : f ∈ s) (least : ∀ x ∈ s, time f ≤ time x) (there : x ∈ s) (other : x ≠ f) : x ∈ rest f :=
    (List.mem_cons.mp ((same f itself least x).mpr there)).resolve_left other
  have not_smaller {f x : α} (smaller : size x < size f) : x ≠ f := fun this => absurd smaller (this ▸ lt_irrefl _)
  constructor
  · intro f itself least x there equally
    by_cases this : x = f
    · rw [this]
    · -- Either may come first.
      have least' : ∀ y ∈ s, time x ≤ time y := fun y inside => equally ▸ least y inside
      exact le_antisymm ((all x there least').fastest f (behind there least' itself (Ne.symm this)) equally.symm)
        ((all f itself least).fastest x (behind itself least there this) equally)
  · exact fun f itself least x xIn y yIn xSmaller ySmaller =>
      (all f itself least).slower x (behind itself least xIn (not_smaller xSmaller))
      y (behind itself least yIn (not_smaller ySmaller)) xSmaller ySmaller
  · exact fun f itself least x xIn y yIn xSmaller ySmaller =>
      (all f itself least).equal x (behind itself least xIn (not_smaller xSmaller))
      y (behind itself least yIn (not_smaller ySmaller)) xSmaller ySmaller

theorem tradesOff_image {β : Type*} (g : β → α) (s : Set β) :
    TradesOff time size (g '' s) ↔ TradesOff (fun x => time (g x)) (fun x => size (g x)) s := by
  constructor
  · rintro ⟨fastest, slower, equal⟩
    exact ⟨by simpa only [Set.forall_mem_image] using fastest, by simpa only [Set.forall_mem_image] using slower,
      by simpa only [Set.forall_mem_image] using equal⟩
  · rintro ⟨fastest, slower, equal⟩
    exact ⟨by simpa only [Set.forall_mem_image] using fastest, by simpa only [Set.forall_mem_image] using slower,
      by simpa only [Set.forall_mem_image] using equal⟩

end Improvement
