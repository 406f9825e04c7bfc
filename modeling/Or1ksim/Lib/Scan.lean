import Mathlib

/-!
# Scans for a place

A scan of the places below `n` for the first of the least values below a bound, and one for the last
value below the bound. They find the same place exactly if the last value below the bound is less than
all values before it.
-/

namespace Scan

variable {α : Type} [LinearOrder α]

/-- The first of the least values below the bound, or place 0 with the bound. -/
def least (f : Nat → α) (bound : α) (n : Nat) : Nat × α :=
  (List.range n).foldl (fun min i => if f i < min.2 then (i, f i) else min) (0, bound)

/-- The last value below the bound, or place 0. -/
def last (f : Nat → α) (bound : α) (n : Nat) : Nat :=
  (List.range n).foldl (fun min i => if f i < bound then i else min) 0

def LastIsLeast (f : Nat → α) (bound : α) (n : Nat) : Prop :=
  ∀ j < n, f j < bound → (∀ k, j < k → k < n → bound ≤ f k) → ∀ i < j, f j < f i

variable {f : Nat → α} {bound : α} {n : Nat}

theorem least_succ (n : Nat) : least f bound (n + 1) = if f n < (least f bound n).2 then (n, f n) else least f bound n := by
  rw [least, List.range_succ, List.foldl_append]
  rfl

theorem last_succ (n : Nat) : last f bound (n + 1) = if f n < bound then n else last f bound n := by
  rw [last, List.range_succ, List.foldl_append]
  rfl

theorem least_spec (f : Nat → α) (bound : α) (n : Nat) : ((∀ i < n, bound ≤ f i) ∧ least f bound n = (0, bound)) ∨
    ∃ m < n, least f bound n = (m, f m) ∧ f m < bound ∧ (∀ i < n, f m ≤ f i) ∧ ∀ i < m, f m < f i := by
  induction n with
  | zero => exact .inl ⟨fun i none => absurd none (Nat.not_lt_zero i), rfl⟩
  | succ n ih =>
    rw [least_succ]
    rcases ih with ⟨above, none⟩ | ⟨m, inside, found, below, all, first⟩
    · rw [none]
      by_cases new : f n < bound
      · rw [if_pos new]
        refine .inr ⟨n, Nat.lt_succ_self n, rfl, new, fun i low => ?_, fun i low => lt_of_lt_of_le new (above i low)⟩
        rcases Nat.lt_succ_iff_lt_or_eq.mp low with before | rfl
        · exact le_of_lt (lt_of_lt_of_le new (above i before))
        · exact le_refl _
      · rw [if_neg new]
        refine .inl ⟨fun i low => ?_, rfl⟩
        rcases Nat.lt_succ_iff_lt_or_eq.mp low with before | rfl
        · exact above i before
        · exact not_lt.mp new
    · rw [found]
      by_cases new : f n < f m
      · rw [if_pos new]
        refine .inr ⟨n, Nat.lt_succ_self n, rfl, lt_trans new below, fun i low => ?_, fun i low => lt_of_lt_of_le new (all i low)⟩
        rcases Nat.lt_succ_iff_lt_or_eq.mp low with before | rfl
        · exact le_of_lt (lt_of_lt_of_le new (all i before))
        · exact le_refl _
      · rw [if_neg new]
        refine .inr ⟨m, Nat.lt_succ_of_lt inside, rfl, below, fun i low => ?_, first⟩
        rcases Nat.lt_succ_iff_lt_or_eq.mp low with before | rfl
        · exact all i before
        · exact not_lt.mp new

theorem last_spec (f : Nat → α) (bound : α) (n : Nat) : ((∀ i < n, bound ≤ f i) ∧ last f bound n = 0) ∨
    ∃ m < n, last f bound n = m ∧ f m < bound ∧ ∀ k, m < k → k < n → bound ≤ f k := by
  induction n with
  | zero => exact .inl ⟨fun i none => absurd none (Nat.not_lt_zero i), rfl⟩
  | succ n ih =>
    rw [last_succ]
    by_cases new : f n < bound
    · rw [if_pos new]
      exact .inr ⟨n, Nat.lt_succ_self n, rfl, new, fun k above below => by omega⟩
    · rw [if_neg new]
      rcases ih with ⟨above, none⟩ | ⟨m, inside, found, below, rest⟩
      · refine .inl ⟨fun i low => ?_, none⟩
        rcases Nat.lt_succ_iff_lt_or_eq.mp low with before | rfl
        · exact above i before
        · exact not_lt.mp new
      · refine .inr ⟨m, Nat.lt_succ_of_lt inside, found, below, fun k above low => ?_⟩
        rcases Nat.lt_succ_iff_lt_or_eq.mp low with before | rfl
        · exact rest k above before
        · exact not_lt.mp new

theorem last_eq_least_iff (f : Nat → α) (bound : α) (n : Nat) : last f bound n = (least f bound n).1 ↔ LastIsLeast f bound n := by
  rcases last_spec f bound n with ⟨above, none⟩ | ⟨j, inside, found, below, rest⟩
  · rcases least_spec f bound n with ⟨_, same⟩ | ⟨m, inside, _, below, _⟩
    · rw [none, same]
      exact iff_of_true rfl fun j low less => absurd less (not_lt.mpr (above j low))
    · exact absurd below (not_lt.mpr (above m inside))
  · rcases least_spec f bound n with ⟨above, _⟩ | ⟨m, insideM, same, belowM, all, first⟩
    · exact absurd below (not_lt.mpr (above j inside))
    · rw [found, same]
      constructor
      · rintro rfl k low less last i before
        have here : k = j := by
          by_contra other
          rcases Nat.lt_or_gt_of_ne other with earlier | later
          · exact absurd below (not_lt.mpr (last j earlier inside))
          · exact absurd less (not_lt.mpr (rest k later low))
        subst here
        exact first i before
      · intro least
        by_contra other
        rcases Nat.lt_or_gt_of_ne other with earlier | later
        · exact absurd belowM (not_lt.mpr (rest m earlier insideM))
        · exact absurd (least j inside below rest m later) (not_lt.mpr (all j inside))

end Scan
