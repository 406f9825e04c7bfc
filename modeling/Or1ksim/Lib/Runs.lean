import Mathlib

/-!
# Runs whose steps meet a condition

A list of actions is run from a state, as long as every action meets a condition on the state before it.
-/

namespace Runs

section
variable {S A : Type} (step : S → A → Option S) (allowed : S → A → Prop) [∀ s a, Decidable (allowed s a)]

/-- Some steps in a row. The run stops at an action that does not meet the condition, or that cannot be done. -/
def guarded (s : S) : List A → Option S
  | [] => some s
  | a :: as => if allowed s a then (step s a).bind fun s => guarded s as else none

variable {step allowed}

/-- What an allowed step preserves, a guarded run preserves. -/
theorem guarded_preserves {P : S → Prop} (stays : ∀ {s s' a}, P s → allowed s a → step s a = some s' → P s') {s s' : S} {as : List A}
    (before : P s) (ran : guarded step allowed s as = some s') : P s' := by
  induction as generalizing s with
  | nil =>
    cases ran
    exact before
  | cons a as ih =>
    unfold guarded at ran
    split at ran
    · next allows =>
      obtain ⟨mid, first, rest⟩ := Option.bind_eq_some_iff.mp ran
      exact ih (stays before allows first) rest
    · cases ran

end

end Runs
