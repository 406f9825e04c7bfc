import Mathlib

/-!
# Files that are read in pieces

A loop that reads a buffer at a time and ends with the first one that is not full passes over all items. An invariant of what it does for
one item relates the state to the items that were passed.
-/

namespace Chunks

variable {α σ : Type}

/-- `do … while (r == n)`, with what is done for an item of the buffer. -/
def readLoop (n : Nat) (full : 0 < n) (step : σ → α → Option σ) (s : σ) (file : List α) : Option σ :=
  ((file.take n).foldlM step s).bind fun s =>
    if _ : (file.take n).length = n then readLoop n full step s (file.drop n) else some s
  termination_by file.length
  decreasing_by
    rw [List.length_take] at *
    rw [List.length_drop]
    omega

theorem readLoop_eq (n : Nat) (full : 0 < n) (step : σ → α → Option σ) (s : σ) (file : List α) :
    readLoop n full step s file = file.foldlM step s := by
  induction file using WellFounded.induction (measure List.length).wf generalizing s with
  | _ file ih =>
    conv_rhs => rw [← List.take_append_drop n file, List.foldlM_append]
    rw [readLoop]
    show Option.bind _ _ = Option.bind _ _
    congr 1
    funext s'
    split
    · next more =>
      rw [List.length_take] at more
      exact ih (file.drop n) (show (file.drop n).length < file.length by rw [List.length_drop]; omega) s'
    · next short =>
      rw [List.length_take] at short
      rw [List.drop_eq_nil_of_le (by omega)]
      rfl

/-- What holds of the state and the items before holds of them after every item. -/
theorem foldlM_invariant {step : σ → α → Option σ} {Inv : List α → σ → Prop} {items : List α} {s t : σ} (start : Inv [] s)
    (keeps : ∀ before x s s', x ∈ items → Inv before s → step s x = some s' → Inv (before ++ [x]) s')
    (done : items.foldlM step s = some t) : Inv items t := by
  suffices all : ∀ before rest s, before ++ rest = items → Inv before s → rest.foldlM step s = some t → Inv items t from
    all [] items s rfl start done
  intro before rest
  induction rest generalizing before with
  | nil =>
    intro s whole holds ended
    rw [List.append_nil] at whole
    cases ended
    rwa [← whole]
  | cons x rest ih =>
    intro s whole holds ran
    rw [List.foldlM_cons] at ran
    obtain ⟨s', stepped, ran⟩ := Option.bind_eq_some_iff.mp ran
    have inside : x ∈ items := whole ▸ List.mem_append_right before List.mem_cons_self
    exact ih (before ++ [x]) s' (by rw [← whole, List.append_assoc]; rfl) (keeps before x s s' inside holds stepped) ran

/-- Steps that an invariant allows all succeed. -/
theorem foldlM_succeeds {step : σ → α → Option σ} {Inv : σ → Prop} {items : List α} {s : σ} (start : Inv s)
    (goes : ∀ x s, x ∈ items → Inv s → ∃ s', step s x = some s' ∧ Inv s') : ∃ t, items.foldlM step s = some t := by
  induction items generalizing s with
  | nil => exact ⟨s, rfl⟩
  | cons x rest ih =>
    obtain ⟨s', stepped, holds⟩ := goes x s List.mem_cons_self start
    obtain ⟨t, ended⟩ := ih holds fun y s inside => goes y s (List.mem_cons_of_mem x inside)
    exact ⟨t, by rw [List.foldlM_cons, stepped]; exact ended⟩

end Chunks
