import Mathlib

/-!
# Escaped text

A symbol that may not occur in a text is sent as an escape symbol and a twisted copy of it. The twist
undoes itself and leads out of the symbols that may not occur, so that nothing is lost.
-/

namespace Escape

variable {α : Type} [DecidableEq α]

def escape (special : α → Bool) (esc : α) (twist : α → α) : List α → List α
  | [] => []
  | a :: l => if special a then esc :: twist a :: escape special esc twist l else a :: escape special esc twist l

/-- Behind the text stands `last`. -/
def unescape (esc : α) (twist : α → α) (last : α) : List α → List α
  | [] => []
  | [a] => if a = esc then [twist last] else [a]
  | a :: b :: l => if a = esc then twist b :: unescape esc twist last l else a :: unescape esc twist last (b :: l)

variable {special : α → Bool} {esc last : α} {twist : α → α}

theorem unescape_cons_esc (b : α) (l : List α) : unescape esc twist last (esc :: b :: l) = twist b :: unescape esc twist last l :=
  if_pos rfl

theorem unescape_cons {a : α} (other : a ≠ esc) (l : List α) : unescape esc twist last (a :: l) = a :: unescape esc twist last l := by
  cases l with
  | nil => exact if_neg other
  | cons b l => exact if_neg other

theorem unescape_escape (escapes : special esc = true) (involutive : ∀ a, twist (twist a) = a) (l : List α) :
    unescape esc twist last (escape special esc twist l) = l := by
  induction l with
  | nil => rfl
  | cons a l ih =>
    unfold escape
    split
    · rw [unescape_cons_esc, involutive, ih]
    · next plain =>
      rw [unescape_cons, ih]
      rintro rfl
      exact plain escapes

omit [DecidableEq α] in
theorem mem_escape {l : List α} {a : α} (inside : a ∈ escape special esc twist l) :
    a = esc ∨ special a = false ∨ ∃ b, special b = true ∧ a = twist b := by
  induction l with
  | nil => cases inside
  | cons b l ih =>
    unfold escape at inside
    split at inside
    · next twisted =>
      rcases List.mem_cons.mp inside with rfl | inside
      · exact .inl rfl
      · rcases List.mem_cons.mp inside with rfl | inside
        · exact .inr (.inr ⟨b, twisted, rfl⟩)
        · exact ih inside
    · next plain =>
      rcases List.mem_cons.mp inside with rfl | inside
      · exact .inr (.inl (by simpa using plain))
      · exact ih inside

end Escape
