import Mathlib

/-!
# Singly linked lists

Nodes that are known by their pointer, with a link to the next one. A segment is the nodes on the way from
one pointer to another, and a chain is a segment that ends.
-/

namespace Linked

variable {P : Type} {next next' : P → Option P} {a b c : Option P} {p : P} {l m : List P}

/-- The links lead from `a` through the nodes of a list to `b`. -/
def Segment (next : P → Option P) : Option P → List P → Option P → Prop
  | a, [], b => a = b
  | a, p :: ps, b => a = some p ∧ Segment next (next p) ps b

def Chain (next : P → Option P) (a : Option P) (l : List P) : Prop := Segment next a l none

theorem Segment.snoc (segment : Segment next a l (some p)) : Segment next a (l ++ [p]) (next p) := by
  induction l generalizing a with
  | nil => exact ⟨segment, rfl⟩
  | cons q l ih => exact ⟨segment.1, ih segment.2⟩

theorem Segment.of_snoc (segment : Segment next a (l ++ [p]) b) : Segment next a l (some p) ∧ next p = b := by
  induction l generalizing a with
  | nil => exact ⟨segment.1, segment.2⟩
  | cons q l ih =>
    obtain ⟨is, rest⟩ := segment
    exact ⟨⟨is, (ih rest).1⟩, (ih rest).2⟩

theorem Segment.append (first : Segment next a l b) (second : Segment next b m c) : Segment next a (l ++ m) c := by
  induction l generalizing a with
  | nil =>
    cases first
    exact second
  | cons q l ih => exact ⟨first.1, ih first.2⟩

theorem Segment.congr (segment : Segment next a l b) (same : ∀ p ∈ l, next' p = next p) : Segment next' a l b := by
  induction l generalizing a with
  | nil => exact segment
  | cons q l ih =>
    refine ⟨segment.1, ?_⟩
    rw [same q List.mem_cons_self]
    exact ih segment.2 fun p inside => same p (List.mem_cons_of_mem q inside)

theorem Segment.update [DecidableEq P] (segment : Segment next a l b) (outside : p ∉ l) (q : Option P) :
    Segment (Function.update next p q) a l b :=
  segment.congr fun r inside => Function.update_of_ne (fun same : r = p => outside (same ▸ inside)) q next

theorem Chain.unique (first : Chain next a l) (second : Chain next a m) : l = m := by
  induction l generalizing a m with
  | nil =>
    cases m with
    | nil => rfl
    | cons q m =>
      cases first
      cases second.1
  | cons p l ih =>
    obtain ⟨rfl, rest⟩ := first
    cases m with
    | nil => cases second
    | cons q m =>
      obtain ⟨same, rest'⟩ := second
      cases same
      rw [ih rest rest']

theorem Chain.mem_of_reached (chain : Chain next a m) (segment : Segment next a l (some p)) : p ∈ m := by
  induction l generalizing a m with
  | nil =>
    cases segment
    cases m with
    | nil => cases chain
    | cons q m =>
      cases chain.1
      exact List.mem_cons_self
  | cons q l ih =>
    obtain ⟨rfl, rest⟩ := segment
    cases m with
    | nil => cases chain
    | cons r m =>
      obtain ⟨same, rest'⟩ := chain
      cases same
      exact List.mem_cons_of_mem q (ih rest' rest)

theorem Chain.suffix (chain : Chain next a m) (inside : p ∈ m) : ∃ l, Chain next (some p) (p :: l) ∧ (p :: l).length ≤ m.length := by
  induction m generalizing a with
  | nil => cases inside
  | cons q m ih =>
    obtain ⟨rfl, rest⟩ := chain
    rcases List.mem_cons.mp inside with rfl | inside
    · exact ⟨m, ⟨rfl, rest⟩, le_refl _⟩
    · obtain ⟨l, tail, short⟩ := ih rest inside
      exact ⟨l, tail, short.trans (Nat.le_succ _)⟩

theorem Chain.nodup (chain : Chain next a l) : l.Nodup := by
  induction l generalizing a with
  | nil => exact List.nodup_nil
  | cons p l ih =>
    obtain ⟨rfl, rest⟩ := chain
    refine List.nodup_cons.mpr ⟨fun again => ?_, ih rest⟩
    obtain ⟨tail, whole, short⟩ := Chain.suffix rest again
    have same : p :: tail = p :: l := Chain.unique whole (show Segment next (some p) (p :: l) none from ⟨rfl, rest⟩)
    rw [same] at short
    exact absurd short (Nat.not_succ_le_self _)

end Linked
