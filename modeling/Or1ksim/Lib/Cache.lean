import Mathlib

/-!
# Set-associative caches

An address has a set, a tag and a place in its line. A cache holds lines with tags, the ways of each
set, and agrees with a memory if every line that an address finds holds the value of that address.
Agreement is asked of the addresses `P` that have a value.
-/

namespace Caching

variable {A S W T I V : Type}

/-- The parts of an address. -/
structure Split (A S T I : Type) where
  set : A → S
  tag : A → T
  index : A → I

/-- Two addresses with one place in memory. -/
def Split.Same (g : Split A S T I) (a b : A) : Prop := g.set a = g.set b ∧ g.tag a = g.tag b ∧ g.index a = g.index b

structure Lines (S W T I V : Type) where
  tag : S → W → T
  line : S → W → I → V

namespace Lines

/-- The way holds the line of the address. -/
def Holds (g : Split A S T I) (l : Lines S W T I V) (a : A) (w : W) : Prop := l.tag (g.set a) w = g.tag a

def Agrees (g : Split A S T I) (P : A → Prop) (mem : A → V) (l : Lines S W T I V) : Prop :=
  ∀ a w, P a → l.Holds g a w → l.line (g.set a) w (g.index a) = mem a

variable {g : Split A S T I} {P : A → Prop} {mem mem' : A → V} {l l' : Lines S W T I V}

theorem Agrees.congr (agrees : l.Agrees g P mem) (tags : l'.tag = l.tag) (lines : l'.line = l.line) : l'.Agrees g P mem := by
  intro a w valued holds
  unfold Holds at holds
  rw [tags] at holds
  rw [lines]
  exact agrees a w valued holds

/-- One way gets a line that agrees with the memory, or one that no address finds. -/
theorem Agrees.fill (agrees : l.Agrees g P mem) (set : S) (way : W)
    (others : ∀ s w, ¬ (s = set ∧ w = way) → l'.tag s w = l.tag s w ∧ l'.line s w = l.line s w)
    (filled : ∀ a, P a → g.set a = set → l'.tag set way = g.tag a → l'.line set way (g.index a) = mem a) :
    l'.Agrees g P mem := by
  intro a w valued holds
  by_cases here : g.set a = set ∧ w = way
  · obtain ⟨rfl, rfl⟩ := here
    exact filled a valued rfl holds
  · obtain ⟨tag, line⟩ := others _ _ here
    unfold Holds at holds
    rw [tag] at holds
    rw [line]
    exact agrees a w valued holds

theorem Agrees.uncached (agrees : l.Agrees g P mem) {a : A} (absent : ∀ w, ¬ l.Holds g a w)
    (others : ∀ b, P b → ¬ g.Same b a → mem' b = mem b) : l.Agrees g P mem' := by
  intro b w valued holds
  rw [others b valued, agrees b w valued holds]
  rintro ⟨set, tag, _⟩
  refine absent w ?_
  unfold Holds at holds ⊢
  rw [← set, ← tag]
  exact holds

/-- A store to a line that one way holds changes the memory and that way alone. It keeps the
agreement exactly if the memory has the value stored, and no other way holds the line or the value
is the old one. -/
theorem Agrees.store_iff (agrees : l.Agrees g P mem) {a : A} (valued : P a) {way : W} (value : V) (holds : l.Holds g a way)
    (tags : l'.tag = l.tag) (stored : l'.line (g.set a) way (g.index a) = value)
    (lines : ∀ s w i, ¬ (s = g.set a ∧ w = way ∧ i = g.index a) → l'.line s w i = l.line s w i)
    (here : ∀ b, g.Same b a → mem' b = mem' a) (others : ∀ b, P b → ¬ g.Same b a → mem' b = mem b) :
    l'.Agrees g P mem' ↔ mem' a = value ∧ ∀ w, l.Holds g a w → w = way ∨ value = mem a := by
  have holds' : ∀ b w, l'.Holds g b w ↔ l.Holds g b w := by
    intro b w
    unfold Holds
    rw [tags]
  constructor
  · intro agrees'
    have now : mem' a = value := by rw [← agrees' a way valued ((holds' a way).mpr holds), stored]
    refine ⟨now, fun w holdsW => ?_⟩
    by_cases same : w = way
    · exact .inl same
    · refine .inr ?_
      rw [← now, ← agrees' a w valued ((holds' a w).mpr holdsW), lines _ _ _ fun h => same h.2.1, agrees a w valued holdsW]
  · rintro ⟨now, only⟩ b w valuedB holdsB
    have holdsB := (holds' b w).mp holdsB
    by_cases same : g.Same b a
    · obtain ⟨set, tag, index⟩ := same
      rw [here b ⟨set, tag, index⟩, now, set, index]
      by_cases written : w = way
      · rw [written, stored]
      · have holdsA : l.Holds g a w := by
          unfold Holds at holdsB ⊢
          rw [← set, ← tag]
          exact holdsB
        rw [lines _ _ _ fun h => written h.2.1, agrees a w valued holdsA]
        exact ((only w holdsA).resolve_left written).symm
    · rw [others b valuedB same, ← agrees b w valuedB holdsB]
      refine lines _ _ _ fun h => same ⟨h.1, ?_, h.2.2⟩
      obtain ⟨set, rfl, _⟩ := h
      unfold Holds at holds holdsB
      rw [← holds, ← holdsB, set]

/-! ### At most one way for a tag -/

/-- No two ways of a set hold the same valid tag. -/
def Unique (valid : T → Prop) (l : Lines S W T I V) : Prop :=
  ∀ s w w', valid (l.tag s w) → l.tag s w = l.tag s w' → w = w'

variable {valid : T → Prop}

theorem Unique.congr (unique : l.Unique valid) (tags : l'.tag = l.tag) : l'.Unique valid := by
  unfold Unique
  rw [tags]
  exact unique

theorem Unique.fill (unique : l.Unique valid) (set : S) (way : W)
    (others : ∀ s w, ¬ (s = set ∧ w = way) → l'.tag s w = l.tag s w)
    (new : ∀ w, valid (l'.tag set way) → l.tag set w ≠ l'.tag set way) : l'.Unique valid := by
  intro s w w' isValid same
  by_cases first : s = set ∧ w = way <;> by_cases second : s = set ∧ w' = way
  · exact first.2.trans second.2.symm
  · obtain ⟨rfl, rfl⟩ := first
    rw [others _ _ second] at same
    exact absurd same.symm (new w' isValid)
  · obtain ⟨rfl, rfl⟩ := second
    rw [others _ _ first] at same isValid
    exact absurd same (new w (same ▸ isValid))
  · rw [others _ _ first] at same isValid
    rw [others _ _ second] at same
    exact unique s w w' isValid same

end Lines

end Caching
