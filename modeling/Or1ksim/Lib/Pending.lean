import Mathlib

/-!
# The highest of the sources that wait

Sources wait for service, and a register shows one of them. A source that is raised replaces a lower one,
and when the source that is shown goes, the next one is raised in its place.
-/

namespace Pending

variable {S : Type} [LinearOrder S]

structure Register (S : Type) where
  waiting : Finset S
  shown : WithBot S

namespace Register

/-- The register shows the highest source. -/
def Exact (p : Register S) : Prop := p.shown = p.waiting.max

/-- The register shows no source that is too low. -/
def Bounded (p : Register S) : Prop := p.waiting.max ≤ p.shown

def raise (s : S) (p : Register S) : Register S := ⟨insert s p.waiting, max p.shown s⟩

/-- The highest source that waits is raised anew, without the old one being withdrawn. -/
def next (p : Register S) : Register S := ⟨p.waiting, if p.waiting = ∅ then ⊥ else max p.shown p.waiting.max⟩

def clear (s : S) (p : Register S) : Register S :=
  if p.shown = s then next ⟨p.waiting.erase s, p.shown⟩ else ⟨p.waiting.erase s, p.shown⟩

variable {p : Register S} {s : S}

theorem Exact.bounded (exact' : p.Exact) : p.Bounded := le_of_eq exact'.symm

theorem raise_bounded (bounded : p.Bounded) (s : S) : (p.raise s).Bounded := by
  show (insert s p.waiting).max ≤ max p.shown s
  rw [Finset.max_insert, max_comm]
  exact max_le_max bounded (le_refl _)

/-- A source that is raised hides what is shown too high only from above. -/
theorem raise_exact_iff (bounded : p.Bounded) : (p.raise s).Exact ↔ p.Exact ∨ p.shown ≤ s := by
  show max p.shown s = (insert s p.waiting).max ↔ p.shown = p.waiting.max ∨ p.shown ≤ s
  rw [Finset.max_insert, max_comm]
  constructor
  · intro same
    rcases le_or_gt p.shown s with below | above
    · exact .inr below
    · rw [max_eq_right (le_of_lt above)] at same
      rcases max_choice (s : WithBot S) p.waiting.max with is | is
      · rw [is] at same
        exact absurd same (ne_of_gt above)
      · exact .inl (same.trans is)
  · rintro (same | below)
    · rw [same]
    · rw [max_eq_left below, max_eq_left (bounded.trans below)]

theorem next_bounded (p : Register S) : p.next.Bounded := by
  show p.waiting.max ≤ if p.waiting = ∅ then ⊥ else max p.shown p.waiting.max
  split
  · next none => rw [none, Finset.max_empty]
  · exact le_max_right _ _

theorem next_exact_iff : p.next.Exact ↔ p.waiting = ∅ ∨ p.shown ≤ p.waiting.max := by
  show (if p.waiting = ∅ then ⊥ else max p.shown p.waiting.max) = p.waiting.max ↔ _
  split
  · next none =>
    rw [none, Finset.max_empty]
    exact iff_of_true rfl (.inl rfl)
  · next some => exact max_eq_right_iff.trans (or_iff_right some).symm

theorem max_erase_le (s : S) (w : Finset S) : (w.erase s).max ≤ w.max := Finset.max_mono (Finset.erase_subset s w)

/-- A source that is not the highest does not count for the maximum. -/
theorem max_erase {w : Finset S} (other : w.max ≠ s) : (w.erase s).max = w.max := by
  refine le_antisymm (max_erase_le s w) ?_
  cases top : w.max with
  | bot => exact bot_le
  | coe m =>
    refine Finset.le_max (Finset.mem_erase.mpr ⟨?_, Finset.mem_of_max top⟩)
    rintro rfl
    exact other top

theorem clear_bounded (bounded : p.Bounded) (s : S) : (p.clear s).Bounded := by
  unfold clear
  split
  · exact next_bounded _
  · exact (max_erase_le s p.waiting).trans bounded

/-- What is shown is withdrawn properly only when nothing else waits. -/
theorem clear_exact_iff (bounded : p.Bounded) :
    (p.clear s).Exact ↔ if p.shown = s then p.waiting.erase s = ∅ else p.Exact := by
  unfold clear
  split
  · next same =>
    refine next_exact_iff.trans (or_iff_left fun below => ?_)
    have below : (s : WithBot S) ≤ (p.waiting.erase s).max := same ▸ below
    have upper : (p.waiting.erase s).max ≤ s := (max_erase_le s p.waiting).trans (same ▸ bounded)
    exact Finset.notMem_erase s p.waiting (Finset.mem_of_max (le_antisymm upper below))
  · next differ =>
    show p.shown = (p.waiting.erase s).max ↔ p.shown = p.waiting.max
    constructor
    · intro same
      exact le_antisymm (same.le.trans (max_erase_le s p.waiting)) bounded
    · intro same
      rw [max_erase (same ▸ differ)]
      exact same

end Register

end Pending
