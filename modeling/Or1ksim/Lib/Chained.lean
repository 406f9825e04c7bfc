import Mathlib

/-!
# Hash tables with chains

A table has a chain of entries for each hash of their keys. An entry is added at the head of its chain,
unless there is one with its key, and the first entry with a key is the one found and removed.
-/

namespace Chained

variable {κ η : Type}

/-- The chains, by the hash of their keys. -/
abbrev Table (η : Type) := Nat → List η

def empty : Table η := fun _ => []

/-- Every entry is in the chain of its hash, and a chain has no key twice. -/
structure WellFormed (hash : κ → Nat) (key : η → κ) (t : Table η) : Prop where
  placed : ∀ h, ∀ entry ∈ t h, h = hash (key entry)
  once : ∀ h, ((t h).map key).Nodup

theorem wellFormed_empty (hash : κ → Nat) (key : η → κ) : WellFormed hash key empty :=
  ⟨fun _ _ none => absurd none List.not_mem_nil, fun _ => List.nodup_nil⟩

theorem WellFormed.nodup_keys {hash : κ → Nat} {key : η → κ} {t : Table η} (wf : WellFormed hash key t) (n : Nat) :
    (((List.range n).flatMap t).map key).Nodup := by
  induction n with
  | zero => exact List.nodup_nil
  | succ n ih =>
    rw [List.range_succ, List.flatMap_append, List.map_append, List.flatMap_singleton]
    refine ih.append (wf.once n) fun k left right => ?_
    obtain ⟨first, inside, rfl⟩ := List.mem_map.mp left
    obtain ⟨other, here, same⟩ := List.mem_map.mp right
    obtain ⟨h, small, here'⟩ := List.mem_flatMap.mp inside
    have differ : h < n := List.mem_range.mp small
    rw [wf.placed h first here', wf.placed n other here, same] at differ
    exact Nat.lt_irrefl _ differ

section
variable [DecidableEq κ] (hash : κ → Nat) (key : η → κ)

def lookup (t : Table η) (k : κ) : Option η := (t (hash k)).find? fun entry => key entry = k

def add (t : Table η) (entry : η) : Table η :=
  if (lookup hash key t (key entry)).isSome then t
  else fun h => if h = hash (key entry) then entry :: t h else t h

/-- The entry is returned. -/
def delete (t : Table η) (k : κ) : Option η × Table η :=
  (lookup hash key t k, fun h => if h = hash k then (t h).eraseP fun entry => key entry = k else t h)

end

variable [DecidableEq κ] {hash : κ → Nat} {key : η → κ} {t : Table η}

theorem lookup_eq_none_iff {k : κ} : lookup hash key t k = none ↔ ∀ entry ∈ t (hash k), key entry ≠ k := by
  unfold lookup
  simp only [List.find?_eq_none, decide_eq_true_eq, ne_eq]

theorem lookup_key {k : κ} {entry : η} (found : lookup hash key t k = some entry) : key entry = k ∧ entry ∈ t (hash k) :=
  ⟨by simpa using List.find?_some found, List.mem_of_find?_eq_some found⟩

/-- An entry of the table is what a lookup of its key finds. -/
theorem WellFormed.mem_iff (wf : WellFormed hash key t) {entry : η} :
    (∃ h, entry ∈ t h) ↔ lookup hash key t (key entry) = some entry := by
  constructor
  · rintro ⟨h, inside⟩
    obtain rfl := wf.placed h entry inside
    cases found : lookup hash key t (key entry) with
    | none => exact absurd rfl (lookup_eq_none_iff.mp found entry inside)
    | some other =>
      obtain ⟨same, member⟩ := lookup_key found
      rw [List.inj_on_of_nodup_map (wf.once _) member inside same]
  · intro found
    exact ⟨_, (lookup_key found).2⟩

theorem mem_add {entry other : η} {h : Nat} (inside : other ∈ add hash key t entry h) : other = entry ∨ other ∈ t h := by
  unfold add at inside
  split at inside
  · exact .inr inside
  · dsimp only at inside
    split at inside
    · exact List.mem_cons.mp inside
    · exact .inr inside

theorem mem_delete {k : κ} {other : η} {h : Nat} (inside : other ∈ (delete hash key t k).2 h) : other ∈ t h := by
  dsimp only [delete] at inside
  split at inside
  · exact List.mem_of_mem_eraseP inside
  · exact inside

theorem WellFormed.add (wf : WellFormed hash key t) (entry : η) : WellFormed hash key (add hash key t entry) := by
  unfold Chained.add
  split
  · exact wf
  · next absent =>
    have fresh := lookup_eq_none_iff.mp (Option.not_isSome_iff_eq_none.mp absent)
    constructor
    · intro h other inside
      split at inside
      · next here =>
        rcases List.mem_cons.mp inside with rfl | inside
        · exact here
        · exact wf.placed h other inside
      · exact wf.placed h other inside
    · intro h
      split
      · next here =>
        subst here
        rw [List.map_cons, List.nodup_cons]
        refine ⟨fun member => ?_, wf.once _⟩
        obtain ⟨other, inside, same⟩ := List.mem_map.mp member
        exact fresh other inside same
      · exact wf.once h

theorem WellFormed.delete (wf : WellFormed hash key t) (k : κ) : WellFormed hash key (delete hash key t k).2 := by
  constructor
  · intro h entry inside
    exact wf.placed h entry (mem_delete inside)
  · intro h
    dsimp only [Chained.delete]
    split
    · exact (wf.once h).sublist ((List.eraseP_sublist).map key)
    · exact wf.once h

theorem lookup_add (t : Table η) (entry : η) (k : κ) :
    lookup hash key (add hash key t entry) k =
      if k = key entry ∧ lookup hash key t k = none then some entry else lookup hash key t k := by
  unfold Chained.add
  split
  · next present =>
    rw [if_neg]
    rintro ⟨rfl, none⟩
    rw [none] at present
    cases present
  · next absent =>
    have fresh := Option.not_isSome_iff_eq_none.mp absent
    by_cases same : k = key entry
    · subst same
      rw [if_pos ⟨rfl, fresh⟩]
      unfold lookup
      dsimp only
      rw [if_pos rfl]
      exact List.find?_cons_of_pos (by simp)
    · rw [if_neg fun both => same both.1]
      unfold lookup
      dsimp only
      split
      · rw [List.find?_cons_of_neg]
        simpa using fun back : key entry = k => same back.symm
      · rfl

theorem key_ne_of_mem_eraseP {l : List η} {k : κ} (once : (l.map key).Nodup) {entry : η}
    (inside : entry ∈ l.eraseP fun entry => key entry = k) : key entry ≠ k := by
  induction l with
  | nil => cases inside
  | cons first l ih =>
    rw [List.map_cons, List.nodup_cons] at once
    by_cases here : key first = k
    · rw [List.eraseP_cons_of_pos (by simpa using here)] at inside
      rintro rfl
      exact once.1 (here ▸ List.mem_map_of_mem inside)
    · rw [List.eraseP_cons_of_neg (by simpa using here)] at inside
      rcases List.mem_cons.mp inside with rfl | later
      · exact here
      · exact ih once.2 later

theorem find?_eraseP (l : List η) {k k' : κ} (other : k' ≠ k) :
    (l.eraseP fun entry => key entry = k).find? (fun entry => key entry = k') = l.find? fun entry => key entry = k' := by
  induction l with
  | nil => rfl
  | cons first l ih =>
    by_cases here : key first = k
    · rw [List.eraseP_cons_of_pos (by simpa using here), List.find?_cons_of_neg]
      simpa [here] using other.symm
    · rw [List.eraseP_cons_of_neg (by simpa using here), List.find?_cons, List.find?_cons, ih]

theorem WellFormed.lookup_delete (wf : WellFormed hash key t) (k k' : κ) :
    lookup hash key (Chained.delete hash key t k).2 k' = if k' = k then none else lookup hash key t k' := by
  split
  · next same =>
    subst same
    refine lookup_eq_none_iff.mpr fun entry inside => key_ne_of_mem_eraseP (wf.once (hash k')) ?_
    dsimp only [Chained.delete] at inside
    rwa [if_pos rfl] at inside
  · next other =>
    unfold lookup Chained.delete
    dsimp only
    split
    · exact find?_eraseP (t (hash k')) other
    · rfl

end Chained
