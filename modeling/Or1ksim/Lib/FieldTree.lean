import Mathlib

/-!
# Decision trees over bit fields

A table of patterns is told apart by testing one run of bits after the other. `Separates` says that
a tree tells a set of patterns apart; a word is then led to the only pattern that can match it.
-/

namespace FieldTree

variable {n : Nat} {ι : Type}

/-- The bits `first`, …, `first + len - 1` of a word. -/
def field (first len : Nat) (w : BitVec n) : Nat := (w.toNat >>> first) &&& (2 ^ len - 1)

/-- The word with ones in the bits `first`, …, `first + len - 1`. -/
def ones (first len : Nat) : BitVec n := BitVec.ofNat n (2 ^ len - 1) <<< first

theorem field_lt (first len : Nat) (w : BitVec n) : field first len w < 2 ^ len := by
  have positive := Nat.two_pow_pos len
  rw [field, Nat.and_two_pow_sub_one_eq_mod]
  exact Nat.mod_lt _ positive

theorem testBit_field (first len j : Nat) (w : BitVec n) :
    (field first len w).testBit j = (decide (j < len) && w.getLsbD (first + j)) := by
  rw [field, Nat.testBit_and, Nat.testBit_shiftRight, Nat.testBit_two_pow_sub_one, BitVec.testBit_toNat,
    Bool.and_comm]

theorem field_eq_iff {first len : Nat} {v w : BitVec n} :
    field first len v = field first len w ↔ ∀ j < len, v.getLsbD (first + j) = w.getLsbD (first + j) := by
  constructor
  · intro same j low
    have bit := congrArg (Nat.testBit · j) same
    simpa [testBit_field, low] using bit
  · intro bits
    apply Nat.eq_of_testBit_eq
    intro j
    rw [testBit_field, testBit_field]
    by_cases low : j < len
    · simp [bits j low]
    · simp [low]

theorem field_full_iff {first len : Nat} {w : BitVec n} :
    field first len w = 2 ^ len - 1 ↔ ∀ j < len, w.getLsbD (first + j) = true := by
  constructor
  · intro full j low
    have bit := congrArg (Nat.testBit · j) full
    simpa [testBit_field, low] using bit
  · intro bits
    apply Nat.eq_of_testBit_eq
    intro j
    rw [testBit_field, Nat.testBit_two_pow_sub_one]
    by_cases low : j < len
    · simp [bits j low]
    · simp [low]

theorem getLsbD_ones (first len j : Nat) :
    (ones first len : BitVec n).getLsbD j = (decide (j < n) && decide (first ≤ j) && decide (j < first + len)) := by
  rw [ones, BitVec.getLsbD_shiftLeft, BitVec.getLsbD_ofNat, Nat.testBit_two_pow_sub_one]
  by_cases low : j < n
  · by_cases above : first ≤ j
    · have inside : j - first < n := by omega
      have shift : j - first < len ↔ j < first + len := by omega
      simp [low, above, inside, shift]
    · simp [low, above]
  · simp [low]

/-- Equal fields are equality under the mask of the field. -/
theorem and_ones_eq {first len : Nat} {v w : BitVec n} (same : field first len v = field first len w) :
    v &&& ones first len = w &&& ones first len := by
  apply BitVec.eq_of_getLsbD_eq
  intro j low
  rw [BitVec.getLsbD_and, BitVec.getLsbD_and, getLsbD_ones]
  by_cases inside : first ≤ j ∧ j < first + len
  · have bit := field_eq_iff.mp same (j - first) (by omega)
    rw [Nat.add_sub_cancel' inside.1] at bit
    rw [bit]
  · rcases not_and_or.mp inside with outside | outside <;> simp [outside]

/-! ### Patterns -/

structure Pattern (n : Nat) where
  mask : BitVec n
  value : BitVec n
  deriving DecidableEq, Repr

def Pattern.Matches (p : Pattern n) (w : BitVec n) : Prop := p.mask &&& w = p.value

instance (p : Pattern n) (w : BitVec n) : Decidable (p.Matches w) :=
  inferInstanceAs (Decidable (_ = _))

/-- Where the mask is set, a word that matches agrees with the pattern. -/
theorem Pattern.Matches.field_eq {p : Pattern n} {w : BitVec n} {first len : Nat} (hit : p.Matches w)
    (full : field first len p.mask = 2 ^ len - 1) : field first len p.value = field first len w := by
  apply field_eq_iff.mpr
  intro j low
  rw [← hit, BitVec.getLsbD_and, field_full_iff.mp full j low, Bool.true_and]

/-! ### Trees -/

inductive BitTree (ι : Type) where
  | invalid
  | leaf (i : ι)
  | node (first len : Nat) (child : Nat → BitTree ι)

def BitTree.walk : BitTree ι → BitVec n → Option ι
  | .invalid, _ => none
  | .leaf i, _ => some i
  | .node first len child, w => (child (field first len w)).walk w

/-- The bits tested on the way of `w`, added to `seen`. -/
def BitTree.path : BitTree ι → BitVec n → BitVec n → BitVec n
  | .invalid, _, seen => seen
  | .leaf _, _, seen => seen
  | .node first len child, w, seen => (child (field first len w)).path w (seen ||| ones first len)

/-- Every way through the tree has at most this many tests. -/
def BitTree.Shallow : BitTree ι → Nat → Prop
  | .invalid, _ => True
  | .leaf _, _ => True
  | .node _ _ _, 0 => False
  | .node _ len child, depth + 1 => ∀ v < 2 ^ len, (child v).Shallow depth

/-- The tree tells the patterns in `S` apart: a test is made only on bits that all of them fix. -/
def Separates (pat : ι → Pattern n) : BitTree ι → (ι → Prop) → Prop
  | .invalid, S => ∀ j, ¬ S j
  | .leaf i, S => S i ∧ ∀ j, S j → j = i
  | .node first len child, S => (∀ j, S j → field first len (pat j).mask = 2 ^ len - 1) ∧
      ∀ v < 2 ^ len, Separates pat (child v) fun j => S j ∧ field first len (pat j).value = v

variable {pat : ι → Pattern n} {t : BitTree ι} {S : ι → Prop} {w : BitVec n}

theorem walk_of_matches (separates : Separates pat t S) {i : ι} (member : S i) (hit : (pat i).Matches w) :
    t.walk w = some i := by
  induction t generalizing S with
  | invalid => exact absurd member (separates i)
  | leaf k => rw [BitTree.walk, separates.2 i member]
  | node first len child ih =>
    obtain ⟨full, below⟩ := separates
    exact ih _ (below _ (field_lt _ _ _)) ⟨member, hit.field_eq (full i member)⟩

theorem walk_member (separates : Separates pat t S) {i : ι} (found : t.walk w = some i) : S i := by
  induction t generalizing S with
  | invalid => simp [BitTree.walk] at found
  | leaf k =>
    obtain rfl : k = i := by simpa [BitTree.walk] using found
    exact separates.1
  | node first len child ih => exact (ih _ (separates.2 _ (field_lt _ _ _)) found).1

/-- A word agrees with the pattern it is led to in every bit tested on the way. -/
theorem walk_agrees (separates : Separates pat t S) {i : ι} (found : t.walk w = some i) {seen : BitVec n}
    (before : w &&& seen = (pat i).value &&& seen) :
    w &&& t.path w seen = (pat i).value &&& t.path w seen := by
  induction t generalizing S seen with
  | invalid => simp [BitTree.walk] at found
  | leaf k => exact before
  | node first len child ih =>
    have inner := separates.2 (field first len w) (field_lt _ _ _)
    have same := (walk_member inner found).2
    refine ih _ inner found ?_
    rw [BitVec.and_or_distrib_left, BitVec.and_or_distrib_left, before, and_ones_eq same]

/-- Every leaf that a word can reach satisfies `P`. -/
def BitTree.Leaves (P : ι → Prop) : BitTree ι → Prop
  | .invalid => True
  | .leaf i => P i
  | .node _ len child => ∀ v < 2 ^ len, (child v).Leaves P

theorem Separates.leaves {P : ι → Prop} (separates : Separates pat t S) (included : ∀ i, S i → P i) : t.Leaves P := by
  induction t generalizing S with
  | invalid => trivial
  | leaf k => exact included k separates.1
  | node first len child ih =>
    exact fun v inside => ih v (separates.2 v inside) fun i member => included i member.1

end FieldTree
