import Mathlib.Data.Nat.Find
import Mathlib.Tactic.ByContra

/-!
# The lowest and the highest bit

Which bit of a word is the first and which the last that is set, and words with their bits in another order.
-/

namespace Bits

variable {w : Nat} {x y : BitVec w} {k n : Nat}

/-- The bit `k` is the lowest one that is set. -/
structure Lowest (x : BitVec w) (k : Nat) : Prop where
  set : x.getLsbD k = true
  below : ∀ j < k, x.getLsbD j = false

/-- The bit `k` is the highest one that is set. -/
structure Highest (x : BitVec w) (k : Nat) : Prop where
  set : x.getLsbD k = true
  above : ∀ j, k < j → x.getLsbD j = false

/-- At most one bit is set. -/
def AtMostOne (x : BitVec w) : Prop := ∀ i j, x.getLsbD i = true → x.getLsbD j = true → i = j

theorem Lowest.lt (lowest : Lowest x k) : k < w := BitVec.lt_of_getLsbD lowest.set

theorem Highest.lt (highest : Highest x k) : k < w := BitVec.lt_of_getLsbD highest.set

theorem Lowest.le (lowest : Lowest x k) (set : x.getLsbD n = true) : k ≤ n := by
  by_contra! less
  have clear := lowest.below n less
  rw [set] at clear
  cases clear

theorem Highest.ge (highest : Highest x k) (set : x.getLsbD n = true) : n ≤ k := by
  by_contra! more
  have clear := highest.above n more
  rw [set] at clear
  cases clear

theorem exists_set (some : x ≠ 0) : ∃ k, x.getLsbD k = true := by
  by_contra! clear
  refine some (BitVec.eq_of_getLsbD_eq fun i _ => ?_)
  rw [Bool.eq_false_iff.mpr (clear i)]
  exact BitVec.getLsbD_zero.symm

theorem exists_lowest (some : x ≠ 0) : ∃ k, Lowest x k := by
  have set := exists_set some
  exact ⟨Nat.find set, Nat.find_spec set, fun j less => Bool.eq_false_iff.mpr (Nat.find_min set less)⟩

theorem exists_highest (some : x ≠ 0) : ∃ k, Highest x k := by
  obtain ⟨k, set⟩ := exists_set some
  have inside : k ≤ w := Nat.le_of_lt (BitVec.lt_of_getLsbD set)
  refine ⟨Nat.findGreatest (fun k => x.getLsbD k = true) w, Nat.findGreatest_spec (P := fun k => x.getLsbD k = true) inside set, ?_⟩
  intro j above
  by_cases inside : j ≤ w
  · exact Bool.eq_false_iff.mpr (Nat.findGreatest_is_greatest above inside)
  · exact BitVec.getLsbD_of_ge x j (by omega)

theorem Lowest.le_highest (lowest : Lowest x k) (highest : Highest x n) : k ≤ n := lowest.le highest.set

theorem Lowest.eq_highest_iff (lowest : Lowest x k) (highest : Highest x n) : k = n ↔ AtMostOne x := by
  constructor
  · rintro rfl i j hi hj
    have first := lowest.le hi
    have second := lowest.le hj
    have third := highest.ge hi
    have fourth := highest.ge hj
    omega
  · exact fun one => one k n lowest.set highest.set

theorem atMostOne_zero : AtMostOne (0 : BitVec w) := by
  intro i j set
  have clear : (0#w).getLsbD i = false := BitVec.getLsbD_zero
  rw [show (0 : BitVec w) = 0#w from rfl, clear] at set
  cases set

/-- A step of a reversal: the bits that `hi` selects go down by `s`, and those that `lo` selects go up. -/
def exchange (hi lo : BitVec w) (s : Nat) (x : BitVec w) : BitVec w := ((x &&& hi) >>> s) ||| ((x &&& lo) <<< s)

/-- The masks of a step that exchanges neighbours at the distance `s`. -/
def Neighbours (hi lo : BitVec w) (s : Nat) : Prop :=
  ∀ i : Fin w, (hi.getLsbD (i + s) = true ∧ (i.1 < s ∨ lo.getLsbD (i - s) = false) ∧ i.1 ^^^ s = i + s) ∨
    (hi.getLsbD (i + s) = false ∧ s ≤ i ∧ lo.getLsbD (i - s) = true ∧ i.1 ^^^ s = i - s)

instance (hi lo : BitVec w) (s : Nat) : Decidable (Neighbours hi lo s) := inferInstanceAs (Decidable (∀ _, _))

theorem getLsbD_exchange {hi lo : BitVec w} {s i : Nat} (masks : Neighbours hi lo s) (lt : i < w) :
    (exchange hi lo s x).getLsbD i = x.getLsbD (i ^^^ s) := by
  unfold exchange
  rw [BitVec.getLsbD_or, BitVec.getLsbD_ushiftRight, BitVec.getLsbD_shiftLeft, BitVec.getLsbD_and, BitVec.getLsbD_and, Nat.add_comm]
  obtain ⟨up, none, is⟩ | ⟨down, le, some, is⟩ := masks ⟨i, lt⟩
  · dsimp only at up none is
    rw [is, up, Bool.and_true]
    obtain low | clear := none
    · simp [low]
    · simp [clear]
  · dsimp only at down le some is
    rw [is, down, some, Bool.and_false, Bool.false_or, Bool.and_true, decide_eq_true lt, decide_eq_false (by omega)]
    rfl

end Bits
