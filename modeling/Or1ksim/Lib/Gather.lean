import Mathlib

/-!
# Gathered bits

The bits of a word at a list of places, put together with the first place as the lowest. A field of
a word is a set of places; it can be gathered run by run, or bit by bit from either end.
-/

namespace Gather

variable {n : Nat}

def gather (w : BitVec n) : List Nat → BitVec n
  | [] => 0
  | p :: ps => (if w.getLsbD p then 1#n else 0#n) ||| (gather w ps <<< 1)

theorem getLsbD_gather (w : BitVec n) (ps : List Nat) {k : Nat} (inside : k < n) : (gather w ps).getLsbD k = (ps[k]?).any w.getLsbD := by
  induction ps generalizing k with
  | nil => simp [gather]
  | cons p ps ih =>
    rw [gather, BitVec.getLsbD_or, BitVec.getLsbD_shiftLeft, decide_eq_true inside]
    cases k with
    | zero => cases bit : w.getLsbD p <;> simp [bit, inside]
    | succ k =>
      have low : (if w.getLsbD p then 1#n else 0#n).getLsbD (k + 1) = false := by
        split <;> simp
      rw [low, Nat.add_sub_cancel, ih (by omega)]
      simp

theorem getLsbD_gather_of_le (w : BitVec n) (ps : List Nat) {k : Nat} (above : ps.length ≤ k) : (gather w ps).getLsbD k = false := by
  by_cases inside : k < n
  · rw [getLsbD_gather w ps inside, List.getElem?_eq_none above]
    rfl
  · exact BitVec.getLsbD_of_ge _ _ (by omega)

theorem gather_append (w : BitVec n) (ps qs : List Nat) : gather w (ps ++ qs) = gather w ps ||| (gather w qs <<< ps.length) := by
  apply BitVec.eq_of_getLsbD_eq
  intro k inside
  rw [getLsbD_gather w _ inside, BitVec.getLsbD_or, BitVec.getLsbD_shiftLeft, decide_eq_true inside]
  by_cases first : k < ps.length
  · rw [List.getElem?_append_left first, getLsbD_gather w ps inside, decide_eq_true first]
    simp
  · rw [List.getElem?_append_right (by omega), getLsbD_gather_of_le w ps (by omega), decide_eq_false first,
      getLsbD_gather w qs (by omega)]
    simp

theorem gather_range' (w : BitVec n) (s len : Nat) : gather w (List.range' s len) = (w >>> s) &&& (BitVec.ofNat n (2 ^ len - 1)) := by
  apply BitVec.eq_of_getLsbD_eq
  intro k inside
  rw [getLsbD_gather w _ inside, BitVec.getLsbD_and, BitVec.getLsbD_ushiftRight, BitVec.getLsbD_ofNat, Nat.testBit_two_pow_sub_one,
    decide_eq_true inside, Bool.true_and]
  by_cases run : k < len
  · rw [List.getElem?_range' run, decide_eq_true run]
    simp
  · rw [List.getElem?_eq_none (by rw [List.length_range']; omega), decide_eq_false run]
    simp

theorem gather_concat (w : BitVec n) (ps : List Nat) (p : Nat) :
    gather w (ps ++ [p]) = (((w >>> p) &&& 1) <<< ps.length) + gather w ps := by
  have bit : gather w [p] = (w >>> p) &&& 1 := gather_range' w p 1
  rw [gather_append, bit, BitVec.or_comm]
  refine (BitVec.add_eq_or_of_and_eq_zero _ _ ?_).symm
  apply BitVec.eq_of_getLsbD_eq
  intro k inside
  rw [BitVec.getLsbD_and, BitVec.getLsbD_shiftLeft, BitVec.getLsbD_zero]
  by_cases below : k < ps.length
  · rw [decide_eq_true below]
    simp
  · rw [getLsbD_gather_of_le w ps (by omega), Bool.and_false]

/-! ### The places of a mask -/

/-- The places of the ones of a word, the lowest first. -/
def places (w : BitVec n) : List Nat := (List.range n).filter w.getLsbD

theorem mem_places {w : BitVec n} {k : Nat} : k ∈ places w ↔ w.getLsbD k = true := by
  unfold places
  rw [List.mem_filter, List.mem_range, and_iff_right_iff_imp]
  exact fun bit => BitVec.lt_of_getLsbD bit

theorem places_increasing (w : BitVec n) : (places w).Pairwise (· < ·) := List.pairwise_lt_range.filter _

/-- An increasing list of the ones is the list of the places. -/
theorem places_eq {w : BitVec n} {ps : List Nat} (increasing : ps.Pairwise (· < ·)) (ones : ∀ k, k ∈ ps ↔ w.getLsbD k = true) :
    places w = ps := by
  refine List.Perm.eq_of_pairwise (fun a b _ _ ab ba => absurd ab (Nat.lt_asymm ba)) (places_increasing w) increasing ?_
  refine (List.perm_ext_iff_of_nodup ((places_increasing w).imp Nat.ne_of_lt) (increasing.imp Nat.ne_of_lt)).mpr fun k => ?_
  rw [mem_places, ones]

/-- The lowest run of ones, and the places of the rest. -/
theorem places_run {w v : BitVec n} {s len : Nat} (below : ∀ k < s, w.getLsbD k = false)
    (run : ∀ k, s ≤ k → k < s + len → w.getLsbD k = true)
    (rest : ∀ k, v.getLsbD k = (w.getLsbD k && !decide (s ≤ k ∧ k < s + len))) : places w = List.range' s len ++ places v := by
  refine places_eq (List.pairwise_append.mpr ⟨List.pairwise_lt_range', places_increasing v, fun a first b second => ?_⟩) fun k => ?_
  · obtain ⟨_, here⟩ := List.mem_range'_1.mp first
    have bit := mem_places.mp second
    rw [rest, Bool.and_eq_true, Bool.not_eq_true', decide_eq_false_iff_not] at bit
    have above : ¬ b < s := fun low => by cases (below b low).symm.trans bit.1
    omega
  · rw [List.mem_append, List.mem_range'_1, mem_places, rest]
    by_cases inside : s ≤ k ∧ k < s + len
    · simp [inside, run k inside.1 inside.2]
    · simp [inside]

end Gather
