import Or1ksim.Cuc.Graph

/-!
# Insertion of instructions

Instructions that are inserted move the ones behind them in the block, and every reference to these.
-/

namespace Or1ksim.Cuc

def nop : Insn := { index := .nop, opt := fun _ => .none, op := fun _ => 0 }

/-- Where the instruction at `r` stands when `n` have been inserted before the one at `at_`. -/
def shiftRef (at_ : Op) (n : Nat) (r : Op) : Op := if refBb r = refBb at_ ∧ refI at_ ≤ refI r then r + BitVec.ofNat 64 n else r

def Insn.shift (ii : Insn) (at_ : Op) (n : Nat) : Insn :=
  { ii with op := fun j => if ii.opt j = .ref then shiftRef at_ n (ii.op j) else ii.op j, dep := ii.dep.map (shiftRef at_ n) }

/-- The function with `n` NOPs before the instruction at `at_`. -/
def Func.inserted (f : Func) (at_ : Op) (n : Nat) : Func :=
  let blocks := f.bb.modify (refBb at_) fun b =>
    { b with insn := b.insn.take (refI at_) ++ List.replicate n nop ++ b.insn.drop (refI at_) }
  { f with
    bb := blocks.map fun b => { b with insn := b.insn.map fun ii => ii.shift at_ n, mdep := b.mdep.map (shiftRef at_ n) }
    msched := f.msched.map fun m => { m with ref := shiftRef at_ n m.ref } }

/-- The place has to be in the block or at its end, and the block must not grow too large. -/
def Func.insertInsns (f : Func) (at_ : Op) (n : Nat) : Option Func :=
  f.bb[refBb at_]?.bind fun b => if refI at_ ≤ b.insn.length ∧ b.insn.length + n < maxInsns then some (f.inserted at_ n) else none

section
variable {f f' : Func} {at_ r s : Op} {n : Nat} {ii jj : Insn}

theorem insertInsns_of_some (fires : f.insertInsns at_ n = some f') :
    ∃ b, f.bb[refBb at_]? = some b ∧ refI at_ ≤ b.insn.length ∧ b.insn.length + n < maxInsns ∧ f' = f.inserted at_ n := by
  obtain ⟨b, block, fires⟩ := Option.bind_eq_some_iff.mp fires
  split_ifs at fires with guard
  cases fires
  exact ⟨b, block, guard.1, guard.2, rfl⟩

theorem refBb_add (fits : refI r + n < maxInsns) : refBb (r + BitVec.ofNat 64 n) = refBb r := by
  have bound := r.isLt
  simp only [refBb, refI, maxInsns, BitVec.toNat_add, BitVec.toNat_ofNat] at *
  omega

theorem refI_add (fits : refI r + n < maxInsns) : refI (r + BitVec.ofNat 64 n) = refI r + n := by
  have bound := r.isLt
  simp only [refI, maxInsns, BitVec.toNat_add, BitVec.toNat_ofNat] at *
  omega

theorem live?_eq_some : f.live? r = some ii ↔ ∃ b, f.bb[refBb r]? = some b ∧ b.dead = false ∧ b.insn[refI r]? = some ii := by
  unfold Func.live?
  rw [Option.bind_eq_some_iff]
  refine exists_congr fun b => and_congr_right fun _ => ?_
  by_cases dead : b.dead <;> simp [dead]

theorem inserted_block {b : Bb} (block : f.bb[refBb s]? = some b) : (f.inserted at_ n).bb[refBb s]? =
    some { b with
      mdep := b.mdep.map (shiftRef at_ n)
      insn := (if refBb at_ = refBb s then b.insn.take (refI at_) ++ List.replicate n nop ++ b.insn.drop (refI at_) else b.insn).map
             fun ii => ii.shift at_ n } := by
  simp only [Func.inserted, List.getElem?_map, List.getElem?_modify, block]
  by_cases same : refBb at_ = refBb s <;> simp [same]

/-- Every instruction is where its references have been moved to, in the same block. -/
theorem inserted_place {b : Bb} (fires : f.insertInsns at_ n = some f') (block : f.bb[refBb s]? = some b)
    (there : b.insn[refI s]? = some jj) :
    ∃ b', f'.bb[refBb (shiftRef at_ n s)]? = some b' ∧ b'.dead = b.dead ∧ b'.insn[refI (shiftRef at_ n s)]? = some (jj.shift at_ n) := by
  obtain ⟨b₀, block₀, inside, room, rfl⟩ := insertInsns_of_some fires
  have bound : refI s < b.insn.length := (List.getElem?_eq_some_iff.mp there).1
  unfold shiftRef
  split_ifs with moved
  · obtain ⟨same, behind⟩ := moved
    rw [same] at block
    cases block₀.symm.trans block
    have fits : refI s + n < maxInsns := by omega
    rw [refBb_add fits, refI_add fits, same]
    refine ⟨_, inserted_block block, rfl, ?_⟩
    rw [if_pos rfl, List.getElem?_map, List.getElem?_append_right (by simp; omega), List.getElem?_drop]
    have index : refI at_ + (refI s + n - (b.insn.take (refI at_) ++ List.replicate n nop).length) = refI s := by simp; omega
    rw [index, there]
    rfl
  · refine ⟨_, inserted_block block, rfl, ?_⟩
    rw [List.getElem?_map]
    by_cases same : refBb at_ = refBb s
    · rw [← same] at block
      cases block₀.symm.trans block
      have before : refI s < refI at_ := by
        by_contra! behind
        exact moved ⟨same.symm, behind⟩
      rw [if_pos same, List.append_assoc, List.getElem?_append_left (by simp; omega), List.getElem?_take_of_lt before, there]
      rfl
    · rw [if_neg same, there]
      rfl

theorem live?_inserted (fires : f.insertInsns at_ n = some f') (live : f.live? s = some jj) :
    f'.live? (shiftRef at_ n s) = some (jj.shift at_ n) := by
  obtain ⟨b, block, alive, there⟩ := live?_eq_some.mp live
  obtain ⟨b', block', same, there'⟩ := inserted_place fires block there
  exact live?_eq_some.mpr ⟨b', block', same.trans alive, there'⟩

/-- The inserted instructions. -/
theorem live?_new {i : Nat} (fires : f.insertInsns at_ n = some f') (live : f.live? at_ = some ii) (inside : i < n) :
    f'.live? (at_ + BitVec.ofNat 64 i) = some nop := by
  obtain ⟨b, block, -, room, rfl⟩ := insertInsns_of_some fires
  obtain ⟨b', block', alive, place⟩ := live?_eq_some.mp live
  cases block.symm.trans block'
  have bound : refI at_ < b.insn.length := (List.getElem?_eq_some_iff.mp place).1
  have fits : refI at_ + i < maxInsns := by omega
  rw [live?_eq_some, refBb_add fits, refI_add fits]
  refine ⟨_, inserted_block block, alive, ?_⟩
  rw [if_pos rfl, List.getElem?_map, List.getElem?_append_left (by simp; omega), List.getElem?_append_right (by simp),
    List.getElem?_replicate_of_lt (by simp; omega)]
  simp [nop, Insn.shift]

/-- There is room for the new instructions behind each one in the block. -/
theorem room_behind (fires : f.insertInsns at_ n = some f') (live : f.live? s = some jj) (same : refBb s = refBb at_) :
    refI s + n < maxInsns := by
  obtain ⟨b, block, -, room, -⟩ := insertInsns_of_some fires
  obtain ⟨b', block', -, place⟩ := live?_eq_some.mp live
  rw [same] at block'
  cases block.symm.trans block'
  have bound : refI s < b.insn.length := (List.getElem?_eq_some_iff.mp place).1
  omega

/-- Nothing is moved to where the new instructions are. -/
theorem shiftRef_ne_new {i : Nat} (fires : f.insertInsns at_ n = some f') (live : f.live? at_ = some ii) (live' : f.live? s = some jj)
    (inside : i < n) : shiftRef at_ n s ≠ at_ + BitVec.ofNat 64 i := by
  have room := room_behind fires live rfl
  have fits : refI at_ + i < maxInsns := by omega
  intro new
  unfold shiftRef at new
  split_ifs at new with moved
  · have place := congrArg refI new
    rw [refI_add (room_behind fires live' moved.1), refI_add fits] at place
    omega
  · rw [new, refBb_add fits, refI_add fits] at moved
    exact moved ⟨rfl, Nat.le_add_right ..⟩

/-- What is moved and what stays do not meet. -/
theorem moved_ne (fires : f.insertInsns at_ n = some f') (live : f.live? r = some ii) (moved : refBb r = refBb at_ ∧ refI at_ ≤ refI r)
    (stays : ¬(refBb s = refBb at_ ∧ refI at_ ≤ refI s)) : r + BitVec.ofNat 64 n ≠ s := by
  rintro rfl
  have room := room_behind fires live moved.1
  rw [refBb_add room, refI_add room] at stays
  exact stays ⟨moved.1, moved.2.trans (Nat.le_add_right ..)⟩

theorem shiftRef_inj (fires : f.insertInsns at_ n = some f') (live : f.live? r = some ii) (live' : f.live? s = some jj)
    (same : shiftRef at_ n r = shiftRef at_ n s) : r = s := by
  unfold shiftRef at same
  split_ifs at same with first second second
  · exact (BitVec.add_left_inj _).mp same
  · exact absurd same (moved_ne fires live first second)
  · exact absurd same.symm (moved_ne fires live' second first)
  · exact same

theorem shift_operand {x x' : Input} {v : Op → Word} (other : x'.other = x.other) (k : Fin 5) :
    (jj.shift at_ n).operand ⟨v, x'.other⟩ k = jj.operand ⟨fun r => v (shiftRef at_ n r), x.other⟩ k := by
  cases kind : jj.opt k
  case ref =>
    have kind' : (jj.shift at_ n).opt k = .ref := kind
    rw [operand_ref kind, operand_ref kind']
    simp [Insn.shift, kind]
  all_goals
    simp only [Insn.operand, Insn.shift, kind, reduceCtorEq, if_false, other]
    rfl

/-- What is moved computes what it did, from the values of what is moved. -/
theorem shift_result {x x' : Input} {v : Op → Word} (other : x'.other = x.other)
    (outside : x'.outside (shiftRef at_ n s) = x.outside s) :
    (jj.shift at_ n).result x' (shiftRef at_ n s) v = jj.result x s fun r => v (shiftRef at_ n r) := by
  have value : (jj.shift at_ n).value ⟨v, x'.other⟩ = jj.value ⟨fun r => v (shiftRef at_ n r), x.other⟩ := by
    simp only [Insn.value, shift_operand other]
    rfl
  have sources : (jj.shift at_ n).sources ⟨v, x'.other⟩ = jj.sources ⟨fun r => v (shiftRef at_ n r), x.other⟩ := funext fun k => by
    simp only [Insn.sources, shift_operand other]
    rfl
  rw [Insn.result, Insn.result, value, sources, outside]
  rfl

end

end Or1ksim.Cuc
