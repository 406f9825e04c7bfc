import Or1ksim.Cpu.FaultingAccess
import Or1ksim.Lib.Aligned

/-!
# Matchpoints, watchpoints and their counters

A matchpoint compares an access with a `DVR`. The code keeps the result in eight bits and compares values
of the host's `long`. Watchpoints combine matchpoints and add to counters that share their registers
with the values they are compared to.
-/

namespace Or1ksim.Cpu

variable {δ : Type}

/-! ### Comparisons -/

/-- The comparisons of the field `CC` of a `DCR`. -/
inductive Comparison where
  | masked | equal | less | lessEq | great | greatEq | notEqual
  deriving DecidableEq, Repr

/-- An operand as a number in two's complement, or without a sign. -/
def operand (signed : Bool) (x : Word) : Int := if signed then x.toInt else x.toNat

namespace Comparison

def ofDcr (dcr : Word) : Option Comparison :=
  match (dcr &&& dcrCc).toNat with
  | 0x0 => some masked
  | 0x2 => some equal
  | 0x4 => some less
  | 0x6 => some lessEq
  | 0x8 => some great
  | 0xa => some greatEq
  | 0xc => some notEqual
  | _ => none

def Holds (signed : Bool) (value dvr : Word) : Comparison → Prop
  | masked => value &&& dvr ≠ 0#32
  | equal => operand signed value = operand signed dvr
  | less => operand signed value < operand signed dvr
  | lessEq => operand signed value ≤ operand signed dvr
  | great => operand signed dvr < operand signed value
  | greatEq => operand signed dvr ≤ operand signed value
  | notEqual => operand signed value ≠ operand signed dvr

/-- The comparison depends on the order of the operands. -/
def ordered : Comparison → Bool
  | less | lessEq | great | greatEq => true
  | _ => false

end Comparison

/-- The kinds of access that the field `CT` of a `DCR` selects. -/
def selectedActions (dcr : Word) : List DebugAction :=
  match (dcr &&& dcrCt).toNat with
  | 0x20 => [.instructionFetch]
  | 0x40 => [.loadAddress]
  | 0x60 => [.storeAddress]
  | 0x80 => [.loadData]
  | 0xa0 => [.storeData]
  | 0xc0 => [.loadAddress, .storeAddress]
  | 0xe0 => [.loadData, .storeData]
  | _ => []

/-- What a matchpoint is to match. -/
def Matches (dcr dvr : Word) (action : DebugAction) (value : Word) : Prop :=
  has dcr dcrDp = true ∧ action ∈ selectedActions dcr ∧
    ∃ comparison, Comparison.ofDcr dcr = some comparison ∧ comparison.Holds (has dcr dcrSc) value dvr

/-- The result of the comparison is in the eight bits that are kept, and signs do not matter to it. -/
def Comparable (long64 : Bool) (dcr dvr : Word) (action : DebugAction) (value : Word) : Prop :=
  has dcr dcrDp = true → action ∈ selectedActions dcr → ∀ comparison, Comparison.ofDcr dcr = some comparison →
    (comparison = .masked → value &&& dvr = 0#32 ∨ has (value &&& dvr) 0xff = true) ∧
      (comparison.ordered = true → has dcr dcrSc = true → long64 = true → value.msb = dvr.msb)

theorem operand_inj {signed : Bool} {x y : Word} : operand signed x = operand signed y ↔ x = y := by
  cases signed with
  | true => exact BitVec.toInt_inj
  | false =>
    unfold operand
    simp only [Bool.false_eq_true, if_false, Int.ofNat_inj, BitVec.toNat_inj]

theorem operand_lt (signed : Bool) (x y : Word) : operand signed x < operand signed y ↔
    (if signed then x.slt y else x.ult y) = true := by
  cases signed <;> simp [operand, BitVec.slt, BitVec.ult]

/-- The two orders agree on operands of one sign only. -/
theorem operand_signs (x y : Word) :
    (operand false x < operand false y ↔ operand true x < operand true y) ↔ x.msb = y.msb := by
  rw [operand_lt, operand_lt, if_pos rfl, if_neg (by decide), BitVec.slt_eq_ult]
  cases x.msb <;> cases y.msb <;> cases x.ult y <;> decide

theorem compareTo_iff (dcr : Word) (action : DebugAction) : compareTo dcr action = true ↔ action ∈ selectedActions dcr := by
  unfold compareTo selectedActions
  generalize (dcr &&& dcrCt).toNat = field
  split
  · simp
  · simp
  · simp
  · simp
  · simp
  · simp
  · simp
  · simp_all

/-- What the code computes: the comparison as the host makes it, of which eight bits are kept. -/
theorem compareCondition_iff (long64 : Bool) (dcr udata dvr : Word) :
    compareCondition long64 dcr udata dvr = true ↔ ∃ comparison, Comparison.ofDcr dcr = some comparison ∧
      if comparison = .masked then has (udata &&& dvr) 0xff = true else comparison.Holds (has dcr dcrSc && !long64) udata dvr := by
  have order : ∀ x y, (if has dcr dcrSc && !long64 then BitVec.slt x y else BitVec.ult x y) = true ↔
      operand (has dcr dcrSc && !long64) x < operand (has dcr dcrSc && !long64) y := fun x y => (operand_lt _ x y).symm
  have orderNot : ∀ x y, (!if has dcr dcrSc && !long64 then BitVec.slt x y else BitVec.ult x y) = true ↔
      operand (has dcr dcrSc && !long64) y ≤ operand (has dcr dcrSc && !long64) x := fun x y => by
    rw [Bool.not_eq_true', ← Bool.not_eq_true, order, Int.not_lt]
  unfold compareCondition Comparison.ofDcr
  generalize (dcr &&& dcrCc).toNat = field
  dsimp only
  split
  · simp only [Option.some.injEq, exists_eq_left', if_true]
  · simp only [Option.some.injEq, exists_eq_left']
    exact decide_eq_true_iff.trans operand_inj.symm
  · simp only [Option.some.injEq, exists_eq_left']
    exact order udata dvr
  · simp only [Option.some.injEq, exists_eq_left']
    exact orderNot dvr udata
  · simp only [Option.some.injEq, exists_eq_left']
    exact order dvr udata
  · simp only [Option.some.injEq, exists_eq_left']
    exact orderNot udata dvr
  · simp only [Option.some.injEq, exists_eq_left']
    exact decide_eq_true_iff.trans (not_congr operand_inj.symm)
  · simp_all

theorem operand_order_iff (signed long64 : Bool) (x y : Word) :
    (operand (signed && !long64) x < operand (signed && !long64) y ↔ operand signed x < operand signed y) ↔
      (signed = true → long64 = true → x.msb = y.msb) := by
  cases signed with
  | false => simp
  | true =>
    cases long64 with
    | false => simp
    | true =>
      rw [← operand_signs]
      simp

/-- The comparison of the host is the one that is asked for. -/
theorem Comparison.holds_iff (comparison : Comparison) (signed long64 : Bool) (value dvr : Word) :
    (comparison.Holds (signed && !long64) value dvr ↔ comparison.Holds signed value dvr) ↔
      (comparison.ordered = true → signed = true → long64 = true → value.msb = dvr.msb) := by
  have swapped : (signed = true → long64 = true → dvr.msb = value.msb) ↔ (signed = true → long64 = true → value.msb = dvr.msb) := by
    rw [@eq_comm Bool dvr.msb]
  cases comparison with
  | masked => exact iff_of_true Iff.rfl nofun
  | equal => exact iff_of_true (operand_inj.trans operand_inj.symm) nofun
  | notEqual => exact iff_of_true (not_congr (operand_inj.trans operand_inj.symm)) nofun
  | less =>
    refine Iff.trans ?_ (forall_prop_of_true rfl).symm
    exact operand_order_iff signed long64 value dvr
  | great =>
    refine Iff.trans ?_ (forall_prop_of_true rfl).symm
    exact (operand_order_iff signed long64 dvr value).trans swapped
  | lessEq =>
    refine Iff.trans ?_ (forall_prop_of_true rfl).symm
    unfold Holds
    dsimp only
    rw [← Int.not_lt, ← Int.not_lt, not_iff_not]
    exact (operand_order_iff signed long64 dvr value).trans swapped
  | greatEq =>
    refine Iff.trans ?_ (forall_prop_of_true rfl).symm
    unfold Holds
    dsimp only
    rw [← Int.not_lt, ← Int.not_lt, not_iff_not]
    exact operand_order_iff signed long64 value dvr

theorem has_ne_zero {w mask : Word} (set : has w mask = true) : w ≠ 0#32 := by
  rintro rfl
  unfold has at set
  simp at set

/-- A matchpoint matches as its registers say, exactly if its comparison is one that the code can make. -/
theorem matchpoint_iff (long64 : Bool) (m : Machine δ) (action : DebugAction) (udata : Word) (i : Nat) :
    (matchpoint long64 m action udata i = true ↔ Matches (m.sprs (sprDcr i)) (m.sprs (sprDvr i)) action udata) ↔
      Comparable long64 (m.sprs (sprDcr i)) (m.sprs (sprDvr i)) action udata := by
  unfold matchpoint Matches Comparable
  generalize m.sprs (sprDcr i) = dcr
  generalize m.sprs (sprDvr i) = dvr
  simp only [Bool.and_eq_true, compareTo_iff, compareCondition_iff, and_assoc]
  by_cases present : has dcr dcrDp = true
  · by_cases selected : action ∈ selectedActions dcr
    · simp only [present, selected, true_and, forall_const]
      cases Comparison.ofDcr dcr with
      | none => simp
      | some comparison =>
        simp only [Option.some.injEq, exists_eq_left', forall_eq']
        by_cases masked : comparison = .masked
        · obtain rfl := masked
          rw [if_pos rfl]
          show (_ ↔ udata &&& dvr ≠ 0#32) ↔ _
          constructor
          · intro same
            refine ⟨fun _ => ?_, nofun⟩
            by_cases zero : udata &&& dvr = 0#32
            · exact .inl zero
            · exact .inr (same.mpr zero)
          · rintro ⟨kept, _⟩
            exact ⟨has_ne_zero, (kept rfl).resolve_left⟩
        · rw [if_neg masked, comparison.holds_iff]
          exact (and_iff_right fun isMasked => absurd isMasked masked).symm
    · simp [selected]
  · simp [present]

/-- A machine whose first matchpoint has the registers given. -/
def matchingMachine (dcr dvr : Word) : Machine Unit :=
  { Machine.bare () 0 0 with sprs := fun r => if r = sprDcr 0 then dcr else if r = sprDvr 0 then dvr else 0 }

/-- A masked comparison of the fetched address with bit 8 is lost in the eight bits. -/
theorem matchpoint_truncated :
    ¬ ∀ (long64 : Bool) (m : Machine Unit) (action : DebugAction) (udata : Word) (i : Nat),
      matchpoint long64 m action udata i = true ↔ Matches (m.sprs (sprDcr i)) (m.sprs (sprDvr i)) action udata := by
  intro claim
  have matched := (claim true (matchingMachine 0x21 0x100) .instructionFetch 0x100 0).mpr
    ⟨by decide +kernel, by decide +kernel, .masked, by decide +kernel, by unfold Comparison.Holds; decide +kernel⟩
  exact absurd matched (by decide +kernel)

/-! ### Counters -/

/-- The field `COUNT` of a counter register. -/
def dwcrCountField (dwcr : Word) : BitVec 16 := dwcr.extractLsb' 0 16

/-- The field `MATCH` of a counter register. -/
def dwcrMatchField (dwcr : Word) : BitVec 16 := dwcr.extractLsb' 16 16

theorem setWidth_dwcr (dwcr : Word) : dwcr.setWidth 16 = dwcrCountField dwcr := by
  apply BitVec.eq_of_getLsbD_eq
  intro i inside
  simp only [dwcrCountField, BitVec.getLsbD_setWidth, BitVec.getLsbD_extractLsb', inside, decide_true, Bool.true_and, Nat.zero_add]

theorem dwcrCount_eq : dwcrCount = Aligned.low 32 16 := by decide

/-- A counter counts without the bounds of its field, -/
theorem countDwcr_count (dwcr : Word) (n : Nat) : dwcrCountField (countDwcr dwcr n) = dwcrCountField dwcr + BitVec.ofNat 16 n := by
  rw [← setWidth_dwcr dwcr]
  unfold dwcrCountField countDwcr
  generalize dwcr.setWidth 16 + BitVec.ofNat 16 n = count
  apply BitVec.eq_of_getLsbD_eq
  intro i inside
  have inWord : i < 32 := by omega
  simp only [dwcrCount_eq, BitVec.getLsbD_extractLsb', BitVec.getLsbD_or, BitVec.getLsbD_and, BitVec.getLsbD_not,
    BitVec.getLsbD_signExtend,
    Aligned.getLsbD_low, Nat.zero_add, inside, inWord, decide_true, Bool.not_true, Bool.and_false, Bool.true_and, Bool.false_or, if_pos]

/-- and the sign of the `short int` goes over the field beside it. -/
theorem countDwcr_match (dwcr : Word) (n : Nat) : dwcrMatchField (countDwcr dwcr n) =
    if (dwcrCountField dwcr + BitVec.ofNat 16 n).msb then BitVec.allOnes 16 else dwcrMatchField dwcr := by
  rw [← setWidth_dwcr dwcr]
  unfold dwcrMatchField countDwcr
  generalize dwcr.setWidth 16 + BitVec.ofNat 16 n = count
  apply BitVec.eq_of_getLsbD_eq
  intro i inside
  have above : ¬ 16 + i < 16 := by omega
  have inWord : 16 + i < 32 := by omega
  simp only [dwcrCount_eq, BitVec.getLsbD_extractLsb', BitVec.getLsbD_or, BitVec.getLsbD_and, BitVec.getLsbD_not,
    BitVec.getLsbD_signExtend,
    Aligned.getLsbD_low, inside, above, inWord, decide_true, decide_false, Bool.and_false, Bool.not_false, Bool.and_true, Bool.true_and,
    if_neg, not_false_eq_true]
  cases count.msb with
  | true => simp only [if_true, BitVec.getLsbD_allOnes, inside, decide_true, Bool.or_true]
  | false => simp [inside]

theorem dwcrMatched_eq (dwcr : Word) : dwcrMatched dwcr = decide (dwcrCountField dwcr = dwcrMatchField dwcr) := by
  have count : (dwcr &&& dwcrCount).toNat = (dwcrCountField dwcr).toNat := by
    rw [dwcrCount_eq, Aligned.and_low _ (by decide), ← setWidth_dwcr]
    rfl
  have value : (dwcr >>> dwcrMatchOff).toNat = (dwcrMatchField dwcr).toNat := by
    have := dwcr.isLt
    show dwcr.toNat >>> 16 = dwcr.toNat >>> 16 % 2 ^ 16
    omega
  unfold dwcrMatched
  rw [decide_eq_decide, ← BitVec.toNat_inj, ← BitVec.toNat_inj, count, value]

/-! ### Calls -/

theorem setSpr_there {r q : SprNo} (other : q ≠ r) (v : Word) (s : Machine δ) : (setSpr r v s).sprs q = s.sprs q := if_neg other

/-- The registers of the two counters. -/
def sprDwcr : Bool → SprNo
  | false => sprDwcr0
  | true => sprDwcr1

def dmr2Wce : Bool → Word
  | false => dmr2Wce0
  | true => dmr2Wce1

section
variable (c : Config δ) (action : DebugAction) (udata : Word) (m : Machine δ)

/-- Some matchpoint matches. -/
def anyMatch : Bool := (List.range 8).any (matchpoint c.long64 m action udata)

/-- The number of triggered watchpoints that an enabled counter counts. -/
def watchCount (counter : Bool) : Nat :=
  if has (m.sprs sprDmr2) (dmr2Wce counter) then
    countFor (m.sprs sprDmr2) (watchpoint (m.sprs sprDmr1) (matchpoint c.long64 m action udata)) counter
  else 0

/-- `COUNT` after the call. -/
def newCount (counter : Bool) : BitVec 16 :=
  dwcrCountField (m.sprs (sprDwcr counter)) + BitVec.ofNat 16 (watchCount c action udata m counter)

/-- The new count of a counter is the value it is compared to. -/
def counterMatched (counter : Bool) : Bool := newCount c action udata m counter = dwcrMatchField (m.sprs (sprDwcr counter))

/-- The watchpoints that an access triggers. The last two are those of the counters. -/
def triggered (i : Nat) : Bool :=
  let dmr1 := m.sprs sprDmr1
  let wp := watchpoint dmr1 (matchpoint c.long64 m action udata)
  let wp8 := chain dmr1 8 (counterMatched c action udata m false) (wp 7)
  let wp9 := chain dmr1 9 (counterMatched c action udata m true) wp8
  if i = 9 then wp9 else if i = 8 then wp8 else wp i

/-- A triggered watchpoint is to break. -/
def breaks (i : Nat) : Bool := (m.sprs sprDmr2).getLsbD (dmr2WgbOff + i) && triggered c action udata m i

/-- What a call is to do. -/
structure WatchCall : Prop where
  count : ∀ counter, dwcrCountField ((calculateWatchpoints c action udata m).2.sprs (sprDwcr counter)) =
    newCount c action udata m counter
  value : ∀ counter, dwcrMatchField ((calculateWatchpoints c action udata m).2.sprs (sprDwcr counter)) =
    dwcrMatchField (m.sprs (sprDwcr counter))
  status : ∀ k, ((calculateWatchpoints c action udata m).2.sprs sprDmr2).getLsbD k =
    ((m.sprs sprDmr2).getLsbD k || decide (dmr2WbsOff ≤ k ∧ k < 32) && breaks c action udata m (k - dmr2WbsOff))
  result : (calculateWatchpoints c action udata m).1 = true ↔ ∃ i < 10, breaks c action udata m i = true
  others : ∀ r, r ≠ sprDwcr0 → r ≠ sprDwcr1 → r ≠ sprDmr2 → (calculateWatchpoints c action udata m).2.sprs r = m.sprs r

/-- If a matchpoint matches and a counter is enabled, the counts stay below those of the sign of a
`short int`, or the bits beside them are set already. If no matchpoint matches, the counters alone
break at no watchpoint. -/
def WatchSound : Prop :=
  if anyMatch c action udata m then
    has (m.sprs sprDmr2) dmr2Wce0 = true ∨ has (m.sprs sprDmr2) dmr2Wce1 = true →
      ∀ counter, (newCount c action udata m counter).msb = false ∨ dwcrMatchField (m.sprs (sprDwcr counter)) = BitVec.allOnes 16
  else breaks c action udata m 8 = false ∧ breaks c action udata m 9 = false

end

theorem chain_none (dmr1 : Word) (i : Nat) : chain dmr1 i false false = false := by
  unfold chain
  split <;> rfl

/-- Where no matchpoint matches, none of the first eight watchpoints is triggered. -/
theorem watchpoint_none (dmr1 : Word) {mp : Nat → Bool} (none : ∀ i < 8, mp i = false) {i : Nat} (inside : i < 8) :
    watchpoint dmr1 mp i = false := by
  induction i with
  | zero =>
    unfold watchpoint
    rw [none 0 inside, Bool.and_false]
  | succ i ih =>
    unfold watchpoint
    rw [none (i + 1) inside, ih (by omega), chain_none]

theorem countFor_none (dmr2 : Word) {wp : Nat → Bool} (none : ∀ i < 8, wp i = false) (counter : Bool) :
    countFor dmr2 wp counter = 0 := by
  unfold countFor
  rw [List.filter_eq_nil_iff.mpr, List.length_nil]
  intro i member
  rw [none i (List.mem_range.mp member)]
  exact Bool.false_ne_true

/-- The bits that the loop over the watchpoints sets. -/
theorem status_bits (hit : List Nat) (dmr2 : Word) (k : Nat) :
    (hit.foldl (fun d i => d ||| (1 : Word) <<< (dmr2WbsOff + i)) dmr2).getLsbD k =
      (dmr2.getLsbD k || decide (dmr2WbsOff ≤ k ∧ k < 32) && hit.contains (k - dmr2WbsOff)) := by
  induction hit generalizing dmr2 with
  | nil => simp
  | cons i hit ih =>
    have bit : ((1 : Word) <<< (dmr2WbsOff + i)).getLsbD k = (decide (dmr2WbsOff ≤ k ∧ k < 32) && (k - dmr2WbsOff == i)) := by
      rw [BitVec.getLsbD_shiftLeft, show (1 : Word) = 1#32 from rfl, BitVec.getLsbD_one, Bool.eq_iff_iff]
      simp
      omega
    rw [List.foldl_cons, ih, BitVec.getLsbD_or, bit, List.contains_cons, Bool.and_or_distrib_left, Bool.or_assoc]

section
variable {c : Config δ} {action : DebugAction} {udata : Word} {m : Machine δ}

theorem countWatchpoints_dwcr (wp : Nat → Bool) (counter : Bool) :
    (countWatchpoints wp m).sprs (sprDwcr counter) =
      if has (m.sprs sprDmr2) dmr2Wce0 = true ∨ has (m.sprs sprDmr2) dmr2Wce1 = true then
        countDwcr (m.sprs (sprDwcr counter)) (if has (m.sprs sprDmr2) (dmr2Wce counter) then countFor (m.sprs sprDmr2) wp counter else 0)
      else m.sprs (sprDwcr counter) := by
  unfold countWatchpoints
  simp only [Bool.or_eq_true]
  split
  · cases counter with
    | false =>
      rw [show sprDwcr false = sprDwcr0 from rfl, setSpr_there (by decide), setSpr_here]
      rfl
    | true => exact setSpr_here _ _ _
  · rfl

theorem countWatchpoints_other (wp : Nat → Bool) {r : SprNo} (zero : r ≠ sprDwcr0) (one : r ≠ sprDwcr1) :
    (countWatchpoints wp m).sprs r = m.sprs r := by
  unfold countWatchpoints
  dsimp only
  split
  · rw [setSpr_there one, setSpr_there zero]
  · rfl

theorem calculateWatchpoints_none (none : anyMatch c action udata m = false) : calculateWatchpoints c action udata m = (false, m) := by
  unfold calculateWatchpoints
  unfold anyMatch at none
  dsimp only
  rw [none]
  rfl

theorem matchpoint_none (none : anyMatch c action udata m = false) : ∀ i < 8, matchpoint c.long64 m action udata i = false := by
  intro i inside
  exact Bool.eq_false_iff.mpr fun hit => Bool.false_ne_true (none.symm.trans (List.any_eq_true.mpr ⟨i, List.mem_range.mpr inside, hit⟩))

/-- A counter after a call in which some matchpoint matches. -/
theorem dwcr_after (matched : anyMatch c action udata m = true) (counter : Bool) :
    (calculateWatchpoints c action udata m).2.sprs (sprDwcr counter) =
      if has (m.sprs sprDmr2) dmr2Wce0 = true ∨ has (m.sprs sprDmr2) dmr2Wce1 = true then
        countDwcr (m.sprs (sprDwcr counter)) (watchCount c action udata m counter)
      else m.sprs (sprDwcr counter) := by
  have apart : sprDwcr counter ≠ sprDmr2 := by cases counter <;> decide
  unfold calculateWatchpoints
  unfold anyMatch at matched
  dsimp only
  rw [matched, if_pos rfl]
  exact (setSpr_there apart _ _).trans (countWatchpoints_dwcr _ counter)

theorem others_after {r : SprNo} (zero : r ≠ sprDwcr0) (one : r ≠ sprDwcr1) (dmr2 : r ≠ sprDmr2) :
    (calculateWatchpoints c action udata m).2.sprs r = m.sprs r := by
  cases matched : anyMatch c action udata m with
  | false => rw [calculateWatchpoints_none matched]
  | true =>
    unfold calculateWatchpoints
    unfold anyMatch at matched
    dsimp only
    rw [matched, if_pos rfl]
    exact (setSpr_there dmr2 _ _).trans (countWatchpoints_other _ zero one)

theorem watchCount_off (off : ¬ (has (m.sprs sprDmr2) dmr2Wce0 = true ∨ has (m.sprs sprDmr2) dmr2Wce1 = true)) (counter : Bool) :
    watchCount c action udata m counter = 0 := by
  unfold watchCount
  refine if_neg fun on => off ?_
  cases counter
  · exact .inl on
  · exact .inr on

/-- A counter counts what its register says, with any values. -/
theorem count_after (counter : Bool) :
    dwcrCountField ((calculateWatchpoints c action udata m).2.sprs (sprDwcr counter)) = newCount c action udata m counter := by
  unfold newCount
  cases matched : anyMatch c action udata m with
  | false =>
    have none := matchpoint_none matched
    have zero : watchCount c action udata m counter = 0 := by
      unfold watchCount
      rw [countFor_none _ fun i inside => watchpoint_none _ none inside, ite_self]
    rw [calculateWatchpoints_none matched, zero]
    exact (BitVec.add_zero _).symm
  | true =>
    rw [dwcr_after matched]
    split
    · exact countDwcr_count _ _
    · next off =>
      rw [watchCount_off off]
      exact (BitVec.add_zero _).symm

/-- The value a counter is compared to stays, exactly if the sign of the count is no trouble. -/
theorem value_after_iff (matched : anyMatch c action udata m = true) (counter : Bool) :
    dwcrMatchField ((calculateWatchpoints c action udata m).2.sprs (sprDwcr counter)) = dwcrMatchField (m.sprs (sprDwcr counter)) ↔
      (has (m.sprs sprDmr2) dmr2Wce0 = true ∨ has (m.sprs sprDmr2) dmr2Wce1 = true →
        (newCount c action udata m counter).msb = false ∨ dwcrMatchField (m.sprs (sprDwcr counter)) = BitVec.allOnes 16) := by
  rw [dwcr_after matched]
  split
  · next on =>
    rw [countDwcr_match, forall_prop_of_true on]
    unfold newCount
    cases (dwcrCountField (m.sprs (sprDwcr counter)) + BitVec.ofNat 16 (watchCount c action udata m counter)).msb with
    | false => simp
    | true => simp [eq_comm]
  · next off => exact iff_of_true rfl fun on => absurd on off

/-- As long as the values stay, the code finds the watchpoints that are to break. -/
theorem broken_eq (matched : anyMatch c action udata m = true)
    (kept : ∀ counter, dwcrMatchField ((calculateWatchpoints c action udata m).2.sprs (sprDwcr counter)) =
      dwcrMatchField (m.sprs (sprDwcr counter))) :
    (calculateWatchpoints c action udata m).1 = decide ((List.range 10).filter (breaks c action udata m) ≠ []) ∧
      (calculateWatchpoints c action udata m).2.sprs sprDmr2 =
        ((List.range 10).filter (breaks c action udata m)).foldl (fun d i => d ||| (1 : Word) <<< (dmr2WbsOff + i))
          (m.sprs sprDmr2) := by
  let wp := watchpoint (m.sprs sprDmr1) (matchpoint c.long64 m action udata)
  have counters : ∀ counter, dwcrMatched ((countWatchpoints wp m).sprs (sprDwcr counter)) = counterMatched c action udata m counter := by
    intro counter
    have after : (calculateWatchpoints c action udata m).2.sprs (sprDwcr counter) = (countWatchpoints wp m).sprs (sprDwcr counter) := by
      rw [dwcr_after matched, countWatchpoints_dwcr]
      rfl
    rw [← after, dwcrMatched_eq, count_after, kept]
    rfl
  have zero := counters false
  have one := counters true
  unfold sprDwcr at zero one
  unfold calculateWatchpoints
  unfold anyMatch at matched
  dsimp only at zero one ⊢
  rw [matched, if_pos rfl, zero, one]
  exact ⟨rfl, setSpr_here _ _ _⟩

/-- A call does what it is to do, exactly if it is sound. -/
theorem watchCall_iff : WatchCall c action udata m ↔ WatchSound c action udata m := by
  unfold WatchSound
  cases matched : anyMatch c action udata m with
  | false =>
    rw [if_neg Bool.false_ne_true]
    have none := matchpoint_none matched
    constructor
    · intro call
      have result := call.result
      rw [calculateWatchpoints_none matched] at result
      have quiet : ∀ i < 10, breaks c action udata m i = false := by
        intro i inside
        exact Bool.eq_false_iff.mpr fun here => Bool.false_ne_true (result.mpr ⟨i, inside, here⟩)
      exact ⟨quiet 8 (by decide), quiet 9 (by decide)⟩
    · rintro ⟨eight, nine⟩
      have quiet : ∀ i < 10, breaks c action udata m i = false := by
        intro i inside
        by_cases last : i = 9
        · exact last ▸ nine
        by_cases counter : i = 8
        · exact counter ▸ eight
        · unfold breaks triggered
          dsimp only
          rw [if_neg last, if_neg counter, watchpoint_none _ none (by omega), Bool.and_false]
      constructor
      case count => exact fun counter => count_after counter
      case value =>
        intro counter
        rw [calculateWatchpoints_none matched]
      case status =>
        intro k
        rw [calculateWatchpoints_none matched]
        by_cases field : dmr2WbsOff ≤ k ∧ k < 32
        · have offset : dmr2WbsOff = 22 := rfl
          rw [quiet (k - dmr2WbsOff) (by omega), Bool.and_false, Bool.or_false]
        · rw [decide_eq_false field, Bool.false_and, Bool.or_false]
      case result =>
        rw [calculateWatchpoints_none matched]
        refine iff_of_false Bool.false_ne_true ?_
        rintro ⟨i, inside, here⟩
        rw [quiet i inside] at here
        cases here
      case others => exact fun r zero one dmr2 => others_after zero one dmr2
  | true =>
    rw [if_pos rfl]
    constructor
    · intro call on counter
      exact (value_after_iff matched counter).mp (call.value counter) on
    · intro sound
      have kept := fun counter => (value_after_iff matched counter).mpr fun on => sound on counter
      obtain ⟨result, status⟩ := broken_eq matched kept
      constructor
      case count => exact fun counter => count_after counter
      case value => exact kept
      case status =>
        intro k
        rw [status, status_bits]
        by_cases field : dmr2WbsOff ≤ k ∧ k < 32
        · have offset : dmr2WbsOff = 22 := rfl
          have inside : k - dmr2WbsOff ∈ List.range 10 := List.mem_range.mpr (by omega)
          congr 2
          rw [Bool.eq_iff_iff, List.contains_iff_mem, List.mem_filter]
          exact and_iff_right inside
        · rw [decide_eq_false field, Bool.false_and, Bool.false_and]
      case result =>
        rw [result, decide_eq_true_iff]
        constructor
        · intro some
          obtain ⟨i, member⟩ := List.exists_mem_of_ne_nil _ some
          obtain ⟨inside, here⟩ := List.mem_filter.mp member
          exact ⟨i, List.mem_range.mp inside, here⟩
        · rintro ⟨i, inside, here⟩
          exact List.ne_nil_of_mem (List.mem_filter.mpr ⟨List.mem_range.mpr inside, here⟩)
      case others => exact fun r zero one dmr2 => others_after zero one dmr2

end

/-! ### Sequences of accesses -/

/-- The machine after a sequence of accesses. -/
def watchRun (c : Config δ) : List (DebugAction × Word) → Machine δ → Machine δ
  | [], m => m
  | access :: accesses, m => watchRun c accesses (calculateWatchpoints c access.1 access.2 m).2

/-- Every call of the sequence has the property. -/
def EachCall (c : Config δ) (P : DebugAction → Word → Machine δ → Prop) : List (DebugAction × Word) → Machine δ → Prop
  | [], _ => True
  | access :: accesses, m => P access.1 access.2 m ∧ EachCall c P accesses (calculateWatchpoints c access.1 access.2 m).2

/-- What a counter counts in a sequence of accesses. -/
def watchCountIn (c : Config δ) (counter : Bool) : List (DebugAction × Word) → Machine δ → Nat
  | [], _ => 0
  | access :: accesses, m =>
    watchCount c access.1 access.2 m counter + watchCountIn c counter accesses (calculateWatchpoints c access.1 access.2 m).2

section
variable {c : Config δ} {accesses : List (DebugAction × Word)} {m : Machine δ}

theorem EachCall.congr {P Q : DebugAction → Word → Machine δ → Prop} (same : ∀ action udata m, P action udata m ↔ Q action udata m) :
    EachCall c P accesses m ↔ EachCall c Q accesses m := by
  induction accesses generalizing m with
  | nil => exact Iff.rfl
  | cons access accesses ih => exact and_congr (same _ _ _) ih

theorem count_run (counter : Bool) :
    dwcrCountField ((watchRun c accesses m).sprs (sprDwcr counter)) =
      dwcrCountField (m.sprs (sprDwcr counter)) + BitVec.ofNat 16 (watchCountIn c counter accesses m) := by
  induction accesses generalizing m with
  | nil => exact (BitVec.add_zero _).symm
  | cons access accesses ih =>
    unfold watchRun watchCountIn
    rw [ih, count_after, newCount, BitVec.ofNat_add, BitVec.add_assoc]

theorem value_run (sound : EachCall c (WatchSound c) accesses m) (counter : Bool) :
    dwcrMatchField ((watchRun c accesses m).sprs (sprDwcr counter)) = dwcrMatchField (m.sprs (sprDwcr counter)) := by
  induction accesses generalizing m with
  | nil => rfl
  | cons access accesses ih =>
    obtain ⟨here, later⟩ := sound
    exact (ih later).trans ((watchCall_iff.mpr here).value counter)

/-- In a sequence of accesses every call does what it is to do, exactly if every call is sound. The
counters then have counted, modulo 2^16, what the calls counted, beside the values they are compared
to. -/
theorem watchRun_iff (c : Config δ) (accesses : List (DebugAction × Word)) (m : Machine δ) :
    (EachCall c (WatchCall c) accesses m ↔ EachCall c (WatchSound c) accesses m) ∧
      (EachCall c (WatchSound c) accesses m → ∀ counter,
        dwcrCountField ((watchRun c accesses m).sprs (sprDwcr counter)) =
          dwcrCountField (m.sprs (sprDwcr counter)) + BitVec.ofNat 16 (watchCountIn c counter accesses m) ∧
        dwcrMatchField ((watchRun c accesses m).sprs (sprDwcr counter)) = dwcrMatchField (m.sprs (sprDwcr counter))) :=
  ⟨EachCall.congr fun _ _ _ => watchCall_iff, fun sound counter => ⟨count_run counter, value_run sound counter⟩⟩

end

/-- A machine that counts every fetch at zero, and has counted up to the sign of a `short int`. -/
def countingMachine : Machine Unit :=
  { Machine.bare () 0 0 with
    sprs := fun r =>
      if r = sprDcr 0 then 0x23 else if r = sprDmr2 then dmr2Wce0 else if r = sprDwcr0 then 0x12347fff else 0 }

/-- The value that the counter is compared to is lost. -/
theorem watchRun_sign :
    ¬ ∀ (c : Config Unit) (accesses : List (DebugAction × Word)) (m : Machine Unit), EachCall c (WatchCall c) accesses m := by
  intro claim
  obtain ⟨call, _⟩ := claim (Config.bare [] []) [(.instructionFetch, 0)] countingMachine
  have value := call.value false
  exact absurd value (by decide +kernel)

end Or1ksim.Cpu
