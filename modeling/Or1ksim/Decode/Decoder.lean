import Or1ksim.Decode.Cover

/-!
# The table decoder

`or1ksim_insn_decode` over the automaton of a table finds the entry that matches a word, and there
is never more than one.
-/

namespace Or1ksim.Decode

open FieldTree

/-! ### The construction ends -/

/-- The number of bits set. -/
def bits (mask : Word) : Nat := (Finset.univ.filter fun i : Fin 32 => mask.getLsbD i = true).card

theorem bits_clear {mask : Word} {first len : Nat} (low : first + len ≤ 32) (some : len ≠ 0)
    (bit : mask.getLsbD first = true) : bits (mask &&& ~~~ones first len) < bits mask := by
  apply Finset.card_lt_card
  rw [Finset.ssubset_iff_of_subset]
  · refine ⟨⟨first, by omega⟩, by simp [bit], ?_⟩
    have inside : first < 32 ∧ first < first + len := by omega
    simp [getLsbD_ones, inside]
  · intro i member
    simp only [Finset.mem_filter, BitVec.getLsbD_and, Bool.and_eq_true] at member ⊢
    exact ⟨member.1, member.2.1⟩

theorem coverCases_fuel (cover : Nat → Nat → Build → Except Exit (Option Nat × Build))
    (never : ∀ cur pass b, cover cur pass b ≠ .error .outOfFuel) (pass first len more i next cur : Nat) (b : Build) :
    coverCases cover pass first len more i next cur b ≠ .error .outOfFuel := by
  induction more generalizing i next cur b with
  | zero => simp [coverCases]
  | succ more ih =>
    simp only [coverCases]
    split
    case h_1 e call => exact fun same => never _ _ _ (call.trans (by rw [Except.error.inj same]))
    case h_2 => exact ih _ _ _ _
    case h_3 => exact ih _ _ _ _

/-- Every recursive call works on fewer bits of the mask. -/
theorem coverInsn_fuel {fuel cur pass : Nat} {mask : Word} {b : Build} (enough : bits mask < fuel) :
    coverInsn fuel cur pass mask b ≠ .error .outOfFuel := by
  induction fuel generalizing cur pass mask b with
  | zero => omega
  | succ fuel ih =>
    rw [coverInsn, coverInsnBody]
    have run := longestMatch_run ((b.inPass pass).foldl (fun m e => m &&& e.1.insnMask) mask)
    split
    case h_1 => simp
    case h_2 => simp
    case h_3 =>
      dsimp only
      generalize longestMatch ((b.inPass pass).foldl (fun m e => m &&& e.1.insnMask) mask) = best at run
      obtain ⟨first, len⟩ := best
      dsimp only [Run] at run ⊢
      split
      case isTrue => simp
      case isFalse found =>
        obtain ⟨low, set⟩ := run.resolve_left found
        have bit := (getLsbD_foldl_and (field_full_iff.mp set 0 (by omega))).1
        have fewer := bits_clear low found bit
        have loop := coverCases_fuel
          (fun cur pass b => coverInsn fuel cur pass (mask &&& ~~~ones first len) b)
          (fun _ _ _ => ih (by omega))
        split
        case h_1 e call => exact fun same => loop _ _ _ _ _ _ _ _ (call.trans (by rw [Except.error.inj same]))
        case h_2 => simp

/-- An accepted automaton is one that `cover_insn` built in the words of the array. -/
theorem coverTable_eq_ok {table : List (Pattern 32)} {heap : Nat → Nat} {r : Option Nat} {b : Build}
    (built : coverTable table heap = .ok (r, b)) :
    coverInsn coverFuel 0 0 0xFFFFFFFF (startBuild table heap) = .ok (r, b) ∧ r.getD 0 ≤ maxAutomataSize := by
  unfold coverTable at built
  split at built
  · cases built
  · next last c covered =>
    split at built
    · cases built
    · next fits =>
      obtain ⟨rfl, rfl⟩ := Prod.mk.inj (Except.ok.inj built)
      refine ⟨covered, ?_⟩
      cases last with
      | none => exact Nat.zero_le _
      | some last => simpa using fits

theorem coverTable_ends (table : List (Pattern 32)) (heap : Nat → Nat) :
    (∃ r b, coverTable table heap = .ok (r, b)) ∨ coverTable table heap = .error .tooLarge ∨
      ∃ ninstr mask, coverTable table heap = .error (.matchMask ninstr mask) := by
  have all : bits 0xFFFFFFFF < coverFuel := by decide
  unfold coverTable
  cases outcome : coverInsn coverFuel 0 0 0xFFFFFFFF (startBuild table heap) with
  | ok result =>
    obtain ⟨last, b⟩ := result
    dsimp only
    split
    · exact .inr (.inl rfl)
    · exact .inl ⟨last, b, rfl⟩
  | error e =>
    cases e with
    | matchMask ninstr mask => exact .inr (.inr ⟨ninstr, mask, rfl⟩)
    | tooLarge => exact .inr (.inl rfl)
    | outOfFuel => exact absurd outcome (coverInsn_fuel all)

/-! ### Words of the automaton -/

theorem leaf_word {i : Nat} (small : i < 2 ^ 31) :
    (leafFlag ||| i) &&& leafFlag ≠ 0 ∧ leafIndex (leafFlag ||| i) = i := by
  have sum : leafFlag ||| i = 2 ^ 31 + i := by
    have := Nat.two_pow_add_eq_or_of_lt small 1
    simpa [leafFlag] using this.symm
  constructor
  · intro zero
    have bit := congrArg (Nat.testBit · 31) zero
    rw [Nat.testBit_and, Nat.testBit_or, Nat.zero_testBit, show leafFlag = 2 ^ 31 from rfl,
      Nat.testBit_two_pow_self] at bit
    simp at bit
  · rw [leafIndex, sum]
    have mask : (0x7FFFFFFF : Nat) = 2 ^ 31 - 1 := by norm_num
    rw [mask, Nat.and_two_pow_sub_one_eq_mod, Nat.add_mod_left, Nat.mod_eq_of_lt small]

theorem node_word {first : Nat} (small : first < 32) : first &&& leafFlag = 0 := by
  have low : first < 2 ^ 31 := by omega
  apply Nat.eq_of_testBit_eq
  intro k
  rw [Nat.testBit_and, Nat.zero_testBit, show leafFlag = 2 ^ 31 from rfl, Nat.testBit_two_pow]
  by_cases top : 31 = k
  · subst top
    rw [Nat.testBit_lt_two_pow low, Bool.false_and]
  · simp [top]

/-! ### Decoding -/

/-- The result of the walk, after the final check. -/
def checked (pat : Nat → Pattern 32) (w : Word) : Option Nat → Int
  | none => -1
  | some i => if (pat i).Matches w then i else -1

theorem insnDecodeFrom_encodes {pat : Nat → Pattern 32} {b : Build} {lo hi depth fuel off : Nat}
    {t : BitTree Nat} {w : Word} (encodes : Encodes b.automata lo hi t off) (shallow : t.Shallow depth)
    (enough : depth < fuel)
    (inTable : ∀ i, t.walk w = some i → ∃ e, b.ti[i]? = some e ∧ e.pattern = pat i) :
    insnDecodeFrom b w fuel off = some (checked pat w (t.walk w)) := by
  induction t generalizing depth fuel off with
  | invalid => exact encodes.elim
  | leaf i =>
    obtain ⟨fuel, rfl⟩ : ∃ k, fuel = k + 1 := ⟨fuel - 1, by omega⟩
    obtain ⟨_, _, small, word⟩ := encodes
    obtain ⟨flag, index⟩ := leaf_word small
    obtain ⟨e, entry, pattern⟩ := inTable i rfl
    rw [insnDecodeFrom, word, if_neg flag, index]
    simp only [entry, BitTree.walk, checked, ← pattern]
    exact (apply_ite some _ _ _).symm
  | node first len child ih =>
    obtain ⟨fuel, rfl⟩ : ∃ k, fuel = k + 1 := ⟨fuel - 1, by omega⟩
    cases depth with
    | zero => exact shallow.elim
    | succ depth =>
      obtain ⟨_, _, small, shift, mask, cases⟩ := encodes
      have low := field_lt first len w
      have index : (w.toNat >>> b.automata off) &&& b.automata (off + 1) = field first len w := by
        rw [shift, mask, field]
      rw [insnDecodeFrom, if_pos (by rw [shift]; exact node_word small)]
      dsimp only
      rw [index, BitTree.walk]
      rcases cases _ low with ⟨zero, absent⟩ | ⟨nonzero, inner⟩
      · rw [if_pos zero, absent]
        rfl
      · rw [if_neg nonzero]
        exact ih _ inner (shallow _ low) (by omega) inTable

section
variable {table : List (Pattern 32)} {heap : Nat → Nat} {r : Option Nat} {b : Build}

/-- The pattern of an entry. -/
def patternAt (table : List (Pattern 32)) (j : Nat) : Pattern 32 := (table[j]?).getD ⟨0, 0⟩

theorem startBuild_getElem? (table : List (Pattern 32)) (heap : Nat → Nat) (j : Nat) :
    (startBuild table heap).ti[j]? =
      (table[j]?).map fun p => { insn := p.value, insnMask := p.mask, inPass := 0 } := by
  simp [startBuild, tempInsns]

theorem startBuild_member (table : List (Pattern 32)) (heap : Nat → Nat) (j : Nat) :
    Member (startBuild table heap) 0 j ↔ j < table.length := by
  constructor
  · rintro ⟨e, found, _⟩
    have inside := (List.getElem?_eq_some_iff.mp found).1
    simpa [startBuild, tempInsns] using inside
  · intro inside
    refine ⟨{ insn := table[j].value, insnMask := table[j].mask, inPass := 0 }, ?_, rfl⟩
    rw [startBuild_getElem?, List.getElem?_eq_getElem inside, Option.map_some]

theorem startBuild_table (small : table.length < 2 ^ 31) : Table (patternAt table) (startBuild table heap) := by
  refine ⟨fun j e found => ?_, fun j e found => ?_, by simpa [startBuild, tempInsns] using small⟩
  · rw [startBuild_getElem?] at found
    obtain ⟨p, entry, rfl⟩ := Option.map_eq_some_iff.mp found
    rw [patternAt, entry]
    rfl
  · rw [startBuild_getElem?] at found
    obtain ⟨p, entry, rfl⟩ := Option.map_eq_some_iff.mp found
    exact Nat.le_refl _

/-- What the construction leaves for a table that it accepts: a tree that tells the entries apart. -/
structure Automaton (table : List (Pattern 32)) (b : Build) (t : BitTree Nat) : Prop where
  encodes : ∃ hi, Encodes b.automata 0 hi t 0
  separates : Separates (patternAt table) t (· < table.length)
  shallow : t.Shallow coverFuel
  entries : ∀ j < table.length, ∃ e : TempInsn, b.ti[j]? = some e ∧ e.pattern = patternAt table j

/-- Nothing is written behind the array. -/
theorem coverTable_inside (small : table.length < 2 ^ 31) (built : coverTable table heap = .ok (r, b)) (a : Nat)
    (behind : maxAutomataSize ≤ a) : b.automata a = heap a := by
  obtain ⟨covered, fits⟩ := coverTable_eq_ok built
  exact (coverInsn_covered covered (startBuild_table small) (Nat.le_refl _)).outside a (.inr (fits.trans behind))

theorem coverTable_automaton (small : table.length < 2 ^ 31) (nonempty : table ≠ [])
    (built : coverTable table heap = .ok (r, b)) : ∃ t, Automaton table b t := by
  have start : Table (patternAt table) (startBuild table heap) := startBuild_table small
  have covered := coverInsn_covered (coverTable_eq_ok built).1 start (Nat.le_refl _)
  cases r with
  | none =>
    have first := (startBuild_member table heap 0).mpr (List.length_pos_of_ne_nil nonempty)
    exact absurd first (covered.absent rfl 0)
  | some last =>
    obtain ⟨_, t, encodes, separates, shallow⟩ := covered.tree last rfl
    refine ⟨t, ⟨last, encodes⟩, ?_, shallow, fun j inside => ?_⟩
    · rwa [show Member (startBuild table heap) 0 = (· < table.length) from
        funext fun j => propext (startBuild_member table heap j)] at separates
    · obtain ⟨e, found, _⟩ := (startBuild_member table heap j).mpr inside
      obtain ⟨e', after, pattern, _⟩ := covered.moved.marks j e found
      exact ⟨e', after, by rw [pattern, start.patterns j e found]⟩

theorem insnDecode_automaton {t : BitTree Nat} (automaton : Automaton table b t) {fuel : Nat}
    (enough : coverFuel < fuel) (w : Word) :
    insnDecode b fuel w = some (checked (patternAt table) w (t.walk w)) := by
  obtain ⟨hi, encodes⟩ := automaton.encodes
  exact insnDecodeFrom_encodes encodes automaton.shallow enough fun i found =>
    automaton.entries i (walk_member automaton.separates found)

/-- What decoding `w` should give: the entry that matches, or -1 when there is none. -/
structure Decodes (table : List (Pattern 32)) (w : Word) (result : Option Int) : Prop where
  entry : ∀ i : Nat, result = some (i : Int) ↔ ∃ p, table[i]? = some p ∧ p.Matches w
  invalid : result = some (-1) ↔ ∀ p ∈ table, ¬ p.Matches w
  unique : ∀ (i j : Nat) p q, table[i]? = some p → table[j]? = some q → p.Matches w → q.Matches w → i = j

theorem patternAt_of_getElem? {j : Nat} {p : Pattern 32} (entry : table[j]? = some p) :
    patternAt table j = p ∧ j < table.length :=
  ⟨by rw [patternAt, entry]; rfl, (List.getElem?_eq_some_iff.mp entry).1⟩

theorem decodes_checked {t : BitTree Nat} (separates : Separates (patternAt table) t (· < table.length)) (w : Word) :
    Decodes table w (some (checked (patternAt table) w (t.walk w))) := by
  have reached : ∀ (i : Nat) p, table[i]? = some p → p.Matches w → t.walk w = some i := by
    intro i p entry hit
    obtain ⟨pattern, inside⟩ := patternAt_of_getElem? entry
    exact walk_of_matches separates inside (by rw [pattern]; exact hit)
  have found : ∀ i, t.walk w = some i → ∃ p, table[i]? = some p ∧ patternAt table i = p := by
    intro i walk
    have inside := walk_member separates walk
    exact ⟨_, List.getElem?_eq_getElem inside, (patternAt_of_getElem? (List.getElem?_eq_getElem inside)).1⟩
  refine ⟨fun i => ⟨fun result => ?_, ?_⟩, ⟨fun result p member hit => ?_, fun none => ?_⟩, ?_⟩
  · cases walk : t.walk w with
    | none => simp [walk, checked] at result
    | some k =>
      obtain ⟨p, entry, pattern⟩ := found k walk
      rw [walk, checked, pattern] at result
      by_cases hit : p.Matches w
      · rw [if_pos hit] at result
        obtain rfl : k = i := by simpa using result
        exact ⟨p, entry, hit⟩
      · simp [hit] at result
  · rintro ⟨p, entry, hit⟩
    rw [reached i p entry hit, checked, (patternAt_of_getElem? entry).1, if_pos hit]
  · obtain ⟨i, inside, rfl⟩ := List.mem_iff_getElem.mp member
    have entry := List.getElem?_eq_getElem inside
    rw [reached i _ entry hit, checked, (patternAt_of_getElem? entry).1, if_pos hit] at result
    simp at result
  · cases walk : t.walk w with
    | none => rfl
    | some k =>
      obtain ⟨p, entry, pattern⟩ := found k walk
      rw [checked, pattern, if_neg (none p (List.mem_of_getElem? entry))]
  · intro i j p q left right hitLeft hitRight
    have first := reached i p left hitLeft
    rw [reached j q right hitRight] at first
    exact (Option.some.inj first).symm

/-- For every table with an entry that `cover_insn` accepts and whose automaton fits into the array, whatever that held before,
nothing is written behind the array, and the decoder returns the entry that matches the word, or -1 when there is none. -/
theorem insnDecode_correct (table : List (Pattern 32)) (heap : Nat → Nat) (small : table.length < 2 ^ 31)
    (nonempty : table ≠ [])
    (accepted : ∀ ninstr mask, coverTable table heap ≠ .error (.matchMask ninstr mask))
    (fits : coverTable table heap ≠ .error .tooLarge) :
    ∃ r b, coverTable table heap = .ok (r, b) ∧ (∀ a, maxAutomataSize ≤ a → b.automata a = heap a) ∧
      ∀ fuel, coverFuel < fuel → ∀ w, Decodes table w (insnDecode b fuel w) := by
  rcases coverTable_ends table heap with ⟨r, b, built⟩ | large | ⟨ninstr, mask, refused⟩
  · obtain ⟨t, automaton⟩ := coverTable_automaton small nonempty built
    refine ⟨r, b, built, coverTable_inside small built, fun fuel enough w => ?_⟩
    rw [insnDecode_automaton automaton enough]
    exact decodes_checked automaton.separates w
  · exact absurd large fits
  · exact absurd refused (accepted ninstr mask)

theorem ne_error_of_isOk (ok : (coverTable table heap).isOk = true) (e : Exit) : coverTable table heap ≠ .error e := by
  intro refused
  rw [refused] at ok
  cases ok

end

/-- `l.movhi` and `l.macrc`, which differ in bit 16. -/
theorem insnDecode_correct_movhi_macrc :
    ∃ r b, coverTable [⟨0xfc010000, 0x18000000⟩, ⟨0xfc01ffff, 0x18010000⟩] (fun _ => 7) = .ok (r, b) ∧
      (∀ a, maxAutomataSize ≤ a → b.automata a = 7) ∧ ∀ fuel, coverFuel < fuel → ∀ w,
        Decodes [⟨0xfc010000, 0x18000000⟩, ⟨0xfc01ffff, 0x18010000⟩] w (insnDecode b fuel w) :=
  have ok : (coverTable [⟨0xfc010000, 0x18000000⟩, ⟨0xfc01ffff, 0x18010000⟩] fun _ => 7).isOk = true := by decide +kernel
  insnDecode_correct _ _ (by decide) (by decide) (fun _ _ => ne_error_of_isOk ok _) (ne_error_of_isOk ok _)

def exitOf {α : Type} : Except Exit α → Option Exit
  | .error e => some e
  | .ok _ => none

/-- Six entries that all fix 28 bits: each is told from the others seven bits at a time. -/
def wideTable : List (Pattern 32) :=
  [0x0000000, 0x0000001, 0x0000002, 0x0200000, 0x0200001, 0x0200002].map fun insn => ⟨0x0fffffff, insn⟩

/-- For a table without entries nothing is written to the array: what `malloc` left there is taken for an automaton. And there are
tables that are accepted but for their size. -/
theorem insnDecode_empty_or_large :
    (¬ ∀ (table : List (Pattern 32)) (heap : Nat → Nat), table.length < 2 ^ 31 →
      (∀ p ∈ table, p.value &&& p.mask = p.value) →
      (∀ ninstr mask, coverTable table heap ≠ .error (.matchMask ninstr mask)) → coverTable table heap ≠ .error .tooLarge →
      ∃ r b, coverTable table heap = .ok (r, b) ∧
        ∀ fuel, coverFuel < fuel → ∀ w, Decodes table w (insnDecode b fuel w)) ∧
    ¬ ∀ (table : List (Pattern 32)) (heap : Nat → Nat), table.length < 2 ^ 31 → table ≠ [] →
      (∀ p ∈ table, p.value &&& p.mask = p.value) →
      (∀ ninstr mask, coverTable table heap ≠ .error (.matchMask ninstr mask)) →
      ∃ r b, coverTable table heap = .ok (r, b) ∧
        ∀ fuel, coverFuel < fuel → ∀ w, Decodes table w (insnDecode b fuel w) := by
  constructor
  · intro claim
    have ok : (coverTable [] fun _ => leafFlag).isOk = true := by decide +kernel
    obtain ⟨r, b, built, decodes⟩ :=
      claim [] (fun _ => leafFlag) (by decide) (by simp) (fun _ _ => ne_error_of_isOk ok _) (ne_error_of_isOk ok _)
    obtain ⟨-, rfl⟩ := Prod.mk.inj (Except.ok.inj ((rfl : coverTable [] _ = .ok (none, _)).symm.trans built))
    have stuck : insnDecode (startBuild [] fun _ => leafFlag) 34 0 = none := by decide +kernel
    have result := (decodes 34 (by decide) 0).invalid.mpr (by simp)
    rw [stuck] at result
    cases result
  · intro claim
    have large : exitOf (coverTable wideTable fun _ => 0) = some .tooLarge := by decide +kernel
    have refused {ninstr : Nat} {mask : Word} : coverTable wideTable (fun _ => 0) ≠ .error (.matchMask ninstr mask) := by
      intro other
      rw [other] at large
      cases large
    obtain ⟨r, b, built, _⟩ := claim wideTable (fun _ => 0) (by decide) (by decide) (by decide) fun _ _ => refused
    rw [built] at large
    cases large

end Or1ksim.Decode
