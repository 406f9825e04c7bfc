import Or1ksim.Decode.Automata

/-!
# What `cover_insn` builds

The words from `cur` to the returned pointer hold a tree that tells the entries of the pass apart.
The pass marks are reused across the recursion; what makes that sound is that a new pass is larger
than every mark, and that a call changes only the marks of its own pass.
-/

namespace Or1ksim.Decode

open FieldTree

/-! ### Trees in the array -/

/-- The words of `mem` from `lo` to `hi` hold the tree, with its root at the given offset. -/
def Encodes (mem : Nat → Nat) (lo hi : Nat) : BitTree Nat → Nat → Prop
  | .invalid, _ => False
  | .leaf i, off => lo ≤ off ∧ off < hi ∧ i < 2 ^ 31 ∧ mem off = leafFlag ||| i
  | .node first len child, off =>
    lo ≤ off ∧ off + 2 + 2 ^ len ≤ hi ∧ first < 32 ∧ mem off = first ∧ mem (off + 1) = 2 ^ len - 1 ∧
      ∀ v < 2 ^ len, (mem (off + 2 + v) = 0 ∧ child v = .invalid) ∨
        (mem (off + 2 + v) ≠ 0 ∧ Encodes mem lo hi (child v) (mem (off + 2 + v)))

/-- A word of the array that points to a tree, or to none. -/
def Points (mem : Nat → Nat) (lo hi : Nat) (t : BitTree Nat) (addr : Nat) : Prop :=
  (mem addr = 0 ∧ t = .invalid) ∨ (mem addr ≠ 0 ∧ Encodes mem lo hi t (mem addr))

theorem Encodes.frame {mem mem' : Nat → Nat} {lo hi lo' hi' : Nat} {t : BitTree Nat} {off : Nat}
    (encodes : Encodes mem lo hi t off) (low : lo' ≤ lo) (high : hi ≤ hi')
    (same : ∀ a, lo ≤ a → a < hi → mem' a = mem a) : Encodes mem' lo' hi' t off := by
  induction t generalizing off with
  | invalid => exact encodes
  | leaf i =>
    obtain ⟨above, below, small, word⟩ := encodes
    exact ⟨by omega, by omega, small, by rw [same off above below, word]⟩
  | node first len child ih =>
    obtain ⟨above, below, small, shift, mask, cases⟩ := encodes
    have positive := Nat.two_pow_pos len
    refine ⟨by omega, by omega, small, ?_, ?_, ?_⟩
    · rw [same off above (by omega), shift]
    · rw [same (off + 1) (by omega) (by omega), mask]
    · intro v inside
      rw [same (off + 2 + v) (by omega) (by omega)]
      rcases cases v inside with absent | ⟨present, inner⟩
      · exact .inl absent
      · exact .inr ⟨present, ih v inner⟩

/-! ### Pass marks -/

def Member (b : Build) (pass j : Nat) : Prop := ∃ e : TempInsn, b.ti[j]? = some e ∧ e.inPass = pass

/-- The table under construction: its patterns are fixed, and no mark lies above the current pass. -/
structure Table (pat : Nat → Pattern 32) (b : Build) : Prop where
  patterns : ∀ (j : Nat) (e : TempInsn), b.ti[j]? = some e → e.pattern = pat j
  bounded : ∀ (j : Nat) (e : TempInsn), b.ti[j]? = some e → e.inPass ≤ b.curpass
  small : b.ti.length < 2 ^ 31

/-- Marks of `pass` have been raised above the current pass, and no other mark has changed. -/
structure Moved (pass : Nat) (b b' : Build) : Prop where
  curpass : b.curpass ≤ b'.curpass
  length : b'.ti.length = b.ti.length
  marks : ∀ (j : Nat) (e : TempInsn), b.ti[j]? = some e → ∃ e' : TempInsn, b'.ti[j]? = some e' ∧ e'.pattern = e.pattern ∧
    (e'.inPass = e.inPass ∨ (e.inPass = pass ∧ b.curpass < e'.inPass ∧ e'.inPass ≤ b'.curpass))

theorem Moved.refl (pass : Nat) (b : Build) : Moved pass b b :=
  ⟨Nat.le_refl _, rfl, fun _ e found => ⟨e, found, rfl, .inl rfl⟩⟩

theorem Moved.back {pass : Nat} {b b' : Build} (moved : Moved pass b b') {j : Nat} {e' : TempInsn}
    (found : b'.ti[j]? = some e') : ∃ e : TempInsn, b.ti[j]? = some e ∧ e'.pattern = e.pattern ∧
      (e'.inPass = e.inPass ∨ (e.inPass = pass ∧ b.curpass < e'.inPass ∧ e'.inPass ≤ b'.curpass)) := by
  have inside : j < b.ti.length := by
    rw [← moved.length]
    exact (List.getElem?_eq_some_iff.mp found).1
  obtain ⟨f, same, step⟩ := moved.marks j _ (List.getElem?_eq_getElem inside)
  rw [found] at same
  obtain rfl := Option.some.inj same
  exact ⟨_, List.getElem?_eq_getElem inside, step⟩

theorem Moved.table {pat : Nat → Pattern 32} {pass : Nat} {b b' : Build} (moved : Moved pass b b')
    (table : Table pat b) : Table pat b' := by
  refine ⟨fun j e' found => ?_, fun j e' found => ?_, by rw [moved.length]; exact table.small⟩
  · obtain ⟨e, old, same, _⟩ := moved.back found
    rw [same, table.patterns j e old]
  · obtain ⟨e, old, _, mark⟩ := moved.back found
    have := table.bounded j e old
    have := moved.curpass
    omega

/-- Marks raised in a pass of its own are marks raised in the pass it was opened for. -/
theorem Moved.trans {pat : Nat → Pattern 32} {pass inner : Nat} {b c d : Build} (table : Table pat b)
    (first : Moved pass b c) (second : Moved inner c d) (opened : inner = pass ∨ b.curpass < inner) :
    Moved pass b d := by
  refine ⟨first.curpass.trans second.curpass, second.length.trans first.length, fun j e found => ?_⟩
  obtain ⟨f, mid, samePattern, mark⟩ := first.marks j e found
  obtain ⟨g, last, samePattern', mark'⟩ := second.marks j f mid
  refine ⟨g, last, samePattern'.trans samePattern, ?_⟩
  have := table.bounded j e found
  have := first.curpass
  have := second.curpass
  omega

theorem Moved.member_iff {pass other : Nat} {b b' : Build} (moved : Moved pass b b')
    (distinct : other ≠ pass) (old : other ≤ b.curpass) (j : Nat) :
    Member b' other j ↔ Member b other j := by
  constructor
  · rintro ⟨e', found, mark⟩
    obtain ⟨e, before, _, same⟩ := moved.back found
    exact ⟨e, before, by omega⟩
  · rintro ⟨e, found, mark⟩
    obtain ⟨e', after, _, same⟩ := moved.marks j e found
    exact ⟨e', after, by omega⟩

@[simp] theorem write_ti (b : Build) (offset value : Nat) : (b.write offset value).ti = b.ti := rfl

@[simp] theorem write_curpass (b : Build) (offset value : Nat) : (b.write offset value).curpass = b.curpass := rfl

theorem write_automata (b : Build) (offset value a : Nat) :
    (b.write offset value).automata a = if a = offset then value else b.automata a := rfl

theorem moved_write {pass : Nat} {b b' : Build} (moved : Moved pass b b') (offset value : Nat) :
    Moved pass b (b'.write offset value) := ⟨moved.curpass, moved.length, moved.marks⟩

theorem openPass_ti (b : Build) (pass first len i j : Nat) :
    (b.openPass pass first len i).ti[j]? = b.ti[j]?.map fun e =>
      if e.inPass = pass ∧ field first len e.insn = i ∧ field first len e.insnMask = 2 ^ len - 1
      then { e with inPass := b.curpass + 1 } else e := by
  simp [Build.openPass]

theorem openPass_moved (b : Build) (pass first len i : Nat) : Moved pass b (b.openPass pass first len i) := by
  refine ⟨Nat.le_succ _, by simp [Build.openPass], fun j e found => ?_⟩
  rw [openPass_ti, found, Option.map_some]
  refine ⟨_, rfl, ?_⟩
  by_cases hit : e.inPass = pass ∧ field first len e.insn = i ∧ field first len e.insnMask = 2 ^ len - 1
  · rw [if_pos hit]
    exact ⟨rfl, .inr ⟨hit.1, Nat.lt_succ_self _, Nat.le_refl _⟩⟩
  · rw [if_neg hit]
    exact ⟨rfl, .inl rfl⟩

section
variable {pat : Nat → Pattern 32} {S : Nat → Prop} {b : Build} {pass first len i : Nat}

/-- The entries still in `pass` when the cases from `i` on are left. -/
def Left (pat : Nat → Pattern 32) (S : Nat → Prop) (b : Build) (pass first len i : Nat) : Prop :=
  ∀ j, Member b pass j ↔ S j ∧ i ≤ field first len (pat j).value

theorem openPass_new (table : Table pat b) (left : Left pat S b pass first len i)
    (full : ∀ j, S j → field first len (pat j).mask = 2 ^ len - 1) (j : Nat) :
    Member (b.openPass pass first len i) (b.curpass + 1) j ↔
      S j ∧ field first len (pat j).value = i := by
  constructor
  · rintro ⟨e', found, mark⟩
    rw [openPass_ti] at found
    obtain ⟨e, old, rfl⟩ := Option.map_eq_some_iff.mp found
    have low := table.bounded j e old
    by_cases hit : e.inPass = pass ∧ field first len e.insn = i ∧ field first len e.insnMask = 2 ^ len - 1
    · have pattern := table.patterns j e old
      refine ⟨((left j).mp ⟨e, old, hit.1⟩).1, ?_⟩
      rw [← pattern]
      exact hit.2.1
    · rw [if_neg hit] at mark
      omega
  · rintro ⟨member, value⟩
    obtain ⟨e, old, mark⟩ := (left j).mpr ⟨member, by omega⟩
    have pattern := table.patterns j e old
    have mask := full j member
    rw [← pattern] at mask value
    refine ⟨{ e with inPass := b.curpass + 1 }, ?_, rfl⟩
    rw [openPass_ti, old, Option.map_some, if_pos ⟨mark, value, mask⟩]

theorem openPass_left (table : Table pat b) (left : Left pat S b pass first len i)
    (full : ∀ j, S j → field first len (pat j).mask = 2 ^ len - 1) (current : pass ≤ b.curpass) :
    Left pat S (b.openPass pass first len i) pass first len (i + 1) := by
  intro j
  constructor
  · rintro ⟨e', found, mark⟩
    rw [openPass_ti] at found
    obtain ⟨e, old, rfl⟩ := Option.map_eq_some_iff.mp found
    by_cases hit : e.inPass = pass ∧ field first len e.insn = i ∧ field first len e.insnMask = 2 ^ len - 1
    · rw [if_pos hit] at mark
      dsimp only at mark
      omega
    · rw [if_neg hit] at mark
      obtain ⟨member, above⟩ := (left j).mp ⟨e, old, mark⟩
      have pattern := table.patterns j e old
      have mask := full j member
      rw [← pattern] at mask above ⊢
      have other : field first len e.pattern.value ≠ i := fun value => hit ⟨mark, value, mask⟩
      exact ⟨member, by omega⟩
  · rintro ⟨member, above⟩
    obtain ⟨e, old, mark⟩ := (left j).mpr ⟨member, by omega⟩
    have pattern := table.patterns j e old
    rw [← pattern] at above
    have other : ¬ (e.inPass = pass ∧ field first len e.insn = i ∧ field first len e.insnMask = 2 ^ len - 1) := by
      rintro ⟨_, value, _⟩
      change i + 1 ≤ field first len e.insn at above
      omega
    exact ⟨e, by rw [openPass_ti, old, Option.map_some, if_neg other], mark⟩

end

/-! ### The construction -/

/-- What a call of `cover_insn` leaves behind. -/
structure Covered (pat : Nat → Pattern 32) (depth cur pass : Nat) (b : Build) (r : Option Nat) (b' : Build) :
    Prop where
  moved : Moved pass b b'
  outside : ∀ a, a < cur ∨ r.getD cur ≤ a → b'.automata a = b.automata a
  absent : r = none → ∀ j, ¬ Member b pass j
  tree : ∀ last, r = some last → cur < last ∧ ∃ t, Encodes b'.automata cur last t cur ∧
    Separates pat t (Member b pass) ∧ t.Shallow depth

/-- The children that the loop over the cases has built for the cases from `i` on, with the pointers to them from `next` on. -/
structure Children (pat : Nat → Pattern 32) (S : Nat → Prop) (pass first len depth more i next cur last : Nat) (b b' : Build) :
    Prop where
  moved : Moved pass b b'
  grown : cur ≤ last
  kept : ∀ a, a < cur ∨ last ≤ a → a < next ∨ next + more ≤ a → b'.automata a = b.automata a
  trees : ∃ child : Nat → BitTree Nat, ∀ k < more,
    Points b'.automata cur last (child (i + k)) (next + k) ∧
    Separates pat (child (i + k)) (fun j => S j ∧ field first len (pat j).value = i + k) ∧
    (child (i + k)).Shallow depth

section
variable {cover : Nat → Nat → Build → Except Exit (Option Nat × Build)} {pat : Nat → Pattern 32} {S : Nat → Prop}
  {pass first len depth more i next cur last : Nat} {b b' : Build}

/-- Case `i` has got the tree `t` up to `after`, where the loop goes on. -/
theorem Children.cons {c : Build} {after word : Nat} {t : BitTree Nat}
    (children : Children pat S pass first len depth more (i + 1) (next + 1) after last (c.write next word) b')
    (inner : Moved pass b c) (outside : ∀ a, a < cur ∨ after ≤ a → c.automata a = b.automata a) (forward : cur ≤ after)
    (space : next + (more + 1) ≤ cur) (points : (word = 0 ∧ t = .invalid) ∨ (word ≠ 0 ∧ Encodes c.automata cur after t word))
    (separates : Separates pat t fun j => S j ∧ field first len (pat j).value = i) (shallow : t.Shallow depth) (table : Table pat b) :
    Children pat S pass first len depth (more + 1) i next cur last b b' := by
  obtain ⟨moved, grown, kept, child, built⟩ := children
  have pointer : b'.automata next = word := by
    rw [kept next (.inl (by omega)) (.inl (Nat.lt_succ_self _)), write_automata, if_pos rfl]
  have behind (a : Nat) (before : a < after) (own : cur ≤ a) : b'.automata a = c.automata a := by
    rw [kept a (.inl before) (by omega), write_automata, if_neg (by omega)]
  refine ⟨(moved_write inner next word).trans table moved (.inl rfl), forward.trans grown, fun a far apart => ?_,
    fun v => if v = i then t else child v, fun k low => ?_⟩
  · rw [kept a (by omega) (by omega), write_automata, if_neg (by omega), outside a (by omega)]
  · cases k with
    | zero =>
      simp only [Nat.add_zero, if_pos]
      refine ⟨?_, separates, shallow⟩
      rcases points with ⟨rfl, rfl⟩ | ⟨nonzero, encodes⟩
      · exact .inl ⟨pointer, rfl⟩
      · refine .inr ⟨by rw [pointer]; exact nonzero, ?_⟩
        rw [pointer]
        exact encodes.frame (Nat.le_refl _) grown fun a above inside => behind a inside above
    | succ k =>
      have index : i + (k + 1) = i + 1 + k := by omega
      have address : next + (k + 1) = next + 1 + k := by omega
      obtain ⟨pointsTo, separates', shallow'⟩ := built k (by omega)
      simp only [index, address, if_neg (show ¬ i + 1 + k = i by omega)]
      refine ⟨?_, separates', shallow'⟩
      rcases pointsTo with absent | ⟨nonzero, encodes⟩
      · exact .inl absent
      · exact .inr ⟨nonzero, encodes.frame forward (Nat.le_refl _) fun _ _ _ => rfl⟩

theorem coverCases_covered
    (covers : ∀ cur pass b r b', Table pat b → pass ≤ b.curpass → cover cur pass b = .ok (r, b') →
      Covered pat depth cur pass b r b')
    (full : ∀ j, S j → field first len (pat j).mask = 2 ^ len - 1)
    (built : coverCases cover pass first len more i next cur b = .ok (last, b'))
    (table : Table pat b) (current : pass ≤ b.curpass) (space : next + more ≤ cur) (positive : 0 < cur)
    (left : Left pat S b pass first len i) : Children pat S pass first len depth more i next cur last b b' := by
  induction more generalizing i next cur b with
  | zero =>
    simp only [coverCases, Except.ok.injEq, Prod.mk.injEq] at built
    obtain ⟨rfl, rfl⟩ := built
    exact ⟨Moved.refl _ _, Nat.le_refl _, fun _ _ _ => rfl, fun _ => .invalid, by simp⟩
  | succ more ih =>
    have opened := openPass_moved b pass first len i
    have openedTable := opened.table table
    have openedLeft := openPass_left table left full current
    simp only [coverCases] at built
    cases call : cover cur (b.openPass pass first len i).curpass (b.openPass pass first len i) with
    | error e => rw [call] at built; cases built
    | ok result =>
      obtain ⟨r, c⟩ := result
      have covered := covers cur _ _ _ _ openedTable (Nat.le_refl _) call
      have fresh : (b.openPass pass first len i).curpass = b.curpass + 1 := rfl
      have inner : Moved pass b c := opened.trans table covered.moved (.inr (Nat.lt_succ_self _))
      have innerLeft : Left pat S c pass first len (i + 1) := fun j =>
        (covered.moved.member_iff (by omega) (by omega) j).trans (openedLeft j)
      have members (j : Nat) := openPass_new table left full j
      rw [call] at built
      cases r with
      | none =>
        have rest := ih built ((moved_write inner next 0).table table) (current.trans inner.curpass) (by omega) positive innerLeft
        exact rest.cons inner covered.outside (Nat.le_refl _) space (.inl ⟨rfl, rfl⟩)
          (fun j some_ => covered.absent rfl j ((members j).mpr some_)) trivial table
      | some c' =>
        obtain ⟨forward, t, encodes, separates, shallow⟩ := covered.tree c' rfl
        have rest := ih built ((moved_write inner next cur).table table) (current.trans inner.curpass) (by omega) (by omega) innerLeft
        refine rest.cons inner covered.outside (Nat.le_of_lt forward) space (.inr ⟨by omega, encodes⟩) ?_ shallow table
        rwa [show Member (b.openPass pass first len i) (b.openPass pass first len i).curpass =
          fun j => S j ∧ field first len (pat j).value = i from funext fun j => propext (members j)] at separates

end

/-! ### The longest run -/

/-- A run of bits that are set in the mask, or no run. -/
def Run (curMask : Word) (best : Nat × Nat) : Prop :=
  best.2 = 0 ∨ (best.1 + best.2 ≤ 32 ∧ field best.1 best.2 curMask = 2 ^ best.2 - 1)

theorem extendMatch_run {curMask : Word} {i : Nat} {more len : Nat} {best : Nat × Nat}
    (fits : i + len + more ≤ 33) (run : Run curMask best) :
    Run curMask (extendMatch curMask i more len best) := by
  induction more generalizing len best with
  | zero => exact run
  | succ more ih =>
    rw [extendMatch]
    split
    case isTrue full => exact ih (by omega) (.inr ⟨by show i + len ≤ 32; omega, full⟩)
    case isFalse => exact run

theorem longestMatch_run (curMask : Word) : Run curMask (longestMatch curMask) := by
  have fold : ∀ (is : List Nat) best, Run curMask best → (∀ i ∈ is, i < 32) →
      Run curMask (is.foldl (fun best i =>
        extendMatch curMask i (min maxLen (33 - i) - (best.2 + 1)) (best.2 + 1) best) best) := by
    intro is
    induction is with
    | nil => exact fun _ run _ => run
    | cons i is ih =>
      intro best run low
      refine ih _ ?_ fun k member => low k (List.mem_cons_of_mem _ member)
      have := low i List.mem_cons_self
      by_cases room : best.2 + 1 ≤ min maxLen (33 - i)
      · exact extendMatch_run (by omega) run
      · dsimp only
        rw [Nat.sub_eq_zero_of_le (by omega)]
        exact run
  exact fold _ _ (.inl rfl) fun i member => List.mem_range.mp member

theorem mem_inPass {b : Build} {pass j : Nat} {e : TempInsn} :
    (e, j) ∈ b.inPass pass ↔ b.ti[j]? = some e ∧ e.inPass = pass := by
  simp [Build.inPass, List.mem_filter, List.mem_zipIdx_iff_getElem?]

theorem getLsbD_foldl_and {entries : List (TempInsn × Nat)} {mask : Word} {k : Nat}
    (bit : (entries.foldl (fun m e => m &&& e.1.insnMask) mask).getLsbD k = true) :
    mask.getLsbD k = true ∧ ∀ e ∈ entries, e.1.insnMask.getLsbD k = true := by
  induction entries generalizing mask with
  | nil => exact ⟨bit, by simp⟩
  | cons e entries ih =>
    obtain ⟨head, tail⟩ := ih bit
    rw [BitVec.getLsbD_and, Bool.and_eq_true] at head
    refine ⟨head.1, fun f member => ?_⟩
    rcases List.mem_cons.mp member with rfl | member
    · exact head.2
    · exact tail f member

/-- The node that `cover_insn` builds over a run of bits that all entries of the pass fix. -/
theorem covered_node {pat : Nat → Pattern 32} {fuel cur pass first len last : Nat} {mask : Word} {b c : Build}
    {inner : Word}
    (ih : ∀ {cur pass : Nat} {mask : Word} {b b' : Build} {r : Option Nat},
      coverInsn fuel cur pass mask b = .ok (r, b') → Table pat b → pass ≤ b.curpass →
      Covered pat fuel cur pass b r b')
    (table : Table pat b) (current : pass ≤ b.curpass) (low : first + len ≤ 32)
    (set : field first len ((b.inPass pass).foldl (fun m e => m &&& e.1.insnMask) mask) = 2 ^ len - 1)
    (found : ¬ len = 0)
    (loop : coverCases (fun cur pass b => coverInsn fuel cur pass inner b) pass first len (2 ^ len) 0
      (cur + 2) (cur + 2 + 2 ^ len) ((b.write cur first).write (cur + 1) (2 ^ len - 1)) = .ok (last, c)) :
    Covered pat (fuel + 1) cur pass b (some last) c := by
  have positive := Nat.two_pow_pos len
  have full : ∀ j, Member b pass j → field first len (pat j).mask = 2 ^ len - 1 := by
    rintro j ⟨e, found, mark⟩
    rw [← table.patterns j e found]
    apply field_full_iff.mpr
    intro k inside
    exact (getLsbD_foldl_and (field_full_iff.mp set k inside)).2 (e, j) (mem_inPass.mpr ⟨found, mark⟩)
  have left : Left pat (Member b pass) ((b.write cur first).write (cur + 1) (2 ^ len - 1)) pass first len 0 :=
    fun j => ⟨fun member => ⟨member, Nat.zero_le _⟩, fun member => member.1⟩
  obtain ⟨moved, grown, kept, child, children⟩ := coverCases_covered
    (fun cur pass b r b' table current call => ih call table current) full loop
    ⟨table.patterns, table.bounded, table.small⟩ current (Nat.le_refl _) (by omega) left
  simp only [Nat.zero_add] at children
  refine ⟨⟨moved.curpass, moved.length, moved.marks⟩, fun a outside => ?_, by simp, ?_⟩
  · rw [Option.getD_some] at outside
    rw [kept a (by omega) (by omega), write_automata, if_neg (by omega), write_automata, if_neg (by omega)]
  · intro last' same
    obtain rfl := Option.some.inj same
    have first' : c.automata cur = first := by
      rw [kept cur (.inl (by omega)) (.inl (by omega)), write_automata, if_neg (by omega), write_automata, if_pos rfl]
    have mask' : c.automata (cur + 1) = 2 ^ len - 1 := by
      rw [kept (cur + 1) (.inl (by omega)) (.inl (by omega)), write_automata, if_pos rfl]
    refine ⟨by omega, .node first len child, ?_, ⟨full, fun v inside => (children v inside).2.1⟩,
      fun v inside => (children v inside).2.2⟩
    refine ⟨Nat.le_refl _, grown, by omega, first', mask', fun v inside => ?_⟩
    rcases (children v inside).1 with absent | ⟨nonzero, encodes⟩
    · exact .inl absent
    · exact .inr ⟨nonzero, encodes.frame (by omega) (Nat.le_refl _) fun _ _ _ => rfl⟩

/-- `cover_insn` builds a tree for the entries of its pass. -/
theorem coverInsn_covered {pat : Nat → Pattern 32} {fuel cur pass : Nat} {mask : Word} {b b' : Build}
    {r : Option Nat} (built : coverInsn fuel cur pass mask b = .ok (r, b')) (table : Table pat b)
    (current : pass ≤ b.curpass) : Covered pat fuel cur pass b r b' := by
  induction fuel generalizing cur pass mask b b' r with
  | zero => simp [coverInsn] at built
  | succ fuel ih =>
    have member : ∀ j, Member b pass j ↔ ∃ e, (e, j) ∈ b.inPass pass := by
      intro j
      simp only [Member, mem_inPass]
    rw [coverInsn, coverInsnBody] at built
    split at built
    case h_1 none =>
      obtain ⟨rfl, rfl⟩ := Prod.mk.inj (Except.ok.inj built)
      refine ⟨Moved.refl _ _, fun _ _ => rfl, fun _ j present => ?_, by simp⟩
      obtain ⟨e, found⟩ := (member j).mp present
      rw [none] at found
      cases found
    case h_2 e lastMatch one =>
      obtain ⟨rfl, rfl⟩ := Prod.mk.inj (Except.ok.inj built)
      have only : ∀ j, Member b pass j ↔ j = lastMatch := by
        intro j
        rw [member, one]
        simp
      have inside : lastMatch < 2 ^ 31 := by
        obtain ⟨f, found, _⟩ := (only lastMatch).mpr rfl
        have := (List.getElem?_eq_some_iff.mp found).1
        have := table.small
        omega
      refine ⟨⟨Nat.le_refl _, rfl, (Moved.refl pass b).marks⟩, fun a outside => ?_, by simp, ?_⟩
      · rw [Option.getD_some] at outside
        exact (write_automata b cur _ a).trans (if_neg (by omega))
      · intro last same
        obtain rfl := Option.some.inj same
        refine ⟨Nat.lt_succ_self _, .leaf lastMatch, ?_, ⟨(only _).mpr rfl, fun j => (only j).mp⟩, trivial⟩
        exact ⟨Nat.le_refl _, Nat.lt_succ_self _, inside, if_pos rfl⟩
    case h_3 =>
      have run := longestMatch_run ((b.inPass pass).foldl (fun m e => m &&& e.1.insnMask) mask)
      dsimp only at built
      generalize longestMatch ((b.inPass pass).foldl (fun m e => m &&& e.1.insnMask) mask) = best at run built
      obtain ⟨first, len⟩ := best
      dsimp only [Run] at run built
      split at built
      case isTrue => simp at built
      case isFalse found =>
        obtain ⟨low, set⟩ := run.resolve_left found
        split at built
        case h_1 => simp at built
        case h_2 last c loop =>
          obtain ⟨rfl, rfl⟩ := Prod.mk.inj (Except.ok.inj built)
          exact covered_node ih table current low set found loop

end Or1ksim.Decode
