import Or1ksim.Lib.Chunks
import Or1ksim.Cuc.Graph

/-!
# The sequence of basic blocks

`generate_bb_seq` follows the fetches that the memory profiler recorded and writes a file of the blocks that they enter; `count_bb_seq`
and `recalc_cnts` read it. A file is the list of the `int` in it. The delays of loads and stores, which the first of them averages as
well, are left out.
-/

namespace Or1ksim.Cuc

open Chunks

/-- What an `unsigned long` is: 32 bits or 64. -/
inductive DataModel where
  | ilp32 | lp64
  deriving DecidableEq

namespace DataModel

def longBits : DataModel → Nat
  | ilp32 => 32
  | lp64 => 64

/-- `fwrite (&curbb, sizeof (unsigned long), 1, fo)`: the `int`, and if that is shorter what lies behind it. -/
def fwriteLong (behind curbb : Int) : DataModel → List Int
  | ilp32 => [curbb]
  | lp64 => [curbb, behind]

end DataModel

def mprofFetch : BitVec 8 := 4
def mprof32 : BitVec 8 := 32

/-- `struct mprofentry_struct`. -/
structure Mprofentry where
  addr : Word
  type : BitVec 8
  deriving DecidableEq

/-- `BBID_START`. -/
def bbidStart : Int := 0x1000

/-- `bufsize`. -/
def bufsize : Nat := 256

theorem bufsize_pos : 0 < bufsize := by decide

/-- `f->bb[i].cnt`. -/
def cntAt (bb : List Bb) (i : Nat) : Int := (bb[i]?.map Bb.cnt).getD 0

def addCnt (bb : List Bb) (i : Nat) (n : Int) : List Bb := bb.modify i fun b => { b with cnt := b.cnt + n }

/-! ### Writing -/

section
variable (h : DataModel) (behind : Nat → Int) (f : Func)

structure SeqState where
  bb : List Bb
  prevbb : Int := -1
  addr : BitVec h.longBits := -1
  written : List Int := []
  file : List Int := []

def bbStart (b : Bb) : BitVec h.longBits := f.startAddr.setWidth h.longBits + BitVec.ofInt h.longBits (b.first * 4)

def bbEnd (b : Bb) : BitVec h.longBits := f.startAddr.setWidth h.longBits + BitVec.ofInt h.longBits (b.last * 4)

/-- A fetch from the function. -/
def Mprofentry.Fetches (r : Mprofentry) : Prop :=
  r.type &&& mprofFetch ≠ 0 ∧
    f.startAddr.setWidth h.longBits ≤ r.addr.setWidth h.longBits ∧ r.addr.setWidth h.longBits ≤ f.endAddr.setWidth h.longBits

instance decidableFetches (r : Mprofentry) : Decidable (r.Fetches h f) := inferInstanceAs (Decidable (_ ∧ _ ∧ _))

variable {h}

def SeqState.enter (s : SeqState h) (curbb : Nat) : SeqState h :=
  if (curbb : Int) = s.prevbb then s
  else
    { s with
      bb := addCnt s.bb curbb 1
      prevbb := curbb
      written := s.written ++ [(curbb : Int)]
      file := s.file ++ h.fwriteLong (behind s.written.length) curbb }

variable (h)

/-- One record. A fetch from the function has 32 bits and is in a block, or an assertion fails. -/
def seqStep (s : SeqState h) (r : Mprofentry) : Option (SeqState h) :=
  if r.Fetches h f then
    if r.type &&& mprof32 = 0 then none
    else
      let addr := r.addr.setWidth h.longBits
      (f.bb.findIdx? fun b => bbStart h f b ≤ addr && addr ≤ bbEnd h f b).map fun curbb =>
        ({ s with addr, prevbb := if s.addr + 4 = addr then s.prevbb else -1 } : SeqState h).enter behind curbb
  else some s

/-- The function with its counts, what was written and what the file has in it. -/
structure Generated where
  f : Func
  written : List Int
  file : List Int

def identityReloc (n : Nat) : List Int := (List.range n).map Int.ofNat

/-- The loop over the blocks sets the count of the first to zero, as often as there are blocks. -/
def generateBbSeq (records : List Mprofentry) : Option Generated :=
  (readLoop bufsize bufsize_pos (seqStep h behind f) { bb := f.bb.modify 0 fun b => { b with cnt := 0 } } records).map fun s =>
    { f := { f with bb := s.bb, numRuns := cntAt s.bb 0, initBbReloc := identityReloc f.bb.length }, written := s.written,
      file := s.file }

end

/-! ### Reading -/

/-- `f->init_bb_reloc[x]`. -/
def relocated (reloc : List Int) (x : Int) : Option Int := if 0 ≤ x then reloc[x.toNat]? else none

structure RecalcState where
  bb : List Bb
  prevbb : Int := -1
  prevcnt : Int := 0

/-- "End the block". -/
def RecalcState.endRun (s : RecalcState) : Option (List Bb) :=
  if 0 ≤ s.prevbb ∧ s.prevbb ≠ bbidStart then
    s.bb[s.prevbb.toNat]?.bind fun b =>
      if b.unrolled = 0 then none else some (addCnt s.bb s.prevbb.toNat (s.prevcnt.tdiv b.unrolled + 1))
  else some s.bb

def recalcStep (reloc : List Int) (s : RecalcState) (x : Int) : Option RecalcState :=
  (relocated reloc x).bind fun b =>
    if b < 0 then some s
    else if b = s.prevbb then some { s with prevcnt := s.prevcnt + 1 }
    else s.endRun.map fun bb => { bb, prevbb := b, prevcnt := 0 }

def recalcCnts (f : Func) (file : List Int) : Option Func :=
  (readLoop bufsize bufsize_pos (recalcStep f.initBbReloc) { bb := f.bb.map fun b => { b with cnt := 0 } } file).map fun s =>
    { f with bb := s.bb }

structure CountState where
  counts : List Nat
  cnt : Nat := 0

/-- "count consecutive acesses". -/
def countStep (reloc : List Int) (b : Int) (preroll times : Nat) (s : CountState) (x : Int) : Option CountState :=
  (relocated reloc x).bind fun c =>
    if c = b then
      if s.cnt < s.counts.length then
        some { counts := s.counts.modify s.cnt (· + 1), cnt := if s.cnt + 1 ≥ times then preroll - 1 else s.cnt + 1 }
      else none
    else some { s with cnt := 0 }

def countBbSeq (f : Func) (b : Int) (file : List Int) (preroll unroll : Nat) : Option (List Nat) :=
  let times := preroll - 1 + unroll
  (readLoop bufsize bufsize_pos (countStep f.initBbReloc b preroll times) { counts := List.replicate times 0 } file).map
    CountState.counts

/-! ### Counts -/

section
variable {bb : List Bb} {i j : Nat} {n : Int}

theorem addCnt_length : (addCnt bb j n).length = bb.length := List.length_modify ..

theorem cntAt_addCnt (inside : j < bb.length) : cntAt (addCnt bb j n) i = cntAt bb i + if i = j then n else 0 := by
  unfold cntAt addCnt
  rw [List.getElem?_modify]
  by_cases same : i = j
  · subst same
    simp [inside]
  · simp [same, Ne.symm same]

theorem cntAt_zeroed : cntAt (bb.modify 0 fun b => { b with cnt := 0 }) i = if i = 0 then 0 else cntAt bb i := by
  unfold cntAt
  rw [List.getElem?_modify]
  by_cases first : i = 0
  · subst first
    cases bb[0]? <;> rfl
  · simp [first, Ne.symm first]

theorem cntAt_cleared : cntAt (bb.map fun b => { b with cnt := 0 }) i = 0 := by
  unfold cntAt
  rw [List.getElem?_map]
  cases bb[i]? <;> rfl

end

/-! ### What is written -/

section
variable {h : DataModel} {behind : Nat → Int} {f : Func}

/-- The state behind some records. -/
structure Follows (h : DataModel) (f : Func) (before : List Mprofentry) (s : SeqState h) : Prop where
  length : s.bb.length = f.bb.length
  cnt : ∀ i : Nat, cntAt s.bb i = (if i = 0 then 0 else cntAt f.bb i) + s.written.count (i : Int)
  blocks : ∀ x ∈ s.written, ∃ i < f.bb.length, x = (i : Int)
  entered : s.prevbb = -1 ∨ s.written ≠ []
  nothing : s.written = [] ↔ ∀ r ∈ before, ¬ r.Fetches h f
  same : h = .ilp32 → s.file = s.written
  twice : h = .lp64 → s.file.length = 2 * s.written.length

theorem follows_nil : Follows h f [] ({ bb := f.bb.modify 0 fun b => { b with cnt := 0 } } : SeqState h) where
  length := List.length_modify ..
  cnt i := by rw [cntAt_zeroed, List.count_nil, Nat.cast_zero, Int.add_zero]
  blocks _ none := absurd none List.not_mem_nil
  entered := .inl rfl
  nothing := iff_of_true rfl fun _ none => absurd none List.not_mem_nil
  same _ := rfl
  twice _ := rfl

/-- A block that is entered is written, unless it is the one before. -/
theorem Follows.enter {before : List Mprofentry} {s : SeqState h} {r : Mprofentry} {curbb : Nat} (follows : Follows h f before s)
    (fetches : r.Fetches h f) (inside : curbb < f.bb.length) : Follows h f (before ++ [r]) (s.enter behind curbb) := by
  have some {written : List Int} (any : written ≠ []) : written = [] ↔ ∀ r' ∈ before ++ [r], ¬ r'.Fetches h f :=
    iff_of_false any fun none => none r (List.mem_append_right before List.mem_cons_self) fetches
  unfold SeqState.enter
  by_cases again : (curbb : Int) = s.prevbb
  · rw [if_pos again]
    have any : s.written ≠ [] := follows.entered.resolve_left (by omega)
    exact { follows with nothing := some any }
  · rw [if_neg again]
    constructor
    · exact addCnt_length.trans follows.length
    · intro i
      show cntAt (addCnt s.bb curbb 1) i = _ + ((s.written ++ [(curbb : Int)]).count (i : Int) : Int)
      rw [cntAt_addCnt (by rw [follows.length]; exact inside), follows.cnt, List.count_append, List.count_singleton, Nat.cast_add,
        Int.add_assoc]
      congr 2
      by_cases here : i = curbb
      · subst here
        simp
      · have other : ¬ (curbb : Int) = (i : Int) := by omega
        simp [here, other]
    · intro x inside'
      rcases List.mem_append.mp inside' with old | new
      · exact follows.blocks x old
      · exact ⟨curbb, inside, List.mem_singleton.mp new⟩
    · exact .inr (List.append_ne_nil_of_right_ne_nil _ (List.cons_ne_nil _ _))
    · exact some (List.append_ne_nil_of_right_ne_nil _ (List.cons_ne_nil _ _))
    · rintro rfl
      show s.file ++ [(curbb : Int)] = s.written ++ [(curbb : Int)]
      rw [follows.same rfl]
    · rintro rfl
      show (s.file ++ [(curbb : Int), _]).length = 2 * (s.written ++ [(curbb : Int)]).length
      rw [List.length_append, List.length_append, follows.twice rfl, Nat.mul_add]
      rfl

theorem Follows.step {before : List Mprofentry} {s s' : SeqState h} {r : Mprofentry} (follows : Follows h f before s)
    (stepped : seqStep h behind f s r = some s') : Follows h f (before ++ [r]) s' := by
  unfold seqStep at stepped
  by_cases fetches : r.Fetches h f
  · rw [if_pos fetches] at stepped
    split at stepped
    · cases stepped
    · obtain ⟨curbb, found, rfl⟩ := Option.map_eq_some_iff.mp stepped
      have inside := (List.findIdx?_eq_some_iff_findIdx_eq.mp found).1
      refine Follows.enter ?_ fetches inside
      refine { follows with entered := ?_ }
      split
      · exact follows.entered
      · exact .inl rfl
  · rw [if_neg fetches] at stepped
    cases stepped
    refine { follows with nothing := follows.nothing.trans ⟨fun none r' inside => ?_, fun none r' inside => ?_⟩ }
    · rcases List.mem_append.mp inside with old | new
      · exact none r' old
      · rwa [List.mem_singleton.mp new]
    · exact none r' (List.mem_append_left _ inside)

/-- What `generate_bb_seq` leaves. -/
theorem generateBbSeq_spec {records : List Mprofentry} {out : Generated} (done : generateBbSeq h behind f records = some out) :
    ∃ s : SeqState h, Follows h f records s ∧ out.written = s.written ∧ out.file = s.file ∧ out.f.bb = s.bb ∧
      out.f.initBbReloc = identityReloc f.bb.length := by
  unfold generateBbSeq at done
  rw [readLoop_eq] at done
  obtain ⟨s, ran, rfl⟩ := Option.map_eq_some_iff.mp done
  exact ⟨s, foldlM_invariant follows_nil (fun _ _ _ _ _ follows stepped => follows.step stepped) ran, rfl, rfl, rfl, rfl⟩

end

/-! ### What is read -/

theorem relocated_identity {n i : Nat} (inside : i < n) : relocated (identityReloc n) (i : Int) = some (i : Int) := by
  unfold relocated identityReloc
  rw [if_pos (Int.natCast_nonneg i), Int.toNat_natCast, List.getElem?_map, List.getElem?_range inside]
  rfl

/-- The state of `recalc_cnts` behind some blocks: the run that it is in is not counted yet, and the block after the last one never
is. -/
structure Recounts (n : Nat) (before : List Int) (s : RecalcState) : Prop where
  length : s.bb.length = n
  unrolled : ∀ b ∈ s.bb, b.unrolled = 1
  prevcnt : 0 ≤ s.prevcnt
  prevbb : (s.prevbb = -1 ∧ before = []) ∨ ∃ i < n, s.prevbb = (i : Int) ∧ (i : Int) ∈ before
  cnt : ∀ i : Nat, cntAt s.bb i =
    if (i : Int) = bbidStart then 0 else before.count (i : Int) - if (i : Int) = s.prevbb then s.prevcnt + 1 else 0

section
variable {n : Nat} {before : List Int} {s s' : RecalcState}

theorem addCnt_unrolled {bb : List Bb} {j : Nat} {k : Int} (all : ∀ b ∈ bb, b.unrolled = 1) : ∀ b ∈ addCnt bb j k, b.unrolled = 1 := by
  intro b inside
  obtain ⟨i, found⟩ := List.mem_iff_getElem?.mp inside
  unfold addCnt at found
  rw [List.getElem?_modify] at found
  obtain ⟨b', there, rfl⟩ := Option.map_eq_some_iff.mp found
  have one := all b' (List.mem_of_getElem? there)
  split
  · exact one
  · exact one

/-- At the end of a run all is counted. -/
theorem Recounts.endRun (recounts : Recounts n before s) :
    ∃ bb, s.endRun = some bb ∧ bb.length = n ∧ (∀ b ∈ bb, b.unrolled = 1) ∧
      ∀ i : Nat, cntAt bb i = if (i : Int) = bbidStart then 0 else (before.count (i : Int) : Int) := by
  unfold RecalcState.endRun
  rcases recounts.prevbb with ⟨none, rfl⟩ | ⟨j, inside, is, -⟩
  · rw [none, if_neg (by decide)]
    refine ⟨s.bb, rfl, recounts.length, recounts.unrolled, fun i => ?_⟩
    rw [recounts.cnt, none, if_neg (show ¬ (i : Int) = -1 by omega), Int.sub_zero]
  · by_cases start : s.prevbb = bbidStart
    · rw [if_neg fun both => both.2 start]
      refine ⟨s.bb, rfl, recounts.length, recounts.unrolled, fun i => ?_⟩
      rw [recounts.cnt]
      split
      · rfl
      · next other => rw [start, if_neg other, Int.sub_zero]
    · have bound : j < s.bb.length := by rw [recounts.length]; exact inside
      have one := recounts.unrolled _ (List.getElem_mem bound)
      rw [if_pos ⟨by omega, start⟩, is, Int.toNat_natCast, List.getElem?_eq_getElem bound, Option.bind_some, one, if_neg (by decide),
        Int.tdiv_one]
      refine ⟨_, rfl, addCnt_length.trans recounts.length, addCnt_unrolled recounts.unrolled, fun i => ?_⟩
      rw [cntAt_addCnt bound, recounts.cnt, is]
      by_cases here : i = j
      · subst here
        have other : ¬ (i : Int) = bbidStart := by rwa [is] at start
        rw [if_neg other, if_neg other, if_pos rfl, if_pos rfl]
        omega
      · rw [if_neg here, if_neg (show ¬ (i : Int) = (j : Int) by omega)]
        split <;> omega

theorem Recounts.step {x : Int} (valid : ∃ i < n, x = (i : Int)) (recounts : Recounts n before s)
    (stepped : recalcStep (identityReloc n) s x = some s') : Recounts n (before ++ [x]) s' := by
  obtain ⟨j, inside, rfl⟩ := valid
  have count (i : Nat) : ((before ++ [(j : Int)]).count (i : Int) : Int) = before.count (i : Int) + if i = j then 1 else 0 := by
    rw [List.count_append, List.count_singleton, Nat.cast_add]
    by_cases here : i = j
    · simp [here]
    · have other : ¬ (j : Int) = (i : Int) := by omega
      simp [here, other]
  have mem : (j : Int) ∈ before ++ [(j : Int)] := List.mem_append_right before List.mem_cons_self
  unfold recalcStep at stepped
  rw [relocated_identity inside, Option.bind_some, if_neg (by omega)] at stepped
  by_cases again : (j : Int) = s.prevbb
  · rw [if_pos again] at stepped
    cases stepped
    refine { recounts with prevcnt := Int.add_nonneg recounts.prevcnt (by decide), prevbb := .inr ⟨j, inside, again.symm, mem⟩,
                           cnt := fun i => ?_ }
    show cntAt s.bb i = if (i : Int) = bbidStart then 0 else _ - if (i : Int) = s.prevbb then s.prevcnt + 1 + 1 else 0
    rw [recounts.cnt, count, ← again]
    by_cases here : i = j
    · subst here
      rw [if_pos rfl, if_pos rfl, if_pos rfl]
      split <;> omega
    · rw [if_neg here, if_neg (show ¬ (i : Int) = (j : Int) by omega)]
      split <;> omega
  · rw [if_neg again] at stepped
    obtain ⟨bb, ended, rfl⟩ := Option.map_eq_some_iff.mp stepped
    obtain ⟨_, ended', length, unrolled, cnt⟩ := recounts.endRun
    cases ended.symm.trans ended'
    refine ⟨length, unrolled, Int.le_refl 0, .inr ⟨j, inside, rfl, mem⟩, fun i => ?_⟩
    show cntAt bb i = if (i : Int) = bbidStart then 0 else _ - if (i : Int) = (j : Int) then (0 : Int) + 1 else 0
    rw [cnt, count]
    by_cases here : i = j
    · subst here
      rw [if_pos rfl, if_pos rfl]
      split <;> omega
    · rw [if_neg here, if_neg (show ¬ (i : Int) = (j : Int) by omega)]
      split <;> omega

end

theorem Recounts.start (g : Func) (plain : ∀ b ∈ g.bb, b.unrolled = 1) :
    Recounts g.bb.length [] ({ bb := g.bb.map fun b => { b with cnt := 0 } } : RecalcState) where
  length := List.length_map _
  unrolled b inside := by
    obtain ⟨b', there, rfl⟩ := List.mem_map.mp inside
    exact plain b' there
  prevcnt := Int.le_refl 0
  prevbb := .inl ⟨rfl, rfl⟩
  cnt i := by
    rw [cntAt_cleared, List.count_nil, if_neg (show ¬ (i : Int) = -1 by omega)]
    split <;> rfl

/-- What `recalc_cnts` makes of the numbers of blocks. -/
theorem recalcCnts_spec {g g' : Func} {file : List Int} (plain : ∀ b ∈ g.bb, b.unrolled = 1)
    (identity : g.initBbReloc = identityReloc g.bb.length) (valid : ∀ x ∈ file, ∃ i < g.bb.length, x = (i : Int))
    (done : recalcCnts g file = some g') : ∃ s, Recounts g.bb.length file s ∧ g'.bb = s.bb := by
  unfold recalcCnts at done
  rw [readLoop_eq, identity] at done
  obtain ⟨s, ran, rfl⟩ := Option.map_eq_some_iff.mp done
  exact ⟨s, foldlM_invariant (Recounts.start g plain) (fun _ _ _ _ inside recounts stepped =>
    recounts.step (valid _ inside) stepped) ran, rfl⟩

/-- The last run is missing. -/
theorem Recounts.less {n : Nat} {file : List Int} {s : RecalcState} (recounts : Recounts n file s) (any : file ≠ []) :
    ∃ i < n, cntAt s.bb i < file.count (i : Int) := by
  obtain ⟨-, none⟩ | ⟨i, inside, is, there⟩ := recounts.prevbb
  · exact absurd none any
  · have counted := List.count_pos_iff.mpr there
    have behind := recounts.prevcnt
    refine ⟨i, inside, ?_⟩
    rw [recounts.cnt, if_pos is.symm]
    split <;> omega

/-! ### Counts of consecutive accesses -/

/-- The counts of `count_bb_seq` behind some blocks. -/
structure Tallies (reloc : List Int) (b : Int) (times : Nat) (before : List Int) (s : CountState) : Prop where
  length : s.counts.length = times
  cnt : s.cnt < times
  sum : s.counts.sum = before.countP fun x => relocated reloc x = some b

section
variable {reloc : List Int} {b : Int} {preroll times : Nat} {before : List Int} {s s' : CountState} {x : Int}

theorem sum_increment {l : List Nat} {i : Nat} (inside : i < l.length) : (l.modify i (· + 1)).sum = l.sum + 1 := by
  induction l generalizing i with
  | nil => exact absurd inside (Nat.not_lt_zero i)
  | cons y l ih =>
    cases i with
    | zero =>
      rw [List.modify_zero_cons, List.sum_cons, List.sum_cons]
      omega
    | succ i =>
      rw [List.modify_succ_cons, List.sum_cons, List.sum_cons, ih (Nat.lt_of_succ_lt_succ inside)]
      omega

theorem Tallies.step (tallies : Tallies reloc b times before s) (turns : preroll - 1 < times)
    (stepped : countStep reloc b preroll times s x = some s') : Tallies reloc b times (before ++ [x]) s' := by
  unfold countStep at stepped
  obtain ⟨c, found, stepped⟩ := Option.bind_eq_some_iff.mp stepped
  have counted : (before ++ [x]).countP (fun x => relocated reloc x = some b) =
      before.countP (fun x => relocated reloc x = some b) + if c = b then 1 else 0 := by
    rw [List.countP_append, List.countP_singleton, found]
    simp only [Option.some.injEq, decide_eq_true_eq]
  by_cases here : c = b
  · have bound : s.cnt < s.counts.length := by rw [tallies.length]; exact tallies.cnt
    rw [if_pos here, if_pos bound] at stepped
    cases stepped
    refine ⟨(List.length_modify ..).trans tallies.length, ?_, ?_⟩
    · show (if s.cnt + 1 ≥ times then preroll - 1 else s.cnt + 1) < times
      split <;> omega
    · rw [counted, if_pos here]
      show (s.counts.modify s.cnt (· + 1)).sum = _
      rw [sum_increment bound, tallies.sum]
  · rw [if_neg here] at stepped
    cases stepped
    have first : 0 < times := by omega
    exact ⟨tallies.length, first, by rw [counted, if_neg here]; exact tallies.sum⟩

theorem countStep_goes {c : Int} (found : relocated reloc x = some c) (inside : s.cnt < s.counts.length) :
    ∃ s', countStep reloc b preroll times s x = some s' := by
  unfold countStep
  rw [found, Option.bind_some]
  by_cases here : c = b
  · rw [if_pos here, if_pos inside]
    exact ⟨_, rfl⟩
  · rw [if_neg here]
    exact ⟨_, rfl⟩

end

/-- Every block that is read is counted in one place. -/
theorem countBbSeq_sum {g : Func} {b : Int} {file : List Int} {preroll unroll : Nat} (unrolled : 1 ≤ unroll)
    (valid : ∀ x ∈ file, ∃ c, relocated g.initBbReloc x = some c) :
    ∃ counts, countBbSeq g b file preroll unroll = some counts ∧
      counts.sum = file.countP fun x => relocated g.initBbReloc x = some b := by
  have turns : preroll - 1 < preroll - 1 + unroll := by omega
  have start : Tallies g.initBbReloc b (preroll - 1 + unroll) [] { counts := List.replicate (preroll - 1 + unroll) 0 } :=
    ⟨List.length_replicate, show 0 < preroll - 1 + unroll by omega, by rw [List.sum_replicate, smul_zero]; rfl⟩
  unfold countBbSeq
  dsimp only
  rw [readLoop_eq]
  have goes : ∀ x s, x ∈ file → (∃ before, Tallies g.initBbReloc b (preroll - 1 + unroll) before s) →
      ∃ s', countStep g.initBbReloc b preroll (preroll - 1 + unroll) s x = some s' ∧
        ∃ before, Tallies g.initBbReloc b (preroll - 1 + unroll) before s' := by
    rintro x s inside ⟨before, tallies⟩
    obtain ⟨c, found⟩ := valid x inside
    have place : s.cnt < s.counts.length := by rw [tallies.length]; exact tallies.cnt
    obtain ⟨s', stepped⟩ : ∃ s', countStep g.initBbReloc b preroll (preroll - 1 + unroll) s x = some s' := countStep_goes found place
    exact ⟨s', stepped, _, tallies.step turns stepped⟩
  obtain ⟨s, ran⟩ := foldlM_succeeds ⟨[], start⟩ goes
  rw [ran]
  exact ⟨s.counts, rfl, (foldlM_invariant start (fun _ _ _ _ _ tallies stepped => tallies.step turns stepped) ran).sum⟩

/-! ### Round trips -/

/-- The counts of `count_bb_seq` for a block are of all its occurrences. -/
def Generated.Counted (out : Generated) : Prop :=
  ∀ (g : Func) (b : Int) (preroll unroll : Nat), out.f.bb.length ≤ g.initBbReloc.length → 1 ≤ preroll → 1 ≤ unroll →
    ∃ counts, countBbSeq g b out.file preroll unroll = some counts ∧
      counts.sum = out.written.countP fun x => relocated g.initBbReloc x = some b

/-- The numbers that are read are those that were written, and both readers count what was counted. -/
structure RoundTrips (out : Generated) : Prop where
  read : out.file = out.written
  recalc : ∀ g : Func, g.bb.length = out.f.bb.length → g.initBbReloc = identityReloc g.bb.length → (∀ b ∈ g.bb, b.unrolled = 1) →
    ∃ g', recalcCnts g out.file = some g' ∧ ∀ i < out.f.bb.length, cntAt g'.bb i = cntAt out.f.bb i
  counted : out.Counted

section
variable {h : DataModel} {behind : Nat → Int} {f : Func} {records : List Mprofentry} {out : Generated}

/-- With 32 bits only `recalc_cnts` goes wrong. -/
theorem ilp32_counted (done : generateBbSeq .ilp32 behind f records = some out) :
    out.file = out.written ∧ out.Counted := by
  obtain ⟨s, follows, written, file, bb, -⟩ := generateBbSeq_spec done
  have same : out.file = out.written := by rw [file, written, follows.same rfl]
  refine ⟨same, fun g b preroll unroll blocks _ unrolled => ?_⟩
  rw [same]
  refine countBbSeq_sum unrolled fun x inside => ?_
  rw [written] at inside
  obtain ⟨i, below, rfl⟩ := follows.blocks x inside
  have bound : i < g.initBbReloc.length := by rw [bb, follows.length] at blocks; omega
  refine ⟨g.initBbReloc[i], ?_⟩
  unfold relocated
  rw [if_pos (Int.natCast_nonneg i), Int.toNat_natCast, List.getElem?_eq_getElem bound]

theorem cntAt_nonneg {bb : List Bb} (counts : ∀ b ∈ bb, 0 ≤ b.cnt) (i : Nat) : 0 ≤ cntAt bb i := by
  unfold cntAt
  cases there : bb[i]? with
  | none => exact Int.le_refl 0
  | some b => exact counts b (List.mem_of_getElem? there)

/-- The function that the counts are for, as `recalc_cnts` takes it. -/
def Generated.plain (out : Generated) : Func :=
  { out.f with bb := out.f.bb.map fun b => { b with unrolled := 1 }, initBbReloc := identityReloc out.f.bb.length }

theorem RoundTrips.unfetched (counts : ∀ b ∈ f.bb, 0 ≤ b.cnt) (done : generateBbSeq h behind f records = some out)
    (trips : RoundTrips out) : (∀ r ∈ records, ¬ r.Fetches h f) ∧ ∀ i < f.bb.length, i ≠ 0 → cntAt f.bb i = 0 := by
  obtain ⟨s, follows, written, file, bb, -⟩ := generateBbSeq_spec done
  obtain ⟨read, recalc, -⟩ := trips
  have length : out.f.bb.length = f.bb.length := by rw [bb, follows.length]
  have same : out.plain.bb.length = out.f.bb.length := List.length_map _
  have one : ∀ b ∈ out.plain.bb, b.unrolled = 1 := by
    intro b inside
    obtain ⟨b', -, rfl⟩ := List.mem_map.mp inside
    rfl
  have identity : out.plain.initBbReloc = identityReloc out.plain.bb.length := by rw [same]; rfl
  obtain ⟨g', recounted, equal⟩ := recalc out.plain same identity one
  obtain ⟨t, recounts, is⟩ := recalcCnts_spec one identity (by rw [same, read, written, length]; exact follows.blocks) recounted
  rw [same, read, written] at recounts
  have nothing : s.written = [] := by
    by_contra any
    obtain ⟨i, below, less⟩ := recounts.less any
    have here := equal i below
    have positive := cntAt_nonneg counts i
    rw [is, bb, follows.cnt] at here
    split at here <;> omega
  refine ⟨follows.nothing.mp nothing, fun i inside other => ?_⟩
  have here := equal i (by rwa [length])
  rw [is, recounts.cnt, bb, follows.cnt, nothing, List.count_nil, if_neg other] at here
  rcases recounts.prevbb with ⟨start, -⟩ | ⟨j, -, -, there⟩
  · rw [start, if_neg (show ¬ (i : Int) = -1 by omega)] at here
    split at here <;> omega
  · rw [nothing] at there
    exact absurd there List.not_mem_nil

theorem roundTrips_of_unfetched (done : generateBbSeq h behind f records = some out)
    (unfetched : ∀ r ∈ records, ¬ r.Fetches h f) (zero : ∀ i < f.bb.length, i ≠ 0 → cntAt f.bb i = 0) : RoundTrips out := by
  obtain ⟨s, follows, written, file, bb, -⟩ := generateBbSeq_spec done
  have nothing := follows.nothing.mpr unfetched
  have empty : out.file = [] := by
    rw [file]
    cases h with
    | ilp32 => rw [follows.same rfl, nothing]
    | lp64 =>
      apply List.eq_nil_of_length_eq_zero
      rw [follows.twice rfl, nothing]
      rfl
  have none : out.written = [] := by rw [written, nothing]
  refine ⟨by rw [empty, none], fun g same _ _ => ?_, fun g b preroll unroll _ _ unrolled => ?_⟩
  · rw [empty]
    unfold recalcCnts
    rw [readLoop_eq]
    refine ⟨_, rfl, fun i inside => ?_⟩
    show cntAt (g.bb.map fun b => { b with cnt := 0 }) i = _
    rw [cntAt_cleared, bb, follows.cnt, nothing]
    split
    · rfl
    · next other =>
      rw [zero i (by rwa [← follows.length, ← bb]) other]
      rfl
  · rw [empty, none]
    exact countBbSeq_sum unrolled fun x there => absurd there List.not_mem_nil

/-- With 64 bits every block is followed by what lies behind it in memory, and with 32 the last run is not counted again: only a function
that no fetch is from makes the round trip, with counts of zero from the start. -/
theorem generated_roundTrips_iff (counts : ∀ b ∈ f.bb, 0 ≤ b.cnt) (done : generateBbSeq h behind f records = some out) :
    RoundTrips out ↔ (∀ r ∈ records, ¬ r.Fetches h f) ∧ ∀ i < f.bb.length, i ≠ 0 → cntAt f.bb i = 0 :=
  ⟨RoundTrips.unfetched counts done, fun both => roundTrips_of_unfetched done both.1 both.2⟩

end

/-- A function of two blocks of four instructions. -/
def twoBlocks : Func := { bb := [{ first := 0, last := 3 }, { first := 4, last := 7 }], startAddr := 0x2000, endAddr := 0x201c }

/-- A load, and a fetch from elsewhere. -/
theorem roundTrips_elsewhere : ∃ out, generateBbSeq .lp64 (fun _ => 0) twoBlocks [⟨0x2000, 33⟩, ⟨0x3000, 36⟩] = some out ∧
    RoundTrips out := by
  obtain ⟨out, done⟩ : ∃ out, generateBbSeq .lp64 (fun _ => 0) twoBlocks [⟨0x2000, 33⟩, ⟨0x3000, 36⟩] = some out := by
    unfold generateBbSeq
    rw [readLoop_eq]
    exact ⟨_, rfl⟩
  exact ⟨out, done, (generated_roundTrips_iff (by decide) done).mpr ⟨by decide, by decide⟩⟩

/-- Fetches from both blocks. -/
def calls : List Mprofentry := [⟨0x2000, 36⟩, ⟨0x2004, 36⟩, ⟨0x2010, 36⟩]

theorem calls_not_roundTrips (h : DataModel) : ∃ out, generateBbSeq h (fun _ => 0) twoBlocks calls = some out ∧ ¬ RoundTrips out := by
  obtain ⟨out, done⟩ : ∃ out, generateBbSeq h (fun _ => 0) twoBlocks calls = some out := by
    unfold generateBbSeq
    rw [readLoop_eq]
    cases h <;> exact ⟨_, rfl⟩
  refine ⟨out, done, fun trips => ?_⟩
  have unfetched := (trips.unfetched (by decide) done).1 ⟨0x2000, 36⟩ List.mem_cons_self
  cases h <;> exact unfetched (by decide)

theorem roundTrips_called :
    (∃ out, generateBbSeq .ilp32 (fun _ => 0) twoBlocks calls = some out ∧ ¬ RoundTrips out) ∧
      ∃ out, generateBbSeq .lp64 (fun _ => 0) twoBlocks calls = some out ∧ ¬ RoundTrips out :=
  ⟨calls_not_roundTrips .ilp32, calls_not_roundTrips .lp64⟩

end Or1ksim.Cuc
