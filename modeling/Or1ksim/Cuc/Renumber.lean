import Or1ksim.Cuc.Dup
import Or1ksim.Cuc.Insert

/-!
# Renumbering

The passes that move instructions have to move the references to them: operands, dependencies, the accesses that a block leaves to the
ones behind it, and the schedule. `insert_insns` moves all of them, `remove_nops` and `expand_bb` only the first two.
-/

namespace Or1ksim.Cuc

/-- `MAX_BB`. -/
def maxBb : Nat := 0x1000

/-- `REF (b, i)`. -/
def mkRef (b i : Nat) : Op := BitVec.ofNat 64 (b * maxInsns + i)

def Insn.moved (place : Op → Op) (ii : Insn) : Insn :=
  { ii with op := fun j => if ii.opt j = .ref then place (ii.op j) else ii.op j, dep := ii.dep.map place }

/-! ### Removal of NOPs -/

def Insn.notNop (ii : Insn) : Bool := ii.index ≠ .nop

/-- `reloc`, for the places in the block. -/
def relocNops (l : List Insn) (i : Nat) : Nat := (l.take i).countP Insn.notNop

/-- The round of `remove_nops` for block `b`, with whether there was one. -/
def Func.removeNopsOf (f : Func) (b : Nat) : Func × Bool :=
  match f.bb[b]? with
  | none => (f, false)
  | some bb =>
    let kept := bb.insn.filter Insn.notNop
    let place r := if refBb r = b then mkRef b (relocNops bb.insn (refI r)) else r
    ({ f with bb := (f.bb.set b { bb with insn := kept }).map fun c => { c with insn := c.insn.map (Insn.moved place) } },
      bb.insn.length ≠ kept.length)

/-- The function without NOPs, and whether it was modified. -/
def Func.removeNops (f : Func) : Func × Bool :=
  (List.range f.bb.length).foldl (fun s b => ((s.1.removeNopsOf b).1, s.2 || (s.1.removeNopsOf b).2)) (f, false)

/-! ### Expansion -/

section
variable (b n : Nat) (group : Nat → Nat)

/-- Where an instruction goes that is in a group of its block other than the first. -/
def regroup (r : Op) : Op := if refBb r = b ∧ group (refI r) ≠ 0 then mkRef (n + group (refI r) - 1) (refI r) else r

/-- "Delete unused instructions". -/
def keepGroup (j : Nat) (l : List Insn) : List Insn := l.mapIdx fun i ii => if group i = j then ii else ii.changeInsnType .nop

/-- The block of a group. -/
def groupBb (j : Nat) : Nat := if j = 0 then b else n + j - 1

/-- The block of a group is followed by that of the next one. -/
def linkGroup (bb : List Bb) (j : Nat) : List Bb :=
  (bb.modify (groupBb b n j) fun x => { x with next := fun k => if k = 0 then ((n + j : Nat) : Int) else -1 }).modify (n + j)
    fun x => { x with prev := fun k => if k = 0 then ((groupBb b n j : Nat) : Int) else -1 }

/-- `BBID_END`. -/
def bbidEnd : Int := 0x1001

/-- What follows the last group comes behind it, no longer behind the first. -/
def relinkPrev (last : Nat) (bb : List Bb) (i : Int) : List Bb :=
  if 0 ≤ i ∧ i ≠ bbidEnd then bb.modify i.toNat fun x =>
    { x with prev := fun k => if x.prev k = b then (last : Int) else x.prev k } else bb

end

/-- The highest group of `len` instructions. -/
def maxGroup (group : Nat → Nat) (len : Nat) : Nat := (List.range len).foldl (fun mg i => max mg (group i)) 0

/-- `expand_bb`, where `group` is what `tmp` says of the instructions of block `b`. The last round writes to the block behind all
others. -/
def Func.expandBb (f : Func) (b : Nat) (group : Nat → Nat) : Option Func :=
  f.bb[b]?.bind fun bb =>
    let n := f.bb.length
    let mg := maxGroup group bb.insn.length
    if n + mg < maxBb then
      (if mg = 0 then some [] else (cpyBb bb).map (List.replicate mg)).map fun copies =>
        let relocated := (f.bb ++ copies).map fun c => { c with insn := c.insn.map (Insn.moved (regroup b n group)) }
        let split := relocated.mapIdx fun c x =>
          if c = b then { x with insn := keepGroup group 0 x.insn }
          else if n ≤ c then { x with insn := keepGroup group (c + 1 - n) x.insn }
          else x
        let linked := (List.range mg).foldl (linkGroup b n) split
        let last := groupBb b n mg
        { f with bb := relinkPrev b last (relinkPrev b last linked (bb.next 0)) (bb.next 1) }
    else none

/-! ### References -/

section
variable {b i : Nat} {r : Op}

theorem refBb_mkRef (bound : b * maxInsns + i < 2 ^ 64) (place : i < maxInsns) : refBb (mkRef b i) = b := by
  simp only [refBb, mkRef, maxInsns, BitVec.toNat_ofNat] at *
  omega

theorem refI_mkRef (place : i < maxInsns) : refI (mkRef b i) = i := by
  simp only [refI, mkRef, maxInsns, BitVec.toNat_ofNat] at *
  omega

theorem refI_lt (r : Op) : refI r < maxInsns := Nat.mod_lt _ (by decide)

/-- A place before the one referred to can be referred to as well. -/
theorem ref_bound (before : i ≤ refI r) : refBb r * maxInsns + i < 2 ^ 64 := by
  have bound := r.isLt
  simp only [refBb, refI, maxInsns] at *
  omega

end

section
variable {place place' : Op → Op} {ii : Insn} {l : List Insn} {i : Nat}

theorem moved_id : ii.moved (fun r => r) = ii := by
  simp only [Insn.moved, List.map_id', ite_self]

theorem moved_moved : (ii.moved place).moved place' = ii.moved fun r => place' (place r) := by
  simp only [Insn.moved, List.map_map]
  congr 1
  funext j
  split <;> rfl

@[simp] theorem moved_index : (ii.moved place).index = ii.index := rfl

theorem relocNops_moved : relocNops (l.map (Insn.moved place)) i = relocNops l i := by
  unfold relocNops
  rw [← List.map_take, List.countP_map]
  rfl

theorem relocNops_le : relocNops l i ≤ i := List.countP_le_length.trans (by rw [List.length_take]; exact Nat.min_le_left _ _)

theorem notNop_iff : ii.notNop = true ↔ ii.index ≠ .nop := decide_eq_true_iff

theorem filter_moved : (l.map (Insn.moved place)).filter Insn.notNop = (l.filter Insn.notNop).map (Insn.moved place) := by
  rw [List.filter_map]
  rfl

/-- An instruction comes behind those before it that are kept. -/
theorem filter_relocNops (there : l[i]? = some ii) (kept : ii.notNop = true) : (l.filter Insn.notNop)[relocNops l i]? = some ii := by
  induction l generalizing i with
  | nil => cases there
  | cons x l ih =>
    unfold relocNops at *
    cases i with
    | zero =>
      cases there
      rw [List.filter_cons_of_pos kept]
      rfl
    | succ i =>
      rw [List.getElem?_cons_succ] at there
      by_cases here : x.notNop = true
      · rw [List.filter_cons_of_pos here, List.take_succ_cons, List.countP_cons_of_pos here, List.getElem?_cons_succ]
        exact ih there
      · rw [List.filter_cons_of_neg here, List.take_succ_cons, List.countP_cons_of_neg here]
        exact ih there

/-- An instruction stays exactly where it is if those before it are kept. -/
theorem relocNops_eq_iff (inside : i ≤ l.length) : relocNops l i = i ↔ ∀ k < i, ∀ ii, l[k]? = some ii → ii.notNop = true := by
  have length : (l.take i).length = i := List.length_take_of_le inside
  have all : relocNops l i = i ↔ ∀ ii ∈ l.take i, ii.notNop = true := by
    rw [← List.countP_eq_length, length]
    rfl
  rw [all]
  constructor
  · intro kept k before ii there
    exact kept ii (List.mem_of_getElem? (by rw [List.getElem?_take_of_lt before]; exact there))
  · intro kept ii inside
    obtain ⟨k, there⟩ := List.mem_iff_getElem?.mp inside
    have before : k < i := by
      have := (List.getElem?_eq_some_iff.mp there).1
      omega
    rw [List.getElem?_take_of_lt before] at there
    exact kept k before ii there

end

/-! ### What `remove_nops` does -/

/-- Where the instruction at `r` goes. -/
def Func.nopPlace (f : Func) (r : Op) : Op := f.bb[refBb r]?.elim r fun b => mkRef (refBb r) (relocNops b.insn (refI r))

/-- The references to the first `k` blocks are moved. -/
def Func.stagedPlace (f : Func) (k : Nat) (r : Op) : Op := if refBb r < k then f.nopPlace r else r

/-- The block `c` after the rounds for the first `k` blocks. -/
def Func.stagedBb (f : Func) (k c : Nat) (x : Bb) : Bb :=
  { x with insn := (if c < k then x.insn.filter Insn.notNop else x.insn).map (Insn.moved (f.stagedPlace k)) }

def Func.staged (f : Func) (k : Nat) : Func := { f with bb := f.bb.mapIdx (f.stagedBb k) }

section
variable {f : Func} {b : Bb} {r : Op} {ii : Insn} {k : Nat}

theorem nopPlace_eq (block : f.bb[refBb r]? = some b) : f.nopPlace r = mkRef (refBb r) (relocNops b.insn (refI r)) := by
  rw [Func.nopPlace, block, Option.elim_some]

theorem refBb_nopPlace : refBb (f.nopPlace r) = refBb r := by
  cases block : f.bb[refBb r]? with
  | none => rw [Func.nopPlace, block, Option.elim_none]
  | some b => rw [nopPlace_eq block, refBb_mkRef (ref_bound relocNops_le) (Nat.lt_of_le_of_lt relocNops_le (refI_lt r))]

theorem refI_nopPlace (block : f.bb[refBb r]? = some b) : refI (f.nopPlace r) = relocNops b.insn (refI r) := by
  rw [nopPlace_eq block, refI_mkRef (Nat.lt_of_le_of_lt relocNops_le (refI_lt r))]

theorem staged_getElem? (f : Func) (k c : Nat) : (f.staged k).bb[c]? = f.bb[c]?.map (f.stagedBb k c) := List.getElem?_mapIdx

theorem staged_zero (f : Func) : f.staged 0 = f := by
  have place : f.stagedPlace 0 = fun r => r := funext fun r => if_neg (Nat.not_lt_zero _)
  have same : f.bb.mapIdx (f.stagedBb 0) = f.bb := by
    apply List.ext_getElem?
    intro c
    rw [List.getElem?_mapIdx]
    cases f.bb[c]? with
    | none => rfl
    | some x =>
      simp only [Func.stagedBb, place, Nat.not_lt_zero, if_false, Option.map_some]
      rw [List.map_congr_left fun ii _ => moved_id, List.map_id']
  unfold Func.staged
  rw [same]

/-- A round moves the references to its block. -/
theorem place_staged (block : f.bb[k]? = some b) (r : Op) :
    (if refBb (f.stagedPlace k r) = k then mkRef k (relocNops (b.insn.map (Insn.moved (f.stagedPlace k))) (refI (f.stagedPlace k r)))
      else f.stagedPlace k r) = f.stagedPlace (k + 1) r := by
  unfold Func.stagedPlace
  rw [relocNops_moved]
  by_cases before : refBb r < k
  · rw [if_pos before, refBb_nopPlace, if_neg (Nat.ne_of_lt before), if_pos (Nat.lt_succ_of_lt before)]
  · rw [if_neg before]
    by_cases here : refBb r = k
    · subst here
      rw [if_pos rfl, if_pos (Nat.lt_succ_self _), nopPlace_eq block]
    · rw [if_neg here, if_neg (by omega)]

theorem removeNopsOf_staged (f : Func) (inside : k < f.bb.length) : ((f.staged k).removeNopsOf k).1 = f.staged (k + 1) := by
  obtain ⟨b, block⟩ : ∃ b, f.bb[k]? = some b := ⟨_, List.getElem?_eq_getElem inside⟩
  have here := staged_getElem? f k k
  rw [block, Option.map_some, Func.stagedBb, if_neg (Nat.lt_irrefl k)] at here
  have step (l : List Insn) : (l.map (Insn.moved (f.stagedPlace k))).map
      (Insn.moved fun r => if refBb r = k then mkRef k (relocNops (b.insn.map (Insn.moved (f.stagedPlace k))) (refI r)) else r) =
      l.map (Insn.moved (f.stagedPlace (k + 1))) := by
    rw [List.map_map]
    apply List.map_congr_left
    intro ii _
    rw [Function.comp_apply, moved_moved]
    exact congrArg (fun place => ii.moved place) (funext (place_staged block))
  have blocks : ((f.staged k).bb.set k { b with insn := (b.insn.map (Insn.moved (f.stagedPlace k))).filter Insn.notNop }).map
      (fun c => { c with insn := c.insn.map (Insn.moved fun r =>
        if refBb r = k then mkRef k (relocNops (b.insn.map (Insn.moved (f.stagedPlace k))) (refI r)) else r) }) =
      (f.staged (k + 1)).bb := by
    apply List.ext_getElem?
    intro c
    rw [List.getElem?_map, List.getElem?_set, staged_getElem? f (k + 1)]
    by_cases same : k = c
    · subst same
      rw [if_pos rfl, if_pos (by rwa [Func.staged, List.length_mapIdx]), block, Option.map_some, Option.map_some, Func.stagedBb,
        if_pos (Nat.lt_succ_self k), filter_moved, step]
    · rw [if_neg same, staged_getElem?, Option.map_map]
      congr 1
      funext x
      rw [Function.comp_apply, Func.stagedBb, Func.stagedBb, step]
      by_cases before : c < k
      · rw [if_pos before, if_pos (Nat.lt_succ_of_lt before)]
      · rw [if_neg before, if_neg (by omega)]
  unfold Func.removeNopsOf
  rw [here]
  show ({ f.staged k with bb := _ } : Func) = _
  rw [blocks]
  rfl

theorem removeNops_eq (f : Func) : f.removeNops.1 = f.staged f.bb.length := by
  have rounds (k : Nat) (inside : k ≤ f.bb.length) :
      ((List.range k).foldl (fun s b => ((s.1.removeNopsOf b).1, s.2 || (s.1.removeNopsOf b).2)) (f, false)).1 = f.staged k := by
    induction k with
    | zero => exact (staged_zero f).symm
    | succ k ih =>
      rw [List.range_succ, List.foldl_append]
      show (Func.removeNopsOf _ k).1 = _
      rw [ih (by omega), removeNopsOf_staged f inside]
  exact rounds _ (Nat.le_refl _)

theorem removeNops_getElem? (f : Func) (c : Nat) : f.removeNops.1.bb[c]? = f.bb[c]?.map fun x =>
    { x with insn := (x.insn.filter Insn.notNop).map (Insn.moved f.nopPlace) } := by
  have place : f.stagedPlace f.bb.length = f.nopPlace := by
    funext r
    unfold Func.stagedPlace
    by_cases inside : refBb r < f.bb.length
    · rw [if_pos inside]
    · rw [if_neg inside, Func.nopPlace, List.getElem?_eq_none (by omega), Option.elim_none]
  rw [removeNops_eq, staged_getElem?]
  cases block : f.bb[c]? with
  | none => rfl
  | some x => rw [Option.map_some, Option.map_some, Func.stagedBb, place, if_pos (List.getElem?_eq_some_iff.mp block).1]

theorem insn?_eq_some : f.insn? r = some ii ↔ ∃ b, f.bb[refBb r]? = some b ∧ b.insn[refI r]? = some ii := Option.bind_eq_some_iff

/-- An instruction that is no NOP is found where it was moved to. -/
theorem removeNops_insn (there : f.insn? r = some ii) (kept : ii.notNop = true) :
    f.removeNops.1.insn? (f.nopPlace r) = some (ii.moved f.nopPlace) := by
  obtain ⟨b, block, place⟩ := insn?_eq_some.mp there
  rw [insn?_eq_some, refBb_nopPlace, refI_nopPlace block, removeNops_getElem?, block, Option.map_some]
  refine ⟨_, rfl, ?_⟩
  rw [List.getElem?_map, filter_relocNops place kept]
  rfl

theorem nopPlace_eq_self_iff (there : f.insn? r = some ii) :
    f.nopPlace r = r ↔ ∀ s jj, f.insn? s = some jj → refBb s = refBb r → refI s < refI r → jj.notNop = true := by
  obtain ⟨b, block, place⟩ := insn?_eq_some.mp there
  have inside : refI r ≤ b.insn.length := Nat.le_of_lt (List.getElem?_eq_some_iff.mp place).1
  have stays : f.nopPlace r = r ↔ relocNops b.insn (refI r) = refI r := by
    constructor
    · intro same
      rw [← refI_nopPlace block, same]
    · intro same
      exact ref_inj refBb_nopPlace (by rw [refI_nopPlace block, same])
  rw [stays, relocNops_eq_iff inside]
  constructor
  · intro all s jj found same before
    obtain ⟨b', block', place'⟩ := insn?_eq_some.mp found
    rw [same] at block'
    cases block.symm.trans block'
    exact all (refI s) before jj place'
  · intro all i before jj place'
    have bound : i < maxInsns := Nat.lt_trans before (refI_lt r)
    have block' := refBb_mkRef (ref_bound (Nat.le_of_lt before)) bound
    refine all (mkRef (refBb r) i) jj ?_ block' (by rwa [refI_mkRef bound])
    rw [insn?_eq_some, block', refI_mkRef bound]
    exact ⟨b, block, place'⟩

end

/-! ### What `expand_bb` does -/

/-- What the links between the blocks do not touch. -/
def Bb.cell (x : Bb) : List Insn × List Op := (x.insn, x.mdep)

section
variable {bb : List Bb} {b n : Nat} {i : Int}

theorem cells_modify (k : Nat) {g : Bb → Bb} (keeps : ∀ x, (g x).cell = x.cell) : (bb.modify k g).map Bb.cell = bb.map Bb.cell := by
  apply List.ext_getElem?
  intro c
  rw [List.getElem?_map, List.getElem?_map, List.getElem?_modify]
  cases bb[c]? with
  | none => rfl
  | some x =>
    show some (Bb.cell (if k = c then g x else x)) = some x.cell
    split
    · rw [keeps]
    · rfl

theorem cells_links (js : List Nat) : (js.foldl (linkGroup b n) bb).map Bb.cell = bb.map Bb.cell := by
  induction js generalizing bb with
  | nil => rfl
  | cons j js ih =>
    rw [List.foldl_cons, ih]
    refine (cells_modify _ ?_).trans (cells_modify _ ?_)
    · exact fun x => rfl
    · exact fun x => rfl

theorem cells_relink {last : Nat} : (relinkPrev b last bb i).map Bb.cell = bb.map Bb.cell := by
  unfold relinkPrev
  split
  · exact cells_modify _ fun _ => rfl
  · rfl

end

theorem le_maxGroup {group : Nat → Nat} {len i : Nat} (inside : i < len) : group i ≤ maxGroup group len := by
  unfold maxGroup
  induction len with
  | zero => exact absurd inside (Nat.not_lt_zero i)
  | succ len ih =>
    rw [List.range_succ, List.foldl_append]
    show group i ≤ max _ (group len)
    rcases Nat.lt_succ_iff_lt_or_eq.mp inside with before | rfl
    · exact (ih before).trans (Nat.le_max_left _ _)
    · exact Nat.le_max_right _ _

/-- A block whose dependencies are listed once is copied with all of them. -/
theorem cpyBb_cell {x copy : Bb} (copied : cpyBb x = some copy) (dep : ∀ ii ∈ x.insn, ii.dep.Nodup) (mdep : x.mdep.Nodup) :
    copy.cell = x.cell := by
  unfold cpyBb at copied
  obtain ⟨tim, -, rfl⟩ := Option.map_eq_some_iff.mp copied
  show (_, _) = (x.insn, x.mdep)
  rw [map_dep_eq_iff.mpr dep, copyDeps_eq_iff.mpr mdep]

/-- The instructions of block `c` after the expansion. -/
def splitInsn (b n : Nat) (group : Nat → Nat) (c : Nat) (l : List Insn) : List Insn :=
  if c = b then keepGroup group 0 (l.map (Insn.moved (regroup b n group)))
  else if n ≤ c then keepGroup group (c + 1 - n) (l.map (Insn.moved (regroup b n group)))
  else l.map (Insn.moved (regroup b n group))

/-- The blocks after the deletion, before they are linked. -/
def splitBbs (b n : Nat) (group : Nat → Nat) (bb : List Bb) : List Bb :=
  (bb.map fun c => { c with insn := c.insn.map (Insn.moved (regroup b n group)) }).mapIdx fun c x =>
    if c = b then { x with insn := keepGroup group 0 x.insn }
    else if n ≤ c then { x with insn := keepGroup group (c + 1 - n) x.insn }
    else x

theorem splitBbs_cells (b n : Nat) (group : Nat → Nat) (bb : List Bb) (c : Nat) :
    ((splitBbs b n group bb).map Bb.cell)[c]? = bb[c]?.map fun y => (splitInsn b n group c y.insn, y.mdep) := by
  unfold splitBbs
  rw [List.getElem?_map, List.getElem?_mapIdx, List.getElem?_map]
  cases bb[c]? with
  | none => rfl
  | some y =>
    show some (Bb.cell (if c = b then _ else if n ≤ c then _ else _)) = some (splitInsn b n group c y.insn, y.mdep)
    unfold splitInsn
    by_cases first : c = b
    · rw [if_pos first, if_pos first]
      rfl
    · rw [if_neg first, if_neg first]
      by_cases new : n ≤ c
      · rw [if_pos new, if_pos new]
        rfl
      · rw [if_neg new, if_neg new]
        rfl

section
variable {f f' : Func} {b : Nat} {group : Nat → Nat}

/-- What the blocks have in them: those that were there their own, the others what block `b` had. -/
theorem expandBb_spec (done : f.expandBb b group = some f')
    (once : ∀ x, f.bb[b]? = some x → x.mdep.Nodup ∧ ∀ ii ∈ x.insn, ii.dep.Nodup) :
    ∃ x, f.bb[b]? = some x ∧ f.bb.length + maxGroup group x.insn.length < maxBb ∧ f'.msched = f.msched ∧
      f'.bb.length = f.bb.length + maxGroup group x.insn.length ∧
      ∀ c < f'.bb.length, ∃ y, f.bb[if c < f.bb.length then c else b]? = some y ∧
        f'.bb[c]?.map Bb.cell = some (splitInsn b f.bb.length group c y.insn, y.mdep) := by
  obtain ⟨x, block, done⟩ := Option.bind_eq_some_iff.mp done
  obtain ⟨mdep, dep⟩ := once x block
  dsimp only at done
  by_cases room : f.bb.length + maxGroup group x.insn.length < maxBb
  · rw [if_pos room] at done
    obtain ⟨copies, copied, made⟩ := Option.map_eq_some_iff.mp done
    obtain ⟨length, same⟩ : copies.length = maxGroup group x.insn.length ∧ ∀ y ∈ copies, y.cell = x.cell := by
      split at copied
      · next none =>
        cases copied
        exact ⟨none.symm, fun y inside => absurd inside List.not_mem_nil⟩
      · obtain ⟨copy, made', rfl⟩ := Option.map_eq_some_iff.mp copied
        refine ⟨List.length_replicate, fun y inside => ?_⟩
        rw [List.eq_of_mem_replicate inside]
        exact cpyBb_cell made' dep mdep
    have cells : f'.bb.map Bb.cell = (splitBbs b f.bb.length group (f.bb ++ copies)).map Bb.cell := by
      subst made
      exact cells_relink.trans (cells_relink.trans (cells_links _))
    have blocks : f'.bb.length = f.bb.length + maxGroup group x.insn.length := by
      have lengths := congrArg List.length cells
      rw [List.length_map, List.length_map, splitBbs, List.length_mapIdx, List.length_map, List.length_append, length] at lengths
      exact lengths
    refine ⟨x, block, room, by rw [← made], blocks, fun c inside => ?_⟩
    have here : f'.bb[c]?.map Bb.cell = (f.bb ++ copies)[c]?.map fun y => (splitInsn b f.bb.length group c y.insn, y.mdep) := by
      rw [← List.getElem?_map, cells, splitBbs_cells]
    rw [here]
    by_cases old : c < f.bb.length
    · rw [if_pos old, List.getElem?_append_left old, List.getElem?_eq_getElem old]
      exact ⟨_, rfl, rfl⟩
    · have bound : c - f.bb.length < copies.length := by omega
      have equal : copies[c - f.bb.length].cell = x.cell := same _ (List.getElem_mem bound)
      have insn : copies[c - f.bb.length].insn = x.insn := congrArg Prod.fst equal
      have mdep : copies[c - f.bb.length].mdep = x.mdep := congrArg Prod.snd equal
      rw [if_neg old, List.getElem?_append_right (by omega), List.getElem?_eq_getElem bound, Option.map_some, insn, mdep]
      exact ⟨x, block, rfl⟩
  · rw [if_neg room] at done
    cases done

theorem insn?_cell {r : Op} {l : List Insn} {m : List Op} (cell : f.bb[refBb r]?.map Bb.cell = some (l, m)) :
    f.insn? r = l[refI r]? := by
  obtain ⟨x, block, same⟩ := Option.map_eq_some_iff.mp cell
  cases same
  rw [Func.insn?, block, Option.bind_some]

theorem keepGroup_getElem? (j : Nat) (l : List Insn) (i : Nat) :
    (keepGroup group j l)[i]? = l[i]?.map fun ii => if group i = j then ii else ii.changeInsnType .nop := List.getElem?_mapIdx

theorem refBb_lt {r : Op} {ii : Insn} (there : f.insn? r = some ii) : refBb r < f.bb.length := by
  obtain ⟨x, block, -⟩ := insn?_eq_some.mp there
  exact (List.getElem?_eq_some_iff.mp block).1

/-- In the blocks that were there the instructions of other groups become NOPs. -/
theorem expandBb_old (done : f.expandBb b group = some f')
    (once : ∀ x, f.bb[b]? = some x → x.mdep.Nodup ∧ ∀ ii ∈ x.insn, ii.dep.Nodup) {r : Op} (old : refBb r < f.bb.length) :
    f'.insn? r = (f.insn? r).map fun ii =>
      if refBb r = b ∧ group (refI r) ≠ 0 then (ii.moved (regroup b f.bb.length group)).changeInsnType .nop
      else ii.moved (regroup b f.bb.length group) := by
  obtain ⟨x, -, -, -, length, cells⟩ := expandBb_spec done once
  obtain ⟨y, block, cell⟩ := cells (refBb r) (by omega)
  rw [if_pos old] at block
  rw [insn?_cell cell, Func.insn?, block, Option.bind_some, splitInsn]
  by_cases first : refBb r = b
  · rw [if_pos first, keepGroup_getElem?, List.getElem?_map, Option.map_map]
    congr 1
    funext ii
    rw [Function.comp_apply]
    by_cases zero : group (refI r) = 0
    · rw [if_pos zero, if_neg fun both => both.2 zero]
    · rw [if_neg zero, if_pos ⟨first, zero⟩]
  · rw [if_neg first, if_neg (by omega), List.getElem?_map]
    congr 1
    funext ii
    rw [if_neg fun both => first both.1]

/-- An instruction of another group than the first is in the block of its group. -/
theorem expandBb_new (done : f.expandBb b group = some f')
    (once : ∀ x, f.bb[b]? = some x → x.mdep.Nodup ∧ ∀ ii ∈ x.insn, ii.dep.Nodup) {r : Op} {ii : Insn} (there : f.insn? r = some ii)
    (first : refBb r = b) (other : group (refI r) ≠ 0) :
    refBb (regroup b f.bb.length group r) = f.bb.length + group (refI r) - 1 ∧
      f'.insn? (regroup b f.bb.length group r) = some (ii.moved (regroup b f.bb.length group)) := by
  obtain ⟨x, block, room, -, length, cells⟩ := expandBb_spec done once
  obtain ⟨x', block', place⟩ := insn?_eq_some.mp there
  rw [first] at block'
  cases block.symm.trans block'
  have inside := (List.getElem?_eq_some_iff.mp block).1
  have highest : group (refI r) ≤ maxGroup group x.insn.length := le_maxGroup (List.getElem?_eq_some_iff.mp place).1
  have bound := refI_lt r
  have is : regroup b f.bb.length group r = mkRef (f.bb.length + group (refI r) - 1) (refI r) := if_pos ⟨first, other⟩
  have number : refBb (regroup b f.bb.length group r) = f.bb.length + group (refI r) - 1 := by
    rw [is]
    refine refBb_mkRef ?_ bound
    simp only [maxBb, maxInsns] at *
    omega
  refine ⟨number, ?_⟩
  obtain ⟨y, block'', cell⟩ := cells (f.bb.length + group (refI r) - 1) (by omega)
  rw [if_neg (by omega)] at block''
  cases block.symm.trans block''
  rw [← number] at cell
  rw [insn?_cell cell, number, splitInsn, if_neg (by omega), if_pos (by omega), keepGroup_getElem?, is, refI_mkRef bound,
    List.getElem?_map, place,
    Option.map_some, Option.map_some, if_pos (by omega)]

/-- An instruction that is no NOP is found where it was moved to. -/
theorem expandBb_insn (done : f.expandBb b group = some f')
    (once : ∀ x, f.bb[b]? = some x → x.mdep.Nodup ∧ ∀ ii ∈ x.insn, ii.dep.Nodup) {r : Op} {ii : Insn} (there : f.insn? r = some ii) :
    f'.insn? (regroup b f.bb.length group r) = some (ii.moved (regroup b f.bb.length group)) := by
  by_cases other : refBb r = b ∧ group (refI r) ≠ 0
  · exact (expandBb_new done once there other.1 other.2).2
  · have stays : regroup b f.bb.length group r = r := if_neg other
    rw [stays, expandBb_old done once (refBb_lt there), there, Option.map_some, if_neg other]

end

/-! ### Renumbered functions -/

/-- A reference to an instruction that is no NOP. -/
def Func.Denotes (f : Func) (s : Op) : Prop := ∃ ii, f.insn? s = some ii ∧ ii.notNop = true

/-- The accesses of a block that others depend on, and the schedule. -/
def Func.memoryRefs (f : Func) : List Op := f.bb.flatMap Bb.mdep ++ f.msched.map Scheduled.ref

/-- No operand, dependency or entry of the schedule denotes a NOP, and `add_dep` has listed every dependency once. -/
structure Func.Denoting (f : Func) : Prop where
  operand : ∀ b ∈ f.bb, ∀ ii ∈ b.insn, ∀ s, ii.RefersTo s → f.Denotes s
  dep : ∀ b ∈ f.bb, ∀ ii ∈ b.insn, ∀ s ∈ ii.dep, f.Denotes s
  memory : ∀ s ∈ f.memoryRefs, f.Denotes s
  onceDep : ∀ b ∈ f.bb, ∀ ii ∈ b.insn, ii.dep.Nodup
  onceMdep : ∀ b ∈ f.bb, b.mdep.Nodup

/-- Every instruction is at its new place, and the references that were to its old one are to the new one: those of the operands and
dependencies, those of a block, which has them from the block `origin` says, and those of the schedule. -/
structure Renumbered (place : Op → Op) (origin : Nat → Nat) (f f' : Func) : Prop where
  insn : ∀ r ii, f.insn? r = some ii → ii.notNop = true → f'.insn? (place r) = some (ii.moved place)
  mdep : ∀ c b', f'.bb[c]? = some b' → ∃ b, f.bb[origin c]? = some b ∧ b'.mdep = b.mdep.map place
  msched : f'.msched = f.msched.map fun m => { m with ref := place m.ref }

/-- All instructions before `s` in its block. -/
def Func.Leading (f : Func) (keeps : Op → Insn → Prop) (s : Op) : Prop :=
  ∀ t jj, f.insn? t = some jj → refBb t = refBb s → refI t < refI s → keeps t jj

section
variable {f f' : Func} {place : Op → Op} {origin : Nat → Nat}

theorem map_eq_self_iff {α : Type} {l : List α} {g : α → α} : l = l.map g ↔ ∀ x ∈ l, g x = x := by
  induction l with
  | nil => exact iff_of_true rfl fun x none => absurd none List.not_mem_nil
  | cons x l ih => rw [List.map_cons, List.cons.injEq, ih, List.forall_mem_cons, eq_comm]

/-- Where these references are left as they are, they have to stay right. -/
theorem renumbered_iff_stay (insn : ∀ r ii, f.insn? r = some ii → ii.notNop = true → f'.insn? (place r) = some (ii.moved place))
    (from_ : ∀ c b', f'.bb[c]? = some b' → ∃ b, f.bb[origin c]? = some b ∧ b'.mdep = b.mdep)
    (to_ : ∀ c b, f.bb[c]? = some b → ∃ b', f'.bb[c]? = some b' ∧ b'.mdep = b.mdep ∧ origin c = c) (msched : f'.msched = f.msched) :
    Renumbered place origin f f' ↔ ∀ s ∈ f.memoryRefs, place s = s := by
  constructor
  · intro renumbered s inside
    rcases List.mem_append.mp inside with left | scheduled
    · obtain ⟨b, block, inside⟩ := List.mem_flatMap.mp left
      obtain ⟨c, there⟩ := List.mem_iff_getElem?.mp block
      obtain ⟨b', there', same, is⟩ := to_ c b there
      obtain ⟨b'', there'', moved⟩ := renumbered.mdep c b' there'
      rw [is] at there''
      cases there.symm.trans there''
      exact map_eq_self_iff.mp (same.symm.trans moved) s inside
    · obtain ⟨m, there, rfl⟩ := List.mem_map.mp scheduled
      have moved := map_eq_self_iff.mp (msched.symm.trans renumbered.msched) m there
      exact congrArg Scheduled.ref moved
  · intro stay
    refine ⟨insn, fun c b' there' => ?_, ?_⟩
    · obtain ⟨b, there, same⟩ := from_ c b' there'
      refine ⟨b, there, same.trans (map_eq_self_iff.mpr fun s inside => stay s ?_)⟩
      exact List.mem_append_left _ (List.mem_flatMap.mpr ⟨b, List.mem_of_getElem? there, inside⟩)
    · rw [msched]
      refine map_eq_self_iff.mpr fun m inside => ?_
      rw [stay m.ref (List.mem_append_right _ (List.mem_map.mpr ⟨m, inside, rfl⟩))]

theorem inserted_renumbered {at_ : Op} {n : Nat} (fires : f.insertInsns at_ n = some f') : Renumbered (shiftRef at_ n) id f f' := by
  refine ⟨fun r ii there _ => ?_, fun c b' there' => ?_, ?_⟩
  · obtain ⟨b, block, there⟩ := insn?_eq_some.mp there
    obtain ⟨b', block', -, there'⟩ := inserted_place fires block there
    exact insn?_eq_some.mpr ⟨b', block', there'⟩
  · obtain ⟨-, -, -, -, rfl⟩ := insertInsns_of_some fires
    simp only [Func.inserted, List.getElem?_map, List.getElem?_modify] at there'
    cases block : f.bb[c]? with
    | none =>
      rw [block] at there'
      cases there'
    | some b =>
      rw [block] at there'
      cases there'
      refine ⟨b, block, ?_⟩
      show (if refBb at_ = c then _ else b : Bb).mdep.map _ = _
      split <;> rfl
  · obtain ⟨-, -, -, -, rfl⟩ := insertInsns_of_some fires
    rfl

theorem removeNops_msched (f : Func) : f.removeNops.1.msched = f.msched := by
  rw [removeNops_eq]
  rfl

theorem removeNops_mdep (f : Func) (c : Nat) : f.removeNops.1.bb[c]?.map Bb.mdep = f.bb[c]?.map Bb.mdep := by
  rw [removeNops_getElem?, Option.map_map]
  rfl

theorem removeNops_renumbered_iff (denoting : f.Denoting) :
    Renumbered f.nopPlace id f f.removeNops.1 ↔ ∀ s ∈ f.memoryRefs, f.Leading (fun _ jj => jj.notNop = true) s := by
  rw [renumbered_iff_stay (fun r ii there kept => removeNops_insn there kept) ?_ ?_ (removeNops_msched f)]
  · refine forall₂_congr fun s inside => ?_
    obtain ⟨ii, there, -⟩ := denoting.memory s inside
    exact nopPlace_eq_self_iff there
  · intro c b' there'
    have same := removeNops_mdep f c
    rw [there', Option.map_some, eq_comm, Option.map_eq_some_iff] at same
    obtain ⟨b, there, equal⟩ := same
    exact ⟨b, there, equal.symm⟩
  · intro c b there
    have same := removeNops_mdep f c
    rw [there, Option.map_some, Option.map_eq_some_iff] at same
    obtain ⟨b', there', equal⟩ := same
    exact ⟨b', there', equal, rfl⟩

end

/-- Where the instruction at `r` goes in an expansion and the removal of the NOPs that it leaves. -/
def Func.splitPlace (f f' : Func) (b : Nat) (group : Nat → Nat) (r : Op) : Op := f'.nopPlace (regroup b f.bb.length group r)

section
variable {f f' : Func} {b : Nat} {group : Nat → Nat}

theorem splitPlace_eq_self_iff (done : f.expandBb b group = some f')
    (once : ∀ x, f.bb[b]? = some x → x.mdep.Nodup ∧ ∀ ii ∈ x.insn, ii.dep.Nodup) {s : Op} {ii : Insn} (there : f.insn? s = some ii) :
    f.splitPlace f' b group s = s ↔
      (refBb s = b → group (refI s) = 0) ∧ f.Leading (fun t jj => jj.notNop = true ∧ (refBb t = b → group (refI t) = 0)) s := by
  have old := refBb_lt there
  unfold Func.splitPlace
  by_cases other : refBb s = b ∧ group (refI s) ≠ 0
  · have number := (expandBb_new done once there other.1 other.2).1
    refine iff_of_false (fun same => ?_) fun both => other.2 (both.1 other.1)
    have block := congrArg refBb same
    rw [refBb_nopPlace, number] at block
    omega
  · have stays : regroup b f.bb.length group s = s := if_neg other
    have there' := expandBb_old done once old
    rw [there, Option.map_some, if_neg other] at there'
    rw [stays, nopPlace_eq_self_iff there', and_iff_right fun first => by_contra fun group => other ⟨first, group⟩]
    constructor
    · intro all t jj found same before
      have found' := expandBb_old done once (r := t) (by rw [same]; exact old)
      rw [found, Option.map_some] at found'
      have kept := all t _ found' same before
      by_cases gone : refBb t = b ∧ group (refI t) ≠ 0
      · rw [if_pos gone] at kept
        exact absurd rfl (notNop_iff.mp kept)
      · rw [if_neg gone] at kept
        exact ⟨kept, fun first => by_contra fun group => gone ⟨first, group⟩⟩
    · intro all t jj' found' same before
      rw [expandBb_old done once (by rw [same]; exact old), Option.map_eq_some_iff] at found'
      obtain ⟨jj, found, rfl⟩ := found'
      obtain ⟨kept, zero⟩ := all t jj found same before
      rw [if_neg fun gone => gone.2 (zero gone.1)]
      exact kept

theorem expandBb_renumbered_iff (denoting : f.Denoting) (done : f.expandBb b group = some f') :
    Renumbered (f.splitPlace f' b group) (fun c => if c < f.bb.length then c else b) f f'.removeNops.1 ↔
      ∀ s ∈ f.memoryRefs, (refBb s = b → group (refI s) = 0) ∧
        f.Leading (fun t jj => jj.notNop = true ∧ (refBb t = b → group (refI t) = 0)) s := by
  have once : ∀ x, f.bb[b]? = some x → x.mdep.Nodup ∧ ∀ ii ∈ x.insn, ii.dep.Nodup := fun x block =>
    ⟨denoting.onceMdep x (List.mem_of_getElem? block), denoting.onceDep x (List.mem_of_getElem? block)⟩
  obtain ⟨x, -, -, msched, length, cells⟩ := expandBb_spec done once
  have mdep (c : Nat) (inside : c < f'.bb.length) : ∃ y, f.bb[if c < f.bb.length then c else b]? = some y ∧
      f'.removeNops.1.bb[c]?.map Bb.mdep = some y.mdep := by
    obtain ⟨y, block, cell⟩ := cells c inside
    refine ⟨y, block, ?_⟩
    rw [removeNops_mdep]
    have snd := congrArg (Option.map Prod.snd) cell
    rwa [Option.map_map] at snd
  have size (c : Nat) (b' : Bb) (there : f'.removeNops.1.bb[c]? = some b') : c < f'.bb.length := by
    rw [removeNops_getElem?, Option.map_eq_some_iff] at there
    obtain ⟨y, block, -⟩ := there
    exact (List.getElem?_eq_some_iff.mp block).1
  rw [renumbered_iff_stay ?_ ?_ ?_ ((removeNops_msched f').trans msched)]
  · refine forall₂_congr fun s inside => ?_
    obtain ⟨ii, there, -⟩ := denoting.memory s inside
    exact splitPlace_eq_self_iff done once there
  · intro r ii there kept
    have found := removeNops_insn (expandBb_insn done once there) kept
    rwa [moved_moved] at found
  · intro c b' there'
    obtain ⟨y, block, same⟩ := mdep c (size c b' there')
    rw [there', Option.map_some, Option.some.injEq] at same
    exact ⟨y, block, same⟩
  · intro c y there
    have inside := (List.getElem?_eq_some_iff.mp there).1
    obtain ⟨y', block, same⟩ := mdep c (by omega)
    rw [if_pos inside] at block
    cases there.symm.trans block
    obtain ⟨b', there', equal⟩ := Option.map_eq_some_iff.mp same
    exact ⟨b', there', equal, if_pos inside⟩

end

/-- `insert_insns` moves every reference. `remove_nops`, also behind `expand_bb`, leaves those in `mdep` and `msched` as they are, and
they are right exactly if nothing before them in their block is removed and they are in no other group than the first. -/
theorem renumbered_iff {f : Func} (denoting : f.Denoting) :
    (∀ at_ n f', f.insertInsns at_ n = some f' → Renumbered (shiftRef at_ n) id f f') ∧
      (Renumbered f.nopPlace id f f.removeNops.1 ↔ ∀ s ∈ f.memoryRefs, f.Leading (fun _ jj => jj.notNop = true) s) ∧
      ∀ b group f', f.expandBb b group = some f' →
        (Renumbered (f.splitPlace f' b group) (fun c => if c < f.bb.length then c else b) f f'.removeNops.1 ↔
          ∀ s ∈ f.memoryRefs, (refBb s = b → group (refI s) = 0) ∧
            f.Leading (fun t jj => jj.notNop = true ∧ (refBb t = b → group (refI t) = 0)) s) :=
  ⟨fun _ _ _ fires => inserted_renumbered fires, removeNops_renumbered_iff denoting,
    fun _ _ _ done => expandBb_renumbered_iff denoting done⟩

def Func.denotes (f : Func) (s : Op) : Bool := (f.insn? s).any Insn.notNop

def Insn.denoting (f : Func) (ii : Insn) : Bool :=
  ((List.finRange 5).all fun k => ii.opt k ≠ .ref || f.denotes (ii.op k)) && ii.dep.all f.denotes && decide ii.dep.Nodup

theorem denotes_iff {f : Func} {s : Op} : f.denotes s = true ↔ f.Denotes s := Option.any_eq_true _ _

/-- That a function is as the passes expect it can be computed. -/
theorem denoting_of_computed {f : Func} (block : (f.bb.all fun b => b.insn.all (Insn.denoting f) && decide b.mdep.Nodup) = true)
    (memory : f.memoryRefs.all f.denotes = true) : f.Denoting := by
  simp only [List.all_eq_true, Bool.and_eq_true, decide_eq_true_eq, Insn.denoting, denotes_iff, Bool.or_eq_true, List.mem_finRange,
    true_imp_iff] at block memory
  constructor
  · rintro b inside ii there s ⟨k, ref, rfl⟩
    exact (((block b inside).1 ii there).1.1 k).resolve_left fun other => other ref
  · exact fun b inside ii there => ((block b inside).1 ii there).1.2
  · exact memory
  · exact fun b inside ii there => ((block b inside).1 ii there).2
  · exact fun b inside => (block b inside).2

def access (index : Index) : Insn := { index, opt := fun _ => .none, op := fun _ => 0 }

/-- The instruction with a reference as its first source. -/
def reading (index : Index) (r : Op) : Insn := (access index).setOp 1 .ref r

/-- A load, a store of its value that waits for it, and behind a NOP a sum of the same value and its negation. -/
def waiting : Func :=
  { bb := [{ insn := [access .lw, { reading .sw (mkRef 0 0) with dep := [mkRef 0 0] }, nop, reading .add (mkRef 0 0),
               reading .sub (mkRef 0 3)]
             mdep := [mkRef 0 0, mkRef 0 1] }]
    msched := [{ ref := mkRef 0 0 }, { ref := mkRef 0 1 }] }

/-- The sum and what it is used for come into a block of their own. -/
def secondGroup (i : Nat) : Nat := if i ≤ 2 then 0 else 1

/-- All passes renumber it: the sum, with the reference to it, comes behind two more instructions, or one place to the front, or to the
front of the second block. -/
theorem renumbered_scheduled :
    (∃ f', waiting.insertInsns (mkRef 0 1) 2 = some f' ∧ Renumbered (shiftRef (mkRef 0 1) 2) id waiting f') ∧
      (Renumbered waiting.nopPlace id waiting waiting.removeNops.1 ∧ waiting.nopPlace (mkRef 0 3) = mkRef 0 2) ∧
      ∃ f', waiting.expandBb 0 secondGroup = some f' ∧ waiting.splitPlace f' 0 secondGroup (mkRef 0 3) = mkRef 1 0 ∧
        Renumbered (waiting.splitPlace f' 0 secondGroup) (fun c => if c < waiting.bb.length then c else 0) waiting f'.removeNops.1 := by
  have denoting : waiting.Denoting := denoting_of_computed (by decide +kernel) (by decide +kernel)
  obtain ⟨inserted, removed, expanded⟩ := renumbered_iff denoting
  have early : ∀ s ∈ waiting.memoryRefs, refBb s = 0 ∧ refI s ≤ 1 := by
    have computed : (waiting.memoryRefs.all fun s => decide (refBb s = 0 ∧ refI s ≤ 1)) = true := by decide +kernel
    exact fun s inside => of_decide_eq_true (List.all_eq_true.mp computed s inside)
  have leading : ∀ s ∈ waiting.memoryRefs, waiting.Leading
      (fun t jj => jj.notNop = true ∧ (refBb t = 0 → secondGroup (refI t) = 0)) s := by
    intro s inside t jj found same before
    obtain ⟨block, place⟩ := early s inside
    have front : refI t = 0 := by omega
    rw [Func.insn?, same, block, front] at found
    cases (Option.some.inj found : access .lw = jj)
    exact ⟨rfl, fun _ => by rw [front]; rfl⟩
  refine ⟨?_, ⟨removed.mpr fun s inside t jj found same before => (leading s inside t jj found same before).1, by decide +kernel⟩, ?_⟩
  · obtain ⟨f', fires⟩ := Option.isSome_iff_exists.mp (show (waiting.insertInsns (mkRef 0 1) 2).isSome = true by decide +kernel)
    exact ⟨f', fires, inserted _ _ _ fires⟩
  · obtain ⟨f', done, moved⟩ := Option.map_eq_some_iff.mp
      (show (waiting.expandBb 0 secondGroup).map (fun f' => waiting.splitPlace f' 0 secondGroup (mkRef 0 3)) =
        some (mkRef 1 0) by decide +kernel)
    exact ⟨f', done, moved, (expanded _ _ _ done).mpr fun s inside =>
      ⟨fun _ => if_pos ((early s inside).2.trans (by decide)), leading s inside⟩⟩

/-- A block of a NOP, a load and a store, the latter two scheduled. -/
def scheduled : Func :=
  { bb := [{ insn := [nop, access .lw, access .sw] }]
    msched := [{ ref := mkRef 0 1 }, { ref := mkRef 0 2 }] }

/-- Behind a NOP the entry of the load comes to denote the store. -/
theorem removeNops_stale : ¬ ∀ f : Func, f.Denoting → Renumbered f.nopPlace id f f.removeNops.1 := by
  intro claim
  have moved := (claim scheduled (denoting_of_computed (by decide +kernel) (by decide +kernel))).msched
  rw [removeNops_msched] at moved
  exact absurd moved (by decide)

end Or1ksim.Cuc
