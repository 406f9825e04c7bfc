import Or1ksim.Lib.Dataflow
import Or1ksim.Cuc.Insn

/-!
# Functions as dataflow graphs

An instruction is referred to by its block and its place there. What an instruction computes from its operands is an equation of
the graph; the values for one input solve these equations.
-/

namespace Or1ksim.Cuc

open Dataflow

/-- An instruction that may be shared. -/
structure SharedItem where
  ref : Int
  cmatch : Int
  deriving DecidableEq

/-- The timings of an implementation; `size` is the encoding of a `double`. -/
structure Timings where
  b : Int := 0
  preroll : Int := 0
  unroll : Int := 0
  shared : List SharedItem := []
  newTime : Int := 0
  size : BitVec 64 := 0
  deriving DecidableEq

/-- A basic block, with the memory accesses that the ones behind it depend on. -/
structure Bb where
  dead : Bool := false
  inloop : Bool := false
  optional : Bool := false
  first : Int := 0
  last : Int := 0
  prev : Fin 2 → Int := fun _ => -1
  next : Fin 2 → Int := fun _ => -1
  tmp : Int := 0
  insn : List Insn := []
  lastUsedReg : Fin 34 → Int := fun _ => 0
  mdep : List Op := []
  nmemory : Int := 0
  cnt : Int := 0
  unrolled : Int := 0
  tim : List Timings := []
  selectedTim : Int := -1
  deriving DecidableEq

/-- The kind of a scheduled memory access. -/
structure Mtype where
  width : Nat := 0
  burst : Bool := false
  burste : Bool := false
  call : Bool := false
  load : Bool := false
  store : Bool := false
  signed : Bool := false
  deriving DecidableEq

/-- An entry of the schedule, of `msched` and of `mtype`. -/
structure Scheduled where
  ref : Op
  mtype : Mtype := {}
  deriving DecidableEq

inductive MemoryOrder where
  | none | weak | strong | exact
  deriving DecidableEq

/-- A function, with its schedule of memory accesses and the functions it calls. -/
structure Func where
  bb : List Bb
  savedRegs : Fin 34 → Int := fun _ => 0
  lur : Fin 34 → Int := fun _ => 0
  usedRegs : Fin 34 → Int := fun _ => 0
  msched : List Scheduled := []
  initBbReloc : List Int := []
  origTime : Int := 0
  numRuns : Int := 0
  timings : Timings := {}
  startAddr : BitVec 64 := 0
  endAddr : BitVec 64 := 0
  memoryOrder : MemoryOrder := .none
  fdeps : List Nat := []
  tmp : Int := 0
  deriving DecidableEq

/-- `MAX_INSNS`. -/
def maxInsns : Nat := 65536

def refBb (r : Op) : Nat := r.toNat / maxInsns
def refI (r : Op) : Nat := r.toNat % maxInsns

/-- `f->INSN (r)`. -/
def Func.insn? (f : Func) (r : Op) : Option Insn := f.bb[refBb r]?.bind fun b => b.insn[refI r]?

/-- The same for the blocks that the passes look at. -/
def Func.live? (f : Func) (r : Op) : Option Insn := f.bb[refBb r]?.bind fun b => if b.dead then none else b.insn[refI r]?

def Func.modify (f : Func) (r : Op) (g : Insn → Insn) : Func :=
  { f with bb := f.bb.modify (refBb r) fun b => { b with insn := b.insn.modify (refI r) g } }

def Func.set (f : Func) (r : Op) (ii : Insn) : Func := f.modify r fun _ => ii

/-- All instructions of the blocks that are not dead. -/
def Func.mapLive (f : Func) (g : Insn → Insn) : Func :=
  { f with bb := f.bb.map fun b => if b.dead then b else { b with insn := b.insn.map g } }

section
variable {f : Func} {r s : Op} {ii : Insn} {g : Insn → Insn}

theorem ref_inj (block : refBb r = refBb s) (place : refI r = refI s) : r = s := by
  have low := Nat.div_add_mod r.toNat maxInsns
  have high := Nat.div_add_mod s.toNat maxInsns
  exact BitVec.eq_of_toNat_eq (by simp only [refBb, refI] at *; rw [← low, ← high, block, place])

theorem insn?_of_live? (live : f.live? r = some ii) : f.insn? r = some ii := by
  unfold Func.live? at live
  unfold Func.insn?
  cases block : f.bb[refBb r]? with
  | none => simp [block] at live
  | some b =>
    rw [block, Option.bind_some] at live
    split_ifs at live with dead
    exact live

theorem live?_modify : (f.modify r g).live? s = (f.live? s).map fun ii => if s = r then g ii else ii := by
  unfold Func.live? Func.modify
  rw [List.getElem?_modify]
  cases block : f.bb[refBb s]? with
  | none => simp
  | some b =>
    by_cases same : refBb r = refBb s
    · by_cases dead : b.dead
      · simp [same, dead]
      · by_cases place : refI r = refI s
        · simp [dead, ref_inj same place]
        · have apart : s ≠ r := fun equal => place (by rw [equal])
          simp [same, dead, place, apart]
    · have apart : s ≠ r := fun equal => same (by rw [equal])
      simp [same, apart]

theorem live?_set : (f.set r ii).live? s = (f.live? s).map fun old => if s = r then ii else old := live?_modify

theorem live?_mapLive : (f.mapLive g).live? s = (f.live? s).map g := by
  unfold Func.live? Func.mapLive
  rw [List.getElem?_map]
  cases block : f.bb[refBb s]? with
  | none => rfl
  | some b => by_cases dead : b.dead <;> simp [dead]

end

theorem live?_single {l : List Insn} {r : Op} {ii : Insn} (live : ({ bb := [{ insn := l }] } : Func).live? r = some ii) :
    l[r.toNat]? = some ii := by
  unfold Func.live? at live
  by_cases first : refBb r = 0
  · have small : r.toNat < maxInsns := (Nat.div_eq_zero_iff_lt (by decide)).mp first
    have place : refI r = r.toNat := Nat.mod_eq_of_lt small
    simpa [first, place] using live
  · simp [first] at live

/-! ### Values -/

/-- What a run of the function starts from and what comes from outside: the registers, and what an instruction without an
assignment in the table delivers for its operands. -/
structure Input where
  other : Opt → Op → Word
  outside : Op → Index → (Fin 5 → Word) → Word

/-- What an instruction reads: a destination is not read. -/
def Insn.sources (i : Insn) (e : Env) (k : Fin 5) : Word := if i.opt k = .dest then 0 else i.operand e k

/-- What the instruction at `r` delivers for these values of the others; a NOP reads nothing. -/
def Insn.result (i : Insn) (x : Input) (r : Op) (v : Op → Word) : Word :=
  match i.value ⟨v, x.other⟩ with
  | some w => w
  | none => if i.index = .nop then 0 else x.outside r i.index (i.sources ⟨v, x.other⟩)

/-- The operand `k` of the instruction refers to `r`. -/
def Insn.RefersTo (i : Insn) (r : Op) : Prop := ∃ k, i.opt k = .ref ∧ i.op k = r

theorem Insn.operand_agree {i : Insn} {other : Opt → Op → Word} {v w : Op → Word} (same : ∀ s, i.RefersTo s → v s = w s) (k : Fin 5) :
    i.operand ⟨v, other⟩ k = i.operand ⟨w, other⟩ k := by
  cases kind : i.opt k
  case ref =>
    rw [operand_ref kind, operand_ref kind]
    exact same _ ⟨k, kind, rfl⟩
  all_goals
    rw [Insn.operand, Insn.operand, kind]
    rfl

theorem Insn.result_congr {i : Insn} {x : Input} {r : Op} {v w : Op → Word} (same : ∀ s, i.RefersTo s → v s = w s) :
    i.result x r v = i.result x r w := by
  have operand : ∀ k, i.operand ⟨v, x.other⟩ k = i.operand ⟨w, x.other⟩ k := Insn.operand_agree same
  have value : i.value ⟨v, x.other⟩ = i.value ⟨w, x.other⟩ := by simp only [Insn.value, operand]
  have sources : i.sources ⟨v, x.other⟩ = i.sources ⟨w, x.other⟩ := funext fun k => by simp only [Insn.sources, operand]
  rw [Insn.result, Insn.result, value, sources]

section
variable {x : Input} {v : Op → Word} {r : Op} {ii ii' : Insn}

theorem result_of_value {w : Word} (value : ii.value ⟨v, x.other⟩ = some w) : ii.result x r v = w := by
  rw [Insn.result, value]

theorem result_eq_iff (some : (ii.value ⟨v, x.other⟩).isSome) (some' : (ii'.value ⟨v, x.other⟩).isSome) :
    ii'.result x r v = ii.result x r v ↔ ii'.value ⟨v, x.other⟩ = ii.value ⟨v, x.other⟩ := by
  obtain ⟨w, value⟩ := Option.isSome_iff_exists.mp some
  obtain ⟨w', value'⟩ := Option.isSome_iff_exists.mp some'
  rw [result_of_value value, result_of_value value', value, value', Option.some.injEq]

theorem nop_result (nop : ii.index = .nop) : ii.result x r v = 0 := by
  have value : ii.value ⟨v, x.other⟩ = none := by rw [Insn.value, nop]; rfl
  rw [Insn.result, value]
  exact if_pos nop

end

/-- The equations of the instructions of a function. -/
def Func.system (f : Func) (x : Input) : System Op Word where
  eqn r v := ((f.live? r).map fun ii => ii.result x r v).getD 0
  Reads r s := ∃ ii, f.live? r = some ii ∧ ii.RefersTo s
  reads_eq r v w same := by
    cases live : f.live? r with
    | none => rfl
    | some ii => exact Insn.result_congr fun s refers => same s ⟨ii, live, refers⟩

/-- The values of the instructions for an input. -/
def Func.Values (f : Func) (x : Input) (v : Op → Word) : Prop := ∀ r ii, f.live? r = some ii → v r = ii.result x r v

/-- An instruction that some instruction refers to. -/
def Func.Referenced (f : Func) (r : Op) : Prop := ∃ s ii, f.live? s = some ii ∧ ii.RefersTo r

/-- What the passes take for granted of an acyclic graph: references lead to instructions, which have a destination; only the first
operand is one; and a register has one instruction that holds its final value, as its destination. -/
structure Func.Acyclic (f : Func) : Prop where
  valid : ∀ r ii s, f.live? r = some ii → ii.RefersTo s → ∃ t, f.live? s = some t ∧ t.opt 0 = .dest
  first : ∀ r ii k, f.live? r = some ii → ii.opt k = .dest → k = 0
  ranked : ∃ rank : Op → Nat, ∀ r ii s, f.live? r = some ii → ii.RefersTo s → rank s < rank r
  holder : ∀ r ii, f.live? r = some ii → ii.type.output → ii.opt 0 = .dest
  outputs : ∀ r s ii jj, f.live? r = some ii → f.live? s = some jj → ii.type.output → jj.type.output → ii.op 0 = jj.op 0 → r = s

/-- The instructions that are still referred to have the values they had, and the registers have the final values they had. -/
structure Kept (f f' : Func) (v v' : Op → Word) : Prop where
  referenced : ∀ r, f'.Referenced r → v' r = v r
  outputs : ∀ r ii, f.live? r = some ii → ii.type.output →
    ∃ s jj, f'.live? s = some jj ∧ jj.type.output ∧ jj.op 0 = ii.op 0 ∧ v' s = v r

section
variable {f f' : Func} {x : Input} {v v' : Op → Word} {r s : Op} {ii ii' : Insn}

theorem Func.Acyclic.acyclic (wf : f.Acyclic) : (f.system x).Acyclic := by
  obtain ⟨rank, lower⟩ := wf.ranked
  refine acyclic_of_rank rank fun n m reads => ?_
  obtain ⟨ii, live, refers⟩ := reads
  exact lower n ii m live refers

theorem Func.Acyclic.not_self (wf : f.Acyclic) (live : f.live? r = some ii) : ¬ii.RefersTo r := by
  obtain ⟨rank, lower⟩ := wf.ranked
  exact fun refers => absurd (lower r ii r live refers) (Nat.lt_irrefl _)

theorem system_eqn (live : f.live? r = some ii) : (f.system x).eqn r v = ii.result x r v := by
  simp only [Func.system, live, Option.map_some, Option.getD_some]

theorem values_iff : f.Values x v ↔ (f.system x).Solves (fun r => (f.live? r).isSome) v := by
  constructor
  · intro values r live
    obtain ⟨ii, live⟩ := Option.isSome_iff_exists.mp live
    rw [values r ii live, system_eqn live]
  · intro solves r ii live
    rw [solves r (by simp [live]), system_eqn live]

/-- There are values for every input. -/
theorem Func.Acyclic.exists_values (wf : f.Acyclic) (x : Input) : ∃ v, f.Values x v := by
  obtain ⟨v, solves⟩ := exists_solution (wf.acyclic (x := x)) 0
  exact ⟨v, values_iff.mpr fun r _ => solves r⟩

theorem Func.Acyclic.closed (wf : f.Acyclic) : (f.system x).Closed fun r => (f.live? r).isSome := by
  rintro r s - ⟨ii, live, refers⟩
  obtain ⟨t, live', -⟩ := wf.valid r ii s live refers
  simp [live']
end

/-! ### One instruction is rewritten -/

/-- The new instruction reads only what the old one reads, or what the ones read that the old one refers to. -/
def Func.Within (f : Func) (ii ii' : Insn) : Prop :=
  ∀ s, ii'.RefersTo s → ii.RefersTo s ∨ ∃ t jj, ii.RefersTo t ∧ f.live? t = some jj ∧ jj.RefersTo s

section
variable {f : Func} {x : Input} {v v' : Op → Word} {r s : Op} {ii ii' jj : Insn}

theorem live?_set_ne (apart : s ≠ r) : (f.set r ii').live? s = f.live? s := by
  rw [live?_set]
  simp [apart]

theorem live?_set_self (live : f.live? r = some ii) : (f.set r ii').live? r = some ii' := by simp [live?_set, live]

theorem Func.Within.lower {rank : Op → Nat} (lower : ∀ r ii s, f.live? r = some ii → ii.RefersTo s → rank s < rank r)
    (live : f.live? r = some ii) (within : f.Within ii ii') (refers : ii'.RefersTo s) : rank s < rank r := by
  obtain direct | ⟨t, jj, first, live', second⟩ := within s refers
  · exact lower r ii s live direct
  · exact (lower t jj s live' second).trans (lower r ii t live first)

theorem Func.Within.valid (wf : f.Acyclic) (live : f.live? r = some ii) (within : f.Within ii ii') (refers : ii'.RefersTo s) :
    ∃ t, f.live? s = some t ∧ t.opt 0 = .dest := by
  obtain direct | ⟨t, jj, first, live', second⟩ := within s refers
  · exact wf.valid r ii s live direct
  · exact wf.valid t jj s live' second

theorem set_lower {rank : Op → Nat} (lower : ∀ r ii s, f.live? r = some ii → ii.RefersTo s → rank s < rank r)
    (live : f.live? r = some ii) (within : f.Within ii ii') {t : Op} {jj : Insn} (live' : (f.set r ii').live? t = some jj)
    (refers : jj.RefersTo s) : rank s < rank t := by
  by_cases same : t = r
  · subst same
    rw [live?_set_self live] at live'
    cases live'
    exact within.lower lower live refers
  · rw [live?_set_ne same] at live'
    exact lower t jj s live' refers

theorem set_closed (wf : f.Acyclic) (live : f.live? r = some ii) (within : f.Within ii ii') :
    ((f.set r ii').system x).Closed fun s => (f.live? s).isSome := by
  rintro t s - ⟨jj, live', refers⟩
  by_cases same : t = r
  · subst same
    rw [live?_set_self live] at live'
    cases live'
    obtain ⟨_, valid, -⟩ := within.valid wf live refers
    simp [valid]
  · rw [live?_set_ne same] at live'
    obtain ⟨_, valid, -⟩ := wf.valid t jj s live' refers
    simp [valid]

theorem set_acyclic (wf : f.Acyclic) (live : f.live? r = some ii) (within : f.Within ii ii') : ((f.set r ii').system x).Acyclic := by
  obtain ⟨rank, lower⟩ := wf.ranked
  refine acyclic_of_rank rank fun n m reads => ?_
  obtain ⟨jj, live', refers⟩ := reads
  exact set_lower lower live within live' refers

theorem Func.Acyclic.set (wf : f.Acyclic) (live : f.live? r = some ii) (within : f.Within ii ii') (dest : ii'.opt 0 = ii.opt 0)
    (number : ii'.op 0 = ii.op 0)
    (first : ∀ k, ii'.opt k = .dest → k = 0) (output : ii'.type.output = ii.type.output) : (f.set r ii').Acyclic := by
  -- what is there after was there before, with the same destination
  have before : ∀ t jj, (f.set r ii').live? t = some jj → ∃ old, f.live? t = some old ∧ jj.opt 0 = old.opt 0 ∧ jj.op 0 = old.op 0 ∧
      jj.type.output = old.type.output := by
    intro t jj live'
    by_cases same : t = r
    · subst same
      rw [live?_set_self live] at live'
      cases live'
      exact ⟨ii, live, dest, number, output⟩
    · rw [live?_set_ne same] at live'
      exact ⟨jj, live', rfl, rfl, rfl⟩
  constructor
  · intro t jj s live' refers
    have target : ∃ u, f.live? s = some u ∧ u.opt 0 = .dest := by
      by_cases same : t = r
      · subst same
        rw [live?_set_self live] at live'
        cases live'
        exact within.valid wf live refers
      · rw [live?_set_ne same] at live'
        exact wf.valid t jj s live' refers
    obtain ⟨u, live'', kind⟩ := target
    by_cases same : s = r
    · subst same
      cases live.symm.trans live''
      exact ⟨ii', live?_set_self live, dest.trans kind⟩
    · exact ⟨u, by rw [live?_set_ne same, live''], kind⟩
  · intro t jj k live' kind
    by_cases same : t = r
    · subst same
      rw [live?_set_self live] at live'
      cases live'
      exact first k kind
    · rw [live?_set_ne same] at live'
      exact wf.first t jj k live' kind
  · obtain ⟨rank, lower⟩ := wf.ranked
    exact ⟨rank, fun t jj s live' refers => set_lower lower live within live' refers⟩
  · intro t jj live' holds
    obtain ⟨old, live'', kind, -, same⟩ := before t jj live'
    rw [kind]
    exact wf.holder t old live'' (same ▸ holds)
  · intro t s jj kk live' live'' holds holds' equal
    obtain ⟨old, there, -, op, same⟩ := before t jj live'
    obtain ⟨old', there', -, op', same'⟩ := before s kk live''
    exact wf.outputs t s old old' there there' (same ▸ holds) (same' ▸ holds') (by rw [← op, equal, op'])

/-- Where the rewritten instruction keeps its value, the values before are the ones after. -/
theorem Func.Values.set (values : f.Values x v) (live : f.live? r = some ii) (kept : ii'.result x r v = v r) :
    (f.set r ii').Values x v := by
  intro s jj live'
  by_cases same : s = r
  · subst same
    rw [live?_set_self live] at live'
    cases live'
    exact kept.symm
  · rw [live?_set_ne same] at live'
    exact values s jj live'

/-- The values before solve the equations after, but for the one of the rewritten instruction. -/
theorem values_solve_set (values : f.Values x v) : ((f.set r ii').system x).Solves (fun s => (f.live? s).isSome ∧ s ≠ r) v := by
  rintro s ⟨live, apart⟩
  obtain ⟨jj, live⟩ := Option.isSome_iff_exists.mp live
  rw [system_eqn (by rw [live?_set_ne apart, live]), values s jj live]

theorem values'_solve (values' : (f.set r ii').Values x v') : ((f.set r ii').system x).Solves (fun s => (f.live? s).isSome) v' := by
  have solves := values_iff.mp values'
  refine Solves.mono solves fun s live => ?_
  rw [live?_set, Option.isSome_map]
  exact live

/-- What the instruction reads has the same value before and after. -/
theorem set_value (wf : f.Acyclic) (live : f.live? r = some ii) (within : f.Within ii ii') (values : f.Values x v)
    (values' : (f.set r ii').Values x v') : v' r = ii'.result x r v := by
  obtain ⟨rank, lower⟩ := wf.ranked
  have closed : ((f.set r ii').system x).Closed fun s => (f.live? s).isSome ∧ rank s < rank r := by
    rintro t s ⟨live', below⟩ reads
    refine ⟨set_closed wf live within t s live' reads, ?_⟩
    obtain ⟨jj, live'', refers⟩ := reads
    exact (set_lower lower live within live'' refers).trans below
  have agree := solutions_agree (set_acyclic wf live within) closed (w := v')
    (Solves.mono (values_solve_set values) fun s inside => ⟨inside.1, fun same => absurd inside.2 (by rw [same]; exact Nat.lt_irrefl _)⟩)
    (Solves.mono (values'_solve values') fun s inside => inside.1)
  rw [values' r ii' (live?_set_self live)]
  refine Insn.result_congr fun s refers => (agree s ⟨?_, within.lower lower live refers⟩).symm
  obtain ⟨_, valid, -⟩ := within.valid wf live refers
  simp [valid]

/-- Where nothing refers to the instruction, the others keep their values. -/
theorem set_others (wf : f.Acyclic) (live : f.live? r = some ii) (within : f.Within ii ii') (values : f.Values x v)
    (values' : (f.set r ii').Values x v') (alone : ¬f.Referenced r) : ∀ s, (f.live? s).isSome → s ≠ r → v' s = v s := by
  have unread : ∀ m, (f.live? m).isSome → ¬((f.set r ii').system x).Reads m r := by
    rintro m - ⟨jj, live', refers⟩
    by_cases same : m = r
    · subst same
      rw [live?_set_self live] at live'
      cases live'
      obtain ⟨rank, lower⟩ := wf.ranked
      exact Nat.lt_irrefl _ (within.lower lower live refers)
    · rw [live?_set_ne same] at live'
      exact alone ⟨m, jj, live', refers⟩
  have agree := solutions_agree (set_acyclic wf live within) (closed_ne unread (set_closed wf live within)) (w := v')
    (values_solve_set values) (Solves.mono (values'_solve values') fun s inside => inside.1)
  exact fun s inside apart => (agree s ⟨inside, apart⟩).symm

/-- Where the instruction keeps its value, all do. -/
theorem set_all (wf : f.Acyclic) (live : f.live? r = some ii) (within : f.Within ii ii') (values : f.Values x v)
    (values' : (f.set r ii').Values x v') (kept : ii'.result x r v = v r) : ∀ s, (f.live? s).isSome → v' s = v s := by
  have solves : ((f.set r ii').system x).Solves (fun s => (f.live? s).isSome) v := fun s inside => by
    by_cases same : s = r
    · rw [same, system_eqn (live?_set_self live), kept]
    · exact values_solve_set values s ⟨inside, same⟩
  have agree := solutions_agree (set_acyclic wf live within) (set_closed wf live within) solves (values'_solve values')
  exact fun s inside => (agree s inside).symm

theorem referenced_live (wf : f.Acyclic) (live : f.live? r = some ii) (within : f.Within ii ii')
    (referenced : (f.set r ii').Referenced s) :
    (f.live? s).isSome := by
  obtain ⟨t, jj, live', refers⟩ := referenced
  refine set_closed (x := ⟨fun _ _ => 0, fun _ _ _ => 0⟩) wf live within t s ?_ ⟨jj, live', refers⟩
  have there : ((f.set r ii').live? t).isSome := by simp [live']
  rwa [live?_set, Option.isSome_map] at there

/-- The rewritten instruction does not come to refer to itself. -/
theorem referenced_set (wf : f.Acyclic) (live : f.live? r = some ii) (within : f.Within ii ii') :
    (f.set r ii').Referenced r ↔ f.Referenced r := by
  constructor
  · rintro ⟨s, jj, live', refers⟩
    by_cases same : s = r
    · subst same
      rw [live?_set_self live] at live'
      cases live'
      obtain ⟨rank, lower⟩ := wf.ranked
      exact absurd (within.lower lower live refers) (Nat.lt_irrefl _)
    · rw [live?_set_ne same] at live'
      exact ⟨s, jj, live', refers⟩
  · rintro ⟨s, jj, live', refers⟩
    have apart : s ≠ r := fun same => wf.not_self (same ▸ live') (same ▸ refers)
    exact ⟨s, jj, by rw [live?_set_ne apart, live'], refers⟩

/-- The rewriting of one instruction keeps the values exactly when its own value is kept, or is used by nobody. -/
theorem kept_set_iff (wf : f.Acyclic) (live : f.live? r = some ii) (within : f.Within ii ii') (output : ii'.type.output = ii.type.output)
    (values : f.Values x v) (values' : (f.set r ii').Values x v') :
    Kept f (f.set r ii') v v' ↔
      (f.Referenced r ∨ ii.type.output → ii'.result x r v = v r) ∧ (ii.type.output → ii'.op 0 = ii.op 0) := by
  have own := set_value wf live within values values'
  constructor
  · rintro ⟨referenced, outputs⟩
    have there : ii.type.output → v' r = v r ∧ ii'.op 0 = ii.op 0 := fun holds => by
      obtain ⟨s, jj, live', output', same, value⟩ := outputs r ii live holds
      by_cases apart : s = r
      · subst apart
        rw [live?_set_self live] at live'
        cases live'
        exact ⟨value, same⟩
      · rw [live?_set_ne apart] at live'
        exact absurd (wf.outputs s r jj ii live' live output' holds same) apart
    refine ⟨fun used => ?_, fun holds => (there holds).2⟩
    rw [← own]
    exact used.elim (fun refers => referenced r ((referenced_set wf live within).mpr refers)) fun holds => (there holds).1
  · rintro ⟨used, number⟩
    have kept : ∀ s, (f.live? s).isSome → (s = r → f.Referenced r ∨ ii.type.output) → v' s = v s := fun s inside seen => by
      by_cases used' : f.Referenced r ∨ ii.type.output
      · exact set_all wf live within values values' (used used') s inside
      · exact set_others wf live within values values' (fun refers => used' (.inl refers)) s inside fun same => used' (seen same)
    refine ⟨fun s refers => ?_, fun s jj live' holds => ?_⟩
    · refine kept s (referenced_live wf live within refers) fun same => .inl ?_
      subst same
      exact (referenced_set wf live within).mp refers
    · by_cases same : s = r
      · subst same
        cases live.symm.trans live'
        exact ⟨s, ii', live?_set_self live, output.trans holds, number holds, kept s (by simp [live]) fun _ => .inr holds⟩
      · exact ⟨s, jj, by rw [live?_set_ne same, live'], holds, rfl, kept s (by simp [live']) fun same' => absurd same' same⟩

end

/-! ### One block -/

/-- A function of one block. -/
def single (l : List Insn) : Func := { bb := [{ insn := l }] }

/-- The values of the instructions of one block, in their order. -/
def listed (l : List Word) (r : Op) : Word := l.getD r.toNat 0

section
variable {l : List Insn} {r : Op} {ii : Insn} {x : Input} {v : Op → Word}

theorem live?_of_single (small : l.length ≤ maxInsns) (there : l[r.toNat]? = some ii) : (single l).live? r = some ii := by
  have bound : r.toNat < maxInsns := Nat.lt_of_lt_of_le (List.getElem?_eq_some_iff.mp there).1 small
  have block : refBb r = 0 := Nat.div_eq_of_lt bound
  have place : refI r = r.toNat := Nat.mod_eq_of_lt bound
  simpa [Func.live?, single, block, place] using there

/-- The operands refer to instructions before the one at `i`, with a destination, which no other operand is. -/
def Insn.Ordered (l : List Insn) (i : Nat) (ii : Insn) : Prop :=
  (∀ k, (ii.opt k = .ref → (ii.op k).toNat < i ∧ (l[(ii.op k).toNat]?.any fun t => t.opt 0 = .dest)) ∧ (ii.opt k = .dest → k = 0)) ∧
    (ii.type.output → ii.opt 0 = .dest)

instance decidableOrdered (l : List Insn) (i : Nat) (ii : Insn) : Decidable (ii.Ordered l i) :=
  inferInstanceAs (Decidable ((∀ k, (ii.opt k = .ref → (ii.op k).toNat < i ∧ (l[(ii.op k).toNat]?.any fun t => t.opt 0 = .dest)) ∧
    (ii.opt k = .dest → k = 0)) ∧ (ii.type.output → ii.opt 0 = .dest)))

/-- A block whose instructions refer to earlier ones, with different registers for its outputs, is acyclic. -/
theorem single_acyclic (small : l.length ≤ maxInsns) (ordered : ∀ i (h : i < l.length), (l.get ⟨i, h⟩).Ordered l i)
    (outputs : ∀ i (h : i < l.length) j (h' : j < l.length), (l.get ⟨i, h⟩).type.output → (l.get ⟨j, h'⟩).type.output →
      (l.get ⟨i, h⟩).op 0 = (l.get ⟨j, h'⟩).op 0 → i = j) : (single l).Acyclic := by
  have there : ∀ {r ii}, (single l).live? r = some ii → ∃ h, l.get ⟨r.toNat, h⟩ = ii :=
    fun live => List.getElem?_eq_some_iff.mp (live?_single live)
  constructor
  · rintro r ii s live ⟨k, kind, rfl⟩
    obtain ⟨h, rfl⟩ := there live
    obtain ⟨-, target⟩ := ((ordered _ h).1 k).1 kind
    obtain ⟨t, found, dest⟩ := (Option.any_eq_true _ _).mp target
    exact ⟨t, live?_of_single small found, by simpa using dest⟩
  · intro r ii k live kind
    obtain ⟨h, rfl⟩ := there live
    exact ((ordered _ h).1 k).2 kind
  · refine ⟨BitVec.toNat, ?_⟩
    rintro r ii s live ⟨k, kind, rfl⟩
    obtain ⟨h, rfl⟩ := there live
    exact (((ordered _ h).1 k).1 kind).1
  · intro r ii live output
    obtain ⟨h, rfl⟩ := there live
    exact (ordered _ h).2 output
  · intro r s ii jj live live' output output' same
    obtain ⟨h, rfl⟩ := there live
    obtain ⟨h', rfl⟩ := there live'
    exact BitVec.eq_of_toNat_eq (outputs _ h _ h' output output' same)

theorem single_all {P : Insn → Prop} (all : ∀ ii ∈ l, P ii) : ∀ r ii, (single l).live? r = some ii → P ii :=
  fun _ ii live => all ii (List.mem_of_getElem? (live?_single live))

theorem single_values (values : ∀ i (h : i < l.length), v (BitVec.ofNat 64 i) = (l.get ⟨i, h⟩).result x (BitVec.ofNat 64 i) v) :
    (single l).Values x v := by
  intro r ii live
  obtain ⟨h, rfl⟩ := List.getElem?_eq_some_iff.mp (live?_single live)
  have number := values _ h
  rwa [BitVec.ofNat_toNat, BitVec.setWidth_eq] at number

end

end Or1ksim.Cuc
