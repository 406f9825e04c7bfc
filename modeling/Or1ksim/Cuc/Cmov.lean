import Or1ksim.Cuc.Insert
import Or1ksim.Cuc.Edge

/-!
# The rewriting of conditional moves

`optimize_cmov_more` looks at a CMOV together with the instructions it refers to. A failed assertion or a graph that `cuc_check`
finds fault with ends the program.
-/

namespace Or1ksim.Cuc

open Dataflow

/-- An ADD and a CMOV are conditional exactly when their operands are, and the condition of a CMOV is; only the first operand is a
destination. -/
def Func.checkOperand (f : Func) (ii : Insn) (k : Fin 5) : Bool :=
  (ii.opt k ≠ .ref || ((f.insn? (ii.op k)).any fun t =>
    !(ii.index = .cmov || ii.index = .add) || ((!decide (k < 3) || t.type.cond = ii.type.cond) && (k ≠ 3 || t.type.cond)))) &&
    (k = 0 || ii.opt k ≠ .dest)

/-- A conditional one is for the flag, the mark of the left block, or no register. -/
def Insn.checkDest (ii : Insn) : Bool :=
  !((ii.index = .cmov || ii.index = .add) && ii.type.cond && ii.opt 0 = .dest &&
    (0 ≤ ((ii.op 0).setWidth 32).toInt && ii.op 0 ≠ 32 && ii.op 0 ≠ 33))

def Func.cucCheck (f : Func) : Bool :=
  f.bb.all fun b => b.insn.all fun ii => ii.checkDest && decide (∀ k, f.checkOperand ii k)

def Func.checked (f : Func) : Option Func := if f.cucCheck then some f else none

/-- How many operands of the instruction refer to `r`. -/
def Insn.uses (ii : Insn) (r : Op) : Nat := (List.finRange 5).countP fun j => ii.opt j = .ref && ii.op j = r

def Func.insnUses (f : Func) (r : Op) : Nat := (f.bb.map fun b => (b.insn.map fun ii => ii.uses r).sum).sum

/-- A CMOV with an arm that is itself, or with two equal arms, is a move. -/
def Insn.cmovSame (ii : Insn) (ref : Op) : Option Insn :=
  if ii.sameOps 1 2 ∨ (ii.opt 2 = .ref ∧ ii.op 2 = ref) then some (((ii.changeInsnType .add).setOp 2 .const 0).setOpt 3 .none)
  else if ii.opt 1 = .ref ∧ ii.op 1 = ref then some (((ii.changeInsnType .add).setOp 1 .const 0).setOpt 3 .none)
  else none

/-- The arm that is not `t`. -/
def otherArm (t : Fin 5) : Fin 5 := if t = 1 then 2 else 1

/-- `prev` in the arm `t` becomes the condition, of its own one and of that of `ii`. -/
def Insn.mergedCond (ii prev : Insn) (t : Fin 5) : Insn :=
  { (((prev.setOp t (ii.opt 3) (ii.op 3)).setOp (otherArm t) (prev.opt 3) (prev.op 3)).setOp 3 (ii.opt 3) (ii.op 3)).setOp 0
    .dest (-1) with
    type := { prev.type with cond := true } }

/-- The arms of `prev` are chosen by the merged condition. -/
def Insn.mergedCmov (ii prev : Insn) (t : Fin 5) : Insn :=
  ((ii.setOp 3 .ref (ii.op t)).setOp t (prev.opt t) (prev.op t)).setOp (otherArm t) (prev.opt (otherArm t)) (prev.op (otherArm t))

/-- The function with the two CMOVs merged. -/
def Func.merged (f : Func) (ref : Op) (ii prev : Insn) (t : Fin 5) : Func :=
  (f.set (ii.op t) (ii.mergedCond prev t)).set ref (ii.mergedCmov prev t)

/-- The CMOV in the arm `t` has the same other arm, and no other use. -/
def Func.mergeArm (f : Func) (ref : Op) (ii : Insn) (t : Fin 5) : Option (Option Func) :=
  match if ii.opt t = .ref then f.insn? (ii.op t) else none with
  | none => some none
  | some prev =>
    if prev.index ≠ .cmov then some none
    else if ¬f.cucCheck ∨ prev.type.cond then none
    else if prev.op (otherArm t) = ii.op (otherArm t) ∧ prev.opt (otherArm t) = ii.opt (otherArm t) ∧ f.insnUses (ii.op t) ≤ 1 then
      (f.merged ref ii prev t).checked.map some
    else some none

/-- The operands in which two instructions differ. Registers are all taken for the same. -/
def Insn.differences (a b : Insn) : List (Fin 5) :=
  (List.finRange 5).filter fun k => a.opt k ≠ b.opt k || !(a.op k = b.op k || a.opt k = .register || a.opt k = .dest)

/-- The operand to push a CMOV to: the only one in which its arms differ. -/
def Func.pushes (f : Func) (ii : Insn) : Option (Insn × Insn × Fin 5) :=
  if ii.opt 1 = .ref ∧ ii.opt 2 = .ref ∧ ¬ii.type.cond then
    (f.insn? (ii.op 1)).bind fun a => (f.insn? (ii.op 2)).bind fun b =>
      if a.index = b.index ∧ ¬a.type.volatile ∧ ¬b.type.volatile then
        match a.differences b with
        | [diff] => some (a, b, diff)
        | _ => none
      else none
  else none

/-- The CMOV between the operands `diff` of its two arms. -/
def Func.pushedCmov (f : Func) (ii a b : Insn) (diff : Fin 5) : Option Insn :=
  let cmov := (((ii.setOp 0 .dest (-1)).setOp 1 (a.opt diff) (a.op diff)).setOp 2 (b.opt diff) (b.op diff)).changeInsnType .cmov
  let plain : Insn := { cmov with type := { cmov.type with cond := false } }
  if plain.opt 1 = .ref ∧ plain.opt 2 = .ref then
    (f.insn? (plain.op 1)).bind fun p => (f.insn? (plain.op 2)).bind fun q =>
      if p.type.cond then if q.type.cond then some { plain with type := { plain.type with cond := true } } else none
      else some plain
  else some plain

/-- The instruction common to both arms, after the CMOV that is put before it. -/
def Func.push (f : Func) (ref : Op) (diff : Fin 5) : Option Func :=
  (f.insertInsns ref 1).bind fun f1 =>
    f1.checked.bind fun f1 =>
      (f1.insn? (ref + 1)).bind fun ii =>
        (f1.insn? (ii.op 1)).bind fun a => (f1.insn? (ii.op 2)).bind fun b =>
          (f1.pushedCmov ii a b diff).bind fun cmov => ((f1.set ref cmov).set (ref + 1) (a.setOp diff .ref ref)).checked

def Func.cmovPush (f : Func) (ref : Op) (ii : Insn) : Option (Func × Bool) :=
  match f.pushes ii with
  | none => some (f, false)
  | some (_, _, diff) => (f.push ref diff).map fun f' => (f', true)

/-- The condition is the negation of another one. -/
def Insn.negates (prev : Insn) : Bool := prev.isConst 1 && prev.isConst 2 && prev.op 1 = 0 && prev.op 2 ≠ 0

/-- The arms are exchanged and the condition is the one that is negated. -/
def Insn.exchangeArms (ii prev : Insn) : Insn :=
  ((ii.setOp 1 (ii.opt 2) (ii.op 2)).setOp 2 (ii.opt 1) (ii.op 1)).setOp 3 (prev.opt 3) (prev.op 3)

/-- A negated condition is removed without a report, and the CMOV perhaps pushed; a move of the condition is skipped. -/
def Func.cmovCond (f : Func) (ref : Op) (ii : Insn) : Option (Func × Bool) :=
  match if ii.opt 3 = .ref then f.insn? (ii.op 3) else none with
  | none => f.cmovPush ref ii
  | some prev =>
    if ¬prev.type.cond then none
    else if prev.index = .cmov ∧ prev.negates then (f.set ref (ii.exchangeArms prev)).cmovPush ref (ii.exchangeArms prev)
    else if prev.index = .add ∧ prev.isConst 2 ∧ prev.op 2 = 0 then some (f.set ref (ii.setOp 3 (prev.opt 1) (prev.op 1)), true)
    else f.cmovPush ref ii

/-- The function after the rewriting of the CMOV `ii` at `ref`, and whether it is reported; `none` when the program has ended. -/
def Func.optimizeCmovMore (f : Func) (ref : Op) (ii : Insn) : Option (Func × Bool) :=
  match ii.cmovSame ref with
  | some ii' => some (f.set ref ii', true)
  | none =>
    if ii.type.cond then f.cmovCond ref ii
    else (f.mergeArm ref ii 1).bind fun first =>
      match first with
      | some f' => some (f', true)
      | none => (f.mergeArm ref ii 2).bind fun second =>
        match second with
        | some f' => some (f', true)
        | none => f.cmovCond ref ii

/-! ### What its users see -/

def Func.ninsn (f : Func) (b : Nat) : Nat := (f.bb[b]?.map fun b => b.insn.length).getD 0

/-- Where an instruction is after the rewriting, which may have put one before `ref`. -/
def place (f f' : Func) (ref s : Op) : Op := if f'.ninsn (refBb ref) = f.ninsn (refBb ref) then s else shiftRef ref 1 s

/-- Every operand that referred to the CMOV refers to the value it had. -/
def Seen (f f' : Func) (ref : Op) (v v' : Op → Word) : Prop :=
  ∀ s jj k, f.live? s = some jj → jj.opt k = .ref → jj.op k = ref →
    ∃ jj', f'.live? (place f f' ref s) = some jj' ∧ jj'.opt k = .ref ∧ v' (jj'.op k) = v ref

/-- The same input for the moved instructions. -/
structure Moved (f f' : Func) (ref : Op) (x x' : Input) : Prop where
  other : x'.other = x.other
  outside : ∀ s jj, f.live? s = some jj → x'.outside (place f f' ref s) = x.outside s

/-- An unconditional instruction that is not volatile computes by the table. -/
def Func.Plain (f : Func) : Prop :=
  ∀ r ii, f.live? r = some ii → ii.type.cond = false → ii.type.volatile = false → ii.index = .nop ∨ ∀ a b c, (ii.index.rtl a b c).isSome

/-- What is asserted where the function is printed: the constants of a conditional ADD or CMOV are bits. -/
structure Func.Printable (f : Func) : Prop where
  plain : f.Plain
  bits : ∀ r ii, f.live? r = some ii → ii.type.cond → ii.index = .cmov → ∀ k ∈ [(1 : Fin 5), 2], ii.opt k = .const →
    ii.op k = 0 ∨ ii.op k = 1

/-- The CMOV in the arm `t` that is merged. -/
def Func.merges (f : Func) (ii : Insn) (t : Fin 5) : Option Insn :=
  (if ii.opt t = .ref then f.insn? (ii.op t) else none).filter fun prev =>
    prev.index = .cmov && prev.op (otherArm t) = ii.op (otherArm t) && prev.opt (otherArm t) =
      ii.opt (otherArm t) && f.insnUses (ii.op t) ≤ 1

/-- The first arm that is merged. -/
def Func.firstMerge (f : Func) (ii : Insn) : Option (Fin 5 × Insn) :=
  if ii.type.cond then none
  else match f.merges ii 1 with
    | some prev => some (1, prev)
    | none => (f.merges ii 2).map fun prev => (2, prev)

/-- The CMOV as it is looked at for the pushing: without a negated condition, and not at all where a move of the condition is skipped. -/
def Func.settled (f : Func) (ii : Insn) : Option Insn :=
  match if ii.opt 3 = .ref then f.insn? (ii.op 3) else none with
  | none => some ii
  | some prev =>
    if prev.index = .cmov ∧ prev.negates then some (ii.exchangeArms prev)
    else if prev.index = .add ∧ prev.isConst 2 ∧ prev.op 2 = 0 then none
    else some ii

/-- When the rewriting keeps the value of the CMOV, by the values of the operands before it: two merged conditions are equal or choose
between equal values; the instruction common to both arms, with the operands of the first, is chosen or computes what the second one
does. -/
structure Func.CmovKeeps (f : Func) (x : Input) (v : Op → Word) (ii : Insn) : Prop where
  merging : ¬ii.sameOps 1 2 → ∀ t prev, f.firstMerge ii = some (t, prev) →
    (prev.operand ⟨v, x.other⟩ 3 = 0 ↔ ii.operand ⟨v, x.other⟩ 3 = 0) ∨
      prev.operand ⟨v, x.other⟩ t = ii.operand ⟨v, x.other⟩ (otherArm t)
  pushing : ¬ii.sameOps 1 2 → f.firstMerge ii = none → ∀ jj a b diff, f.settled ii = some jj → f.pushes jj = some (a, b, diff) →
    jj.operand ⟨v, x.other⟩ 3 = 0 →
    let chosen k := (if k = diff then b else a).operand ⟨v, x.other⟩ k
    a.index.rtl (chosen 1) (chosen 2) (chosen 3) = b.value ⟨v, x.other⟩

section
variable {f f' : Func} {x x' : Input} {v v' : Op → Word} {ref r s p : Op} {ii ii' jj prev : Insn} {t k : Fin 5}

@[simp] theorem ninsn_modify {g : Insn → Insn} (b : Nat) : (f.modify r g).ninsn b = f.ninsn b := by
  unfold Func.ninsn Func.modify
  rw [List.getElem?_modify]
  cases f.bb[b]? with
  | none => rfl
  | some blk => by_cases same : refBb r = b <;> simp [same]

@[simp] theorem ninsn_set (b : Nat) : (f.set r ii).ninsn b = f.ninsn b := ninsn_modify b

theorem place_same (length : f'.ninsn (refBb ref) = f.ninsn (refBb ref)) : place f f' ref s = s := if_pos length

/-- Where the users of the CMOV still refer to its place, they see what is there. -/
theorem seen_iff (users : ∀ s jj k, f.live? s = some jj → jj.opt k = .ref → jj.op k = ref →
    ∃ jj', f'.live? (place f f' ref s) = some jj' ∧ jj'.opt k = .ref ∧ jj'.op k = place f f' ref ref) :
    Seen f f' ref v v' ↔ (f.Referenced ref → v' (place f f' ref ref) = v ref) := by
  constructor
  · rintro seen ⟨s, jj, live, k, kind, op⟩
    obtain ⟨jj', live', -, value⟩ := seen s jj k live kind op
    obtain ⟨jj'', live'', -, op'⟩ := users s jj k live kind op
    cases live'.symm.trans live''
    rw [← op', value]
  · intro value s jj k live kind op
    obtain ⟨jj', live', kind', op'⟩ := users s jj k live kind op
    exact ⟨jj', live', kind', by rw [op', value ⟨s, jj, live, k, kind, op⟩]⟩

theorem Moved.result (moved : Moved f f' ref x x') (live : f.live? s = some jj) (same : place f f' ref s = s) :
    ii.result x' s v = ii.result x s v := by
  have outside := moved.outside s jj live
  rw [same] at outside
  rw [Insn.result, Insn.result, moved.other, outside]

/-- An input that is the same where nothing has been moved may be taken for the one before. -/
theorem Moved.values (moved : Moved f f' ref x x') (stays : ∀ s, place f f' ref s = s) (same : ∀ s,
    (f'.live? s).isSome → (f.live? s).isSome) (values' : f'.Values x' v') : f'.Values x v' := by
  intro s jj live
  obtain ⟨old, live'⟩ := Option.isSome_iff_exists.mp (same s (by simp [live]))
  rw [values' s jj live, moved.result live' (stays s)]

/-- Only the CMOV is changed. -/
theorem seen_set_iff (wf : f.Acyclic) (live : f.live? ref = some ii) (within : f.Within ii ii') (values : f.Values x v)
    (values' : (f.set ref ii').Values x' v') (moved : Moved f (f.set ref ii') ref x x') :
    Seen f (f.set ref ii') ref v v' ↔ (f.Referenced ref → ii'.result x ref v = v ref) := by
  have stays : ∀ s, place f (f.set ref ii') ref s = s := fun s => place_same (ninsn_set _)
  have values'' : f.Values x' v := fun s jj live' => by rw [values s jj live', moved.result live' (stays s)]
  rw [seen_iff fun s jj k live' kind op => ?_, stays, set_value wf live within values'' values', moved.result live (stays ref)]
  have apart : s ≠ ref := fun same => wf.not_self (same ▸ live') ⟨k, kind, op⟩
  exact ⟨jj, by rw [stays, live?_set_ne apart, live'], kind, by rw [stays, op]⟩

/-! ### Pushing -/

/-- The CMOV at `ref` may be pushed to the operand `diff` of its arms `a` and `b`. -/
structure Pushes (f : Func) (ref : Op) (ii a b : Insn) (diff : Fin 5) : Prop where
  live : f.live? ref = some ii
  index : ii.index = .cmov
  ref1 : ii.opt 1 = .ref
  ref2 : ii.opt 2 = .ref
  first : f.live? (ii.op 1) = some a
  second : f.live? (ii.op 2) = some b
  same : a.index = b.index
  plain : a.type.volatile = false
  known : a.index = .nop ∨ ∀ x y z, (a.index.rtl x y z).isSome

theorem pushedCmov_of_some {f : Func} {ii a b cmov : Insn} {diff : Fin 5} (fires : f.pushedCmov ii a b diff = some cmov) :
    cmov.index = .cmov ∧ (∀ e, cmov.operand e 1 = a.operand e diff) ∧ (∀ e, cmov.operand e 2 = b.operand e diff) ∧
      ∀ e, cmov.operand e 3 = ii.operand e 3 := by
  have shape : ∃ type,
      cmov = { (((ii.setOp 0 .dest (-1)).setOp 1 (a.opt diff) (a.op diff)).setOp 2 (b.opt diff) (b.op diff)).changeInsnType
        .cmov with type } := by
    unfold Func.pushedCmov at fires
    dsimp only at fires
    split_ifs at fires
    · obtain ⟨p, -, fires⟩ := Option.bind_eq_some_iff.mp fires
      obtain ⟨q, -, fires⟩ := Option.bind_eq_some_iff.mp fires
      split_ifs at fires <;> exact ⟨_, (Option.some.inj fires).symm⟩
    · exact ⟨_, (Option.some.inj fires).symm⟩
  obtain ⟨type, rfl⟩ := shape
  simp [changeInsnType_of_ne, Insn.operand]

theorem shiftRef_self : shiftRef ref 1 ref = ref + 1 := if_pos ⟨rfl, Nat.le_refl _⟩

theorem checked_eq_some : f.checked = some f' ↔ f.cucCheck ∧ f' = f := by
  unfold Func.checked
  split_ifs with check <;> simp [check, eq_comm]

theorem Pushes.push_of_some {a b : Insn} {diff : Fin 5} (pushes : Pushes f ref ii a b diff) (fires : f.push ref diff = some f') :
    ∃ f1 cmov, f.insertInsns ref 1 = some f1 ∧ f1.pushedCmov (ii.shift ref 1) (a.shift ref 1) (b.shift ref 1) diff = some cmov ∧
      f' = (f1.set ref cmov).set (ref + 1) ((a.shift ref 1).setOp diff .ref ref) := by
  obtain ⟨f1, inserted, fires⟩ := Option.bind_eq_some_iff.mp fires
  obtain ⟨f2, checked, fires⟩ := Option.bind_eq_some_iff.mp fires
  rw [(checked_eq_some.mp checked).2] at fires
  have there : f1.insn? (ref + 1) = some (ii.shift ref 1) := insn?_of_live? (shiftRef_self ▸ live?_inserted inserted pushes.live)
  have first : f1.insn? ((ii.shift ref 1).op 1) = some (a.shift ref 1) := by
    have moved : (ii.shift ref 1).op 1 = shiftRef ref 1 (ii.op 1) := by simp [Insn.shift, pushes.ref1]
    rw [moved]
    exact insn?_of_live? (live?_inserted inserted pushes.first)
  have second : f1.insn? ((ii.shift ref 1).op 2) = some (b.shift ref 1) := by
    have moved : (ii.shift ref 1).op 2 = shiftRef ref 1 (ii.op 2) := by simp [Insn.shift, pushes.ref2]
    rw [moved]
    exact insn?_of_live? (live?_inserted inserted pushes.second)
  simp only [there, first, second, Option.bind_some] at fires
  obtain ⟨cmov, made, fires⟩ := Option.bind_eq_some_iff.mp fires
  exact ⟨f1, cmov, inserted, made, (checked_eq_some.mp fires).2⟩

theorem ninsn_inserted {f1 : Func} (fires : f.insertInsns ref 1 = some f1) (live : f.live? ref = some ii) :
    f1.ninsn (refBb ref) = f.ninsn (refBb ref) + 1 := by
  obtain ⟨b, block, -, -, rfl⟩ := insertInsns_of_some fires
  obtain ⟨b', block', -, there⟩ := live?_eq_some.mp live
  cases block.symm.trans block'
  have bound : refI ref < b.insn.length := (List.getElem?_eq_some_iff.mp there).1
  unfold Func.ninsn
  rw [inserted_block block, block]
  simp
  omega

/-- What the pushing leaves at the places of the function before it. -/
structure Pushed (f f' : Func) (ref : Op) (cmov tmp : Insn) : Prop where
  placed : ∀ s, place f f' ref s = shiftRef ref 1 s
  live : ∀ s jj, f.live? s = some jj → s ≠ ref → f'.live? (shiftRef ref 1 s) = some (jj.shift ref 1)
  cmov : f'.live? ref = some cmov
  tmp : f'.live? (ref + 1) = some tmp

theorem pushed {f1 : Func} {cmov tmp : Insn} (inserted : f.insertInsns ref 1 = some f1) (live : f.live? ref = some ii) :
    Pushed f ((f1.set ref cmov).set (ref + 1) tmp) ref cmov tmp := by
  have new : ref + BitVec.ofNat 64 0 = ref := BitVec.add_zero ref
  have there : f1.live? (ref + 1) = some (ii.shift ref 1) := shiftRef_self ▸ live?_inserted inserted live
  have apart : ref ≠ ref + 1 := fun same => shiftRef_ne_new inserted live live (i := 0) (by decide) (by rw [shiftRef_self, new, ← same])
  constructor
  · exact fun s => if_neg (by simp [ninsn_inserted inserted live])
  · intro s jj live' other
    have first : shiftRef ref 1 s ≠ ref + 1 := fun same => other (shiftRef_inj inserted live' live (same.trans shiftRef_self.symm))
    have second : shiftRef ref 1 s ≠ ref := fun same => shiftRef_ne_new inserted live live' (i := 0) (by decide) (same.trans new.symm)
    rw [live?_set_ne first, live?_set_ne second, live?_inserted inserted live']
  · rw [live?_set_ne apart]
    exact live?_set_self (new ▸ live?_new inserted live (i := 0) (by decide))
  · refine live?_set_self (show _ = some (ii.shift ref 1) from ?_)
    rw [live?_set_ne apart.symm, there]

theorem Pushed.users {cmov tmp : Insn} (pushed : Pushed f f' ref cmov tmp) (wf : f.Acyclic) :
    ∀ s jj k, f.live? s = some jj → jj.opt k = .ref →
    jj.op k = ref → ∃ jj', f'.live? (place f f' ref s) = some jj' ∧ jj'.opt k = .ref ∧ jj'.op k = place f f' ref ref :=
      fun s jj k live kind op => by
  have other : s ≠ ref := fun same => wf.not_self (same ▸ live) ⟨k, kind, op⟩
  refine ⟨jj.shift ref 1, by rw [pushed.placed, pushed.live s jj live other], kind, ?_⟩
  rw [pushed.placed]
  simp [Insn.shift, kind, op]

/-- What is computed before the CMOV has the same values. -/
theorem Pushed.agree {cmov tmp : Insn} {rank : Op → Nat} (pushed : Pushed f f' ref cmov tmp) (wf : f.Acyclic)
    (lower : ∀ r ii s, f.live? r = some ii → ii.RefersTo s → rank s < rank r) (values : f.Values x v) (values' : f'.Values x' v')
    (moved : Moved f f' ref x x') : ∀ s, (f.live? s).isSome ∧ rank s < rank ref → v' (shiftRef ref 1 s) = v s := by
  have closed : (f.system x).Closed fun s => (f.live? s).isSome ∧ rank s < rank ref := by
    rintro s t ⟨live, below⟩ reads
    refine ⟨wf.closed s t live reads, ?_⟩
    obtain ⟨jj, live', refers⟩ := reads
    exact (lower s jj t live' refers).trans below
  have solves : (f.system x).Solves (fun s => (f.live? s).isSome ∧ rank s < rank ref) fun s => v' (shiftRef ref 1 s) := by
    rintro s ⟨live, below⟩
    obtain ⟨jj, live⟩ := Option.isSome_iff_exists.mp live
    have other : s ≠ ref := fun same => absurd below (by rw [same]; exact Nat.lt_irrefl _)
    have outside := moved.outside s jj live
    rw [pushed.placed] at outside
    rw [system_eqn live]
    exact (values' _ _ (pushed.live s jj live other)).trans (shift_result moved.other outside)
  exact solutions_agree wf.acyclic closed solves (Solves.mono (values_iff.mp values) fun s inside => inside.1)

theorem below_operand {rank : Op → Nat} (wf : f.Acyclic) (lower : ∀ r ii s, f.live? r = some ii → ii.RefersTo s → rank s < rank r)
    (live : f.live? r = some ii) (refers : ii.RefersTo s) : (f.live? s).isSome ∧ rank s < rank r := by
  obtain ⟨_, valid, -⟩ := wf.valid r ii s live refers
  exact ⟨by simp [valid], lower r ii s live refers⟩

/-- The pushed CMOV keeps the value exactly where the first arm is chosen, or with the operand of the second one computes what this
does. -/
theorem Pushes.seen_iff {a b : Insn} {diff : Fin 5} (pushes : Pushes f ref ii a b diff) (wf : f.Acyclic)
    (fires : f.push ref diff = some f') (values : f.Values x v) (values' : f'.Values x' v') (moved : Moved f f' ref x x') :
    Seen f f' ref v v' ↔ (f.Referenced ref → ii.operand ⟨v, x.other⟩ 3 = 0 →
      a.index.rtl ((if 1 = diff then b else a).operand ⟨v, x.other⟩ 1) ((if 2 = diff then b else a).operand ⟨v, x.other⟩ 2)
        ((if 3 = diff then b else a).operand ⟨v, x.other⟩ 3) = b.value ⟨v, x.other⟩) := by
  obtain ⟨f1, cmov, inserted, made, rfl⟩ := pushes.push_of_some fires
  obtain ⟨index, first, second, third⟩ := pushedCmov_of_some made
  have after : Pushed _ _ _ cmov ((a.shift ref 1).setOp diff .ref ref) := pushed inserted pushes.live
  obtain ⟨rank, lower⟩ := wf.ranked
  have agree := after.agree wf lower values values' moved
  have below1 := below_operand wf lower pushes.live ⟨1, pushes.ref1, rfl⟩
  have below2 := below_operand wf lower pushes.live ⟨2, pushes.ref2, rfl⟩
  -- the operands of the CMOV and of its arms have the same values
  have condition : ∀ k, (ii.shift ref 1).operand ⟨v', x'.other⟩ k = ii.operand ⟨v, x.other⟩ k := fun k => by
    rw [shift_operand moved.other]
    exact Insn.operand_agree (fun s refers => agree s (below_operand wf lower pushes.live refers)) k
  have armA : ∀ k, (a.shift ref 1).operand ⟨v', x'.other⟩ k = a.operand ⟨v, x.other⟩ k := fun k => by
    rw [shift_operand moved.other]
    refine Insn.operand_agree (fun s refers => agree s ?_) k
    have inner := below_operand wf lower pushes.first refers
    exact ⟨inner.1, inner.2.trans below1.2⟩
  have armB : ∀ k, (b.shift ref 1).operand ⟨v', x'.other⟩ k = b.operand ⟨v, x.other⟩ k := fun k => by
    rw [shift_operand moved.other]
    refine Insn.operand_agree (fun s refers => agree s ?_) k
    have inner := below_operand wf lower pushes.second refers
    exact ⟨inner.1, inner.2.trans below2.2⟩
  have chosen : v' ref = if ii.operand ⟨v, x.other⟩ 3 ≠ 0 then a.operand ⟨v, x.other⟩ diff else b.operand ⟨v, x.other⟩ diff := by
    rw [values' _ _ after.cmov]
    refine result_of_value ?_
    rw [cmov_value index, first, second, third, condition, armA, armB]
  have operand : ∀ k, ((a.shift ref 1).setOp diff .ref ref).operand ⟨v', x'.other⟩ k =
      if k = diff then v' ref else a.operand ⟨v, x.other⟩ k := fun k => by
    by_cases same : k = diff
    · subst same
      simp [Insn.operand]
    · rw [← armA k]
      simp [Insn.operand, same]
  rw [Cuc.seen_iff (after.users wf), after.placed, shiftRef_self, values' _ _ after.tmp, values ref ii pushes.live]
  refine forall_congr' fun _ => ?_
  have before : ii.result x ref v = if ii.operand ⟨v, x.other⟩ 3 ≠ 0 then a.result x (ii.op 1) v else b.result x (ii.op 2) v := by
    have first : ii.operand ⟨v, x.other⟩ 1 = a.result x (ii.op 1) v := (operand_ref pushes.ref1).trans (values _ _ pushes.first)
    have second : ii.operand ⟨v, x.other⟩ 2 = b.result x (ii.op 2) v := (operand_ref pushes.ref2).trans (values _ _ pushes.second)
    exact result_of_value (by rw [cmov_value pushes.index, first, second])
  have value : ((a.shift ref 1).setOp diff .ref ref).value ⟨v', x'.other⟩ =
    a.index.rtl (if 1 = diff then v' ref else a.operand ⟨v, x.other⟩ 1)
      (if 2 = diff then v' ref else a.operand ⟨v, x.other⟩ 2) (if 3 = diff then v' ref else a.operand ⟨v, x.other⟩ 3) := by
    rw [Insn.value, operand, operand, operand]
    rfl
  by_cases nop : a.index = .nop
  · have none : b.value ⟨v, x.other⟩ = none := by rw [Insn.value, ← pushes.same, nop]; rfl
    refine iff_of_true ?_ fun _ => by rw [none, nop]; rfl
    rw [before, nop_result (show ((a.shift ref 1).setOp diff .ref ref).index = .nop from nop), nop_result nop,
      nop_result (pushes.same ▸ nop), ite_self]
  · have known := pushes.known.resolve_left nop
    obtain ⟨w, some⟩ := Option.isSome_iff_exists.mp (known (if 1 = diff then v' ref else a.operand ⟨v, x.other⟩ 1)
      (if 2 = diff then v' ref else a.operand ⟨v, x.other⟩ 2) (if 3 = diff then v' ref else a.operand ⟨v, x.other⟩ 3))
    rw [before, result_of_value (value.trans some)]
    by_cases zero : ii.operand ⟨v, x.other⟩ 3 = 0
    · rw [if_neg (not_not.mpr zero)] at chosen ⊢
      have operands : ∀ k, (if k = diff then v' ref else a.operand ⟨v, x.other⟩ k) =
          (if k = diff then b else a).operand ⟨v, x.other⟩ k := fun k => by
        by_cases same : k = diff <;> simp [same, chosen]
      simp only [operands] at some
      obtain ⟨w', some'⟩ :=
        Option.isSome_iff_exists.mp (pushes.same ▸ known (b.operand ⟨v, x.other⟩ 1) (b.operand ⟨v, x.other⟩ 2)
          (b.operand ⟨v, x.other⟩ 3))
      rw [some, Insn.value, some', result_of_value some', Option.some.injEq, forall_prop_of_true zero]
    · rw [if_pos zero] at chosen ⊢
      have operands : ∀ k, (if k = diff then v' ref else a.operand ⟨v, x.other⟩ k) = a.operand ⟨v, x.other⟩ k := fun k => by
        by_cases same : k = diff <;> simp [same, chosen]
      simp only [operands] at some
      exact iff_of_true (result_of_value some).symm fun yes => absurd yes zero

/-! ### Merging -/

/-- The CMOV `prev` in the arm `t` is used nowhere else and has the same other arm. -/
structure Merges (f : Func) (ref : Op) (ii prev : Insn) (t : Fin 5) : Prop where
  live : f.live? ref = some ii
  index : ii.index = .cmov
  arm : t = 1 ∨ t = 2
  kind : ii.opt t = .ref
  there : f.live? (ii.op t) = some prev
  index' : prev.index = .cmov
  op : prev.op (otherArm t) = ii.op (otherArm t)
  opt : prev.opt (otherArm t) = ii.opt (otherArm t)
  alone : ∀ s jj, f.live? s = some jj → jj.RefersTo (ii.op t) → s = ref
  apart : ii.opt 3 = .ref → ii.op 3 ≠ ii.op t

theorem live?_merged (first : s ≠ ref) (second : s ≠ ii.op t) : (f.merged ref ii prev t).live? s = f.live? s := by
  rw [Func.merged, live?_set_ne first, live?_set_ne second]

theorem merged_first {c c' a b z : Word} : (if (if c' ≠ z then c' else c) ≠ z then a else b) =
    (if c' ≠ z then (if c ≠ z then a else b) else b) ↔
    (c = z ↔ c' = z) ∨ a = b := by
  by_cases first : c = z <;> by_cases second : c' = z <;> simp [first, second]

theorem merged_second {c c' a b z : Word} : (if (if c' ≠ z then c else c') ≠ z then b else a) =
    (if c' ≠ z then b else if c ≠ z then b else a) ↔
    (c = z ↔ c' = z) ∨ a = b := by
  by_cases first : c = z <;> by_cases second : c' = z <;> simp [first, second]

theorem mergedCond_third (arm : t = 1 ∨ t = 2) (e : Env) : (ii.mergedCond prev t).operand e 3 = ii.operand e 3 := by
  obtain rfl | rfl := arm <;> simp [Insn.mergedCond, Insn.operand, otherArm]

theorem mergedCond_arm (arm : t = 1 ∨ t = 2) (e : Env) : (ii.mergedCond prev t).operand e t = ii.operand e 3 := by
  obtain rfl | rfl := arm <;> simp [Insn.mergedCond, Insn.operand, otherArm]

theorem mergedCond_other (arm : t = 1 ∨ t = 2) (e : Env) : (ii.mergedCond prev t).operand e (otherArm t) = prev.operand e 3 := by
  obtain rfl | rfl := arm <;> simp [Insn.mergedCond, Insn.operand, otherArm]

theorem mergedCmov_third (arm : t = 1 ∨ t = 2) (e : Env) : (ii.mergedCmov prev t).operand e 3 = e.ref (ii.op t) := by
  obtain rfl | rfl := arm <;> simp [Insn.mergedCmov, Insn.operand, otherArm]

theorem mergedCmov_arm (arm : t = 1 ∨ t = 2) (e : Env) : (ii.mergedCmov prev t).operand e t = prev.operand e t := by
  obtain rfl | rfl := arm <;> simp [Insn.mergedCmov, Insn.operand, otherArm]

theorem mergedCmov_other (arm : t = 1 ∨ t = 2) (e : Env) :
    (ii.mergedCmov prev t).operand e (otherArm t) = prev.operand e (otherArm t) := by
  obtain rfl | rfl := arm <;> simp [Insn.mergedCmov, Insn.operand, otherArm]

/-- What is computed before the CMOV, but for the merged one, has the same values. -/
theorem Merges.agree {rank : Op → Nat} (merges : Merges f ref ii prev t) (wf : f.Acyclic)
    (lower : ∀ r ii s, f.live? r = some ii → ii.RefersTo s → rank s < rank r) (values : f.Values x v)
    (values' : (f.merged ref ii prev t).Values x v') :
    ∀ s, (f.live? s).isSome ∧ rank s < rank ref ∧ s ≠ ii.op t → v' s = v s := by
  have closed : (f.system x).Closed fun s => (f.live? s).isSome ∧ rank s < rank ref ∧ s ≠ ii.op t := by
    rintro s u ⟨live, below, -⟩ reads
    refine ⟨wf.closed s u live reads, ?_⟩
    obtain ⟨jj, live', refers⟩ := reads
    refine ⟨(lower s jj u live' refers).trans below, fun same => ?_⟩
    subst same
    exact absurd below (by rw [merges.alone s jj live' refers]; exact Nat.lt_irrefl _)
  have solves : (f.system x).Solves (fun s => (f.live? s).isSome ∧ rank s < rank ref ∧ s ≠ ii.op t) v' := by
    rintro s ⟨live, below, other⟩
    obtain ⟨jj, live⟩ := Option.isSome_iff_exists.mp live
    have first : s ≠ ref := fun same => absurd below (by rw [same]; exact Nat.lt_irrefl _)
    rw [system_eqn live]
    exact values' s jj (by rw [live?_merged first other, live])
  exact solutions_agree wf.acyclic closed solves (Solves.mono (values_iff.mp values) fun s inside => inside.1)

/-- The merged CMOV keeps the value exactly where the two conditions are both true or both false, or the two arms that are left are
equal. -/
theorem Merges.seen_iff (merges : Merges f ref ii prev t) (wf : f.Acyclic) (values : f.Values x v)
    (values' : (f.merged ref ii prev t).Values x' v')
    (moved : Moved f (f.merged ref ii prev t) ref x x') :
    Seen f (f.merged ref ii prev t) ref v v' ↔ (f.Referenced ref →
      ((prev.operand ⟨v, x.other⟩ 3 = 0 ↔ ii.operand ⟨v, x.other⟩ 3 = 0) ∨ prev.operand ⟨v, x.other⟩ t =
        ii.operand ⟨v, x.other⟩ (otherArm t))) := by
  obtain ⟨rank, lower⟩ := wf.ranked
  have stays : ∀ s, place f (f.merged ref ii prev t) ref s = s := fun s => place_same (by simp [Func.merged])
  have values'' : (f.merged ref ii prev t).Values x v' := moved.values stays (fun s => by simp [Func.merged, live?_set]) values'
  have agree := merges.agree wf lower values values''
  have selfless : ii.op t ≠ ref := fun same => wf.not_self merges.live ⟨t, merges.kind, same⟩
  have below := below_operand wf lower merges.live ⟨t, merges.kind, rfl⟩
  have inner : ∀ k, prev.operand ⟨v', x.other⟩ k = prev.operand ⟨v, x.other⟩ k := fun k => by
    refine Insn.operand_agree (fun s refers => agree s ?_) k
    have deeper := below_operand wf lower merges.there refers
    exact ⟨deeper.1, deeper.2.trans below.2, fun same => wf.not_self merges.there (same ▸ refers)⟩
  have outer : ii.operand ⟨v', x.other⟩ 3 = ii.operand ⟨v, x.other⟩ 3 := by
    cases kind : ii.opt 3
    case ref =>
      rw [operand_ref kind, operand_ref kind]
      have deeper := below_operand wf lower merges.live ⟨3, kind, rfl⟩
      exact agree _ ⟨deeper.1, deeper.2, merges.apart kind⟩
    all_goals
      rw [Insn.operand, Insn.operand, kind]
      rfl
  have same : ∀ e, prev.operand e (otherArm t) = ii.operand e (otherArm t) := fun e => operand_congr merges.opt merges.op
  have at_ : (f.merged ref ii prev t).live? (ii.op t) = some (ii.mergedCond prev t) := by
    rw [Func.merged, live?_set_ne selfless, live?_set_self merges.there]
  have at' : (f.merged ref ii prev t).live? ref = some (ii.mergedCmov prev t) := by
    refine live?_set_self (show _ = some ii from ?_)
    rw [live?_set_ne selfless.symm, merges.live]
  have users : ∀ s jj k, f.live? s = some jj → jj.opt k = .ref → jj.op k = ref →
      ∃ jj', (f.merged ref ii prev t).live? (place f (f.merged ref ii prev t) ref s) = some jj' ∧ jj'.opt k = .ref ∧
        jj'.op k = place f (f.merged ref ii prev t) ref ref := fun s jj k live kind op => by
    have first : s ≠ ref := fun same => wf.not_self (same ▸ live) ⟨k, kind, op⟩
    have second : s ≠ ii.op t := fun same => by
      subst same
      exact absurd ((lower _ jj ref live ⟨k, kind, op⟩).trans below.2) (Nat.lt_irrefl _)
    exact ⟨jj, by rw [stays, live?_merged first second, live], kind, by rw [stays, op]⟩
  -- the values of the two CMOVs, before and after
  have prevBefore : v (ii.op t) = if prev.operand ⟨v, x.other⟩ 3 ≠ 0 then prev.operand ⟨v, x.other⟩ 1
      else prev.operand ⟨v, x.other⟩ 2 := by
    rw [values _ _ merges.there]
    exact result_of_value (cmov_value merges.index' _)
  have before : v ref = if ii.operand ⟨v, x.other⟩ 3 ≠ 0 then ii.operand ⟨v, x.other⟩ 1 else ii.operand ⟨v, x.other⟩ 2 := by
    rw [values _ _ merges.live]
    exact result_of_value (cmov_value merges.index _)
  have prevAfter := (values'' _ _ at_).trans (result_of_value
    (cmov_value (show (ii.mergedCond prev t).index = .cmov from merges.index') ⟨v', x.other⟩))
  have after := (values'' _ _ at').trans (result_of_value
    (cmov_value (show (ii.mergedCmov prev t).index = .cmov from merges.index) ⟨v', x.other⟩))
  have arm : ii.operand ⟨v, x.other⟩ t = v (ii.op t) := operand_ref merges.kind
  rw [Cuc.seen_iff users, stays]
  refine forall_congr' fun _ => ?_
  rw [← same]
  have cond3 : (ii.mergedCond prev t).operand ⟨v', x.other⟩ 3 = ii.operand ⟨v, x.other⟩ 3 := (mergedCond_third merges.arm _).trans outer
  have cond1 : (ii.mergedCond prev t).operand ⟨v', x.other⟩ t = ii.operand ⟨v, x.other⟩ 3 := (mergedCond_arm merges.arm _).trans outer
  have cond2 : (ii.mergedCond prev t).operand ⟨v', x.other⟩ (otherArm t) = prev.operand ⟨v, x.other⟩ 3 :=
    (mergedCond_other merges.arm _).trans (inner 3)
  have cmov3 : (ii.mergedCmov prev t).operand ⟨v', x.other⟩ 3 = v' (ii.op t) := mergedCmov_third merges.arm _
  have cmov1 : (ii.mergedCmov prev t).operand ⟨v', x.other⟩ t = prev.operand ⟨v, x.other⟩ t :=
    (mergedCmov_arm merges.arm _).trans (inner t)
  have cmov2 : (ii.mergedCmov prev t).operand ⟨v', x.other⟩ (otherArm t) = prev.operand ⟨v, x.other⟩ (otherArm t) :=
    (mergedCmov_other merges.arm _).trans (inner _)
  have shared := same ⟨v, x.other⟩
  rw [cmov3, prevAfter, cond3] at after
  rw [before, after]
  -- in the first arm both conditions were needed and one is enough now; in the second it is the other way round
  obtain rfl | rfl := merges.arm
  · have cond2' : (ii.mergedCond prev 1).operand ⟨v', x.other⟩ 2 = prev.operand ⟨v, x.other⟩ 3 := cond2
    have cmov2' : (ii.mergedCmov prev 1).operand ⟨v', x.other⟩ 2 = prev.operand ⟨v, x.other⟩ 2 := cmov2
    have shared' : ii.operand ⟨v, x.other⟩ 2 = prev.operand ⟨v, x.other⟩ 2 := shared.symm
    rw [arm, prevBefore, cond1, cond2', cmov1, cmov2', shared']
    exact merged_first
  · have cond2' : (ii.mergedCond prev 2).operand ⟨v', x.other⟩ 1 = prev.operand ⟨v, x.other⟩ 3 := cond2
    have cmov2' : (ii.mergedCmov prev 2).operand ⟨v', x.other⟩ 1 = prev.operand ⟨v, x.other⟩ 1 := cmov2
    have shared' : ii.operand ⟨v, x.other⟩ 1 = prev.operand ⟨v, x.other⟩ 1 := shared.symm
    rw [arm, prevBefore, cond1, cond2', cmov1, cmov2', shared']
    exact merged_second

/-! ### Uses -/

/-- Two entries of a list are no more than the sum. -/
theorem pair_le_sum {l : List Nat} {i j a b : Nat} (first : l[i]? = some a) (second : l[j]? = some b) (apart : i ≠ j) :
    a + b ≤ l.sum := by
  induction l generalizing i j with
  | nil => cases first
  | cons x l ih =>
    rw [List.sum_cons]
    rcases i with _ | i <;> rcases j with _ | j
    · exact absurd rfl apart
    · cases first
      have later : l[j]? = some b := second
      exact Nat.add_le_add_left (List.le_sum_of_mem (List.mem_of_getElem? later)) _
    · cases second
      have later : l[i]? = some a := first
      rw [Nat.add_comm]
      exact Nat.add_le_add_left (List.le_sum_of_mem (List.mem_of_getElem? later)) _
    · exact (ih first second fun same => apart (by rw [same])).trans (Nat.le_add_left ..)

theorem uses_pos (refers : ii.RefersTo r) : 1 ≤ ii.uses r := by
  obtain ⟨k, kind, op⟩ := refers
  exact List.countP_pos_iff.mpr ⟨k, List.mem_finRange k, by simp [kind, op]⟩

/-- An instruction used once is used by one instruction only. -/
theorem insnUses_alone (uses : f.insnUses p ≤ 1) (live : f.live? ref = some ii) (refers : ii.RefersTo p) (live' : f.live? s = some jj)
    (refers' : jj.RefersTo p) : s = ref := by
  obtain ⟨b, block, -, there⟩ := live?_eq_some.mp live
  obtain ⟨b', block', -, there'⟩ := live?_eq_some.mp live'
  have once := uses_pos refers
  have once' := uses_pos refers'
  have count : ∀ {n : Nat} {b : Bb}, f.bb[n]? = some b → (f.bb.map fun b => (b.insn.map fun ii => ii.uses p).sum)[n]? =
      some (b.insn.map fun ii => ii.uses p).sum := fun block => by rw [List.getElem?_map, block]; rfl
  have entry : ∀ {n : Nat} {b : Bb} {ii : Insn}, b.insn[n]? = some ii → (b.insn.map fun ii => ii.uses p)[n]? = some (ii.uses p) :=
      fun there => by
    rw [List.getElem?_map, there]
    rfl
  have total : (f.bb.map fun b => (b.insn.map fun ii => ii.uses p).sum).sum ≤ 1 := uses
  by_contra! apart
  by_cases same : refBb s = refBb ref
  · rw [same] at block'
    cases block.symm.trans block'
    have two := pair_le_sum (entry there) (entry there') fun place => apart (ref_inj same place.symm)
    have most := List.le_sum_of_mem (List.mem_of_getElem? (count block))
    omega
  · have two := pair_le_sum (count block) (count block') (Ne.symm same)
    have first := List.le_sum_of_mem (List.mem_of_getElem? (entry there))
    have second := List.le_sum_of_mem (List.mem_of_getElem? (entry there'))
    omega

theorem mergeArm_none (fires : f.mergeArm ref ii t = some none) : f.merges ii t = none := by
  unfold Func.mergeArm at fires
  unfold Func.merges
  cases there : if ii.opt t = .ref then f.insn? (ii.op t) else none with
  | none => rfl
  | some prev =>
    rw [there] at fires
    dsimp only at fires
    split_ifs at fires with cmov ended common
    · simp [cmov]
    · simp at fires
    · rw [Option.filter_some, if_neg]
      simpa [not_not.mp cmov] using common

theorem mergeArm_some (fires : f.mergeArm ref ii t = some (some f')) :
    ∃ prev, f.merges ii t = some prev ∧ f.insn? (ii.op t) = some prev ∧
    ii.opt t = .ref ∧ f.cucCheck ∧ prev.type.cond = false ∧ f' = f.merged ref ii prev t := by
  unfold Func.mergeArm at fires
  unfold Func.merges
  cases there : if ii.opt t = .ref then f.insn? (ii.op t) else none with
  | none => simp [there] at fires
  | some prev =>
    rw [there] at fires
    dsimp only at fires
    by_cases cmov : prev.index = .cmov
    swap
    · rw [if_pos cmov] at fires
      cases fires
    rw [if_neg (not_not.mpr cmov)] at fires
    split_ifs at fires with ended common
    swap
    · cases fires
    rw [Option.map_eq_some_iff] at fires
    obtain ⟨f'', checked, same⟩ := fires
    cases same
    rw [checked_eq_some] at checked
    rw [not_or, not_not] at ended
    by_cases kind : ii.opt t = .ref
    · rw [if_pos kind] at there
      refine ⟨prev, ?_, there, kind, ended.1, by simpa using ended.2, checked.2⟩
      rw [Option.filter_some, if_pos]
      simpa [cmov, and_assoc] using common
    · simp [kind] at there

/-- The condition of a CMOV is conditional. -/
theorem cucCheck_condition (check : f.cucCheck) (live : f.live? ref = some ii) (index : ii.index = .cmov) (kind : ii.opt 3 = .ref)
    (there : f.insn? (ii.op 3) = some prev) : prev.type.cond := by
  obtain ⟨b, block, -, place⟩ := live?_eq_some.mp live
  have checked := List.all_eq_true.mp (List.all_eq_true.mp check b (List.mem_of_getElem? block)) ii (List.mem_of_getElem? place)
  rw [Bool.and_eq_true, decide_eq_true_eq] at checked
  have third := checked.2 3
  simp only [Func.checkOperand, kind, there, index] at third
  simpa using third

theorem merges_eq_some (fires : f.merges ii t = some prev) : prev.index = .cmov ∧ prev.op (otherArm t) = ii.op (otherArm t) ∧
    prev.opt (otherArm t) = ii.opt (otherArm t) ∧ f.insnUses (ii.op t) ≤ 1 := by
  obtain ⟨-, guard⟩ := Option.filter_eq_some_iff.mp fires
  simpa [and_assoc] using guard

theorem Merges.of_mergeArm (wf : f.Acyclic) (live : f.live? ref = some ii) (index : ii.index = .cmov) (arm : t = 1 ∨ t = 2)
    (fires : f.mergeArm ref ii t = some (some f')) : ∃ prev, f.merges ii t = some prev ∧ Merges f ref ii prev t ∧
      f' = f.merged ref ii prev t := by
  obtain ⟨prev, found, there, kind, check, plain, same⟩ := mergeArm_some fires
  obtain ⟨cmov, op, opt, uses⟩ := merges_eq_some found
  obtain ⟨jj, live', -⟩ := wf.valid ref ii _ live ⟨t, kind, rfl⟩
  cases there.symm.trans (insn?_of_live? live')
  refine ⟨prev, found, ⟨live, index, arm, kind, live', cmov, op, opt, fun s jj live' refers => ?_, fun kind' equal => ?_⟩, same⟩
  · exact insnUses_alone uses live ⟨t, kind, rfl⟩ live' refers
  · have conditional := cucCheck_condition check live index kind' (equal ▸ there)
    exact absurd conditional (by simp [plain])

/-! ### The condition -/

theorem negates_iff : prev.negates ↔ (prev.opt 1 = .const ∧ prev.opt 2 = .const ∧ prev.op 1 = 0 ∧ prev.op 2 ≠ 0) := by
  simp [Insn.negates, isConst_iff, and_assoc]

/-- The condition is the value of the instruction it refers to. -/
theorem condition_eq (wf : f.Acyclic) (live : f.live? ref = some ii) (kind : ii.opt 3 = .ref) (there : f.insn? (ii.op 3) = some prev)
    (values : f.Values x v) : f.live? (ii.op 3) = some prev ∧ ii.operand ⟨v, x.other⟩ 3 = prev.result x (ii.op 3) v := by
  obtain ⟨jj, live', -⟩ := wf.valid ref ii _ live ⟨3, kind, rfl⟩
  cases there.symm.trans (insn?_of_live? live')
  exact ⟨live', (operand_ref kind).trans (values _ _ live')⟩

theorem exchangeArms_within (kind : ii.opt 3 = .ref) (there : f.live? (ii.op 3) = some prev) : f.Within ii (ii.exchangeArms prev) := by
  rintro s ⟨k, ref, op⟩
  simp only [Insn.exchangeArms, setOp_opt, setOp_op] at ref op
  by_cases third : k = 3
  · rw [if_pos third] at ref op
    exact .inr ⟨ii.op 3, prev, ⟨3, kind, rfl⟩, there, ⟨3, ref, op⟩⟩
  rw [if_neg third] at ref op
  by_cases second : k = 2
  · rw [if_pos second] at ref op
    exact .inl ⟨1, ref, op⟩
  rw [if_neg second] at ref op
  by_cases first : k = 1
  · rw [if_pos first] at ref op
    exact .inl ⟨2, ref, op⟩
  · rw [if_neg first] at ref op
    exact .inl ⟨k, ref, op⟩

/-- With the arms exchanged and the condition not negated, the CMOV has the value it had. -/
theorem exchangeArms_kept (wf : f.Acyclic) (printable : f.Printable) (live : f.live? ref = some ii) (index : ii.index = .cmov)
    (kind : ii.opt 3 = .ref)
    (there : f.insn? (ii.op 3) = some prev) (index' : prev.index = .cmov) (conditional : prev.type.cond) (negates : prev.negates)
    (values : f.Values x v) : (ii.exchangeArms prev).result x ref v = v ref := by
  obtain ⟨live', value⟩ := condition_eq wf live kind there values
  obtain ⟨const1, const2, zero, nonzero⟩ := negates_iff.mp negates
  have one : prev.op 2 = 1 := (printable.bits _ _ live' conditional index' 2 (by decide) const2).resolve_left nonzero
  have condition : ii.operand ⟨v, x.other⟩ 3 = if prev.operand ⟨v, x.other⟩ 3 ≠ 0 then 0 else 1 := by
    rw [value, result_of_value (cmov_value index' _), operand_const const1, operand_const const2, zero, one]
    rfl
  have first : (ii.exchangeArms prev).operand ⟨v, x.other⟩ 1 = ii.operand ⟨v, x.other⟩ 2 := by simp [Insn.exchangeArms, Insn.operand]
  have second : (ii.exchangeArms prev).operand ⟨v, x.other⟩ 2 = ii.operand ⟨v, x.other⟩ 1 := by simp [Insn.exchangeArms, Insn.operand]
  have third : (ii.exchangeArms prev).operand ⟨v, x.other⟩ 3 = prev.operand ⟨v, x.other⟩ 3 := by simp [Insn.exchangeArms, Insn.operand]
  have after : (ii.exchangeArms prev).index = .cmov := index
  rw [values ref ii live, result_of_value (cmov_value index _), result_of_value (cmov_value after _), first, second, third, condition]
  by_cases chosen : prev.operand ⟨v, x.other⟩ 3 = 0 <;> simp [chosen]

/-- A move of the condition is skipped. -/
theorem skipMove_kept (wf : f.Acyclic) (live : f.live? ref = some ii) (index : ii.index = .cmov) (kind : ii.opt 3 = .ref)
    (there : f.insn? (ii.op 3) = some prev) (index' : prev.index = .add) (const : prev.isConst 2) (zero : prev.op 2 = 0)
    (values : f.Values x v) :
    (ii.setOp 3 (prev.opt 1) (prev.op 1)).result x ref v = v ref := by
  obtain ⟨live', value⟩ := condition_eq wf live kind there values
  have sum : prev.value ⟨v, x.other⟩ = some (prev.operand ⟨v, x.other⟩ 1) := by
    rw [Insn.value, index', operand_const (isConst_iff.mp const), zero]
    exact congrArg some (BitVec.add_zero _)
  have operand : ∀ k : Fin 5, (ii.setOp 3 (prev.opt 1) (prev.op 1)).operand ⟨v, x.other⟩ k = ii.operand ⟨v, x.other⟩ k := fun k => by
    by_cases third : k = 3
    · subst third
      rw [value, result_of_value sum]
      simp [Insn.operand]
    · simp [Insn.operand, third]
  rw [values ref ii live, result_of_value (cmov_value index _),
    result_of_value (cmov_value (show (ii.setOp 3 (prev.opt 1) (prev.op 1)).index = .cmov from index) _),
    operand, operand, operand]

/-! ### The pushing of a CMOV that is found -/

theorem pushes_eq_some {a b : Insn} {diff : Fin 5} (found : f.pushes ii = some (a, b, diff)) : ii.opt 1 = .ref ∧ ii.opt 2 = .ref ∧
    ii.type.cond = false ∧ f.insn? (ii.op 1) = some a ∧ f.insn? (ii.op 2) = some b ∧ a.index = b.index ∧ a.type.volatile = false := by
  unfold Func.pushes at found
  split_ifs at found with refs
  obtain ⟨a', first, found⟩ := Option.bind_eq_some_iff.mp found
  obtain ⟨b', second, found⟩ := Option.bind_eq_some_iff.mp found
  split_ifs at found with same
  have ends : a' = a ∧ b' = b := by
    cases differences : a'.differences b' with
    | nil => simp [differences] at found
    | cons k rest =>
      cases rest with
      | nil =>
        rw [differences] at found
        cases found
        exact ⟨rfl, rfl⟩
      | cons j rest => simp [differences] at found
  obtain ⟨rfl, rfl⟩ := ends
  exact ⟨refs.1, refs.2.1, by simpa using refs.2.2, first, second, same.1, by simpa using same.2.1⟩

/-- The arms of an unconditional CMOV are unconditional. -/
theorem cucCheck_arm (check : f.cucCheck) (live : f.live? ref = some ii) (index : ii.index = .cmov) (kind : ii.opt 1 = .ref)
    (there : f.insn? (ii.op 1) = some prev) : prev.type.cond = ii.type.cond := by
  obtain ⟨b, block, -, place⟩ := live?_eq_some.mp live
  have checked := List.all_eq_true.mp (List.all_eq_true.mp check b (List.mem_of_getElem? block)) ii (List.mem_of_getElem? place)
  rw [Bool.and_eq_true, decide_eq_true_eq] at checked
  have arm := checked.2 1
  simp only [Func.checkOperand, kind, there, index] at arm
  simpa using arm

theorem Pushes.of_pushes {a b : Insn} {diff : Fin 5} (wf : f.Acyclic) (plain : f.Plain) (live : f.live? ref = some ii)
    (index : ii.index = .cmov)
    (found : f.pushes ii = some (a, b, diff)) (fires : f.push ref diff = some f') : Pushes f ref ii a b diff := by
  obtain ⟨ref1, ref2, unconditional, first, second, same, firm⟩ := pushes_eq_some found
  obtain ⟨a', live1, -⟩ := wf.valid ref ii _ live ⟨1, ref1, rfl⟩
  cases first.symm.trans (insn?_of_live? live1)
  obtain ⟨b', live2, -⟩ := wf.valid ref ii _ live ⟨2, ref2, rfl⟩
  cases second.symm.trans (insn?_of_live? live2)
  refine ⟨live, index, ref1, ref2, live1, live2, same, firm, plain _ a live1 ?_ firm⟩
  -- the insertion ends with a check
  obtain ⟨f1, inserted, fires⟩ := Option.bind_eq_some_iff.mp fires
  obtain ⟨f2, checked, -⟩ := Option.bind_eq_some_iff.mp fires
  have there : f1.live? (ref + 1) = some (ii.shift ref 1) := shiftRef_self ▸ live?_inserted inserted live
  have moved : (ii.shift ref 1).op 1 = shiftRef ref 1 (ii.op 1) := by simp [Insn.shift, ref1]
  have arm : f1.insn? ((ii.shift ref 1).op 1) = some (a.shift ref 1) := by
    rw [moved]
    exact insn?_of_live? (live?_inserted inserted live1)
  exact (cucCheck_arm (checked_eq_some.mp checked).1 there index ref1 arm).trans unconditional

/-- What is not changed is seen as it was. -/
theorem seen_self (wf : f.Acyclic) (values : f.Values x v) (values' : f.Values x' v') (moved : Moved f f ref x x') :
    Seen f f ref v v' := by
  have stays : ∀ s, place f f ref s = s := fun s => place_same rfl
  have agree := solutions_agree wf.acyclic wf.closed (values_iff.mp values)
    (values_iff.mp (moved.values stays (fun s live => live) values'))
  intro s jj k live kind op
  refine ⟨jj, by rw [stays, live], kind, ?_⟩
  obtain ⟨t, live', -⟩ := wf.valid s jj _ live ⟨k, kind, rfl⟩
  rw [op] at live' ⊢
  exact (agree ref (by simp [live'])).symm

theorem cmovPush_seen_iff {m : Bool} (wf : f.Acyclic) (plain : f.Plain) (live : f.live? ref = some ii) (index : ii.index = .cmov)
    (fires : f.cmovPush ref ii = some (f', m)) (values : f.Values x v) (values' : f'.Values x' v') (moved : Moved f f' ref x x') :
    Seen f f' ref v v' ↔ (f.Referenced ref → ∀ a b diff, f.pushes ii = some (a, b, diff) → ii.operand ⟨v, x.other⟩ 3 = 0 →
      a.index.rtl ((if 1 = diff then b else a).operand ⟨v, x.other⟩ 1) ((if 2 = diff then b else a).operand ⟨v, x.other⟩ 2)
        ((if 3 = diff then b else a).operand ⟨v, x.other⟩ 3) = b.value ⟨v, x.other⟩) := by
  unfold Func.cmovPush at fires
  cases found : f.pushes ii with
  | none =>
    rw [found] at fires
    cases fires
    refine iff_of_true (seen_self wf values values' moved) fun _ a b diff none => ?_
    cases none
  | some arms =>
    obtain ⟨a, b, diff⟩ := arms
    rw [found] at fires
    obtain ⟨f'', pushed, same⟩ := Option.map_eq_some_iff.mp fires
    cases same
    rw [(Pushes.of_pushes wf plain live index found pushed).seen_iff wf pushed values values' moved]
    refine imp_congr_right fun _ => ⟨fun kept a' b' diff' same => ?_, fun kept => kept a b diff rfl⟩
    cases same
    exact kept

/-! ### A rewritten condition -/

theorem insn?_set_ne (apart : s ≠ r) : (f.set r ii).insn? s = f.insn? s := by
  unfold Func.set Func.modify Func.insn?
  rw [List.getElem?_modify]
  cases block : f.bb[refBb s]? with
  | none => rfl
  | some b =>
    by_cases same : refBb r = refBb s
    · have place : refI r ≠ refI s := fun place => apart (ref_inj same place).symm
      simp [same, place]
    · simp [same]

/-- What is looked at for the pushing is not the CMOV itself. -/
theorem pushes_set (selfless : ¬jj.RefersTo r) : (f.set r ii).pushes jj = f.pushes jj := by
  unfold Func.pushes
  by_cases refs : jj.opt 1 = .ref ∧ jj.opt 2 = .ref ∧ ¬jj.type.cond
  · have first : jj.op 1 ≠ r := fun same => selfless ⟨1, refs.1, same⟩
    have second : jj.op 2 ≠ r := fun same => selfless ⟨2, refs.2.1, same⟩
    rw [if_pos refs, if_pos refs, insn?_set_ne first, insn?_set_ne second]
  · rw [if_neg refs, if_neg refs]

/-- The CMOV does not use itself, before and after it is rewritten. -/
theorem seen_of_set (wf : f.Acyclic) (live : f.live? ref = some ii) (selfless : ¬jj.RefersTo ref) :
    Seen (f.set ref jj) f' ref v v' ↔ Seen f f' ref v v' := by
  have stays : ∀ s, place (f.set ref jj) f' ref s = place f f' ref s := fun s => by unfold place; rw [ninsn_set]
  refine forall_congr' fun s => ?_
  by_cases same : s = ref
  · subst same
    refine iff_of_true (fun kk k live' kind op => ?_) fun kk k live' kind op => absurd ⟨k, kind, op⟩ (wf.not_self live')
    rw [live?_set_self live] at live'
    cases live'
    exact absurd ⟨k, kind, op⟩ selfless
  · rw [live?_set_ne same, stays]

theorem exchangeArms_acyclic (wf : f.Acyclic) (live : f.live? ref = some ii) (kind : ii.opt 3 = .ref)
    (there : f.live? (ii.op 3) = some prev) :
    (f.set ref (ii.exchangeArms prev)).Acyclic := by
  refine wf.set live (exchangeArms_within kind there) (by simp [Insn.exchangeArms]) (by simp [Insn.exchangeArms]) (fun k dest => ?_) rfl
  simp only [Insn.exchangeArms, setOp_opt] at dest
  split_ifs at dest
  · exact absurd (wf.first _ prev 3 there dest) (by decide)
  · exact absurd (wf.first ref ii 1 live dest) (by decide)
  · exact absurd (wf.first ref ii 2 live dest) (by decide)
  · exact wf.first ref ii k live dest

theorem skipMove_within (kind : ii.opt 3 = .ref) (there : f.live? (ii.op 3) = some prev) :
    f.Within ii (ii.setOp 3 (prev.opt 1) (prev.op 1)) := by
  rintro s ⟨k, ref, op⟩
  rw [setOp_opt] at ref
  rw [setOp_op] at op
  by_cases third : k = 3
  · rw [if_pos third] at ref op
    exact .inr ⟨ii.op 3, prev, ⟨3, kind, rfl⟩, there, ⟨1, ref, op⟩⟩
  · rw [if_neg third] at ref op
    exact .inl ⟨k, ref, op⟩

/-- Without a merging, the CMOV keeps its value exactly where the pushing does not change it. -/
theorem cmovCond_seen_iff {m : Bool} (wf : f.Acyclic) (printable : f.Printable) (live : f.live? ref = some ii) (index : ii.index = .cmov)
    (fires : f.cmovCond ref ii = some (f', m)) (values : f.Values x v) (values' : f'.Values x' v') (moved : Moved f f' ref x x') :
    Seen f f' ref v v' ↔ (f.Referenced ref → ∀ jj a b diff,
      f.settled ii = some jj → f.pushes jj = some (a, b, diff) → jj.operand ⟨v, x.other⟩ 3 = 0 →
      a.index.rtl ((if 1 = diff then b else a).operand ⟨v, x.other⟩ 1) ((if 2 = diff then b else a).operand ⟨v, x.other⟩ 2)
        ((if 3 = diff then b else a).operand ⟨v, x.other⟩ 3) = b.value ⟨v, x.other⟩) := by
  -- the CMOV is looked at for the pushing as it is
  have plainly : f.settled ii = some ii → f.cmovPush ref ii = some (f', m) → (Seen f f' ref v v' ↔ (f.Referenced ref → ∀ jj a b diff,
      f.settled ii = some jj → f.pushes jj = some (a, b, diff) → jj.operand ⟨v, x.other⟩ 3 = 0 →
      a.index.rtl ((if 1 = diff then b else a).operand ⟨v, x.other⟩ 1) ((if 2 = diff then b else a).operand ⟨v, x.other⟩ 2)
        ((if 3 = diff then b else a).operand ⟨v, x.other⟩ 3) = b.value ⟨v, x.other⟩)) := fun settled fires => by
    rw [cmovPush_seen_iff wf printable.plain live index fires values values' moved]
    refine imp_congr_right fun _ => ⟨fun kept jj a b diff same => ?_, fun kept a b diff => kept ii a b diff settled⟩
    cases settled.symm.trans same
    exact kept a b diff
  unfold Func.cmovCond at fires
  cases there : if ii.opt 3 = .ref then f.insn? (ii.op 3) else none with
  | none =>
    have settled : f.settled ii = some ii := by rw [Func.settled, there]
    rw [there] at fires
    exact plainly settled fires
  | some prev =>
    have settled : f.settled ii = if prev.index = .cmov ∧ prev.negates then some (ii.exchangeArms prev)
        else if prev.index = .add ∧ prev.isConst 2 ∧ prev.op 2 = 0 then none else some ii := by rw [Func.settled, there]
    have kind : ii.opt 3 = .ref := by
      by_contra other
      rw [if_neg other] at there
      cases there
    rw [there] at fires
    rw [if_pos kind] at there
    dsimp only at fires
    split_ifs at fires settled with unconditional negated move
    · have conditional : prev.type.cond := unconditional
      have kept := exchangeArms_kept wf printable live index kind there negated.1 conditional negated.2 values
      obtain ⟨live', -⟩ := condition_eq wf live kind there values
      have wf' := exchangeArms_acyclic wf live kind live'
      have live'' : (f.set ref (ii.exchangeArms prev)).live? ref = some (ii.exchangeArms prev) := live?_set_self live
      have index' : (ii.exchangeArms prev).index = .cmov := index
      have plain' : (f.set ref (ii.exchangeArms prev)).Plain := fun s jj there => by
        by_cases same : s = ref
        · rw [same, live''] at there
          cases there
          rw [index']
          exact fun _ _ => .inr fun _ _ _ => rfl
        · rw [live?_set_ne same] at there
          exact printable.plain s jj there
      have moved' : Moved (f.set ref (ii.exchangeArms prev)) f' ref x x' := by
        refine ⟨moved.other, fun s jj there => ?_⟩
        have place' : place (f.set ref (ii.exchangeArms prev)) f' ref s = place f f' ref s := by unfold place; rw [ninsn_set]
        rw [live?_set, Option.map_eq_some_iff] at there
        obtain ⟨old, there, -⟩ := there
        rw [place', moved.outside s old there]
      have selfless := wf'.not_self live''
      rw [← seen_of_set wf live selfless,
        cmovPush_seen_iff wf' plain' live'' index' fires (values.set live kept) values' moved', pushes_set selfless,
        referenced_set wf live (exchangeArms_within kind live')]
      refine imp_congr_right fun _ => ⟨fun kept jj a b diff same => ?_, fun kept a b diff => kept _ a b diff settled⟩
      cases settled.symm.trans same
      exact kept a b diff
    · cases fires
      obtain ⟨live', -⟩ := condition_eq wf live kind there values
      rw [seen_set_iff wf live (skipMove_within kind live') values values' moved]
      refine iff_of_true (fun _ => skipMove_kept wf live index kind there move.1 move.2.1 move.2.2 values) fun _ jj a b diff same => ?_
      cases settled.symm.trans same
    · exact plainly settled fires

/-! ### The whole rewriting -/

theorem cmovSame_some (wf : f.Acyclic) (live : f.live? ref = some ii) (fires : ii.cmovSame ref = some ii') :
    ii.sameOps 1 2 ∧ ii' = ((ii.changeInsnType .add).setOp 2 .const 0).setOpt 3 .none := by
  unfold Insn.cmovSame at fires
  split_ifs at fires with first second
  · refine ⟨first.resolve_right fun self => wf.not_self live ⟨2, self⟩, ?_⟩
    rw [← Option.some.inj fires]
  · exact absurd ⟨1, second⟩ (wf.not_self live)

theorem cmovSame_none (rests : ii.cmovSame ref = none) : ¬ii.sameOps 1 2 := by
  intro same
  rw [Insn.cmovSame, if_pos (.inl same)] at rests
  cases rests

theorem cmovSame_kept (live : f.live? ref = some ii) (index : ii.index = .cmov) (same : ii.sameOps 1 2) (values : f.Values x v) :
    (((ii.changeInsnType .add).setOp 2 .const 0).setOpt 3 .none).result x ref v = v ref := by
  have equal : ii.operand ⟨v, x.other⟩ 2 = ii.operand ⟨v, x.other⟩ 1 :=
    (operand_congr (sameOps_iff.mp same).1 (sameOps_iff.mp same).2).symm
  rw [values ref ii live, result_of_value (cmov_value index _), equal, ite_self, changeInsnType_of_ne (by decide)]
  refine result_of_value ?_
  have first : (({ ii with index := .add }.setOp 2 .const 0).setOpt 3 .none).operand ⟨v, x.other⟩ 1 = ii.operand ⟨v, x.other⟩ 1 := by
    simp [Insn.operand]
  have second : (({ ii with index := .add }.setOp 2 .const 0).setOpt 3 .none).operand ⟨v, x.other⟩ 2 = 0 := by simp [Insn.operand]
  rw [Insn.value, first, second]
  exact congrArg some (BitVec.add_zero _)

theorem firstMerge_one (conditional : ¬ii.type.cond) (found : f.merges ii 1 = some prev) : f.firstMerge ii = some (1, prev) := by
  rw [Func.firstMerge, if_neg conditional, found]

theorem firstMerge_two (conditional : ¬ii.type.cond) (unmerged : f.merges ii 1 = none) :
    f.firstMerge ii = (f.merges ii 2).map fun prev => (2, prev) := by
  rw [Func.firstMerge, if_neg conditional, unmerged]

/-- The users of a rewritten CMOV see the value it had exactly where the merged conditions agree and the pushed instructions compute the
same. -/
theorem optimizeCmovMore_seen_iff {m : Bool} (wf : f.Acyclic) (printable : f.Printable) (live : f.live? ref = some ii)
    (index : ii.index = .cmov)
    (fires : f.optimizeCmovMore ref ii = some (f', m)) (values : f.Values x v) (values' : f'.Values x' v')
    (moved : Moved f f' ref x x') :
    Seen f f' ref v v' ↔ (f.Referenced ref → f.CmovKeeps x v ii) := by
  unfold Func.optimizeCmovMore at fires
  cases same : ii.cmovSame ref with
  | some ii' =>
    rw [same] at fires
    cases fires
    obtain ⟨equal, rfl⟩ := cmovSame_some wf live same
    have within : f.Within ii (((ii.changeInsnType .add).setOp 2 .const 0).setOpt 3 .none) := by
      rintro s ⟨k, ref, op⟩
      rw [changeInsnType_of_ne (by decide)] at ref op
      by_cases second : k = 2 <;> by_cases third : k = 3 <;> simp [second, third] at ref op
      exact .inl ⟨k, ref, op⟩
    rw [seen_set_iff wf live within values values' moved]
    exact iff_of_true (fun _ => cmovSame_kept live index equal values) fun _ =>
      ⟨fun other => absurd equal other, fun other => absurd equal other⟩
  | none =>
    have apart := cmovSame_none same
    rw [same] at fires
    dsimp only at fires
    -- without a merging
    have rest : f.firstMerge ii = none → f.cmovCond ref ii = some (f', m) →
        (Seen f f' ref v v' ↔ (f.Referenced ref → f.CmovKeeps x v ii)) := fun unmerged fires => by
      rw [cmovCond_seen_iff wf printable live index fires values values' moved]
      refine imp_congr_right fun _ => ⟨fun kept => ⟨fun _ t prev found => ?_, fun _ _ => kept⟩, fun kept => kept.pushing apart unmerged⟩
      cases unmerged.symm.trans found
    have merging : ∀ {t : Fin 5}, (t = 1 ∨ t = 2) → f.mergeArm ref ii t = some (some f') →
      (∀ prev, f.merges ii t = some prev → f.firstMerge ii = some (t, prev)) →
        (Seen f f' ref v v' ↔ (f.Referenced ref → f.CmovKeeps x v ii)) := fun {t} arm fires first => by
      obtain ⟨prev, found, merges, rfl⟩ := Merges.of_mergeArm wf live index arm fires
      rw [merges.seen_iff wf values values' moved]
      refine imp_congr_right fun _ => ⟨fun kept => ⟨fun _ t' prev' found' => ?_, fun _ none => ?_⟩,
        fun kept => kept.merging apart t prev (first prev found)⟩
      · cases (first prev found).symm.trans found'
        exact kept
      · cases (first prev found).symm.trans none
    by_cases conditional : ii.type.cond
    · rw [if_pos conditional] at fires
      exact rest (if_pos conditional) fires
    · rw [if_neg conditional] at fires
      obtain ⟨first, arm1, fires⟩ := Option.bind_eq_some_iff.mp fires
      cases first with
      | some f'' =>
        cases fires
        exact merging (.inl rfl) arm1 fun prev found => firstMerge_one conditional found
      | none =>
        have unmerged1 := mergeArm_none arm1
        dsimp only at fires
        obtain ⟨second, arm2, fires⟩ := Option.bind_eq_some_iff.mp fires
        cases second with
        | some f'' =>
          cases fires
          exact merging (.inr rfl) arm2 fun prev found => by rw [firstMerge_two conditional unmerged1, found]; rfl
        | none => exact rest (by rw [firstMerge_two conditional unmerged1, mergeArm_none arm2]; rfl) fires

end

/-! ### Two CMOVs with a common arm -/

/-- The flag `r3 = 0`. -/
def zero3 : Insn :=
  { type := { cond := true }, index := .sfeq, opt := ![.dest, .register, .const, .none, .none], op := ![-1, 3, 0, 0, 0] }

/-- The flag `r4 = 0`. -/
def zero4 : Insn :=
  { type := { cond := true }, index := .sfeq, opt := ![.dest, .register, .const, .none, .none], op := ![-1, 4, 0, 0, 0] }

/-- `r5` where `r3` is zero, and `r6` elsewhere. -/
def innerCmov : Insn := { index := .cmov, opt := ![.dest, .register, .register, .ref, .none], op := ![-1, 5, 6, 0, 0] }

/-- That one where `r4` is zero, and `r6` elsewhere. -/
def outerCmov : Insn := { index := .cmov, opt := ![.dest, .ref, .register, .ref, .none], op := ![-1, 2, 6, 1, 0] }

/-- The result, left in `r11`. -/
def cmovUser : Insn :=
  { type := { output := true }, index := .add, opt := ![.dest, .ref, .const, .none, .none], op := ![11, 3, 0, 0, 0] }

def chained : Func := single [zero3, zero4, innerCmov, outerCmov, cmovUser]

def chainedMerged : Func := single [zero3, zero4, outerCmov.mergedCond innerCmov 1, outerCmov.mergedCmov innerCmov 1, cmovUser]

/-- The registers hold their numbers, and `r3` is zero. -/
def numbered : Input := ⟨fun _ r => if r = 3 then 0 else r.setWidth 32, fun _ _ _ => 0⟩

theorem chained_acyclic : chained.Acyclic := single_acyclic (by decide) (by decide) (by decide)

theorem chained_printable : chained.Printable where
  plain := by
    refine single_all fun ii inside unconditional _ => .inr ?_
    simp only [List.mem_cons, List.not_mem_nil, or_false] at inside
    obtain rfl | rfl | rfl | rfl | rfl := inside
    · cases unconditional
    · cases unconditional
    all_goals exact fun _ _ _ => rfl
  bits := single_all (by decide)

theorem chained_fires : chained.optimizeCmovMore 3 outerCmov = some (chainedMerged, true) := by decide

theorem chained_values : chained.Values numbered (listed [1, 0, 5, 6, 6]) := single_values (by decide)

theorem chainedMerged_values : chainedMerged.Values numbered (listed [1, 0, 1, 5, 5]) := single_values (by decide)

/-- Instructions that stay where they are read the same input. -/
theorem moved_refl {f f' : Func} {ref : Op} {x : Input} (length : f'.ninsn (refBb ref) = f.ninsn (refBb ref)) : Moved f f' ref x x :=
  ⟨rfl, fun s _ _ => by rw [place_same length]⟩

theorem chained_seen_iff : Seen chained chainedMerged 3 (listed [1, 0, 5, 6, 6]) (listed [1, 0, 1, 5, 5]) ↔
    (chained.Referenced 3 → chained.CmovKeeps numbered (listed [1, 0, 5, 6, 6]) outerCmov) :=
  optimizeCmovMore_seen_iff chained_acyclic chained_printable rfl rfl chained_fires chained_values chainedMerged_values (moved_refl rfl)

/-- One of the two conditions is enough after the merging. -/
theorem chained_lost : ¬∀ (f f' : Func) (x x' : Input) (v v' : Op → Word) (ref : Op) (ii : Insn) (m : Bool), f.Acyclic → f.Printable →
    f.live? ref = some ii → ii.index = .cmov → f.optimizeCmovMore ref ii = some (f', m) → f.Values x v → f'.Values x' v' →
      Moved f f' ref x x' →
    Seen f f' ref v v' := by
  intro all
  have seen := all chained chainedMerged numbered numbered (listed [1, 0, 5, 6, 6])
    (listed [1, 0, 1, 5, 5]) 3 outerCmov true chained_acyclic
    chained_printable rfl rfl chained_fires chained_values chainedMerged_values (moved_refl rfl)
  obtain ⟨jj', live', -, value⟩ := seen 4 cmovUser 1 rfl rfl rfl
  cases live'
  exact absurd value (by decide)

end Or1ksim.Cuc
