import Or1ksim.Cpu.Frame

/-!
# One instruction

What `decode_execute` comes to, in either executor: the function of the entry that the table decoder
finds, on its operands, and an exception or nothing when there is none.
-/

namespace Or1ksim.Cpu

open Programs (Keeps)
open Decode (InsnOp Opcode Code Block)

variable {δ : Type} {c : Config δ}

/-- The automaton and the descriptors are those of the opcode table. -/
structure Config.Built (c : Config δ) : Prop where
  built : ∃ heap, Decode.buildAutomata c.opcodes heap = some (c.build, c.opStart)
  nonempty : c.opcodes ≠ []
  small : c.opcodes.length < 2 ^ 31

/-- The entry of a word. -/
def Config.decode (c : Config δ) (insn : Word) : Option Nat :=
  match Decode.insnDecode c.build decodeFuel insn with
  | some (.ofNat index) => some index
  | _ => none

/-- The function that runs for a word. -/
def Config.function (c : Config δ) (insn : Word) : Option Insn := (c.decode insn).bind c.insnAt

/-! ### The generated text -/

def runBlock (c : Config δ) (insn : Word) : Block → Sim δ Unit
  | .illegal => modify fun m => exceptHandle .illegal m.pc m
  | .entry index opds text => runEntry c insn index opds text
  | .invalid text => if text then lInvalidSim else pure ()

def runBlocks (c : Config δ) (insn : Word) : List Block → Sim δ Unit
  | [] => pure ()
  | b :: bs => do
    runBlock c insn b
    runBlocks c insn bs

theorem runBlocks_append (insn : Word) (bs bs' : List Block) :
    runBlocks c insn (bs ++ bs') = (do runBlocks c insn bs; runBlocks c insn bs') := by
  induction bs with
  | nil => simp [runBlocks]
  | cons b bs ih => simp [runBlocks, ih]

/-- The text runs the blocks that its control flow leads through. -/
theorem runCode_eq_blocks (insn : Word) (code : Code) (target : Option Nat) :
    runCode c insn code target = (do
      runBlocks c insn (code.blocks insn target).1
      pure (code.blocks insn target).2) := by
  induction code generalizing target with
  | done => simp [runCode, Code.blocks, runBlocks]
  | case v rest ih =>
    cases target with
    | none => simp [runCode, Code.blocks, ih]
    | some target => by_cases here : target = v <;> simp [runCode, Code.blocks, ih, here]
  | brk rest ih => cases target <;> simp [runCode, Code.blocks, ih, runBlocks]
  | illegal rest ih => cases target <;> simp [runCode, Code.blocks, ih, runBlocks, runBlock]
  | switch shift mask body rest bodyIh ih =>
    cases target <;> simp [runCode, Code.blocks, ih, bodyIh, runBlocks_append]
  | check mask value yes no rest yesIh noIh ih =>
    cases target with
    | none =>
      by_cases matching : insn &&& mask = value <;>
        simp [runCode, Code.blocks, ih, yesIh, noIh, matching, runBlocks_append]
    | some target => simp [runCode, Code.blocks, ih]
  | entry index opds text rest ih => cases target <;> simp [runCode, Code.blocks, ih, runBlocks, runBlock]
  | invalid text rest ih =>
    cases target with
    | none => cases text <;> simp [runCode, Code.blocks, ih, runBlocks, runBlock]
    | some target => simp [runCode, Code.blocks, ih]

/-! ### Outcomes -/

/-- The end of the block of an entry: register `0` is put back when the entry may have written it. -/
def repair (opds : List InsnOp) (m : Machine δ) : Machine δ := if Decode.writeToReg opds then setReg 0 0 m else m

/-- The operands of an entry, and what follows its function. -/
inductive Frame (c : Config δ) (m : Machine δ) (opds : List InsnOp) : Operands δ → (Machine δ → Machine δ) → Prop where
  | simple (is : c.executor = .simple) : Frame c m opds (simpleOperands m.insn opds) id
  | complex (is : c.executor = .complex) :
      Frame c m opds (complexOperands opds (Decode.operandVars m.insn (regFile m) opds)) (repair opds)

/-- What `decode_execute` comes to. A word without a function raises an exception or does nothing. -/
inductive Outcome (c : Config δ) (m : Machine δ) : Machine δ → Prop where
  | illegal (ea : Word) (none : c.function m.insn = none) : Outcome c m (exceptHandle .illegal ea m)
  | silent (opds : List InsnOp) (none : c.function m.insn = none) : Outcome c m (repair opds m)
  | exec (index : Nat) (i : Insn) (opds : List InsnOp) (opd : Operands δ) (tail : Machine δ → Machine δ)
      (after : Machine δ) (decoded : c.decode m.insn = some index) (found : c.insnAt index = some i)
      (described : c.opStart[index]? = some opds) (frame : Frame c m opds opd tail)
      (ran : i.exec c opd m = .ok ((), after)) : Outcome c m (tail after)

theorem function_of_decode {insn : Word} {index : Nat} (decoded : c.decode insn = some index) :
    c.function insn = c.insnAt index := by
  rw [Config.function, decoded, Option.bind_some]

theorem simpleExecute_outcome {m m' : Machine δ} (is : c.executor = .simple)
    (ran : simpleExecute c decodeFuel m.insn m = .ok ((), m')) : Outcome c m m' := by
  unfold simpleExecute at ran
  cases found : Decode.insnDecode c.build decodeFuel m.insn with
  | none =>
    simp only [found] at ran
    cases ran
  | some index =>
    simp only [found] at ran
    split at ran
    · next negative =>
      cases ran
      refine .illegal _ ?_
      obtain ⟨k, rfl⟩ := Int.eq_negSucc_of_lt_zero negative
      rw [Config.function, Config.decode, found]
      rfl
    · next nonneg =>
      obtain ⟨k, rfl⟩ := Int.eq_ofNat_of_zero_le (by omega : 0 ≤ index)
      have decoded : c.decode m.insn = some k := by
        rw [Config.decode, found]
      rw [Int.toNat_natCast] at ran
      cases described : c.opStart[k]? with
      | none =>
        simp only [described] at ran
        cases ran
      | some opds =>
        cases function : c.insnAt k with
        | none =>
          simp only [described, function] at ran
          cases ran
          exact .illegal _ ((function_of_decode decoded).trans function)
        | some i =>
          simp only [described, function] at ran
          exact .exec k i opds _ id m' decoded function described (.simple is) ran

theorem runEntry_ok {index : Nat} {opds : List InsnOp} {text : Bool} {m m' : Machine δ} {insn : Word}
    (ran : runEntry c insn index opds text m = .ok ((), m')) :
    (text = false ∧ m' = repair opds m) ∨ (text = true ∧ ∃ i after, c.insnAt index = some i ∧
      i.exec c (complexOperands opds (Decode.operandVars insn (regFile m) opds)) m = .ok ((), after) ∧
        m' = repair opds after) := by
  have tail {t t' : Machine δ}
      (done : (if Decode.writeToReg opds then modify (setReg 0 0) else pure () : Sim δ Unit) t = .ok ((), t')) :
      t' = repair opds t := by
    unfold repair
    split at done
    · next writes =>
      cases done
      rw [if_pos writes]
    · next none =>
      cases done
      rw [if_neg none]
  rw [runEntry, Programs.get_bind] at ran
  cases text with
  | false => exact .inl ⟨rfl, tail ran⟩
  | true =>
    cases found : c.insnAt index with
    | none =>
      simp only [found] at ran
      cases ran
    | some i =>
      simp only [found] at ran
      obtain ⟨_, after, executed, done⟩ := Programs.bind_ok ran
      exact .inr ⟨rfl, i, after, rfl, executed, tail done⟩

theorem insnAt_textAt {index : Nat} {op : Opcode} (present : c.opcodes[index]? = some op) :
    c.generator.textAt index = (c.insnAt index).isSome := by
  have looked : ((insnset c).map Prod.fst).contains op.functionName = ((insnset c).lookup op.functionName).isSome := by
    generalize insnset c = entries
    induction entries with
    | nil => rfl
    | cons entry rest ih =>
      rw [List.map_cons, List.contains_cons, ih, List.lookup_cons]
      cases op.functionName == entry.1 <;> rfl
  rw [Config.insnAt, present, Option.bind_some, ← looked]
  simp [Decode.Generator.textAt, Decode.Generator.outputFunction, Config.generator, Decode.generator, present]

theorem complexExecute_outcome {m m' : Machine δ} (built : c.Built) (is : c.executor = .complex)
    (ran : complexExecute c decodeFuel m.insn m = .ok ((), m')) : Outcome c m m' := by
  obtain ⟨⟨heap, accepted⟩, nonempty, small⟩ := built
  have sizes := (Decode.buildAutomata_tables accepted).2
  obtain ⟨t, code, generated, separates, runs⟩ :=
    Decode.generate_block ((insnset c).map Prod.fst) small nonempty accepted (Nat.lt_succ_self Decode.coverFuel)
  obtain ⟨block, decodes, _⟩ := runs m.insn
  have runsBlock : runBlock c m.insn
      (c.generator.treeBlock (c.opcodes.map Opcode.pattern) m.insn t 0) m = .ok ((), m') := by
    rw [complexExecute, show Decode.generate c.generator decodeFuel = some code from generated] at ran
    simp only [runCode_eq_blocks, block, runBlocks] at ran
    simpa [Config.generator] using ran
  have decode : c.decode m.insn = (Decode.checked (Decode.patternAt (c.opcodes.map Opcode.pattern)) m.insn (t.walk m.insn)).toNat? := by
    rw [Config.decode, show Decode.insnDecode c.build decodeFuel m.insn = _ from decodes]
    cases Decode.checked (Decode.patternAt (c.opcodes.map Opcode.pattern)) m.insn (t.walk m.insn) <;> rfl
  rcases Decode.treeBlock_cases c.build c.opStart ((insnset c).map Prod.fst) m.insn separates with
    ⟨walk, is⟩ | ⟨i, op, walk, present, pattern, ⟨hit, is⟩ | ⟨hit, is⟩⟩
  · rw [Config.generator, is] at runsBlock
    cases runsBlock
    refine .illegal _ ?_
    rw [Config.function, decode, walk]
    rfl
  · have decoded : c.decode m.insn = some i := by
      rw [decode, walk, Decode.checked, pattern, if_pos hit]
      rfl
    have described : c.opStart[i]? = some (c.generator.opdsAt i) := by
      have : i < c.opStart.length := by
        have := (List.getElem?_eq_some_iff.mp present).1
        omega
      simp [Decode.Generator.opdsAt, Config.generator, Decode.generator, this]
    rw [Config.generator, is] at runsBlock
    rcases runEntry_ok runsBlock with ⟨silent, rfl⟩ | ⟨_, function, after, found, executed, rfl⟩
    · refine .silent _ ?_
      rw [function_of_decode decoded, ← Option.isNone_iff_eq_none, ← Option.not_isSome, ← insnAt_textAt present]
      simpa [Config.generator] using silent
    · exact .exec i function _ _ (repair _) after decoded found described (.complex ‹_›) executed
  · have none : c.function m.insn = none := by
      rw [Config.function, decode, walk, Decode.checked, pattern, if_neg hit]
      rfl
    rw [Config.generator, is, runBlock] at runsBlock
    split at runsBlock
    · cases runsBlock
      exact .illegal _ none
    · cases runsBlock
      exact .silent [] none

theorem decodeExecute_outcome {m m' : Machine δ} (built : c.Built) (ran : decodeExecute c m = .ok ((), m')) :
    Outcome c m m' := by
  rw [decodeExecute, Programs.get_bind] at ran
  cases is : c.executor with
  | simple =>
    simp only [is] at ran
    exact simpleExecute_outcome is ran
  | complex =>
    simp only [is] at ran
    exact complexExecute_outcome built is ran

/-! ### Operands -/

/-- Reads only. -/
def Reads {α : Type} (m : Sim δ α) : Prop := Keeps (fun s s' => s' = s) m

theorem reads_pure {α : Type} (a : α) : Reads (pure a : Sim δ α) :=
  Keeps.pure (R := fun s s' => s' = s) (fun _ => rfl) a

theorem reads_get {α : Type} {f : Machine δ → Sim δ α} (rest : ∀ s, Reads (f s)) : Reads (get >>= f) :=
  fun s a s' ran => rest s s a s' ran

theorem Reads.bind_ok {α β : Type} {m : Sim δ α} {f : α → Sim δ β} {s s' : Machine δ} {b : β} (reads : Reads m)
    (ran : (m >>= f) s = .ok (b, s')) : ∃ a, m s = .ok (a, s) ∧ f a s = .ok (b, s') := by
  obtain ⟨a, mid, first, rest⟩ := Programs.bind_ok ran
  obtain rfl := reads _ _ _ first
  exact ⟨a, first, rest⟩

theorem evalsimReg_reads (regno : Word) : Reads (evalsimReg regno : Sim δ Word) := by
  unfold evalsimReg
  split
  · exact reads_get fun _ => reads_pure _
  · exact keeps_stop _

theorem simpleOperands_reads (insn : Word) (opds : List InsnOp) (n : Nat) :
    Reads ((simpleOperands insn opds : Operands δ).param n) := by
  unfold simpleOperands
  dsimp only
  split
  · exact keeps_stop _
  · refine reads_get fun m => ?_
    split
    · split
      · split
        · split
          · exact reads_pure _
          · exact keeps_stop _
        · exact keeps_stop _
      · split
        · exact evalsimReg_reads _
        · exact reads_pure _
    · exact keeps_stop _

theorem complexOperands_reads (opds : List InsnOp) (vars : List Word) (n : Nat) :
    Reads ((complexOperands opds vars : Operands δ).param n) := by
  unfold complexOperands
  dsimp only
  split
  · exact keeps_stop _
  · split
    · split
      · exact reads_get fun _ => reads_pure _
      · exact keeps_stop _
    · exact reads_pure _

/-- The destination is a register, and nothing else changes. -/
def WritesReg (m : Sim δ Unit) : Prop := Keeps (fun s s' => ∃ i v, s' = setReg i v s) m

theorem simpleOperands_writes (insn : Word) (opds : List InsnOp) (v : Word) :
    WritesReg ((simpleOperands insn opds : Operands δ).setParam0 v) := by
  unfold simpleOperands setsimReg
  dsimp only
  split
  · split
    · split
      · exact Keeps.modify fun s => ⟨_, _, rfl⟩
      · exact keeps_stop _
    · exact keeps_stop _
  · exact keeps_stop _

theorem complexOperands_writes (opds : List InsnOp) (vars : List Word) (v : Word) :
    WritesReg ((complexOperands opds vars : Operands δ).setParam0 v) := by
  unfold complexOperands
  dsimp only
  split
  · split
    · split
      · exact Keeps.modify fun s => ⟨_, _, rfl⟩
      · exact keeps_stop _
    · exact keeps_stop _
  · exact keeps_stop _

theorem Frame.reads {m : Machine δ} {opds : List InsnOp} {opd : Operands δ} {tail : Machine δ → Machine δ}
    (frame : Frame c m opds opd tail) : (∀ n, Reads (opd.param n)) ∧ Reads opd.regParam0 := by
  cases frame with
  | simple =>
    refine ⟨simpleOperands_reads _ _, ?_⟩
    unfold simpleOperands
    dsimp only
    split
    · exact reads_pure _
    · exact keeps_stop _
  | complex =>
    refine ⟨complexOperands_reads _ _, ?_⟩
    unfold complexOperands
    dsimp only
    split
    · split
      · exact reads_pure _
      · exact keeps_stop _
    · exact keeps_stop _

theorem Frame.writes {m : Machine δ} {opds : List InsnOp} {opd : Operands δ} {tail : Machine δ → Machine δ}
    (frame : Frame c m opds opd tail) (v : Word) : WritesReg (opd.setParam0 v) := by
  cases frame with
  | simple => exact simpleOperands_writes _ _ v
  | complex => exact complexOperands_writes _ _ v

theorem Frame.keep {m : Machine δ} {opds : List InsnOp} {opd : Operands δ} {tail : Machine δ → Machine δ}
    {R : Machine δ → Machine δ → Prop} (frame : Frame c m opds opd tail) (closed : Closed c R)
    (reg : ∀ s i v, R s (setReg i v s)) : opd.Keep R where
  param n s a s' ran := by rw [frame.reads.1 n s a s' ran]; exact closed.refl s
  regParam0 s a s' ran := by rw [frame.reads.2 s a s' ran]; exact closed.refl s
  setParam0 v s a s' ran := by
    obtain ⟨i, w, rfl⟩ := frame.writes v s a s' ran
    exact reg s i w

/-! ### Instructions -/

namespace Closed

variable {R : Machine δ → Machine δ → Prop} {opd : Operands δ}

protected theorem lMfspr (closed : Closed c R) (keep : opd.Keep R) : Keeps R (lMfspr c opd) := by
  refine closed.bind (keep.param 1) fun x => closed.bind (keep.param 2) fun y => Closed.get fun s a s' ran => ?_
  split at ran
  · exact keep.setParam0 _ s a s' ran
  · obtain ⟨_, mid, _, last⟩ := Programs.bind_ok ran
    cases last

protected theorem lLwa (closed : Closed c R) (keep : opd.Keep R)
    (reserve : ∀ s active addr, R s { s with loadlockActive := active, loadlockAddr := addr }) : Keeps R (lLwa c opd) := by
  refine closed.bind (closed.runP keep _) fun _ => closed.bind (keep.param 1) fun memaddr => ?_
  refine closed.bind (closed.runP keep _) fun val => ?_
  refine closed.bind (Keeps.modify fun s => reserve s _ _) fun _ => ?_
  refine closed.bind (keep.param 1) fun again => closed.bind (closed.runP keep _) fun addr => ?_
  refine closed.bind (Keeps.modify fun s => reserve s _ _) fun _ => ?_
  refine Closed.get fun s a s' ran => ?_
  split at ran
  · cases ran
    exact closed.refl s
  · exact keep.setParam0 _ s a s' ran

protected theorem lSwa (closed : Closed c R) (keep : opd.Keep R) : Keeps R (lSwa c opd) := by
  have store : Keeps R (storeConditional c opd) :=
    closed.bind (keep.param 0) fun memaddr => closed.bind (keep.param 1) fun value =>
      closed.bind (closed.runP keep _) fun _ => closed.runP keep _
  refine closed.bind (closed.runP keep _) fun _ => closed.bind (keep.param 0) fun memaddr => ?_
  refine closed.bind (closed.runP keep _) fun addr => Closed.get fun s a s' ran => ?_
  refine closed.bind ?_ (fun _ => ?_) s a s' ran
  · cases (decide (s.loadlockAddr = addr) && s.loadlockActive) with
    | true => exact store
    | false => exact closed.pure ()
  · exact closed.bind (closed.modify (setFlag_local _ _)) fun _ => closed.modify clearLoadlock_local

end Closed

/-! ### The clock -/

/-- The state in which `cpu_clock` fetches. -/
def begun (s : Machine δ) : Machine δ := { s with exceptPending := false, nextDelayInsn := false }

/-- The four ways of `cpu_clock`: a breakpoint of the command line, an exception of the fetch, a
watchpoint of the fetch, and an instruction. -/
theorem cpuClock_cases {s s' : Machine δ} {b : Bool} (ran : cpuClock c s = .ok (b, s')) :
    ∃ m, fetch c (begun s) = .ok (b, m) ∧
      ((b = true ∧ s' = m) ∨
        (b = false ∧ m.exceptPending = true ∧ s' = { updatePc m with exceptPending := false }) ∨
        (b = false ∧ m.exceptPending = false ∧ m.breakpoint = true ∧
          s' = { updatePc (trap m) with exceptPending := false }) ∨
        (b = false ∧ m.exceptPending = false ∧ m.breakpoint = false ∧ ∃ n,
          decodeExecute c m = .ok ((), n) ∧ s' = updatePc (if n.breakpoint then trap n else n))) := by
  rw [cpuClock, Programs.modify_bind] at ran
  obtain ⟨hit, m, fetched, rest⟩ := Programs.bind_ok ran
  cases hit with
  | true =>
    cases rest
    exact ⟨_, fetched, .inl ⟨rfl, rfl⟩⟩
  | false =>
    obtain ⟨_, after, executed, last⟩ := Programs.bind_ok rest
    cases last
    refine ⟨m, fetched, .inr ?_⟩
    rw [execute, Programs.get_bind] at executed
    cases pending : m.exceptPending with
    | true =>
      simp only [pending] at executed
      cases executed
      exact .inl ⟨rfl, rfl, rfl⟩
    | false =>
      cases watched : m.breakpoint with
      | true =>
        simp only [pending, watched] at executed
        cases executed
        exact .inr (.inl ⟨rfl, rfl, rfl, rfl⟩)
      | false =>
        simp only [pending, watched] at executed
        have clear : ({ m with breakpoint := false } : Machine δ) = m := by rw [← watched]
        obtain ⟨_, n, wrapped, last⟩ := Programs.bind_ok executed
        cases last
        rw [decodeExecuteWrapper, Programs.modify_bind, clear] at wrapped
        obtain ⟨_, n', decoded, last⟩ := Programs.bind_ok wrapped
        cases last
        exact .inr (.inr ⟨rfl, rfl, rfl, n', decoded, rfl⟩)

protected theorem Closed.fetch {R : Machine δ → Machine δ → Prop} (closed : Closed c R)
    (insn : ∀ s w, R s { s with insn := w }) : Keeps R (fetch c) := by
  have idle (f : Machine δ → Machine δ) (kept : ∀ s, Local s (f s)) := closed.modify kept
  have fetches : Keeps R (fetchInsn c) := by
    refine closed.bind (idle _ fun s => ⟨rfl, rfl, rfl, rfl, rfl, rfl, id, rfl, rfl, .refl _, rfl⟩) fun _ => ?_
    exact Closed.get fun s a s' ran => closed.bind (closed.evalInsn _)
      (fun w => Keeps.modify fun t => insn t w) s a s' ran
  refine Closed.get fun s a s' ran => ?_
  split at ran
  · exact closed.bind fetches (fun _ => closed.pure false) s a s' ran
  · refine closed.bind (closed.runP (noOperands_keep R) _) (fun phys => ?_) s a s' ran
    split
    · exact closed.bind (idle _ fun s => ⟨rfl, rfl, rfl, rfl, rfl, rfl, id, rfl, rfl, .refl _, rfl⟩) fun _ =>
        closed.pure true
    · exact closed.bind (idle _ fun s => ⟨rfl, rfl, rfl, rfl, rfl, rfl, id, rfl, rfl, .refl _, rfl⟩) fun _ =>
        closed.bind fetches fun _ => closed.pure false

/-! ### A bare machine -/

/-- What `or1ksim_build_automata` makes of a table that it accepts. -/
def bareBuild (ops : List Opcode) : Decode.Build × List (List InsnOp) :=
  (Decode.buildAutomata ops fun _ => 0).getD (⟨[], 0, 0, fun _ => 0⟩, [])

/-- A core with nothing around it but memory areas. -/
def Config.bare (ops : List Opcode) (areas : List (Area δ)) : Config δ :=
  { executor := .complex
    opcodes := ops
    build := (bareBuild ops).1
    opStart := (bareBuild ops).2
    areas
    mcArea := none
    devJob := fun _ d => (d, [])
    dmmu := ⟨0, 0, 13, 0, 0⟩
    immu := ⟨0, 0, 13, 0, 0⟩
    dc := ⟨false, 0, 0, 0, 2, 0, 0, 0, 0⟩
    ic := ⟨false, 0, 0, 0, 2, 0, 0⟩
    softfloat :=
      { float32Add := fun _ x _ => (x, ⟨false, false, false, false, false⟩)
        float32Sub := fun _ x _ => (x, ⟨false, false, false, false, false⟩)
        float32Mul := fun _ x _ => (x, ⟨false, false, false, false, false⟩)
        float32Div := fun _ x _ => (x, ⟨false, false, false, false, false⟩)
        float32Rem := fun _ x _ => (x, ⟨false, false, false, false, false⟩)
        float32ToInt32 := fun _ x => (x, ⟨false, false, false, false, false⟩)
        int32ToFloat32 := fun _ x => (x, ⟨false, false, false, false, false⟩)
        float32Eq := fun _ _ => (false, ⟨false, false, false, false, false⟩)
        float32Le := fun _ _ => (false, ⟨false, false, false, false, false⟩)
        float32Lt := fun _ _ => (false, ⟨false, false, false, false, false⟩)
        float32IsNan := fun _ => false }
    debugEnabled := false
    picEnabled := true
    picEdgeTrigger := true
    picUseNmi := false
    pcuEnabled := false
    pmEnabled := 0
    hardfloat := false
    sbufLen := 0
    isLibrary := false
    profile := false
    strictNpc := false
    clkcyclePs := 4000
    random := fun _ => 0
    long64 := true
    wideShift := fun _ _ _ => 0 }

theorem Config.bare_built {ops : List Opcode} (areas : List (Area δ)) (nonempty : ops ≠ []) (small : ops.length < 2 ^ 31)
    (accepted : (Decode.buildAutomata ops fun _ => 0).isSome = true) : (Config.bare ops areas).Built where
  built := by
    obtain ⟨r, built⟩ := Option.isSome_iff_exists.mp accepted
    refine ⟨fun _ => 0, ?_⟩
    simp [Config.bare, bareBuild, built]
  nonempty := nonempty
  small := small

def Machine.bare (dev : δ) (sr pc : Word) : Machine δ :=
  { reg := fun _ => 0
    sprs := fun r => if r = sprSr then sr else 0
    pc
    pcDelay := 0
    pcnext := pc + 4
    delayInsn := false
    nextDelayInsn := false
    npcNotValid := false
    insnAddr := 0
    insn := 0
    loadlockActive := false
    loadlockAddr := 0
    exceptPending := false
    breakpoint := false
    breakpoints := []
    breakJustHit := false
    dataCi := false
    insnCi := false
    curArea := none
    curVadd := 0
    dc := fun _ _ => ⟨fun _ => 0, 0, 0⟩
    ic := ⟨fun _ => 0, fun _ => 0, fun _ => -1⟩
    scheduler := (Sched.schedInit Job.guard).getD ⟨[], []⟩
    cycleCountAtTickStart := 0
    tickCounting := false
    cycles := 0
    memCycles := 0
    oldCyc := 0
    sbuf := ⟨0, 0, 0, fun _ => 0, 0⟩
    stalled := false
    halted := false
    inReset := false
    randomCalls := 0
    dev
    entries := [] }

/-- A memory over the whole address space, read and written by words; other widths have no callback. -/
def Area.words : Area (Word → Word) :=
  { addrMask := fun _ => 0
    addrCompare := fun _ => 0
    sizeMask := fun _ => -1
    valid := fun _ => true
    delayr := fun _ => 1
    delayw := fun _ => 1
    readfunc := fun w =>
      match w with
      | .word => some fun addr d => (d addr, d, [])
      | _ => none
    writefunc := fun w =>
      match w with
      | .word => some fun addr v d => (fun a => if a = addr then v else d a, [])
      | _ => none }

end Or1ksim.Cpu
