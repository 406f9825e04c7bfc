import Or1ksim.Decode.Decoder
import Or1ksim.Decode.OperandValues

/-!
# The generated executor

`generate_body` of `cpu/or32/generate.c` writes the automaton out as nested `switch` statements. The
text it writes is a `Code`, and `Code.exec` is its meaning in C: a `switch` goes to the label of its
value and runs from there to the next `break`.
-/

namespace Or1ksim.Decode

open FieldTree

/-! ### Generated text -/

/-- A sequence of statements. -/
inductive Code where
  | done
  | case (v : Nat) (rest : Code)
  | brk (rest : Code)
  /-- `except_handle (EXCEPT_ILLEGAL, cpu_state.pc);` -/
  | illegal (rest : Code)
  | switch (shift mask : Nat) (body rest : Code)
  /-- `if((insn & mask) == value) { … } else { … }` -/
  | check (mask value : Word) (yes no rest : Code)
  /-- The block of `output_call`: the statements for the operands, and the text of the function. -/
  | entry (index : Nat) (opds : List InsnOp) (text : Bool) (rest : Code)
  | invalid (text : Bool) (rest : Code)

/-- What the generator reads: the automaton, the opcode table with its descriptors, and the names
that have an `INSTRUCTION` in `insnset.c`. -/
structure Generator where
  build : Build
  functionNames : List String
  opStart : List (List InsnOp)
  insnset : List String

/-- Whether `output_function` writes anything. At the end of the file it returns before the line
that would write a call of the function. -/
def Generator.outputFunction (g : Generator) (name : String) : Bool := g.insnset.contains name

def Generator.outputCall (g : Generator) (index : Nat) (rest : Code) : Option Code :=
  match g.functionNames[index]?, g.opStart[index]? with
  | some name, some opds => some (.entry index opds (g.outputFunction name) rest)
  | _, _ => none

/-- The loop over the cases of a `switch`: `more` words of the array from `a` on, for the values
from `i` on. -/
def generateCases (body : Nat → Code → Option Code) (automata : Nat → Nat) : Nat → Nat → Nat → Bool → Option Code
  | 0, _, _, prevInv => some (if prevInv then .illegal (.brk .done) else .done)
  | more + 1, i, a, prevInv =>
    if automata a = 0 then (generateCases body automata more (i + 1) (a + 1) true).map (.case i)
    else
      (generateCases body automata more (i + 1) (a + 1) false).bind fun rest =>
        (body (automata a) (.brk rest)).map fun code =>
          if prevInv then .illegal (.brk (.case i code)) else .case i code

/-- `generate_body`; what is written behind it is `rest`. -/
def generateBody (g : Generator) : Nat → Nat → Word → Code → Option Code
  | 0, _, _, _ => none
  | fuel + 1, a, curMask, rest =>
    if g.build.automata a &&& leafFlag = 0 then
      let shift := g.build.automata a
      let mask := g.build.automata (a + 1)
      (generateCases (fun a rest => generateBody g fuel a (curMask ||| (BitVec.ofNat 32 mask <<< shift)) rest)
        g.build.automata (mask + 1) 0 (a + 2) false).map fun body => .switch shift mask body rest
    else
      let i := leafIndex (g.build.automata a)
      match g.build.ti[i]? with
      | none => none
      | some e =>
        if e.insnMask ≠ curMask then
          (g.outputCall i .done).map fun yes =>
            .check e.insnMask e.insn yes (.invalid (g.outputFunction "l_invalid") .done) rest
        else g.outputCall i rest

/-- The body of `decode_execute`. -/
def generate (g : Generator) (fuel : Nat) : Option Code := generateBody g fuel 0 0 .done

/-! ### Its meaning -/

inductive Event where
  /-- `except_handle (EXCEPT_ILLEGAL, …)`. -/
  | illegal
  /-- The function of an entry runs on these operands. -/
  | exec (index : Nat) (operands : List Word)
  deriving DecidableEq, Repr

/-- The operand variables of an entry. -/
def operandVars (insn : Word) (reg : Word → Word) (opds : List InsnOp) : List Word :=
  (List.range (numOps opds)).map (execStmts insn reg (genEvalOperands opds) fun _ => 0)

/-- Runs the statements, or goes to the label of `target` first. It gives what happens, and whether
a `break` was met. The text of `l_invalid` raises the exception. -/
def Code.exec (insn : Word) (reg : Word → Word) : Code → Option Nat → List Event × Bool
  | .done, _ => ([], false)
  | .case v rest, some target => if target = v then rest.exec insn reg none else rest.exec insn reg (some target)
  | .case _ rest, none => rest.exec insn reg none
  | .brk rest, some target => rest.exec insn reg (some target)
  | .brk _, none => ([], true)
  | .illegal rest, some target => rest.exec insn reg (some target)
  | .illegal rest, none =>
    let after := rest.exec insn reg none
    (.illegal :: after.1, after.2)
  | .switch _ _ _ rest, some target => rest.exec insn reg (some target)
  | .switch shift mask body rest, none =>
    let inside := body.exec insn reg (some ((insn.toNat >>> shift) &&& mask))
    let after := rest.exec insn reg none
    (inside.1 ++ after.1, after.2)
  | .check _ _ _ _ rest, some target => rest.exec insn reg (some target)
  | .check mask value yes no rest, none =>
    let inside := if insn &&& mask = value then yes.exec insn reg none else no.exec insn reg none
    let after := rest.exec insn reg none
    (inside.1 ++ after.1, after.2)
  | .entry _ _ _ rest, some target => rest.exec insn reg (some target)
  | .entry index opds text rest, none =>
    let after := rest.exec insn reg none
    ((if text then [.exec index (operandVars insn reg opds)] else []) ++ after.1, after.2)
  | .invalid _ rest, some target => rest.exec insn reg (some target)
  | .invalid text rest, none =>
    let after := rest.exec insn reg none
    ((if text then [.illegal] else []) ++ after.1, after.2)

/-! ### Blocks -/

/-- A statement that does something. -/
inductive Block where
  | illegal
  | entry (index : Nat) (opds : List InsnOp) (text : Bool)
  | invalid (text : Bool)
  deriving DecidableEq, Repr

def Block.events (insn : Word) (reg : Word → Word) : Block → List Event
  | .illegal => [.illegal]
  | .entry index opds text => if text then [.exec index (operandVars insn reg opds)] else []
  | .invalid text => if text then [.illegal] else []

/-- The blocks that the control flow of the text leads a word through, whatever they do. -/
def Code.blocks (insn : Word) : Code → Option Nat → List Block × Bool
  | .done, _ => ([], false)
  | .case v rest, some target => if target = v then rest.blocks insn none else rest.blocks insn (some target)
  | .case _ rest, none => rest.blocks insn none
  | .brk rest, some target => rest.blocks insn (some target)
  | .brk _, none => ([], true)
  | .illegal rest, some target => rest.blocks insn (some target)
  | .illegal rest, none => (.illegal :: (rest.blocks insn none).1, (rest.blocks insn none).2)
  | .switch _ _ _ rest, some target => rest.blocks insn (some target)
  | .switch shift mask body rest, none =>
    ((body.blocks insn (some ((insn.toNat >>> shift) &&& mask))).1 ++ (rest.blocks insn none).1,
      (rest.blocks insn none).2)
  | .check _ _ _ _ rest, some target => rest.blocks insn (some target)
  | .check mask value yes no rest, none =>
    ((if insn &&& mask = value then yes.blocks insn none else no.blocks insn none).1 ++ (rest.blocks insn none).1,
      (rest.blocks insn none).2)
  | .entry _ _ _ rest, some target => rest.blocks insn (some target)
  | .entry index opds text rest, none =>
    (.entry index opds text :: (rest.blocks insn none).1, (rest.blocks insn none).2)
  | .invalid _ rest, some target => rest.blocks insn (some target)
  | .invalid text rest, none => (.invalid text :: (rest.blocks insn none).1, (rest.blocks insn none).2)

theorem exec_eq_blocks (insn : Word) (reg : Word → Word) (code : Code) (target : Option Nat) :
    code.exec insn reg target =
      ((code.blocks insn target).1.flatMap (Block.events insn reg), (code.blocks insn target).2) := by
  induction code generalizing target with
  | done => simp [Code.exec, Code.blocks]
  | case v rest ih =>
    cases target with
    | none => simp [Code.exec, Code.blocks, ih]
    | some target => by_cases here : target = v <;> simp [Code.exec, Code.blocks, ih, here]
  | brk rest ih => cases target <;> simp [Code.exec, Code.blocks, ih]
  | illegal rest ih => cases target <;> simp [Code.exec, Code.blocks, ih, Block.events]
  | switch shift mask body rest bodyIh ih => cases target <;> simp [Code.exec, Code.blocks, ih, bodyIh]
  | check mask value yes no rest yesIh noIh ih =>
    cases target with
    | none => by_cases matching : insn &&& mask = value <;> simp [Code.exec, Code.blocks, ih, yesIh, noIh, matching]
    | some target => simp [Code.exec, Code.blocks, ih]
  | entry index opds text rest ih => cases target <;> simp [Code.exec, Code.blocks, ih, Block.events]
  | invalid text rest ih => cases target <;> simp [Code.exec, Code.blocks, ih, Block.events]

/-! ### What the text does -/

section
variable {g : Generator} {table : List (Pattern 32)} {insn : Word} {reg : Word → Word}

/-- The descriptors of an entry. -/
def Generator.opdsAt (g : Generator) (i : Nat) : List InsnOp := (g.opStart[i]?).getD []

/-- Whether the function of an entry has a text. -/
def Generator.textAt (g : Generator) (i : Nat) : Bool := g.outputFunction ((g.functionNames[i]?).getD "")

/-- The entries that the generator can write: all of its tables have them. -/
def Generator.Entry (g : Generator) (table : List (Pattern 32)) (i : Nat) : Prop :=
  (∃ e : TempInsn, g.build.ti[i]? = some e ∧ e.pattern = patternAt table i) ∧
    (∃ name, g.functionNames[i]? = some name) ∧ ∃ opds, g.opStart[i]? = some opds

def Generator.entryEvents (g : Generator) (insn : Word) (reg : Word → Word) (i : Nat) : List Event :=
  if g.textAt i then [.exec i (operandVars insn reg (g.opdsAt i))] else []

/-- The final check is written only when the bits tested on the way are not the entry's mask. -/
def Generator.treeBlock (g : Generator) (table : List (Pattern 32)) (insn : Word) (t : BitTree Nat)
    (seen : Word) : Block :=
  match t.walk insn with
  | none => .illegal
  | some i =>
    if (patternAt table i).mask ≠ t.path insn seen ∧ ¬ (patternAt table i).Matches insn then
      .invalid (g.outputFunction "l_invalid")
    else .entry i (g.opdsAt i) (g.textAt i)

/-- A generated statement runs the block that the tree says and then what follows it; a search for a
label passes over it. -/
def Generator.Writes (g : Generator) (table : List (Pattern 32)) (t : BitTree Nat) (seen : Word)
    (body : Code → Option Code) : Prop :=
  ∀ rest, ∃ code, body rest = some code ∧ ∀ insn,
    (∀ v, code.blocks insn (some v) = rest.blocks insn (some v)) ∧
      code.blocks insn none =
        (g.treeBlock table insn t seen :: (rest.blocks insn none).1, (rest.blocks insn none).2)

theorem outputCall_eq {i : Nat} (entry : g.Entry table i) (rest : Code) :
    g.outputCall i rest = some (.entry i (g.opdsAt i) (g.textAt i) rest) := by
  obtain ⟨_, ⟨name, named⟩, opds, described⟩ := entry
  simp [Generator.outputCall, named, described, Generator.opdsAt, Generator.textAt]

/-- The cases of a `switch`: from its label on, each runs the text of its child, and a run of invalid
cases falls through to the exception. -/
theorem generateCases_blocks (body : Nat → Code → Option Code) (automata : Nat → Nat) (child : Nat → BitTree Nat)
    (seen : Word) (more i a : Nat) (prevInv : Bool)
    (children : ∀ k < more, (automata (a + k) = 0 ∧ child (i + k) = .invalid) ∨
      (automata (a + k) ≠ 0 ∧ g.Writes table (child (i + k)) seen (body (automata (a + k))))) :
    ∃ code, generateCases body automata more i a prevInv = some code ∧ ∀ insn,
      (prevInv = true → code.blocks insn none = ([.illegal], true)) ∧
        ∀ k < more, code.blocks insn (some (i + k)) = ([g.treeBlock table insn (child (i + k)) seen], true) := by
  induction more generalizing i a prevInv with
  | zero =>
    refine ⟨_, rfl, fun insn => ⟨fun inv => ?_, by simp⟩⟩
    rw [if_pos inv]
    rfl
  | succ more ih =>
    have later : ∀ k < more, (automata (a + 1 + k) = 0 ∧ child (i + 1 + k) = .invalid) ∨
        (automata (a + 1 + k) ≠ 0 ∧ g.Writes table (child (i + 1 + k)) seen (body (automata (a + 1 + k)))) := by
      intro k low
      have := children (k + 1) (by omega)
      rwa [show a + (k + 1) = a + 1 + k by omega, show i + (k + 1) = i + 1 + k by omega] at this
    rcases children 0 (Nat.succ_pos _) with ⟨zero, absent⟩ | ⟨nonzero, writes⟩
    · obtain ⟨rest, generated, runs⟩ := ih (i + 1) (a + 1) true later
      refine ⟨.case i rest, ?_, fun insn => ⟨fun _ => (runs insn).1 rfl, fun k low => ?_⟩⟩
      · rw [generateCases, if_pos (by simpa using zero), generated, Option.map_some]
      · cases k with
        | zero =>
          rw [Nat.add_zero] at absent ⊢
          rw [Code.blocks, if_pos rfl, (runs insn).1 rfl, absent]
          rfl
        | succ k =>
          rw [Code.blocks, if_neg (by omega), show i + (k + 1) = i + 1 + k by omega]
          exact (runs insn).2 k (by omega)
    · obtain ⟨rest, generated, runs⟩ := ih (i + 1) (a + 1) false later
      obtain ⟨code, written, does⟩ := writes (.brk rest)
      have labelled : ∀ insn, ∀ k < more + 1,
          (Code.case i code).blocks insn (some (i + k)) =
            ([g.treeBlock table insn (child (i + k)) seen], true) := by
        intro insn k low
        cases k with
        | zero =>
          rw [Nat.add_zero, Code.blocks, if_pos rfl, (does insn).2]
          simp [Code.blocks]
        | succ k =>
          rw [Code.blocks, if_neg (by omega), (does insn).1, Code.blocks, show i + (k + 1) = i + 1 + k by omega]
          exact (runs insn).2 k (by omega)
      refine ⟨if prevInv then .illegal (.brk (.case i code)) else .case i code, ?_, fun insn => ?_⟩
      · rw [generateCases, if_neg (by simpa using nonzero), generated, Option.bind_some]
        rw [Nat.add_zero] at written
        rw [written, Option.map_some]
      · cases prevInv with
        | true => exact ⟨fun _ => rfl, labelled insn⟩
        | false => exact ⟨by simp, labelled insn⟩

theorem leaf_writes {i fuel off : Nat} {seen : Word} (entry : g.Entry table i) (small : i < 2 ^ 31)
    (word : g.build.automata off = leafFlag ||| i) :
    g.Writes table (.leaf i) seen (generateBody g (fuel + 1) off seen) := by
  intro rest
  obtain ⟨flag, index⟩ := leaf_word small
  obtain ⟨⟨e, found, pattern⟩, _⟩ := id entry
  have mask : (patternAt table i).mask = e.insnMask := by rw [← pattern]; rfl
  have hit : ∀ insn, (patternAt table i).Matches insn ↔ insn &&& e.insnMask = e.insn := by
    intro insn
    rw [← pattern, BitVec.and_comm]
    rfl
  by_cases unique : e.insnMask = seen
  · refine ⟨.entry i (g.opdsAt i) (g.textAt i) rest, ?_, fun insn => ⟨fun v => rfl, ?_⟩⟩
    · simp [generateBody, word, flag, index, found, unique, outputCall_eq entry]
    · simp [Code.blocks, Generator.treeBlock, BitTree.walk, BitTree.path, mask, unique]
  · refine ⟨.check e.insnMask e.insn (.entry i (g.opdsAt i) (g.textAt i) .done)
      (.invalid (g.outputFunction "l_invalid") .done) rest, ?_, fun insn => ⟨fun v => rfl, ?_⟩⟩
    · simp [generateBody, word, flag, index, found, unique, outputCall_eq entry]
    · by_cases matching : insn &&& e.insnMask = e.insn
      · simp [Code.blocks, Generator.treeBlock, BitTree.walk, hit, matching]
      · simp [Code.blocks, Generator.treeBlock, BitTree.walk, BitTree.path, mask, unique, hit, matching]

theorem generateBody_writes {lo hi depth fuel off : Nat} {t : BitTree Nat} {seen : Word}
    (encodes : Encodes g.build.automata lo hi t off) (shallow : t.Shallow depth) (enough : depth < fuel)
    (entries : t.Leaves (g.Entry table)) : g.Writes table t seen (generateBody g fuel off seen) := by
  induction t generalizing depth fuel off seen with
  | invalid => exact encodes.elim
  | leaf i =>
    obtain ⟨fuel, rfl⟩ : ∃ k, fuel = k + 1 := ⟨fuel - 1, by omega⟩
    exact leaf_writes entries encodes.2.2.1 encodes.2.2.2
  | node first len child ih =>
    obtain ⟨fuel, rfl⟩ : ∃ k, fuel = k + 1 := ⟨fuel - 1, by omega⟩
    cases depth with
    | zero => exact shallow.elim
    | succ depth =>
      obtain ⟨_, _, small, shift, mask, pointers⟩ := encodes
      have positive := Nat.two_pow_pos len
      intro rest
      have children : ∀ k < 2 ^ len, (g.build.automata (off + 2 + k) = 0 ∧ child (0 + k) = .invalid) ∨
          (g.build.automata (off + 2 + k) ≠ 0 ∧ g.Writes table (child (0 + k)) (seen ||| ones first len)
            (generateBody g fuel (g.build.automata (off + 2 + k)) (seen ||| ones first len))) := by
        intro k low
        rw [Nat.zero_add]
        rcases pointers k low with absent | ⟨nonzero, inner⟩
        · exact .inl absent
        · exact .inr ⟨nonzero, ih k inner (shallow k low) (by omega) (entries k low)⟩
      obtain ⟨body, generated, runs⟩ := generateCases_blocks
        (fun a rest => generateBody g fuel a (seen ||| ones first len) rest) g.build.automata child
        (seen ||| ones first len) (2 ^ len) 0 (off + 2) false children
      refine ⟨.switch first (2 ^ len - 1) body rest, ?_, fun insn => ⟨fun v => rfl, ?_⟩⟩
      · rw [generateBody, if_pos (by rw [shift]; exact node_word small)]
        simp only [shift, mask]
        rw [show 2 ^ len - 1 + 1 = 2 ^ len by omega]
        exact congrArg (Option.map _) generated
      · have here := (runs insn).2 (field first len insn) (field_lt _ _ _)
        rw [Nat.zero_add] at here
        rw [Code.blocks]
        simp only [← field.eq_1, here]
        rfl

/-! ### Agreement with the table decoder -/

/-- The leaf that the automaton leads a word to, before the final check. -/
def leafFrom (b : Build) (insn : Word) : Nat → Nat → Option Nat
  | 0, _ => none
  | fuel + 1, a =>
    if b.automata a &&& leafFlag = 0 then
      let i := (insn.toNat >>> b.automata a) &&& b.automata (a + 1)
      if b.automata (a + 2 + i) = 0 then none else leafFrom b insn fuel (b.automata (a + 2 + i))
    else some (leafIndex (b.automata a))

theorem leafFrom_encodes {b : Build} {lo hi depth fuel off : Nat} {t : BitTree Nat}
    (encodes : Encodes b.automata lo hi t off) (shallow : t.Shallow depth) (enough : depth < fuel) :
    leafFrom b insn fuel off = t.walk insn := by
  induction t generalizing depth fuel off with
  | invalid => exact encodes.elim
  | leaf i =>
    obtain ⟨fuel, rfl⟩ : ∃ k, fuel = k + 1 := ⟨fuel - 1, by omega⟩
    obtain ⟨_, _, small, word⟩ := encodes
    obtain ⟨flag, index⟩ := leaf_word small
    rw [leafFrom, word, if_neg flag, index]
    rfl
  | node first len child ih =>
    obtain ⟨fuel, rfl⟩ : ∃ k, fuel = k + 1 := ⟨fuel - 1, by omega⟩
    cases depth with
    | zero => exact shallow.elim
    | succ depth =>
      obtain ⟨_, _, small, shift, mask, pointers⟩ := encodes
      have low := field_lt first len insn
      have index : (insn.toNat >>> b.automata off) &&& b.automata (off + 1) = field first len insn := by
        rw [shift, mask, field]
      rw [leafFrom, if_pos (by rw [shift]; exact node_word small)]
      dsimp only
      rw [index, BitTree.walk]
      rcases pointers _ low with ⟨zero, absent⟩ | ⟨nonzero, inner⟩
      · rw [if_pos zero, absent]
        rfl
      · rw [if_neg nonzero]
        exact ih _ inner (shallow _ low) (by omega)

/-- The generated code does with a word what the table decoder says. -/
structure Agrees (opStart : List (List InsnOp)) (insn : Word) (reg : Word → Word) (events : List Event)
    (decoded : Option Int) : Prop where
  entry : ∀ i : Nat, (∃ operands, .exec i operands ∈ events) ↔ decoded = some (i : Int)
  illegal : .illegal ∈ events ↔ decoded = some (-1)
  operands : ∀ i operands, .exec i operands ∈ events → ∃ opds, opStart[i]? = some opds ∧
    operands.map some = (List.range (numOps opds)).map (evalOperand insn reg opds)

theorem operandVars_eq {opds : List InsnOp} (ok : operandsOk opds = true) :
    (operandVars insn reg opds).map some = (List.range (numOps opds)).map (evalOperand insn reg opds) := by
  rw [operandVars, List.map_map]
  apply List.map_congr_left
  intro opNo inside
  exact genEvalOperands_value ok _ (List.mem_range.mp inside)

theorem mem_entryEvents {i j : Nat} {operands : List Word} :
    .exec j operands ∈ g.entryEvents insn reg i ↔
      g.textAt i = true ∧ j = i ∧ operands = operandVars insn reg (g.opdsAt i) := by
  unfold Generator.entryEvents
  split <;> simp_all

theorem illegal_mem_entryEvents {i : Nat} : .illegal ∉ g.entryEvents insn reg i := by
  unfold Generator.entryEvents
  split <;> simp

/-- When the walk ends at an entry that the word matches, the code agrees if the function of the
entry has a text. -/
theorem agrees_matching {i : Nat} (described : g.opStart[i]? = some (g.opdsAt i))
    (ok : operandsOk (g.opdsAt i) = true) :
    Agrees g.opStart insn reg (g.entryEvents insn reg i) (some (i : Int)) ↔ g.textAt i = true := by
  constructor
  · intro agrees
    obtain ⟨operands, member⟩ := (agrees.entry i).mpr rfl
    exact (mem_entryEvents.mp member).1
  · intro text
    refine ⟨fun j => ⟨?_, ?_⟩, ⟨fun member => absurd member illegal_mem_entryEvents, fun same => ?_⟩, ?_⟩
    · rintro ⟨operands, member⟩
      rw [(mem_entryEvents.mp member).2.1]
    · intro same
      obtain rfl : i = j := by simpa using same
      exact ⟨_, mem_entryEvents.mpr ⟨text, rfl, rfl⟩⟩
    · simp at same
    · intro j operands member
      obtain ⟨_, rfl, rfl⟩ := mem_entryEvents.mp member
      exact ⟨_, described, operandVars_eq ok⟩

/-- When no entry matches, the code agrees if it raises the exception. -/
theorem agrees_invalid (raised : Bool) :
    Agrees g.opStart insn reg (if raised then [.illegal] else []) (some (-1)) ↔ raised = true := by
  constructor
  · intro agrees
    by_contra silent
    simpa [silent] using agrees.illegal
  · rintro rfl
    refine ⟨fun j => ?_, by simp, by simp⟩
    constructor
    · rintro ⟨operands, member⟩
      simp at member
    · intro same
      simp at same

end

/-! ### Every table -/

section
variable {ops : List Opcode} {heap : Nat → Nat} {b : Build} {opStart : List (List InsnOp)} {insnset : List String}

/-- The generator over an opcode table, its automaton and its descriptors. -/
def generator (ops : List Opcode) (b : Build) (opStart : List (List InsnOp)) (insnset : List String) : Generator :=
  { build := b, functionNames := ops.map Opcode.functionName, opStart, insnset }

theorem parseTable_length {used : Nat} (parsed : parseTable ops used = some opStart) :
    opStart.length = ops.length := by
  induction ops generalizing used opStart with
  | nil =>
    obtain rfl := Option.some.inj parsed
    rfl
  | cons op ops ih =>
    simp only [parseTable, Option.bind_eq_some_iff] at parsed
    obtain ⟨opds, _, rest⟩ := parsed
    split at rest
    · cases rest
    · obtain ⟨tail, inner, rfl⟩ := Option.map_eq_some_iff.mp rest
      simp [ih inner]

theorem buildAutomata_tables (built : buildAutomata ops heap = some (b, opStart)) :
    (∃ r, coverTable (ops.map Opcode.pattern) heap = .ok (r, b)) ∧ opStart.length = ops.length := by
  unfold buildAutomata at built
  split at built
  · cases built
  · obtain ⟨parsed, inner, same⟩ := Option.map_eq_some_iff.mp built
    obtain ⟨rfl, rfl⟩ := Prod.mk.inj same
    exact ⟨⟨_, by assumption⟩, parseTable_length inner⟩

theorem pattern_value_subset (op : Opcode) : op.pattern.value &&& op.pattern.mask = op.pattern.value := by
  apply BitVec.eq_of_getLsbD_eq
  intro k _
  simp only [Opcode.pattern, BitVec.getLsbD_and, BitVec.getLsbD_or]
  cases (op.extract '1').getLsbD k <;> simp

/-- The text that the word leads to is there: that of the entry at the leaf, if the word matches it,
and that of `l_invalid`, if the final check fails. -/
def HasText (ops : List Opcode) (b : Build) (insnset : List String) (fuel : Nat) (insn : Word) : Prop :=
  ∀ i, leafFrom b insn fuel 0 = some i → ∃ op, ops[i]? = some op ∧
    if op.pattern.Matches insn then op.functionName ∈ insnset else "l_invalid" ∈ insnset

/-- Where the tree leads a word: nowhere, or to an entry, which is checked unless its whole mask has
been tested on the way. -/
theorem treeBlock_cases (b : Build) (opStart : List (List InsnOp)) (insnset : List String) (insn : Word)
    {t : BitTree Nat} (separates : Separates (patternAt (ops.map Opcode.pattern)) t (· < (ops.map Opcode.pattern).length)) :
    let g := generator ops b opStart insnset
    let block := g.treeBlock (ops.map Opcode.pattern) insn t 0
    (t.walk insn = none ∧ block = .illegal) ∨ ∃ i op, t.walk insn = some i ∧ ops[i]? = some op ∧
      patternAt (ops.map Opcode.pattern) i = op.pattern ∧
        ((op.pattern.Matches insn ∧ block = .entry i (g.opdsAt i) (g.textAt i)) ∨
          (¬ op.pattern.Matches insn ∧ block = .invalid (g.outputFunction "l_invalid"))) := by
  intro g block
  cases walk : t.walk insn with
  | none => exact .inl ⟨rfl, by simp only [block, Generator.treeBlock, walk]⟩
  | some i =>
    have inside : i < ops.length := by simpa using walk_member separates walk
    have entry : (ops.map Opcode.pattern)[i]? = some ops[i].pattern := by
      rw [List.getElem?_map, List.getElem?_eq_getElem inside, Option.map_some]
    have pattern := (patternAt_of_getElem? entry).1
    refine .inr ⟨i, ops[i], rfl, List.getElem?_eq_getElem inside, pattern, ?_⟩
    by_cases hit : ops[i].pattern.Matches insn
    · refine .inl ⟨hit, ?_⟩
      simp only [block, Generator.treeBlock, walk, pattern, hit, not_true, and_false, if_false]
    · have tested : (patternAt (ops.map Opcode.pattern) i).mask ≠ t.path insn 0 := by
        -- a leaf reached by testing its whole mask is matched
        intro same
        have bits : insn &&& t.path insn 0 = (patternAt (ops.map Opcode.pattern) i).value &&& t.path insn 0 :=
          walk_agrees separates walk (by simp)
        rw [← same, pattern, pattern_value_subset] at bits
        exact hit (by rw [Pattern.Matches, BitVec.and_comm]; exact bits)
      refine .inr ⟨hit, ?_⟩
      rw [pattern] at tested
      simp only [block, Generator.treeBlock, walk, pattern, tested, hit, ne_eq, not_false_eq_true, true_and, if_true]

theorem treeBlock_agrees {t : BitTree Nat} {insn : Word} {reg : Word → Word}
    (separates : Separates (patternAt (ops.map Opcode.pattern)) t (· < (ops.map Opcode.pattern).length))
    (sizes : opStart.length = ops.length) (ok : ∀ opds ∈ opStart, operandsOk opds = true) :
    Agrees opStart insn reg
        (((generator ops b opStart insnset).treeBlock (ops.map Opcode.pattern) insn t 0).events insn reg)
        (some (checked (patternAt (ops.map Opcode.pattern)) insn (t.walk insn))) ↔
      ∀ i, t.walk insn = some i → ∃ op, ops[i]? = some op ∧
        if op.pattern.Matches insn then op.functionName ∈ insnset else "l_invalid" ∈ insnset := by
  have agrees := @agrees_matching (generator ops b opStart insnset) insn reg
  have silent := @agrees_invalid (generator ops b opStart insnset) insn reg
  rcases treeBlock_cases b opStart insnset insn separates with
    ⟨walk, block⟩ | ⟨i, op, walk, present, pattern, ⟨hit, block⟩ | ⟨hit, block⟩⟩
  · simp only [walk, block, checked, reduceCtorEq, false_implies, implies_true, iff_true]
    exact (silent true).mpr rfl
  · have described : opStart[i]? = some ((generator ops b opStart insnset).opdsAt i) := by
      have : i < opStart.length := by
        have := (List.getElem?_eq_some_iff.mp present).1
        omega
      simp [Generator.opdsAt, generator, this]
    have text : (generator ops b opStart insnset).textAt i = true ↔ op.functionName ∈ insnset := by
      simp [Generator.textAt, Generator.outputFunction, generator, present]
    simp only [walk, block, checked, pattern, hit, Option.some.injEq, forall_eq', present, exists_eq_left', if_true]
    exact (agrees described (ok _ (List.mem_of_getElem? described))).trans text
  · have text : (generator ops b opStart insnset).outputFunction "l_invalid" = true ↔ "l_invalid" ∈ insnset := by
      simp [Generator.outputFunction, generator]
    simp only [walk, block, checked, pattern, hit, Option.some.injEq, forall_eq', present, exists_eq_left', if_false]
    exact (silent _).trans text

/-- The text of every table that `or1ksim_build_automata` accepts leads a word through one block: that
of the tree of the table. -/
theorem generate_block (insnset : List String) (small : ops.length < 2 ^ 31) (nonempty : ops ≠ [])
    (built : buildAutomata ops heap = some (b, opStart)) {fuel : Nat} (enough : coverFuel < fuel) :
    ∃ t code, generate (generator ops b opStart insnset) fuel = some code ∧
      Separates (patternAt (ops.map Opcode.pattern)) t (· < (ops.map Opcode.pattern).length) ∧
      ∀ insn, code.blocks insn none =
          ([(generator ops b opStart insnset).treeBlock (ops.map Opcode.pattern) insn t 0], false) ∧
        insnDecode b fuel insn = some (checked (patternAt (ops.map Opcode.pattern)) insn (t.walk insn)) ∧
        leafFrom b insn fuel 0 = t.walk insn := by
  obtain ⟨⟨r, covered⟩, sizes⟩ := buildAutomata_tables built
  obtain ⟨t, automaton⟩ := coverTable_automaton (by simpa using small) (by simpa using nonempty) covered
  obtain ⟨hi, encodes⟩ := automaton.encodes
  have entries : t.Leaves ((generator ops b opStart insnset).Entry (ops.map Opcode.pattern)) := by
    refine automaton.separates.leaves fun i inside => ⟨automaton.entries i inside, ?_, ?_⟩
    · rw [List.length_map] at inside
      exact ⟨ops[i].functionName, by simp [generator, List.getElem?_eq_getElem inside]⟩
    · rw [List.length_map, ← sizes] at inside
      exact ⟨_, List.getElem?_eq_getElem inside⟩
  have writes : (generator ops b opStart insnset).Writes (ops.map Opcode.pattern) t 0
      (generateBody (generator ops b opStart insnset) fuel 0 0) :=
    generateBody_writes encodes automaton.shallow enough entries
  obtain ⟨code, generated, does⟩ := writes .done
  refine ⟨t, code, generated, automaton.separates, fun insn => ⟨(does insn).2, ?_, ?_⟩⟩
  · exact insnDecode_automaton automaton enough insn
  · exact leafFrom_encodes encodes automaton.shallow enough

/-- For every table that `or1ksim_build_automata` accepts and every word, the generated code agrees
with the table decoder exactly when the text that the word leads to is there. -/
theorem generate_agrees (ops : List Opcode) (heap : Nat → Nat) (insnset : List String) (b : Build)
    (opStart : List (List InsnOp)) (small : ops.length < 2 ^ 31) (nonempty : ops ≠ [])
    (built : buildAutomata ops heap = some (b, opStart)) (ok : ∀ opds ∈ opStart, operandsOk opds = true)
    (fuel : Nat) (enough : coverFuel < fuel) :
    ∃ code, generate (generator ops b opStart insnset) fuel = some code ∧ ∀ insn reg,
      Agrees opStart insn reg (code.exec insn reg none).1 (insnDecode b fuel insn) ↔
        HasText ops b insnset fuel insn := by
  have sizes := (buildAutomata_tables built).2
  obtain ⟨t, code, generated, separates, runs⟩ :=
    generate_block insnset small nonempty built enough
  refine ⟨code, generated, fun insn reg => ?_⟩
  obtain ⟨block, decoded, leaf⟩ := runs insn
  rw [exec_eq_blocks, block, decoded, HasText, leaf, List.flatMap_singleton]
  exact treeBlock_agrees separates sizes ok

end

/-- The functions that have a text in `insnset.c`. -/
def insnset : List String :=
  ["l_add", "l_addc", "l_swa", "l_sw", "l_sb", "l_sh", "l_lwa", "l_lws", "l_lwz", "l_lbs", "l_lbz", "l_lhs",
    "l_lhz", "l_movhi", "l_and", "l_or", "l_xor", "l_sub", "l_mul", "l_mulu", "l_div", "l_divu", "l_sll",
    "l_sra", "l_srl", "l_ror", "l_bf", "l_bnf", "l_j", "l_jal", "l_jalr", "l_jr", "l_rfe", "l_nop", "l_sfeq",
    "l_sfne", "l_sfgts", "l_sfges", "l_sflts", "l_sfles", "l_sfgtu", "l_sfgeu", "l_sfltu", "l_sfleu",
    "l_extbs", "l_extbz", "l_exths", "l_exthz", "l_extws", "l_extwz", "l_mtspr", "l_mfspr", "l_sys", "l_trap",
    "l_mac", "l_msb", "l_macrc", "l_cmov", "l_ff1", "l_fl1", "lf_add_s", "lf_div_s", "lf_ftoi_s", "lf_itof_s",
    "lf_madd_s", "lf_mul_s", "lf_rem_s", "lf_sfeq_s", "lf_sfge_s", "lf_sfgt_s", "lf_sfle_s", "lf_sflt_s",
    "lf_sfne_s", "lf_sub_s", "l_cust1", "l_cust2", "l_cust3", "l_cust4", "lf_cust1"]

def lMovhi : Opcode := ⟨"l.movhi", "rD,K", "00 0x6  DDDDD ----0 KKKK KKKK KKKK KKKK", "l_movhi"⟩

def lMacrc : Opcode := ⟨"l.macrc", "rD", "00 0x6  DDDDD ----1 0000 0000 0000 0000", "l_macrc"⟩

def lSw : Opcode := ⟨"l.sw", "I(rA),rB", "11 0x5  IIIII AAAAA BBBB BIII IIII IIII", "l_sw"⟩

/-- `l.movhi` and `l.macrc` differ in bit 16; `l.macrc` has further bits that must be zero. The displacement of `l.sw` is in two
pieces, and is added to its base register. -/
theorem generate_agrees_displaced :
    ∃ b opStart, buildAutomata [lMovhi, lMacrc, lSw] (fun _ => 0) = some (b, opStart) ∧
      ∃ code, generate (generator [lMovhi, lMacrc, lSw] b opStart insnset) 34 = some code ∧ ∀ insn reg,
        Agrees opStart insn reg (code.exec insn reg none).1 (insnDecode b 34 insn) ↔
          HasText [lMovhi, lMacrc, lSw] b insnset 34 insn := by
  have accepted : (buildAutomata [lMovhi, lMacrc, lSw] fun _ => 0).map (fun r => r.2.all operandsOk) = some true := by
    decide +kernel
  obtain ⟨⟨b, opStart⟩, built, ok⟩ := Option.map_eq_some_iff.mp accepted
  exact ⟨b, opStart, built, generate_agrees _ _ _ b opStart (by decide) (by simp) built (List.all_eq_true.mp ok) 34
    (by decide)⟩

/-- `0x18010001` is an `l.macrc` with a bit set that must be zero. The table decoder finds no entry;
the generated code does nothing, since the text of `l_invalid` is nowhere. -/
theorem generate_silent_macrc :
    ¬ ∀ (ops : List Opcode) (heap : Nat → Nat) (b : Build) (opStart : List (List InsnOp)), ops.length < 2 ^ 31 →
      ops ≠ [] → buildAutomata ops heap = some (b, opStart) → (∀ opds ∈ opStart, operandsOk opds = true) →
      ∀ fuel, coverFuel < fuel → ∃ code, generate (generator ops b opStart insnset) fuel = some code ∧
        ∀ insn reg, Agrees opStart insn reg (code.exec insn reg none).1 (insnDecode b fuel insn) := by
  intro claim
  have outcome : (buildAutomata [lMovhi, lMacrc] fun _ => 0).bind (fun r =>
      (generate (generator [lMovhi, lMacrc] r.1 r.2 insnset) 34).map fun code =>
        (r.2.all operandsOk, (code.exec 0x18010001 (fun _ => 0) none).1, insnDecode r.1 34 0x18010001)) =
      some (true, [], some (-1)) := by decide +kernel
  obtain ⟨⟨b, opStart⟩, built, rest⟩ := Option.bind_eq_some_iff.mp outcome
  obtain ⟨code, generated, values⟩ := Option.map_eq_some_iff.mp rest
  simp only [Prod.mk.injEq] at values
  obtain ⟨ok, silent, invalid⟩ := values
  obtain ⟨code', generated', agrees⟩ :=
    claim _ _ b opStart (by decide) (by simp) built (List.all_eq_true.mp ok) 34 (by decide)
  obtain rfl := Option.some.inj (generated.symm.trans generated')
  have raised := (agrees 0x18010001 fun _ => 0).illegal.mpr invalid
  rw [silent] at raised
  cases raised

end Or1ksim.Decode
