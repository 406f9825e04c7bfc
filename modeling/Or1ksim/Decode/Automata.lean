import Or1ksim.Lib.FieldTree

/-!
# The decoding automaton

`cover_insn` and `or1ksim_insn_decode` of `cpu/or32/or32.c`. The automaton
is a flat array that is allocated and never cleared, so its words are a function of the index and
what they hold at first is arbitrary. Pointers into the array are offsets; the null pointer is
`none`.
-/

namespace Or1ksim.Decode

open FieldTree (field Pattern)

abbrev Word := BitVec 32

def leafFlag : Nat := 0x80000000

/-- `w & ~LEAF_FLAG`, a value of 31 bits. -/
def leafIndex (w : Nat) : Nat := w &&& 0x7FFFFFFF

def maxLen : Nat := 8

/-- The words that are allocated for the array. -/
def maxAutomataSize : Nat := 1200

structure TempInsn where
  insn : Word
  insnMask : Word
  inPass : Nat
  deriving DecidableEq, Repr

def TempInsn.pattern (e : TempInsn) : Pattern 32 := ⟨e.insnMask, e.insn⟩

/-- The globals of `or32.c` that the construction works on. -/
structure Build where
  ti : List TempInsn
  curpass : Nat
  nuncovered : Int
  automata : Nat → Nat

def Build.write (b : Build) (offset value : Nat) : Build :=
  { b with automata := fun a => if a = offset then value else b.automata a }

inductive Exit where
  | matchMask (ninstr : Nat) (mask : Word)
  | tooLarge
  | outOfFuel
  deriving DecidableEq, Repr

/-- The inner loop of the search for the longest run: `more` further lengths from `len` on. -/
def extendMatch (curMask : Word) (i : Nat) : Nat → Nat → Nat × Nat → Nat × Nat
  | 0, _, best => best
  | more + 1, len, best =>
    if field i len curMask = 2 ^ len - 1 then extendMatch curMask i more (len + 1) (i, len) else best

/-- `best_first` and `best_len`. -/
def longestMatch (curMask : Word) : Nat × Nat :=
  (List.range 32).foldl
    (fun best i => extendMatch curMask i (min maxLen (33 - i) - (best.2 + 1)) (best.2 + 1) best) (0, 0)

def Build.inPass (b : Build) (pass : Nat) : List (TempInsn × Nat) :=
  b.ti.zipIdx.filter fun e => e.1.inPass = pass

/-- A new pass for the entries of `pass` that have `i` in the tested bits. -/
def Build.openPass (b : Build) (pass first len i : Nat) : Build :=
  let curpass := b.curpass + 1
  { b with
    curpass
    ti := b.ti.map fun e =>
      if e.inPass = pass ∧ field first len e.insn = i ∧ field first len e.insnMask = 2 ^ len - 1
      then { e with inPass := curpass } else e }

/-- The loop over the `more` cases from `i` on, whose pointers stand at `next`. -/
def coverCases (cover : Nat → Nat → Build → Except Exit (Option Nat × Build)) (pass first len : Nat) :
    Nat → Nat → Nat → Nat → Build → Except Exit (Nat × Build)
  | 0, _, _, cur, b => .ok (cur, b)
  | more + 1, i, next, cur, b =>
    let b := b.openPass pass first len i
    match cover cur b.curpass b with
    | .error e => .error e
    | .ok (some c, b) => coverCases cover pass first len more (i + 1) (next + 1) c (b.write next cur)
    | .ok (none, b) => coverCases cover pass first len more (i + 1) (next + 1) cur (b.write next 0)

/-- The body of `cover_insn`, over the function that its recursive calls go to. -/
def coverInsnBody (cover : Nat → Nat → Word → Build → Except Exit (Option Nat × Build))
    (cur pass : Nat) (mask : Word) (b : Build) : Except Exit (Option Nat × Build) :=
  match b.inPass pass with
  | [] => .ok (none, b)
  | [(_, lastMatch)] =>
    .ok (some (cur + 1), { b.write cur (leafFlag ||| lastMatch) with nuncovered := b.nuncovered - 1 })
  | here =>
    let curMask := here.foldl (fun m e => m &&& e.1.insnMask) mask
    let best := longestMatch curMask
    if best.2 = 0 then .error (.matchMask here.length mask)
    else
      let next := cur + 2
      match coverCases (fun cur pass b => cover cur pass (mask &&& ~~~FieldTree.ones best.1 best.2) b)
          pass best.1 best.2 (2 ^ best.2) 0 next (next + 2 ^ best.2)
          ((b.write cur best.1).write (cur + 1) (2 ^ best.2 - 1)) with
      | .error e => .error e
      | .ok (cur, b) => .ok (some cur, b)

def coverInsn : Nat → Nat → Nat → Word → Build → Except Exit (Option Nat × Build)
  | 0, _, _, _, _ => .error .outOfFuel
  | fuel + 1, cur, pass, mask, b => coverInsnBody (coverInsn fuel) cur pass mask b

/-- The depth of the recursion: every call works on fewer bits of the mask. -/
def coverFuel : Nat := 33

/-- `or1ksim_ti` before the construction. -/
def tempInsns (table : List (Pattern 32)) : List TempInsn :=
  table.map fun p => { insn := p.value, insnMask := p.mask, inPass := 0 }

/-- The globals before the construction, with an array that holds `heap`. -/
def startBuild (table : List (Pattern 32)) (heap : Nat → Nat) : Build :=
  { ti := tempInsns table, curpass := 0, nuncovered := table.length, automata := heap }

/-- The construction in `or1ksim_build_automata`. `cover_insn` writes without a test: an automaton that needs more words than were
allocated is found out behind it, and ends the program. The null pointer is below the array. -/
def coverTable (table : List (Pattern 32)) (heap : Nat → Nat) : Except Exit (Option Nat × Build) :=
  match coverInsn coverFuel 0 0 0xFFFFFFFF (startBuild table heap) with
  | .error e => .error e
  | .ok (last, b) => if last.any (· > maxAutomataSize) then .error .tooLarge else .ok (last, b)

/-- `or1ksim_insn_decode` from offset `a` on. It fails when the array does not hold an automaton: an
index beyond the table is read, or the loop goes on without end. -/
def insnDecodeFrom (b : Build) (insn : Word) : Nat → Nat → Option Int
  | 0, _ => none
  | fuel + 1, a =>
    if b.automata a &&& leafFlag = 0 then
      let i := (insn.toNat >>> b.automata a) &&& b.automata (a + 1)
      if b.automata (a + 2 + i) = 0 then some (-1)
      else insnDecodeFrom b insn fuel (b.automata (a + 2 + i))
    else
      let i := leafIndex (b.automata a)
      match b.ti[i]? with
      | none => none
      | some e => if e.insnMask &&& insn = e.insn then some i else some (-1)

def insnDecode (b : Build) (fuel : Nat) (insn : Word) : Option Int := insnDecodeFrom b insn fuel 0

end Or1ksim.Decode
