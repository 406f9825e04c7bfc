import Or1ksim.Lib.Nesting

/-!
# Reading a profile

The trace of a run has a line for each call and each return. `prof_acquire` keeps the open calls on a stack, and adds the time of each
call that ends to the start times of all calls around it.
-/

namespace Or1ksim.Profiler

abbrev Word := BitVec 32

/-! ### The code -/

/-- A line of the trace. -/
inductive Line where
  | call (cycles raddr addr : Word) (name : String)
  | ret (cycles raddr : Word)
  deriving DecidableEq, Repr

/-- `struct stack_struct`. The cycles are those of the start of the function; subfunctions are added later. -/
structure StackStruct where
  addr : Word
  cycles : Word
  raddr : Word
  name : String
  deriving DecidableEq, Repr

/-- `struct func_struct` -/
structure FuncStruct where
  addr : Word
  name : String
  cumCycles : Int
  calls : Int
  deriving DecidableEq, Repr

def maxFuncs : Nat := 8192

def maxStack : Nat := 262144

/-- The bytes for a name, with the zero behind it. -/
def nameSize : Nat := 33

inductive Warning where
  | negativeTime (name : String) (raddr : Word)
  | missalignedReturn (name : String) (raddr : Word) (foundName : String) (foundRaddr : Word)
  | noReturnCall (raddr : Word)
  deriving DecidableEq, Repr

structure Options where
  quiet : Bool
  cumulative : Bool

/-- The static variables of the profiler, with the stack from its top on. -/
structure Statics where
  stack : List StackStruct
  profFunc : List FuncStruct
  profCycles : Word
  maxstack : Nat
  ntotcalls : Nat
  nfunccalls : Nat
  deriving DecidableEq, Repr

/-- The static variables before `prof_acquire` is called for the first time. -/
def Statics.initial : Statics where
  stack := []
  profFunc := []
  profCycles := 0
  maxstack := 0
  ntotcalls := 0
  nfunccalls := 0

/-- A call of `prof_acquire` at work: the static variables, what it has warned of, and what it has charged. -/
structure Profile extends Statics where
  warnings : List Warning
  charged : List (Word × Int)
  deriving DecidableEq, Repr

/-- A call of `prof_acquire` begins. It clears nothing that an earlier one has left. -/
def Statics.profile (left : Statics) : Profile := { left with warnings := [], charged := [] }

def Options.warn (o : Options) (w : Warning) (p : Profile) : Profile := if o.quiet then p else { p with warnings := p.warnings ++ [w] }

/-- A call of a function has ended: the function is looked up by its address, and is entered when it is new. A table that is full is
written past its end. -/
def charge (addr : Word) (name : String) (time : Int) : Nat → List FuncStruct → Option (List FuncStruct)
  | room, [] => if room = 0 then none else some [⟨addr, name, time, 1⟩]
  | room, f :: rest =>
    if addr = f.addr then some ({ f with cumCycles := f.cumCycles + time, calls := f.calls + 1 } :: rest)
    else (charge addr name time (room - 1) rest).map (f :: ·)

/-- The time is added to the start of a call. -/
def StackStruct.add (time : Int) (s : StackStruct) : StackStruct := { s with cycles := s.cycles + BitVec.ofInt 32 time }

/-- The function at the top of the stack has ended after some time. -/
def popTop (o : Options) (top : StackStruct) (rest : List StackStruct) (time : Int) (p : Profile) : Option Profile :=
  (charge top.addr top.name time maxFuncs p.profFunc).map fun profFunc =>
    { p with
      stack := if o.cumulative then rest else rest.map (.add time)
      profFunc
      nfunccalls := p.nfunccalls + 1
      charged := p.charged ++ [(top.addr, time)] }

/-- `found` is the call that returns. -/
def popReturn (o : Options) (cycles : Word) (found : StackStruct) (last : Bool) (p : Profile) : Option Profile :=
  match p.stack with
  | [] => some p
  | top :: rest =>
    -- An unsigned difference, which is widened to a `long`.
    let time : Int := (cycles - top.cycles).toNat
    let negative := !o.quiet && time < 0
    let p := if negative then o.warn (.negativeTime found.name found.raddr) p else p
    let time := if negative then 0 else time
    let p := if last then p else o.warn (.missalignedReturn top.name top.raddr found.name found.raddr) p
    popTop o top rest time p

def popReturns (o : Options) (cycles : Word) (found : StackStruct) : Nat → Profile → Option Profile
  | 0, p => some p
  | n + 1, p => do
    let p ← popReturn o cycles found (n = 0) p
    popReturns o cycles found n p

def acquireLine (o : Options) (p : Profile) : Line → Option Profile
  | .call cycles raddr addr name =>
    if p.stack.length < maxStack ∧ name.length < nameSize then
      some { p with
        stack := ⟨addr, cycles, raddr, name⟩ :: p.stack
        profCycles := cycles
        maxstack := max p.maxstack (p.stack.length + 1)
        ntotcalls := p.ntotcalls + 1 }
    else none
  | .ret cycles raddr =>
    let p := { p with profCycles := cycles }
    match p.stack.findIdx? fun s => s.raddr = raddr, p.stack.find? fun s => s.raddr = raddr with
    | some i, some found => popReturns o cycles found (i + 1) p
    | _, _ => some (o.warn (.noReturnCall raddr) p)

/-- The calls that are open when the simulation is asked for its profile end at the cycle it has come to. -/
def popRest (o : Options) (cycles : Nat) : Nat → Profile → Option Profile
  | 0, p => some p
  | n + 1, p =>
    match p.stack with
    | [] => some p
    | top :: rest => do
      let p ← popTop o top rest (cycles - top.cycles.toNat) p
      popRest o cycles n p

/-- `prof_acquire`, with the cycle of the simulation when the trace is the one that it writes. -/
def profAcquire (o : Options) (reopened : Option Nat) (trace : List Line) (left : Statics) : Option Profile := do
  let p ← trace.foldlM (acquireLine o) left.profile
  match reopened with
  | none => some p
  | some cycles => popRest o cycles p.stack.length { p with profCycles := BitVec.ofNat 32 cycles }

/-- The static variables as the process can leave them for a call of `prof_acquire`. Between two calls `prof_print` and `main_cuc`
overwrite the cycles of the table, and nothing else. -/
inductive Left : Statics → Prop where
  | initial : Left .initial
  | acquired {left : Statics} {o : Options} {reopened : Option Nat} {trace : List Line} {p : Profile} (before : Left left)
      (acquired : profAcquire o reopened trace left = some p) : Left p.toStatics
  | shown {left : Statics} {table : List FuncStruct} (before : Left left)
      (same : table.map (fun f => (f.addr, f.calls)) = left.profFunc.map fun f => (f.addr, f.calls)) :
        Left { left with profFunc := table }

/-! ### What a trace says -/

def Line.cycles : Line → Nat
  | .call cycles _ _ _ => cycles.toNat
  | .ret cycles _ => cycles.toNat

def Line.name : Line → String
  | .call _ _ _ name => name
  | .ret _ _ => ""

def Line.follow (s : Nesting.Calls Word Word) : Line → Nesting.Calls Word Word
  | .call cycles raddr addr _ => s.enter addr raddr cycles.toNat
  | .ret cycles raddr => s.leave raddr cycles.toNat

def follow (trace : List Line) : Nesting.Calls Word Word := trace.foldl Line.follow .none

/-- The calls of a trace, and of a simulation that ends them all. -/
def callsOf (reopened : Option Nat) (trace : List Line) : Nesting.Calls Word Word :=
  match reopened with
  | none => follow trace
  | some cycles => (follow trace).closeMany cycles (follow trace).opened.length

/-- A trace whose cycles do not decrease, and that fits into the tables. -/
structure Regular (reopened : Option Nat) (trace : List Line) : Prop where
  ordered : (trace.map Line.cycles ++ reopened.toList).Pairwise (· ≤ ·)
  small : ∀ cycles ∈ reopened, cycles < 2 ^ 32
  names : ∀ line ∈ trace, line.name.length < nameSize
  open_le : ∀ before, before <+: trace → (follow before).opened.length ≤ maxStack
  functions_le : ((callsOf reopened trace).closed.map fun c => c.1.function).dedup.length ≤ maxFuncs

end Or1ksim.Profiler
