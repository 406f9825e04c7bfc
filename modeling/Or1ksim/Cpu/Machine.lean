import Or1ksim.Lib.Prog
import Or1ksim.Cpu.Spr
import Or1ksim.Sched.Queue
import Or1ksim.Decode.Operands

/-!
# The machine

`cpu_state` and the globals around it, with what the configuration fixes. The memory and the
peripherals are one state `δ`: a memory area is a window of the address space with the callbacks of
its device, which act on `δ` and on the rest of the simulator through a list of events. Statistics,
logs and output are left out.
-/

namespace Or1ksim.Cpu

open Sched (Scheduler)

/-! ### Literals

Registers and the fields of the configuration are numbers below a bound, and are written as literals. -/

instance neZero_two : NeZero 2 := ⟨by decide⟩
instance neZero_four : NeZero 4 := ⟨by decide⟩
instance neZero_six : NeZero 6 := ⟨by decide⟩
instance neZero_eight : NeZero 8 := ⟨by decide⟩
instance neZero_eleven : NeZero 11 := ⟨by decide⟩
instance neZero_thirtyOne : NeZero 31 := ⟨by decide⟩
instance neZero_thirtyTwo : NeZero 32 := ⟨by decide⟩
instance neZero_oneTwentyEight : NeZero 128 := ⟨by decide⟩

/-! ### Memory areas -/

inductive Width where
  | byte | half | word
  deriving DecidableEq, Repr

def Width.bits : Width → Nat
  | .byte => 8
  | .half => 16
  | .word => 32

def Width.bytes : Width → Nat
  | .byte => 1
  | .half => 2
  | .word => 4

/-- What a device does to the simulator around it. Its jobs are numbered, and it never asks for a
negative time. -/
inductive DevEvent where
  | reportInterrupt (line : Fin 32)
  | clearInterrupt (line : Fin 32)
  | schedAdd (job : Nat) (time : Fin (2 ^ 31))
  | schedFindRemove (job : Nat)
  | verifyMemoryarea (addr : Word)
  | simDone
  deriving DecidableEq, Repr

/-- A `dev_memarea`. The memory controller changes the window of an area and whether it is valid. A
callback that is `none` is one of the `_inv` functions. -/
structure Area (δ : Type) where
  addrMask : δ → Word
  addrCompare : δ → Word
  sizeMask : δ → Word
  valid : δ → Bool
  delayr : δ → Int
  delayw : δ → Int
  readfunc : (w : Width) → Option (Word → δ → BitVec w.bits × δ × List DevEvent)
  writefunc : (w : Width) → Option (Word → BitVec w.bits → δ → δ × List DevEvent)

/-! ### Configuration -/

/-- `struct dmmu` and `struct immu`, with the powers of two that the configuration accepts. -/
structure Mmu where
  nsetsLog2 : Fin 8
  nwaysPred : Fin 4
  pagesizeLog2 : Fin 31
  hitdelay : Int
  missdelay : Int

namespace Mmu

def nsets (m : Mmu) : Nat := 2 ^ m.nsetsLog2.val

def nways (m : Mmu) : Nat := m.nwaysPred.val + 1

def pageOffsetMask (m : Mmu) : Word := ((1 : Word) <<< m.pagesizeLog2.val) - 1

def pageMask (m : Mmu) : Word := ~~~m.pageOffsetMask

def vpnMask (m : Mmu) : Word := ~~~(((1 : Word) <<< m.pagesizeLog2.val) * BitVec.ofNat 32 m.nsets - 1)

def lruReload (m : Mmu) : Word := ((BitVec.ofNat 32 m.nsets - 1) <<< 6) &&& tlbmrLru

end Mmu

structure DcConfig where
  enabled : Bool
  nsetsLog2 : Fin 11
  nwaysLog2 : Fin 6
  blocksizeLog2 : Fin 2
  ustates : Int
  loadHitdelay : Int
  loadMissdelay : Int
  storeHitdelay : Int
  storeMissdelay : Int

namespace DcConfig

def nsets (d : DcConfig) : Nat := 2 ^ d.nsetsLog2.val

def nways (d : DcConfig) : Nat := 2 ^ d.nwaysLog2.val

/-- `MIN_DC_BLOCK_SIZE` or `MAX_DC_BLOCK_SIZE`. -/
def blocksize (d : DcConfig) : Nat := 16 * 2 ^ d.blocksizeLog2.val

end DcConfig

structure IcConfig where
  enabled : Bool
  nsetsLog2 : Fin 11
  nwaysLog2 : Fin 6
  blocksizeLog2 : Fin 2
  ustates : Nat
  hitdelay : Int
  missdelay : Int

namespace IcConfig

def nsets (i : IcConfig) : Nat := 2 ^ i.nsetsLog2.val

def nways (i : IcConfig) : Nat := 2 ^ i.nwaysLog2.val

def blocksize (i : IcConfig) : Nat := 16 * 2 ^ i.blocksizeLog2.val

def lastWay (i : IcConfig) : Nat := i.nsets * i.nways

end IcConfig

/-- The rounding modes of `FPCSR[RM]`. -/
inductive Rounding where
  | nearestEven | toZero | up | down
  deriving DecidableEq, Repr

/-- The bits of `float_exception_flags`. -/
structure FloatFlags where
  invalid : Bool
  divbyzero : Bool
  overflow : Bool
  underflow : Bool
  inexact : Bool
  deriving DecidableEq, Repr

def FloatFlags.or (f g : FloatFlags) : FloatFlags :=
  { invalid := f.invalid || g.invalid
    divbyzero := f.divbyzero || g.divbyzero
    overflow := f.overflow || g.overflow
    underflow := f.underflow || g.underflow
    inexact := f.inexact || g.inexact }

/-- The functions of `softfloat.c` that the instructions call: the result and the flags raised. -/
structure Softfloat where
  float32Add : Rounding → Word → Word → Word × FloatFlags
  float32Sub : Rounding → Word → Word → Word × FloatFlags
  float32Mul : Rounding → Word → Word → Word × FloatFlags
  float32Div : Rounding → Word → Word → Word × FloatFlags
  float32Rem : Rounding → Word → Word → Word × FloatFlags
  float32ToInt32 : Rounding → Word → Word × FloatFlags
  int32ToFloat32 : Rounding → Word → Word × FloatFlags
  float32Eq : Word → Word → Bool × FloatFlags
  float32Le : Word → Word → Bool × FloatFlags
  float32Lt : Word → Word → Bool × FloatFlags
  float32IsNan : Word → Bool

/-- The shifts of C. -/
inductive Shift where
  | left | right | arithmetic
  deriving DecidableEq, Repr

inductive Executor where
  | simple | complex
  deriving DecidableEq, Repr

structure Config (δ : Type) where
  executor : Executor
  opcodes : List Decode.Opcode
  /-- What `or1ksim_build_automata` makes of the opcodes. -/
  build : Decode.Build
  opStart : List (List Decode.InsnOp)
  areas : List (Area δ)
  mcArea : Option Nat
  devJob : Nat → δ → δ × List DevEvent
  dmmu : Mmu
  immu : Mmu
  dc : DcConfig
  ic : IcConfig
  softfloat : Softfloat
  debugEnabled : Bool
  picEnabled : Bool
  picEdgeTrigger : Bool
  picUseNmi : Bool
  pcuEnabled : Bool
  pmEnabled : Word
  hardfloat : Bool
  sbufLen : Nat
  isLibrary : Bool
  profile : Bool
  strictNpc : Bool
  clkcyclePs : Word
  /-- The values of `random`, in the order in which they are asked for. -/
  random : Nat → Word
  /-- Whether a `long` of the host has 64 bits. -/
  long64 : Bool
  /-- What the host gives for a shift by 32 or more, which C leaves undefined. -/
  wideShift : Shift → Word → Word → Word

/-! ### State -/

inductive Job where
  | guard | tickRaiseExcept | tickRestart | tickOneShot | picRepInt
  | dev (n : Nat)
  deriving DecidableEq, Repr

structure DcWay where
  line : Nat → Word
  tagaddr : Word
  lru : Int

/-- `struct ic`: the ways of a set stand `nsets` apart. -/
structure Ic where
  mem : Nat → BitVec 8
  lrus : Nat → Nat
  tags : Nat → Word

/-- The store buffer of `execute.c`. -/
structure Sbuf where
  head : Nat
  tail : Nat
  count : Nat
  buf : Nat → Int
  prevCycles : Int

/-- An entry of an exception, and what it found. It is not part of the program. -/
structure Entry where
  except : Exception
  ea : Word
  sprs : SprNo → Word
  pc : Word
  delayInsn : Bool

structure Machine (δ : Type) where
  reg : Fin 32 → Word
  sprs : SprNo → Word
  pc : Word
  pcDelay : Word
  pcnext : Word
  delayInsn : Bool
  nextDelayInsn : Bool
  npcNotValid : Bool
  insnAddr : Word
  insn : Word
  loadlockActive : Bool
  loadlockAddr : Word
  exceptPending : Bool
  breakpoint : Bool
  breakpoints : List Word
  breakJustHit : Bool
  dataCi : Bool
  insnCi : Bool
  curArea : Option Nat
  curVadd : Word
  dc : Nat → Nat → DcWay
  ic : Ic
  scheduler : Scheduler Job
  cycleCountAtTickStart : Int
  tickCounting : Bool
  cycles : Int
  memCycles : Int
  /-- `old_cyc`, a local variable of the store instructions. -/
  oldCyc : Int
  sbuf : Sbuf
  stalled : Bool
  halted : Bool
  inReset : Bool
  randomCalls : Nat
  dev : δ
  entries : List Entry

/-- How the simulator ends: `sim_done` or `exit`, or a null pointer or an index out of bounds. -/
inductive Stop where
  | simDone | exit | crash | outOfFuel
  deriving DecidableEq, Repr

abbrev Sim (δ : Type) := Programs.Sim (Machine δ) Stop

variable {δ : Type}

def stop {α : Type} (e : Stop) : Sim δ α := fun _ => .error e

/-- The register file with one register replaced. -/
def setSpr (r : SprNo) (v : Word) (m : Machine δ) : Machine δ :=
  { m with sprs := fun q => if q = r then v else m.sprs q }

def setReg (i : Fin 32) (v : Word) (m : Machine δ) : Machine δ :=
  { m with reg := fun j => if j = i then v else m.reg j }

def Machine.sr (m : Machine δ) : Word := m.sprs sprSr

end Or1ksim.Cpu
