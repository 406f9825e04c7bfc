import Or1ksim.Peripheral.Effects
import Or1ksim.Peripheral.Fields

/-!
# The general purpose inputs and outputs

`peripheral/gpio.c`. Writes of the guest and inputs over VAPI go to the registers for the next clock, and a clock of
the device makes these current. The level of the external clock is such a register, so that an edge is looked for against
the level at the last clock and not against the one delivered before.
-/

namespace Or1ksim.Gpio

open Peripheral (ULong Effect)

abbrev Word := BitVec 32

/-! ### Constants -/

def gpioVapiData : Nat := 0
def gpioVapiAux : Nat := 1
def gpioVapiClock : Nat := 2
def gpioVapiRgpioOe : Nat := 3
def gpioVapiRgpioInte : Nat := 4
def gpioVapiRgpioPtrig : Nat := 5
def gpioVapiRgpioAux : Nat := 6
def gpioVapiRgpioCtrl : Nat := 7

def rgpioIn : Nat := 0x00
def rgpioOut : Nat := 0x04
def rgpioOe : Nat := 0x08
def rgpioInte : Nat := 0x0c
def rgpioPtrig : Nat := 0x10
def rgpioAux : Nat := 0x14
def rgpioCtrl : Nat := 0x18
def rgpioInts : Nat := 0x1c

def ctrlEclk : ULong := 0x1
def ctrlNec : ULong := 0x2
def ctrlInte : ULong := 0x4
def ctrlInts : ULong := 0x8

/-! ### State -/

/-- The visible registers, and the level of the external clock. -/
structure Regs where
  inp : ULong
  out : ULong
  oe : ULong
  inte : ULong
  ptrig : ULong
  aux : ULong
  ctrl : ULong
  ints : ULong
  externalClock : Bool
  deriving DecidableEq, Repr

/-- `struct gpio_device`. -/
structure GpioDevice where
  baseVapiId : ULong
  auxiliaryInputs : ULong
  curr : Regs
  next : Regs
  deriving DecidableEq, Repr

inductive Job where
  | gpioClock
  | gpioDoInt
  deriving DecidableEq, Repr

/-- What the device does: the calls of `gpio_device_clock` are told too. -/
inductive Action where
  | deviceClock
  | vapiSend (id data : ULong)
  | effect (e : Effect Job)
  deriving DecidableEq, Repr

/-! ### Clocks -/

/-- The changed inputs that raise an interrupt, in an `unsigned` of 32 bits. -/
def relevantBits (next curr : Regs) : Word :=
  let changedBits := (next.inp ^^^ curr.inp).setWidth 32
  let setBits := changedBits &&& next.inp.setWidth 32
  let clearedBits := changedBits &&& curr.inp.setWidth 32
  (next.ptrig.setWidth 32 &&& setBits) ||| (~~~next.ptrig.setWidth 32 &&& clearedBits)

def gpioDeviceClock (g : GpioDevice) : GpioDevice × List Action :=
  let inp := g.next.inp &&& ~~~g.next.oe
  let out := ((g.next.out &&& ~~~g.next.aux) ||| (g.auxiliaryInputs &&& g.next.aux)) &&& g.next.oe
  let next := { g.next with inp, out }
  let sends := if out ≠ g.curr.out ∧ g.baseVapiId ≠ 0 then [.vapiSend (g.baseVapiId + BitVec.ofNat 64 gpioVapiData) out] else []
  let raised := (relevantBits next g.curr).setWidth 64 &&& next.inte
  if inp ≠ g.curr.inp ∧ next.ctrl &&& ctrlInte ≠ 0 ∧ raised ≠ 0 then
    let next := { next with ctrl := next.ctrl ||| ctrlInts, ints := next.ints ||| raised }
    ({ g with curr := next, next }, .deviceClock :: sends ++ [.effect (.schedAdd .gpioDoInt 1)])
  else ({ g with curr := next, next }, .deviceClock :: sends)

def gpioExternalClock (value : ULong) (g : GpioDevice) : GpioDevice × List Action :=
  let useExternalClock : Bool := g.curr.ctrl &&& ctrlEclk = ctrlEclk
  let negativeEdge : Bool := g.curr.ctrl &&& ctrlNec = ctrlNec
  let value : Bool := value ≠ 0
  let g := { g with next.externalClock := value }
  if useExternalClock ∧ g.next.externalClock ≠ g.curr.externalClock ∧ value ≠ negativeEdge then
    if g.curr.ctrl &&& ctrlEclk ≠ 0 then gpioDeviceClock g else (g, [])
  else (g, [])

/-- The system clock. -/
def gpioClock (g : GpioDevice) : GpioDevice × List Action :=
  let (g, actions) := if g.curr.ctrl &&& ctrlEclk = 0 then gpioDeviceClock g else (g, [])
  (g, actions ++ [.effect (.schedAdd .gpioClock 1)])

/-! ### Registers and inputs -/

def gpioRead32 (addr : Nat) (g : GpioDevice) : Word :=
  if addr = rgpioIn then (g.curr.inp ||| g.curr.out).setWidth 32
  else if addr = rgpioOut then g.curr.out.setWidth 32
  else if addr = rgpioOe then g.curr.oe.setWidth 32
  else if addr = rgpioInte then g.curr.inte.setWidth 32
  else if addr = rgpioPtrig then g.curr.ptrig.setWidth 32
  else if addr = rgpioAux then g.curr.aux.setWidth 32
  else if addr = rgpioCtrl then g.curr.ctrl.setWidth 32
  else if addr = rgpioInts then g.curr.ints.setWidth 32
  else 0

def gpioWrite32 (addr : Nat) (value : Word) (g : GpioDevice) : GpioDevice × List Action :=
  let value : ULong := value.setWidth 64
  if addr = rgpioOut then ({ g with next.out := value }, [])
  else if addr = rgpioOe then ({ g with next.oe := value }, [])
  else if addr = rgpioInte then ({ g with next.inte := value }, [])
  else if addr = rgpioPtrig then ({ g with next.ptrig := value }, [])
  else if addr = rgpioAux then ({ g with next.aux := value }, [])
  else if addr = rgpioCtrl then ({ g with next.ctrl := value }, [])
  else if addr = rgpioInts then
    ({ g with next.ints := value }, if g.next.ints ≠ 0 ∧ value = 0 then [.effect .clearInterrupt] else [])
  else (g, [])

/-- The number of an input, in an `unsigned` of 32 bits. -/
def vapiWhich (base id : ULong) : Nat := ((id - base).setWidth 32 : Word).toNat

def gpioVapiRead (id data : ULong) (g : GpioDevice) : GpioDevice × List Action :=
  let which := vapiWhich g.baseVapiId id
  if which = gpioVapiData then ({ g with next.inp := data }, [])
  else if which = gpioVapiAux then ({ g with auxiliaryInputs := data }, [])
  else if which = gpioVapiRgpioOe then ({ g with next.oe := data }, [])
  else if which = gpioVapiRgpioInte then ({ g with next.inte := data }, [])
  else if which = gpioVapiRgpioPtrig then ({ g with next.ptrig := data }, [])
  else if which = gpioVapiRgpioAux then ({ g with next.aux := data }, [])
  else if which = gpioVapiRgpioCtrl then ({ g with next.ctrl := data }, [])
  else if which = gpioVapiClock then gpioExternalClock data g
  else (g, [])

/-! ### Runs -/

def Regs.zero : Regs := ⟨0, 0, 0, 0, 0, 0, 0, 0, false⟩

/-- `gpio_sec_start`, and the number of the first input. -/
def gpioSecStart (baseVapiId : ULong) : GpioDevice := ⟨baseVapiId, 0, Regs.zero, Regs.zero⟩

inductive Event where
  | write32 (addr : Nat) (value : Word)
  | vapiRead (id data : ULong)
  | clock
  deriving DecidableEq, Repr

def step : Event → GpioDevice → GpioDevice × List Action
  | .write32 addr value => gpioWrite32 addr value
  | .vapiRead id data => gpioVapiRead id data
  | .clock => gpioClock

/-- The device after some events. -/
def after (base : ULong) (es : List Event) : GpioDevice := es.foldl (fun g e => (step e g).1) (gpioSecStart base)

/-! ### Edges -/

/-- The level that an event delivers. -/
def levelOf (base : ULong) : Event → Option Bool
  | .vapiRead id data => if vapiWhich base id = gpioVapiClock then some (data ≠ 0) else none
  | _ => none

/-- The level delivered last. It is low before the first one. -/
def lastLevel (base : ULong) (es : List Event) : Bool := (es.filterMap (levelOf base)).getLast?.getD false

/-- The bits of `RGPIO_CTRL` as the guest reads them. -/
def eclk (g : GpioDevice) : Bool := (gpioRead32 rgpioCtrl g).getLsbD 0
def nec (g : GpioDevice) : Bool := (gpioRead32 rgpioCtrl g).getLsbD 1

/-- A rising edge, or a falling one when it is negative. -/
def isEdge (negative before level : Bool) : Bool := if negative then before && !level else !before && level

def calls (actions : List Action) : Nat := actions.count .deviceClock

/-- While the external clock is in use the device is clocked once by every edge and by nothing else. -/
def ClockedOnEdges (base : ULong) (es : List Event) : Prop :=
  ∀ pre e post, es = pre ++ e :: post → eclk (after base pre) = true →
    calls (step e (after base pre)).2 =
      match levelOf base e with
      | some level => if isEdge (nec (after base pre)) (lastLevel base pre) level then 1 else 0
      | none => 0

/-- Whenever the level that follows an edge is delivered, the level at the last clock of the device is the level delivered
before. -/
def LevelsKept (base : ULong) (es : List Event) : Prop :=
  ∀ pre e post, es = pre ++ e :: post → eclk (after base pre) = true →
    levelOf base e = some (!nec (after base pre)) → (after base pre).curr.externalClock = lastLevel base pre

/-! ### What one event does -/

section
variable {base : ULong} {g : GpioDevice}

theorem deviceClock_next (g : GpioDevice) :
    (gpioDeviceClock g).1.next.externalClock = g.next.externalClock ∧ (gpioDeviceClock g).1.baseVapiId = g.baseVapiId := by
  unfold gpioDeviceClock
  dsimp only
  split <;> exact ⟨rfl, rfl⟩

theorem deviceClock_calls (g : GpioDevice) : calls (gpioDeviceClock g).2 = 1 := by
  unfold gpioDeviceClock calls
  dsimp only
  split <;> split <;> rfl

/-- A mask of one bit is in a register when the guest reads that bit as one. -/
theorem and_bit {ctrl : ULong} {k : Nat} (small : k < 32) :
    (ctrl &&& BitVec.twoPow 64 k = BitVec.twoPow 64 k ↔ (ctrl.setWidth 32).getLsbD k = true) ∧
      (ctrl &&& BitVec.twoPow 64 k = 0 ↔ (ctrl.setWidth 32).getLsbD k = false) := by
  have differ : BitVec.twoPow 64 k ≠ 0#64 := by
    intro zero
    have bit := congrArg (·.getLsbD k) zero
    simp [show k < 64 by omega] at bit
  rw [BitVec.and_twoPow, BitVec.getLsbD_setWidth, decide_eq_true small, Bool.true_and]
  cases ctrl.getLsbD k
  · exact ⟨⟨fun zero => absurd zero.symm differ, nofun⟩, ⟨fun _ => rfl, fun _ => rfl⟩⟩
  · exact ⟨⟨fun _ => rfl, fun _ => rfl⟩, ⟨fun zero => absurd zero differ, nofun⟩⟩

theorem eclk_eq (g : GpioDevice) :
    (g.curr.ctrl &&& ctrlEclk = ctrlEclk ↔ eclk g = true) ∧ (g.curr.ctrl &&& ctrlEclk = 0 ↔ eclk g = false) :=
  and_bit (show 0 < 32 by decide)

theorem nec_eq (g : GpioDevice) : decide (g.curr.ctrl &&& ctrlNec = ctrlNec) = nec g := by
  rw [Bool.eq_iff_iff, decide_eq_true_iff]
  exact (and_bit (show 1 < 32 by decide)).1

/-- Whatever clock is in use the level is kept for the next one. -/
theorem externalClock_next (value : ULong) (g : GpioDevice) :
    (gpioExternalClock value g).1.next.externalClock = decide (value ≠ 0) ∧ (gpioExternalClock value g).1.baseVapiId = g.baseVapiId := by
  unfold gpioExternalClock
  dsimp only
  split
  · split
    · exact deviceClock_next _
    · exact ⟨rfl, rfl⟩
  · exact ⟨rfl, rfl⟩

/-- A level that differs from the one at the last clock clocks the device when it is the one that follows an edge. -/
theorem externalClock_calls (value : ULong) (on : eclk g = true) :
    calls (gpioExternalClock value g).2 =
      if decide (value ≠ 0) ≠ g.curr.externalClock ∧ decide (value ≠ 0) ≠ nec g then 1 else 0 := by
  have uses := (eclk_eq g).1.mpr on
  simp only [gpioExternalClock, nec_eq, uses, decide_true, true_and]
  split
  · rw [if_pos (show ctrlEclk ≠ 0 by decide)]
    exact deviceClock_calls _
  · rfl

theorem clock_calls (on : eclk g = true) : calls (gpioClock g).2 = 0 := by
  have set : ¬g.curr.ctrl &&& ctrlEclk = 0 := fun zero => absurd (((eclk_eq g).2.mp zero).symm.trans on) nofun
  unfold gpioClock
  rw [if_neg set]
  rfl

theorem write32_next (addr : Nat) (value : Word) (g : GpioDevice) :
    (gpioWrite32 addr value g).1.next.externalClock = g.next.externalClock ∧
      (gpioWrite32 addr value g).1.baseVapiId = g.baseVapiId ∧ calls (gpioWrite32 addr value g).2 = 0 := by
  unfold gpioWrite32
  dsimp only
  repeat' split
  all_goals exact ⟨rfl, rfl, rfl⟩

theorem vapiRead_other {id : ULong} (data : ULong) (other : vapiWhich g.baseVapiId id ≠ gpioVapiClock) :
    (gpioVapiRead id data g).1.next.externalClock = g.next.externalClock ∧
      (gpioVapiRead id data g).1.baseVapiId = g.baseVapiId ∧ calls (gpioVapiRead id data g).2 = 0 := by
  unfold gpioVapiRead
  dsimp only
  rw [if_neg other]
  repeat' split
  all_goals exact ⟨rfl, rfl, rfl⟩

theorem vapiRead_clock {id : ULong} (data : ULong) (is : vapiWhich g.baseVapiId id = gpioVapiClock) :
    gpioVapiRead id data g = gpioExternalClock data g := by
  simp [gpioVapiRead, is, gpioVapiClock, gpioVapiData, gpioVapiAux, gpioVapiRgpioOe, gpioVapiRgpioInte, gpioVapiRgpioPtrig,
    gpioVapiRgpioAux, gpioVapiRgpioCtrl]

/-- The step: the register for the next clock holds the level delivered last. -/
theorem step_next (e : Event) (g : GpioDevice) :
    (step e g).1.next.externalClock = (levelOf g.baseVapiId e).getD g.next.externalClock ∧
      (step e g).1.baseVapiId = g.baseVapiId := by
  cases e with
  | write32 addr value => exact ⟨(write32_next addr value g).1, (write32_next addr value g).2.1⟩
  | vapiRead id data =>
    by_cases is : vapiWhich g.baseVapiId id = gpioVapiClock
    · simp only [step, vapiRead_clock data is, levelOf, if_pos is]
      exact externalClock_next data g
    · simp only [step, levelOf, if_neg is]
      exact ⟨(vapiRead_other data is).1, (vapiRead_other data is).2.1⟩
  | clock =>
    simp only [step, gpioClock]
    split
    · exact deviceClock_next g
    · exact ⟨rfl, rfl⟩

/-- The calls that an event makes while the external clock is in use. -/
theorem step_calls (e : Event) (on : eclk g = true) :
    calls (step e g).2 =
      match levelOf g.baseVapiId e with
      | some level => if level ≠ g.curr.externalClock ∧ level ≠ nec g then 1 else 0
      | none => 0 := by
  cases e with
  | write32 addr value => exact (write32_next addr value g).2.2
  | vapiRead id data =>
    by_cases is : vapiWhich g.baseVapiId id = gpioVapiClock
    · simp only [step, vapiRead_clock data is, levelOf, if_pos is]
      exact externalClock_calls data on
    · simp only [step, levelOf, if_neg is]
      exact (vapiRead_other data is).2.2
  | clock => exact clock_calls on

end

/-! ### What a run does -/

theorem after_snoc (base : ULong) (es : List Event) (e : Event) : after base (es ++ [e]) = (step e (after base es)).1 := by
  rw [after, List.foldl_append]
  rfl

theorem lastLevel_snoc (base : ULong) (es : List Event) (e : Event) :
    lastLevel base (es ++ [e]) = (levelOf base e).getD (lastLevel base es) := by
  unfold lastLevel
  rw [List.filterMap_append]
  cases delivered : levelOf base e with
  | none => simp [delivered]
  | some level => simp [delivered]

theorem after_next (base : ULong) (es : List Event) :
    (after base es).next.externalClock = lastLevel base es ∧ (after base es).baseVapiId = base := by
  induction es using List.reverseRecOn with
  | nil => exact ⟨rfl, rfl⟩
  | append_singleton es e ih =>
    obtain ⟨level, id⟩ := step_next e (after base es)
    rw [after_snoc, lastLevel_snoc, level, id, ih.1, ih.2]
    exact ⟨rfl, rfl⟩

/-- The code looks for an edge against another level than the one delivered before. -/
theorem edge_iff (negative before clocked level : Bool) :
    (if level ≠ clocked ∧ level ≠ negative then 1 else 0) = (if isEdge negative before level then 1 else 0) ↔
      (level = !negative → clocked = before) := by
  cases negative <;> cases before <;> cases clocked <;> cases level <;> decide

/-- The device is clocked by the edges alone, exactly when every level that may follow an edge is compared with the level
delivered before it. -/
theorem clocked_on_edges_iff (base : ULong) (es : List Event) : ClockedOnEdges base es ↔ LevelsKept base es := by
  refine forall_congr' fun pre => forall_congr' fun e => forall_congr' fun post => forall_congr' fun is => forall_congr' fun on => ?_
  rw [step_calls e on, (after_next base pre).2]
  cases delivered : levelOf base e with
  | none => simp
  | some level =>
    simp only [Option.some.injEq]
    exact edge_iff _ _ _ _

/-- The guest selects the external clock, and three levels make two rising edges. The second one is not seen. -/
def twoEdges : List Event :=
  [.write32 rgpioCtrl 1, .clock, .vapiRead 0x102 1, .vapiRead 0x102 0, .vapiRead 0x102 1]

theorem second_edge_missed : ¬ClockedOnEdges 0x100 twoEdges := by
  intro clocked
  have last := clocked [.write32 rgpioCtrl 1, .clock, .vapiRead 0x102 1, .vapiRead 0x102 0] (.vapiRead 0x102 1) [] rfl (by decide)
  exact absurd last (by decide)

end Or1ksim.Gpio
