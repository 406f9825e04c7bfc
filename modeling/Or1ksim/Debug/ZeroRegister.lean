import Or1ksim.Cpu.ZeroRegister
import Or1ksim.Debug.Registers
import Or1ksim.Debug.WriteReg

/-!
# Register 0 under a debugger

The debug interfaces write registers between instructions, some of them register `0`. In a run without such a write, and without
a move of the guest to the register that links to it, register `0` is zero at the start of every instruction.
-/

namespace Or1ksim.Debug

open Programs (Keeps)
open Serial (Buffer)
open Cpu (Word Machine Sim SprNo Stop Reg0Kept ZeroKept)

variable {δ : Type} {u : DebugConfig δ} {h : Host}

/-! ### Packets -/

/-- A `P` packet for register `0` with a value that is not zero. -/
def PacketWritesZero (h : Host) (scanned : Option (Word × (Nat → Byte))) : Prop :=
  ∃ regnum valstr, scanned = some (regnum, valstr) ∧ regnum.toNat = 0 ∧ (hex2reg h valstr).setWidth 32 ≠ (0 : Word)

/-- A `G` packet whose first register is not zero. -/
def BlockWritesZero (h : Host) (buf : Nat → Byte) : Prop := (hex2reg h buf).setWidth 32 ≠ (0 : Word)

theorem rspWriteReg_zero_iff {scanned : Option (Word × (Nat → Byte))} {m : Machine δ} (zero : m.reg 0 = 0) :
    (rspWriteReg h scanned m).1.reg 0 = 0 ↔ ¬ PacketWritesZero h scanned := by
  unfold rspWriteReg
  cases scanned with
  | none =>
    refine iff_of_true zero ?_
    rintro ⟨_, _, is, _⟩
    cases is
  | some packet =>
    obtain ⟨regnum, valstr⟩ := packet
    dsimp only
    by_cases first : regnum.toNat = 0
    · rw [if_pos (by omega)]
      have written : (if ((0 : Fin 32) : Nat) = regnum.toNat then (hex2reg h valstr).setWidth 32 else m.reg 0) =
          (hex2reg h valstr).setWidth 32 :=
        if_pos first.symm
      show (if ((0 : Fin 32) : Nat) = regnum.toNat then (hex2reg h valstr).setWidth 32 else m.reg 0) = 0 ↔ _
      rw [written]
      constructor
      · rintro none ⟨regnum', valstr', is, -, some⟩
        cases is
        exact some none
      · intro still
        by_contra some
        exact still ⟨regnum, valstr, rfl, first, some⟩
    · refine iff_of_true ?_ ?_
      · split_ifs
        · exact (if_neg fun same => first same.symm).trans zero
        · exact zero
        · rw [setNpc_reg]
          exact zero
        · exact zero
        · exact zero
      · rintro ⟨regnum', valstr', is, none, -⟩
        cases is
        exact first none

theorem rspWriteAllRegs_zero_iff {buf : Nat → Byte} {m : Machine δ} :
    (rspWriteAllRegs h buf m).1.reg 0 = 0 ↔ ¬ BlockWritesZero h buf := by
  unfold rspWriteAllRegs BlockWritesZero
  rw [setNpc_reg, not_not]
  show (hex2reg h fun n => buf (0 * 8 + n)).setWidth 32 = 0 ↔ _
  rw [Nat.zero_mul]
  simp only [Nat.zero_add]

/-! ### Requests of the JTAG interface -/

theorem answered_reg0 {s s' : Machine δ} {dev : δ} {es : List Cpu.DevEvent} {a : Unit}
    (ran : Cpu.devEvents u.cpu es { s with dev := dev } = .ok (a, s')) : Reg0Kept s s' := by
  have events := (Reg0Kept.closed u.cpu).events es _ _ _ ran
  exact events

theorem evalDirect8_reg0 (memaddr : Word) : Keeps Reg0Kept (evalDirect8 u memaddr) := by
  refine Reg0Kept.bind (Reg0Kept.modify fun _ => rfl) fun _ => Cpu.Closed.get fun s a s' ran => ?_
  cases area : u.cpu.area s with
  | none =>
    rw [area] at ran
    cases ran
    rfl
  | some mem =>
    rw [area] at ran
    dsimp only at ran
    cases read : mem.readfunc .byte with
    | none =>
      rw [read] at ran
      cases ran
      rfl
    | some readfunc =>
      rw [read] at ran
      dsimp only at ran
      rw [Programs.set_bind] at ran
      obtain ⟨_, mid, events, last⟩ := Programs.bind_ok ran
      cases last
      exact answered_reg0 events

theorem wishboneByte_reg0 (d : DebugState) (i : Nat) (status : Status) : Keeps Reg0Kept (wishboneByte u d i status) := by
  unfold wishboneByte
  split
  · refine Reg0Kept.bind (Reg0Kept.modify fun _ => rfl) fun _ => Cpu.Closed.get fun s a s' ran => ?_
    split at ran
    · cases ran
      rfl
    · exact Reg0Kept.bind (evalDirect8_reg0 _) (fun _ => Keeps.pure Reg0Kept.refl _) s a s' ran
  · exact Keeps.pure Reg0Kept.refl _

theorem wishboneReadLoop_reg0 (d : DebugState) (more i : Nat) (jreg : Buffer) (crcOut : Word) (status : Status) :
    Keeps Reg0Kept (wishboneReadLoop u d more i jreg crcOut status) := by
  induction more generalizing i jreg crcOut status with
  | zero => exact Keeps.pure Reg0Kept.refl _
  | succ more ih => exact Reg0Kept.bind (wishboneByte_reg0 d i status) fun got => ih _ _ _ _

theorem goCommandRead_reg0 (d : DebugState) (jreg : Buffer) (numBits : Nat) : Keeps Reg0Kept (goCommandRead u d jreg numBits) := by
  refine Reg0Kept.bind ?_ fun got => Keeps.pure Reg0Kept.refl _
  unfold checkedRead
  dsimp only
  split
  · unfold moduleRead
    split
    · exact Reg0Kept.bind (wishboneReadLoop_reg0 _ _ _ _ _ _) fun got => Keeps.pure Reg0Kept.refl _
    · exact Cpu.Closed.get fun s a s' ran => by cases ran; rfl
    · exact Keeps.pure Reg0Kept.refl _
  · exact Keeps.pure Reg0Kept.refl _

theorem setProgram8_reg0 (memaddr : Word) (value : BitVec 8) : Keeps Reg0Kept (setProgram8 u memaddr value) := by
  refine Reg0Kept.bind (Reg0Kept.modify fun _ => rfl) fun _ => Cpu.Closed.get fun s a s' ran => ?_
  cases area : u.cpu.area s with
  | none =>
    rw [area] at ran
    cases ran
    rfl
  | some mem =>
    rw [area] at ran
    dsimp only at ran
    cases program : s.curArea.bind u.writeprog8 with
    | some writeprog8 =>
      rw [program] at ran
      dsimp only at ran
      rw [Programs.set_bind] at ran
      exact answered_reg0 ran
    | none =>
      cases write : mem.writefunc .byte with
      | some writefunc =>
        rw [program, write] at ran
        dsimp only at ran
        rw [Programs.set_bind] at ran
        exact answered_reg0 ran
      | none =>
        rw [program, write] at ran
        cases ran
        exact Reg0Kept.exceptHandle _ _ s

theorem wishboneWriteLoop_reg0 (d : DebugState) (jreg : Buffer) (more i : Nat) (status : Status) :
    Keeps Reg0Kept (wishboneWriteLoop u d jreg more i status) := by
  induction more generalizing i status with
  | zero => exact Keeps.pure Reg0Kept.refl _
  | succ more ih =>
    rw [wishboneWriteLoop]
    dsimp only
    split
    · refine Reg0Kept.bind (Reg0Kept.modify fun _ => rfl) fun _ => Cpu.Closed.get fun s a s' ran => ?_
      split at ran
      · exact ih _ _ _ _ _ ran
      · exact Reg0Kept.bind (setProgram8_reg0 _ _) (fun _ => ih _ _) s a s' ran
    · exact ih _ _

theorem applyControl_zeroKept (d : DebugState) (data : BitVec 64) : Keeps ZeroKept (applyControl u d data) := by
  unfold applyControl
  split
  · split
    · intro s a s' ran zero
      obtain ⟨_, _, _, added, -, -, rfl⟩ := Tick.simReset_ok ran
      exact Cpu.cpuReset_zero _
    · refine Keeps.modify fun s zero => ?_
      unfold Cpu.setStallState
      split <;> exact zero
  · exact Keeps.pure (fun _ => id) ()

/-- A GO_COMMAND whose data go to the register that links to register `0`, and are not zero. -/
structure GoWritesZero (u : DebugConfig δ) (d : DebugState) (jreg : Buffer) (numBits : Nat) : Prop where
  crc : dataCrc jreg (goBytes u d numBits).1 0 (crc32 jcmdGoCommand 4 (crc32 0 1 0xffffffff)) =
    reverse32 (gather5 jreg (goBytes u d numBits).1)
  module : d.modId = .cpu0
  links : BitVec.ofNat 16 d.addr = (0x400 : SprNo)
  value : sprWriteLoop u jreg (goBytes u d numBits).1 0 0 ≠ 0

theorem goCommandWrite_zero_iff {d : DebugState} {jreg : Buffer} {numBits : Nat} {m m' : Machine δ} {a : DebugState × Buffer}
    (zero : m.reg 0 = 0) (ran : goCommandWrite u d jreg numBits m = .ok (a, m')) : m'.reg 0 = 0 ↔ ¬ GoWritesZero u d jreg numBits := by
  obtain ⟨done, mid, checked, last⟩ := Programs.bind_ok ran
  cases last
  unfold checkedWrite at checked
  split at checked
  · next good =>
    unfold moduleWrite at checked
    cases module : d.modId with
    | cpu0 =>
      rw [module] at checked
      obtain ⟨_, moved, spr, last⟩ := Programs.bind_ok checked
      cases last
      by_cases links : BitVec.ofNat 16 d.addr = (0x400 : SprNo)
      · rw [links] at spr
        rw [Cpu.mtspr_link0 spr]
        constructor
        · exact fun none writes => writes.value none
        · intro still
          by_contra some
          exact still ⟨good, module, links, some⟩
      · exact iff_of_true ((Reg0Kept.mtspr links _ _ _ _ spr).zero zero) fun writes => links writes.links
    | wishbone =>
      rw [module] at checked
      have kept := Reg0Kept.bind (wishboneWriteLoop_reg0 d jreg _ 0 _) (fun _ => Keeps.pure Reg0Kept.refl _) _ _ _ checked
      exact iff_of_true (kept.zero zero) fun writes => absurd (module.symm.trans writes.module) (by decide)
    | undefined =>
      rw [module] at checked
      cases checked
      exact iff_of_true zero fun writes => absurd (module.symm.trans writes.module) (by decide)
    | cpu1 =>
      rw [module] at checked
      cases checked
      exact iff_of_true zero fun writes => absurd (module.symm.trans writes.module) (by decide)
  · next bad =>
    cases checked
    exact iff_of_true zero fun writes => bad writes.crc

/-- The register that is shifted in is such a command. -/
structure RequestWritesZero (u : DebugConfig δ) (d : DebugState) (jreg : Buffer) (numBits : Nat) : Prop where
  instr : d.instr = some jiDebug
  leads : ¬ jreg 0 &&& 0x1 = 1
  command : (code4 jreg).toNat = 0
  defined : d.writeDefinedP = true
  write : d.accType.isWrite = true
  go : GoWritesZero u d jreg numBits

theorem goCommand_zero_iff {d : DebugState} {jreg : Buffer} {numBits : Nat} {m m' : Machine δ} {a : DebugState × Buffer}
    (zero : m.reg 0 = 0) (ran : goCommand u d jreg numBits m = .ok (a, m')) :
    m'.reg 0 = 0 ↔ ¬ (d.writeDefinedP = true ∧ d.accType.isWrite = true ∧ GoWritesZero u d jreg numBits) := by
  unfold goCommand at ran
  cases defined : d.writeDefinedP with
  | false =>
    rw [defined] at ran
    cases ran
    exact iff_of_true zero fun writes => Bool.false_ne_true writes.1
  | true =>
    rw [defined, Bool.not_true, if_neg Bool.false_ne_true] at ran
    cases acc : d.accType with
    | write8 | write16 | write32 =>
      rw [acc] at ran
      rw [goCommandWrite_zero_iff zero ran]
      exact not_congr ⟨fun go => ⟨rfl, rfl, go⟩, fun writes => writes.2.2⟩
    | read8 | read16 | read32 =>
      rw [acc] at ran
      exact iff_of_true ((goCommandRead_reg0 d jreg numBits _ _ _ ran).zero zero) fun writes => Bool.false_ne_true writes.2.1

theorem writeControl_zeroKept (d : DebugState) (jreg : Buffer) (numBits : Nat) : Keeps ZeroKept (writeControl u d jreg numBits) := by
  have closed := ZeroKept.closed u.cpu
  unfold writeControl
  split
  · exact closed.pure _
  · dsimp only
    split
    · exact closed.bind (applyControl_zeroKept d _) fun _ => closed.pure _
    · exact closed.pure _

theorem jtagShiftDr_zero_iff {d : DebugState} {jreg : Buffer} {numBits : Nat} {m m' : Machine δ} {a : DebugState × Buffer}
    (zero : m.reg 0 = 0) (ran : jtagShiftDr u d jreg numBits m = .ok (a, m')) : m'.reg 0 = 0 ↔ ¬ RequestWritesZero u d jreg numBits := by
  unfold jtagShiftDr at ran
  split at ran
  · next other =>
    cases ran
    exact iff_of_true zero fun writes => other writes.instr
  · next debug =>
    split at ran
    · next leads =>
      cases ran
      exact iff_of_true zero fun writes => writes.leads leads
    · next follows =>
      rcases code : (code4 jreg).toNat with _ | _ | _ | _ | _ | n
      · rw [code] at ran
        rw [goCommand_zero_iff zero ran]
        exact not_congr ⟨fun ⟨defined, write, writes⟩ => ⟨not_not.mp debug, follows, code, defined, write, writes⟩,
          fun writes => ⟨writes.defined, writes.write, writes.go⟩⟩
      all_goals
        rw [code] at ran
        refine iff_of_true ?_ fun writes => absurd (code.symm.trans writes.command) (Nat.succ_ne_zero _)
      · cases ran
        exact zero
      · cases ran
        exact zero
      · cases ran
        exact zero
      · exact writeControl_zeroKept d jreg numBits _ _ _ ran zero
      · cases ran
        exact zero

/-! ### Sessions -/

/-- The simulator with what the JTAG interface remembers. -/
structure Session (δ : Type) where
  machine : Machine δ
  debug : DebugState

/-- What happens between two instructions, and the instructions. A write of a special purpose register comes from the command
`writespr` of GDB, or from `or1ksim_write_spr`. -/
inductive Action where
  | clock
  | iteration (fuel : Nat)
  | writeReg (scanned : Option (Word × (Nat → Byte)))
  | writeAllRegs (buf : Nat → Byte)
  | writeSpr (regno : SprNo) (value : Word)
  | tapReset
  | shiftIr (jreg : Buffer) (numBits : Nat)
  | shiftDr (jreg : Buffer) (numBits : Nat)

def Action.perform (u : DebugConfig δ) (h : Host) (s : Session δ) : Action → Except Stop (Session δ)
  | .clock => (Cpu.cpuClock u.cpu s.machine).map fun r => { s with machine := r.2 }
  | .iteration fuel => (Cpu.execMainStep u.cpu fuel s.machine).map fun r => { s with machine := r.2 }
  | .writeReg scanned => .ok { s with machine := (rspWriteReg h scanned s.machine).1 }
  | .writeAllRegs buf => .ok { s with machine := (rspWriteAllRegs h buf s.machine).1 }
  | .writeSpr regno value => (Cpu.mtspr u.cpu regno value s.machine).map fun r => { s with machine := r.2 }
  | .tapReset => .ok { s with debug := jtagReset s.debug }
  | .shiftIr jreg numBits => .ok { s with debug := jtagShiftIr s.debug jreg numBits }
  | .shiftDr jreg numBits => (jtagShiftDr u s.debug jreg numBits s.machine).map fun r => ⟨r.2, r.1.1⟩

/-- The action writes a value that is not zero to register `0`. -/
def Action.WritesZero (u : DebugConfig δ) (h : Host) (s : Session δ) : Action → Prop
  | .clock => Cpu.WritesZero u.cpu s.machine
  | .iteration _ => Cpu.awake u.cpu s.machine = true ∧ Cpu.WritesZero u.cpu (Cpu.clocked s.machine)
  | .writeReg scanned => PacketWritesZero h scanned
  | .writeAllRegs buf => BlockWritesZero h buf
  | .writeSpr regno value => regno = 0x400 ∧ value ≠ 0
  | .tapReset | .shiftIr _ _ => False
  | .shiftDr jreg numBits => RequestWritesZero u s.debug jreg numBits

theorem map_ok {α β : Type} {f : α → β} {x : Except Stop α} {b : β} (ran : x.map f = .ok b) : ∃ a, x = .ok a ∧ f a = b := by
  cases x with
  | error e => cases ran
  | ok a => exact ⟨a, rfl, Except.ok.inj ran⟩

theorem perform_zero_iff (built : u.cpu.Built) (shipped : u.cpu.Shipped) {s s' : Session δ} {action : Action}
    (zero : s.machine.reg 0 = 0) (ran : action.perform u h s = .ok s') : s'.machine.reg 0 = 0 ↔ ¬ action.WritesZero u h s := by
  cases action with
  | clock =>
    obtain ⟨r, clock, rfl⟩ := map_ok ran
    exact Cpu.cpuClock_zero_iff built shipped zero clock
  | iteration fuel =>
    obtain ⟨r, iteration, rfl⟩ := map_ok ran
    exact Cpu.execMainStep_zero_iff built shipped zero iteration
  | writeReg scanned =>
    cases ran
    exact rspWriteReg_zero_iff zero
  | writeAllRegs buf =>
    cases ran
    exact rspWriteAllRegs_zero_iff
  | writeSpr regno value =>
    obtain ⟨r, moved, rfl⟩ := map_ok ran
    by_cases links : regno = 0x400
    · subst links
      rw [Cpu.mtspr_link0 moved]
      exact ⟨fun none both => both.2 none, fun still => by_contra fun some => still ⟨rfl, some⟩⟩
    · exact iff_of_true ((Reg0Kept.mtspr links _ _ _ _ moved).zero zero) fun both => links both.1
  | tapReset =>
    cases ran
    exact iff_of_true zero id
  | shiftIr jreg numBits =>
    cases ran
    exact iff_of_true zero id
  | shiftDr jreg numBits =>
    obtain ⟨r, shifted, rfl⟩ := map_ok ran
    exact jtagShiftDr_zero_iff zero shifted

/-- The runs from a state, with the states that were left and the actions that were taken there. -/
inductive Run (u : DebugConfig δ) (h : Host) (start : Session δ) : List (Session δ × Action) → Session δ → Prop where
  | start : Run u h start [] start
  | step {log : List (Session δ × Action)} {s s' : Session δ} (before : Run u h start log s) (action : Action)
      (ran : action.perform u h s = .ok s') : Run u h start (log ++ [(s, action)]) s'

/-- In the runs from a reset register `0` is zero throughout if and only if no step moves another value there past the executors. -/
theorem register_zero_iff (u : DebugConfig δ) (h : Host) (built : u.cpu.Built) (shipped : u.cpu.Shipped) (m : Machine δ) (d : DebugState)
    (log : List (Session δ × Action)) (s : Session δ) (run : Run u h ⟨Cpu.cpuReset m, d⟩ log s) :
    ((∀ visited ∈ log, visited.1.machine.reg 0 = 0) ∧ s.machine.reg 0 = 0) ↔ ∀ visited ∈ log, ¬ visited.2.WritesZero u h visited.1 := by
  induction run with
  | start =>
    exact iff_of_true ⟨fun _ none => absurd none List.not_mem_nil, Cpu.cpuReset_zero m⟩ fun _ none => absurd none List.not_mem_nil
  | @step log s s' before action ran ih =>
    simp only [List.forall_mem_append, List.forall_mem_singleton]
    rw [← ih]
    constructor
    · rintro ⟨⟨earlier, zero⟩, after⟩
      exact ⟨⟨earlier, zero⟩, (perform_zero_iff built shipped zero ran).mp after⟩
    · rintro ⟨⟨earlier, zero⟩, quiet⟩
      exact ⟨⟨earlier, zero⟩, (perform_zero_iff built shipped zero ran).mpr quiet⟩

/-- `l.movhi` and `l.mtspr`. -/
def movingDebug : DebugConfig (Word → Word) :=
  { plainDebug with
    cpu := Cpu.Config.bare
      [⟨"l.movhi", "rD,K", "00 0x6  DDDDD ----0 KKKK KKKK KKKK KKKK", "l_movhi"⟩,
        ⟨"l.mtspr", "rA,rB,K", "11 0x0  KKKKK AAAAA BBBB BKKK KKKK KKKK", "l_mtspr"⟩] [.words] }

theorem movingDebug_built : movingDebug.cpu.Built := Cpu.Config.bare_built _ (by simp) (by decide) (by decide +kernel)

theorem movingDebug_shipped : movingDebug.cpu.Shipped := by
  refine ⟨true, fun op member => ?_⟩
  rcases List.mem_pair.mp member with rfl | rfl
  · exact List.mem_of_getElem? (i := 5) rfl
  · exact List.mem_of_getElem? (i := 140) rfl

/-- An instruction at the reset vector, and another one behind it. -/
def programmed (first second : Word) : Machine (Word → Word) :=
  .bare (fun addr => if addr = Cpu.Exception.reset.vector then first else second) 0 0

def fromReset (first second : Word) : Session (Word → Word) := ⟨Cpu.cpuReset (programmed first second), .start⟩

/-- Clocks alone. -/
def clocks (u : DebugConfig δ) (h : Host) : Nat → Session δ → Except Stop (Session δ)
  | 0, s => .ok s
  | n + 1, s => clocks u h n s >>= fun s => Action.clock.perform u h s

theorem clocks_run {start s : Session δ} {n : Nat} (ran : clocks u h n start = .ok s) :
    ∃ log, Run u h start log s ∧ log.length = n := by
  induction n generalizing s with
  | zero =>
    cases ran
    exact ⟨[], .start, rfl⟩
  | succ n ih =>
    rw [clocks] at ran
    cases before : clocks u h n start with
    | error e =>
      rw [before] at ran
      cases ran
    | ok mid =>
      rw [before] at ran
      obtain ⟨log, run, length⟩ := ih before
      exact ⟨log ++ [(mid, .clock)], .step run .clock ran, by rw [List.length_append, length, List.length_singleton]⟩

/-- `l.movhi r0,1` is executed and put back. -/
theorem register_zero_movhi :
    ∃ log s, Run movingDebug ⟨false, true⟩ (fromReset 0x18000001 0x18000001) log s ∧ log.length = 2 ∧
      (((∀ visited ∈ log, visited.1.machine.reg 0 = 0) ∧ s.machine.reg 0 = 0) ↔
        ∀ visited ∈ log, ¬ visited.2.WritesZero movingDebug ⟨false, true⟩ visited.1) := by
  have ends : (clocks movingDebug ⟨false, true⟩ 2 (fromReset 0x18000001 0x18000001)).toOption.isSome = true := by decide +kernel
  cases ran : clocks movingDebug ⟨false, true⟩ 2 (fromReset 0x18000001 0x18000001) with
  | error e =>
    rw [ran] at ends
    cases ends
  | ok s =>
    obtain ⟨log, run, length⟩ := clocks_run ran
    exact ⟨log, s, run, length, register_zero_iff _ _ movingDebug_built movingDebug_shipped _ _ log s run⟩

/-- After `l.movhi r1,1`, `l.mtspr r0,r1,0x400` leaves `0x10000` in register `0`. -/
theorem register_zero_moved :
    ¬ ∀ (u : DebugConfig (Word → Word)) (h : Host) (m : Machine (Word → Word)) (d : DebugState)
        (log : List (Session (Word → Word) × Action)) (s : Session (Word → Word)), u.cpu.Built → u.cpu.Shipped →
      Run u h ⟨Cpu.cpuReset m, d⟩ log s → s.machine.reg 0 = 0 := by
  intro claim
  have moved : (clocks movingDebug ⟨false, true⟩ 2 (fromReset 0x18200001 0xc0000c00)).toOption.map (fun s => s.machine.reg 0) =
      some 0x10000 := by
    decide +kernel
  cases ran : clocks movingDebug ⟨false, true⟩ 2 (fromReset 0x18200001 0xc0000c00) with
  | error e =>
    rw [ran] at moved
    cases moved
  | ok s =>
    rw [ran] at moved
    obtain ⟨log, run, -⟩ := clocks_run ran
    have zero := claim movingDebug ⟨false, true⟩ (programmed 0x18200001 0xc0000c00) .start log s movingDebug_built
      movingDebug_shipped run
    exact absurd ((Option.some.inj moved).symm.trans zero) (by decide)

end Or1ksim.Debug
