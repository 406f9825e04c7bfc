import Or1ksim.Cpu.Libtoplevel
import Or1ksim.Decode.Destinations
import Or1ksim.Tick.InStep

/-!
# Register 0 in the core

Compilers take register `0` to be zero. Instructions that name it as their destination leave it so: the simple executor
does not write it, and the generated text puts it back. `mtspr` writes it like any other register that a number links to.
-/

namespace Or1ksim.Cpu

open Programs (Keeps)
open Decode (InsnOp Opcode readers or1ksimOr32Opcodes)

variable {δ : Type} {c : Config δ}

/-! ### What leaves it alone -/

def Reg0Kept (s s' : Machine δ) : Prop := s'.reg 0 = s.reg 0

namespace Reg0Kept

variable {s t u : Machine δ}

protected theorem refl (s : Machine δ) : Reg0Kept s s := rfl

protected theorem trans (first : Reg0Kept s t) (second : Reg0Kept t u) : Reg0Kept s u := Eq.trans second first

protected theorem bind {α β : Type} {m : Sim δ α} {f : α → Sim δ β} (first : Keeps Reg0Kept m) (rest : ∀ a, Keeps Reg0Kept (f a)) :
    Keeps Reg0Kept (m >>= f) := Keeps.bind (fun _ _ _ one two => one.trans two) first rest

protected theorem modify {f : Machine δ → Machine δ} (kept : ∀ s, (f s).reg 0 = s.reg 0) : Keeps Reg0Kept (modify f : Sim δ PUnit) :=
  Keeps.modify kept

theorem ite {p q : Sim δ Unit} {P : Prop} [Decidable P] (yes : Keeps Reg0Kept p) (no : Keeps Reg0Kept q) :
    Keeps Reg0Kept (if P then p else q) := by
  split
  · exact yes
  · exact no

protected theorem when {p : Sim δ Unit} (keeps : Keeps Reg0Kept p) (P : Prop) [Decidable P] :
  Keeps Reg0Kept (if P then p else pure ()) :=
  ite keeps (Keeps.pure Reg0Kept.refl ())

theorem debugIgnoreException (e : Exception) (s : Machine δ) : (debugIgnoreException e s).2.reg 0 = s.reg 0 :=
  (debugIgnoreException_local e s).reg0

theorem enterException (e : Exception) (ea : Word) (s : Machine δ) : (enterException e ea s).reg 0 = s.reg 0 := by
  unfold Cpu.enterException
  dsimp only
  split <;> rfl

theorem exceptHandle (e : Exception) (ea : Word) (s : Machine δ) : Reg0Kept s (exceptHandle e ea s) := by
  have asked : Reg0Kept s (Cpu.debugIgnoreException e { s with loadlockActive := false }).2 := debugIgnoreException e _
  unfold Cpu.exceptHandle
  dsimp only
  split
  · exact asked
  · exact asked.trans (enterException e ea _)

theorem schedAdd (job : Job) (time : Int) : Keeps Reg0Kept (schedAdd job time : Sim δ Unit) := by
  intro s a s' ran
  rw [(Tick.schedAdd_added ran).rest]
  rfl

theorem schedFindRemove (job : Job) : Keeps Reg0Kept (schedFindRemove job : Sim δ Unit) := Reg0Kept.modify fun _ => rfl

theorem reportInterrupt (c : Config δ) (line : Fin 32) : Keeps Reg0Kept (reportInterrupt c line) := by
  intro s a s' ran
  rcases reportInterrupt_cases ran with ⟨_, _, rfl⟩ | ⟨_, rfl⟩ | ⟨_, _, _, added⟩ | ⟨_, _, _, rfl⟩
  · have raised := exceptHandle .int ((wake s).sprs sprEearBase) (wake s)
    exact raised
  · rfl
  · have queued := schedAdd _ _ _ _ _ added
    exact queued
  · rfl

theorem closed (c : Config δ) : Closed c Reg0Kept where
  trans _ _ _ := Reg0Kept.trans
  unit _ _ kept := kept.reg0
  except := exceptHandle
  event e := by
    cases e with
    | reportInterrupt line => exact reportInterrupt c line
    | clearInterrupt line => exact Reg0Kept.modify fun _ => rfl
    | schedAdd job time => exact schedAdd _ _
    | schedFindRemove job => exact schedFindRemove _
    | verifyMemoryarea addr => exact Reg0Kept.modify fun _ => rfl
    | simDone => exact keeps_stop _

/-! ### Jobs -/

theorem schedTimerJob (prevTtmr : Word) : Keeps Reg0Kept (schedTimerJob prevTtmr : Sim δ Unit) := by
  have removes (s : Machine δ) : Reg0Kept s (Tick.removed prevTtmr s) := by
    unfold Tick.removed Tick.erase
    dsimp only
    split_ifs <;> rfl
  have queues (s : Machine δ) : Keeps Reg0Kept (Tick.queued s) := by
    unfold Tick.queued
    dsimp only
    refine ite (.when (schedAdd _ _) _) (ite ?_ (ite (.when ?_ _) (.when (schedAdd _ _) _)))
    · exact Reg0Kept.bind (schedAdd _ _) fun _ => .when (schedAdd _ _) _
    · exact Reg0Kept.bind (schedAdd _ _) fun _ => .when (schedAdd _ _) _
  intro s a s' ran
  rw [Tick.schedTimerJob_eq] at ran
  exact (removes s).trans (queues s _ _ _ ran)

theorem picIntsEn : Keeps Reg0Kept (picIntsEn : Sim δ Unit) := Closed.get fun s a s' ran =>
  Reg0Kept.when (schedAdd _ _) _ s a s' ran

theorem runJob (c : Config δ) (job : Job) : Keeps Reg0Kept (runJob c job) := by
  cases job with
  | guard =>
    intro s a s' ran
    unfold Cpu.runJob at ran
    dsimp only at ran
    cases guard : Sched.schedGuard Job.guard s.scheduler with
    | none =>
      rw [guard] at ran
      cases ran
    | some q =>
      rw [guard] at ran
      cases ran
      rfl
  | tickRaiseExcept =>
    refine Reg0Kept.bind (Reg0Kept.modify fun _ => rfl) fun _ => Reg0Kept.bind (fun s a s' ran => ?_) fun _ => Keeps.modify fun s => ?_
    · obtain ⟨time, added⟩ := Tick.schedNextInsn_added ran
      rw [added.rest]
      rfl
    · split
      · exact exceptHandle _ _ s
      · rfl
  | tickRestart => exact Reg0Kept.bind (Reg0Kept.modify fun _ => rfl) fun _ => Closed.get fun s a s' ran => schedAdd _ _ s a s' ran
  | tickOneShot => exact Reg0Kept.modify fun _ => rfl
  | picRepInt =>
    refine Keeps.modify fun s => ?_
    split
    · exact exceptHandle _ _ s
    · rfl
  | dev n =>
    refine Closed.get fun s a s' ran => ?_
    rw [Programs.set_bind] at ran
    have answered := (closed c).events _ _ _ _ ran
    exact answered

theorem doScheduler (c : Config δ) (fuel : Nat) : Keeps Reg0Kept (doScheduler c fuel) := by
  induction fuel with
  | zero => exact keeps_stop _
  | succ fuel ih =>
    intro s a s' ran
    obtain ⟨tmp, q, mid, time, -, job, -, ⟨-, more⟩ | ⟨-, rfl⟩⟩ := Tick.doScheduler_step ran
    · have done := runJob c _ _ _ _ job
      exact done.trans (ih _ _ _ more)
    · have done := runJob c _ _ _ _ job
      exact done

/-! ### Special purpose registers -/

theorem sprWriteTtcr (value : Word) : Keeps Reg0Kept (sprWriteTtcr value : Sim δ Unit) :=
  Reg0Kept.bind (Reg0Kept.modify fun _ => rfl) fun _ => Closed.get fun s a s' ran => schedTimerJob _ s a s' ran

theorem sprWriteTtmr (prevVal : Word) : Keeps Reg0Kept (sprWriteTtmr prevVal : Sim δ Unit) := by
  have counted (s : Machine δ) : Reg0Kept s
      (if s.tickCounting then setSpr sprTtcr (BitVec.ofInt 32 (s.cycles - s.cycleCountAtTickStart)) s else s) := by
    split <;> rfl
  have rest (value : Word) : Keeps Reg0Kept (modify (fun m : Machine δ => setSpr sprTtmr (m.sprs sprTtmr &&& ~~~ttmrIp) m) >>= fun _ =>
      modify (fun m => if m.tickCounting then setSpr sprTtcr (BitVec.ofInt 32 (m.cycles - m.cycleCountAtTickStart)) m
        else m) >>= fun _ =>
        modify (fun m => { m with cycleCountAtTickStart := m.cycles - (m.sprs sprTtcr).toNat, tickCounting := has value ttmrM }) >>=
          fun _ => Cpu.schedTimerJob prevVal : Sim δ Unit) :=
    Reg0Kept.bind (Reg0Kept.modify fun _ => rfl) fun _ => Reg0Kept.bind (Keeps.modify counted) fun _ =>
      Reg0Kept.bind (Reg0Kept.modify fun _ => rfl) fun _ => schedTimerJob prevVal
  exact Closed.get fun s a s' ran => rest _ s a s' ran

theorem gprLink_zero {regno : SprNo} (other : regno ≠ 0x400) {i : Fin 32} (links : gprLink regno = some i) : i ≠ 0 := by
  unfold gprLink at links
  split at links
  · next range =>
    have same := congrArg Fin.val (Option.some.inj links)
    rintro rfl
    rw [Fin.val_zero] at same
    dsimp only at same
    have here : regno.toNat = 0x400 := by omega
    exact other (BitVec.eq_of_toNat_eq here)
  · cases links

theorem mtsprDefault {regno : SprNo} (other : regno ≠ 0x400) (value : Word) (s : Machine δ) :
    Reg0Kept s (mtsprDefault c regno value s) := by
  unfold Cpu.mtsprDefault
  cases links : gprLink regno with
  | none =>
    dsimp only
    split_ifs <;> rfl
  | some i =>
    have linked : ∀ t : Machine δ, Reg0Kept t (setReg i value t) := fun _ => if_neg (gprLink_zero other links).symm
    dsimp only
    refine Reg0Kept.trans ?_ (linked _)
    split_ifs <;> rfl

/-- A move to any register but the one that links to register `0`. -/
theorem mtspr {regno : SprNo} (other : regno ≠ 0x400) (value : Word) : Keeps Reg0Kept (mtspr c regno value) := by
  have plain {α : Type} (p : P α) : Keeps Reg0Kept (runP c noOperands p) := (closed c).runP (noOperands_keep Reg0Kept) p
  have set (r : SprNo) (v : Word) : Keeps Reg0Kept (modify (setSpr r v) : Sim δ Unit) := Reg0Kept.modify fun _ => rfl
  refine Closed.get fun s a s' ran => Reg0Kept.bind (set _ _) (fun _ => ?_) s a s' ran
  refine ite (sprWriteTtcr _) (ite (sprWriteTtmr _) (ite ?_ (ite ?_ (ite ?_ (ite (set _ _) (ite (set _ _) (ite ?_ (ite ?_ (ite (set _ _)
    (ite ?_ (ite ?_ (ite ?_ (ite ?_ (ite ?_ ?_))))))))))))))
  · exact Reg0Kept.bind (plain _) fun _ => Reg0Kept.bind (plain _) fun _ => set _ _
  · exact Reg0Kept.bind (plain _) fun _ => set _ _
  · exact Reg0Kept.bind (plain _) fun _ => set _ _
  · exact Reg0Kept.bind (plain _) fun _ => Reg0Kept.bind ((closed c).icSimulateFetch _ _) fun _ => set _ _
  · refine Keeps.modify fun s => ?_
    unfold icInv
    dsimp only
    split <;> rfl
  · exact Reg0Kept.bind (set _ _) fun _ => .when picIntsEn _
  · refine Keeps.modify fun s => ?_
    unfold mtsprNpc
    split <;> rfl
  · exact .when (set _ _) _
  · have enabled : Keeps Reg0Kept (get >>= fun m => if has m.sr srIee then Cpu.picIntsEn else pure () : Sim δ Unit) :=
      Closed.get fun s a s' ran => Reg0Kept.when picIntsEn _ s a s' ran
    exact ite (Reg0Kept.bind (set _ _) fun _ => enabled) enabled
  · exact Closed.get fun s a s' ran => Reg0Kept.when (keeps_stop _) _ s a s' ran
  · exact Keeps.modify fun s => mtsprDefault other value s

end Reg0Kept

/-- The move to the register that links to register `0`. -/
theorem mtspr_link0 {value : Word} {s s' : Machine δ} {a : Unit} (ran : mtspr c 0x400 value s = .ok (a, s')) : s'.reg 0 = value := by
  have moved : mtspr c 0x400 value s = .ok ((), mtsprDefault c 0x400 value (setSpr 0x400 value s)) := rfl
  rw [moved] at ran
  cases ran
  rfl

/-! ### Instructions that only read their first operand -/

def Op.LeavesParam0 : Op → Prop
  | .setParam0 _ => False
  | _ => True

def Insn.LeavesParam0 : Insn → Prop
  | .plain body => body.Uses Op.LeavesParam0
  | .mtspr | .rfe => True
  | .mfspr | .lwa | .swa => False

theorem ite_leaves {α : Type} {p q : P α} {C : Prop} [Decidable C] (yes : p.Uses Op.LeavesParam0) (no : q.Uses Op.LeavesParam0) :
    (if C then p else q).Uses Op.LeavesParam0 := by
  split
  · exact yes
  · exact no

theorem raise_leaves (e : Exception) (ea : Word) : (act (.exceptHandle e ea)).Uses Op.LeavesParam0 := ⟨trivial, fun _ => trivial⟩

theorem jumpTo_leaves (target : Word) : (jumpTo target).Uses Op.LeavesParam0 := by
  exact act_uses trivial fun v => ite_leaves ⟨trivial, fun _ => trivial⟩ ⟨trivial, fun _ => trivial⟩

theorem lJr_leaves : lJr.Uses Op.LeavesParam0 := by
  exact act_uses trivial fun temp1 => act_uses trivial fun v => ite_leaves (raise_leaves _ _) (jumpTo_leaves _)

theorem lJalr_leaves : lJalr.Uses Op.LeavesParam0 := by
  refine act_uses trivial fun temp1 => act_uses trivial fun v => act_uses trivial fun (regno : Word) => ?_
  refine ite_leaves (raise_leaves _ _) (ite_leaves (raise_leaves _ _) ?_)
  exact Programs.Uses.bind (jumpTo_leaves temp1) fun _ => act_uses trivial fun v => ⟨trivial, fun _ => trivial⟩

theorem compares_leaves (f : Word → Word → Bool) : (compares f).Uses Op.LeavesParam0 :=
  ⟨trivial, fun _ => ⟨trivial, fun _ => ⟨trivial, fun _ => trivial⟩⟩⟩

theorem rangeOv_leaves (bit : Word) : (rangeOv bit).Uses Op.LeavesParam0 := by
  refine act_uses trivial fun v => ite_leaves (ite_leaves (ite_leaves ?_ trivial) (ite_leaves (raise_leaves _ _) trivial)) trivial
  exact act_uses trivial fun _ => raise_leaves _ _

theorem accumulates_leaves (combine : BitVec 64 → BitVec 64 → BitVec 64) (overflow : BitVec 64 → BitVec 64 → Bool) :
    (accumulates combine overflow).Uses Op.LeavesParam0 :=
  ⟨trivial, fun _ => ⟨trivial, fun _ => ⟨trivial, fun _ => ⟨trivial, fun _ => ⟨trivial, fun _ =>
    ⟨trivial, fun _ => rangeOv_leaves _⟩⟩⟩⟩⟩⟩

theorem floatCompares_leaves (f : Word → Word → Bool × FloatFlags) (negate ordered : Bool) :
    (floatCompares c f negate ordered).Uses Op.LeavesParam0 := by
  have raises (flags : FloatFlags) : (floatSetFlags flags).Uses Op.LeavesParam0 :=
    act_uses trivial fun v => act_uses trivial fun _ => ite_leaves (raise_leaves _ _) trivial
  unfold floatCompares floatInsn
  split
  · exact ⟨trivial, fun _ => ⟨trivial, fun _ => ⟨trivial, fun _ => ⟨trivial, fun _ => raises _⟩⟩⟩⟩
  · exact ⟨trivial, fun _ => ⟨trivial, fun _ => trivial⟩⟩

/-- The bytes of a name as one number, by which two names are told apart in one step. -/
def nameCode (name : String) : ℕ := (Ascii.bytes name).foldl (fun n b => 256 * n + b.toNat) 0

theorem insnset_readers : (insnset c).filter (fun entry => (readers.map nameCode).contains (nameCode entry.1)) =
    [("l_jalr", .plain lJalr), ("l_jr", .plain lJr), ("l_rfe", .rfe), ("l_sfeq", .plain lSfeq), ("l_sfne", .plain lSfne),
      ("l_sfgts", .plain lSfgts), ("l_sfges", .plain lSfges), ("l_sflts", .plain lSflts), ("l_sfles", .plain lSfles),
      ("l_sfgtu", .plain lSfgtu), ("l_sfgeu", .plain lSfgeu), ("l_sfltu", .plain lSfltu), ("l_sfleu", .plain lSfleu),
      ("l_mtspr", .mtspr), ("l_mac", .plain lMac), ("l_msb", .plain lMsb), ("lf_sfeq_s", .plain (lfSfeqS c)),
      ("lf_sfge_s", .plain (lfSfgeS c)), ("lf_sfgt_s", .plain (lfSfgtS c)), ("lf_sfle_s", .plain (lfSfleS c)),
      ("lf_sflt_s", .plain (lfSfltS c)), ("lf_sfne_s", .plain (lfSfneS c)), ("l_cust1", .plain lCust), ("l_cust2", .plain lCust),
      ("l_cust3", .plain lCust), ("l_cust4", .plain lCust)] := by
  rfl

theorem readers_leave {name : String} {i : Insn} (reader : name ∈ readers) (found : (insnset c).lookup name = some i) :
    i.LeavesParam0 := by
  have all : ∀ entry ∈ (insnset c).filter (fun entry => (readers.map nameCode).contains (nameCode entry.1)), entry.2.LeavesParam0 := by
    rw [insnset_readers]
    simp only [List.forall_mem_cons]
    refine ⟨lJalr_leaves, lJr_leaves, trivial, compares_leaves _, compares_leaves _, compares_leaves _, compares_leaves _,
      compares_leaves _,
      compares_leaves _, compares_leaves _, compares_leaves _, compares_leaves _, compares_leaves _, trivial, accumulates_leaves _ _,
      accumulates_leaves _ _, floatCompares_leaves _ _ _, floatCompares_leaves _ _ _, floatCompares_leaves _ _ _,
        floatCompares_leaves _ _ _,
      floatCompares_leaves _ _ _, floatCompares_leaves _ _ _, trivial, trivial, trivial, trivial,
        fun _ none => absurd none List.not_mem_nil⟩
  obtain ⟨before, behind, entries, -⟩ := List.lookup_eq_some_iff.mp found
  have member : (name, i) ∈ insnset c := by
    rw [entries]
    exact List.mem_append_right _ List.mem_cons_self
  exact all _ (List.mem_filter.mpr ⟨member, List.contains_iff_mem.mpr (List.mem_map_of_mem reader)⟩)

/-! ### Instructions -/

/-- The operands of an entry in the executor that is configured. -/
def Config.operands (c : Config δ) (m : Machine δ) (opds : List InsnOp) : Operands δ :=
  match c.executor with
  | .simple => simpleOperands m.insn opds
  | .complex => complexOperands opds (Decode.operandVars m.insn (regFile m) opds)

theorem Frame.operands {m : Machine δ} {opds : List InsnOp} {opd : Operands δ} {tail : Machine δ → Machine δ}
    (frame : Frame c m opds opd tail) : opd = c.operands m opds := by
  cases frame with
  | simple is => rw [Config.operands, is]
  | complex is => rw [Config.operands, is]

def ZeroKept (s s' : Machine δ) : Prop := s.reg 0 = 0 → s'.reg 0 = 0

theorem Reg0Kept.zero {s s' : Machine δ} (kept : Reg0Kept s s') : ZeroKept s s' := fun zero => Eq.trans kept zero

theorem ZeroKept.closed (c : Config δ) : Closed c ZeroKept where
  trans _ _ _ first second zero := second (first zero)
  unit s t kept := ((Reg0Kept.closed c).unit s t kept).zero
  except e ea s := ((Reg0Kept.closed c).except e ea s).zero
  event e s a s' ran := ((Reg0Kept.closed c).event e s a s' ran).zero

theorem lRfe_zeroKept : Keeps ZeroKept (lRfe c) := by
  have other : sprSr ≠ 0x400 := by decide
  have rest : Keeps Reg0Kept (lRfe c) :=
    Reg0Kept.bind (Reg0Kept.modify fun _ => rfl) fun _ => Closed.get fun s a s' ran => Reg0Kept.mtspr other _ s a s' ran
  exact fun s a s' ran => (rest s a s' ran).zero

/-- An instruction other than `l.mtspr` whose operands keep register `0`. -/
theorem exec_zeroKept {i : Insn} {opd : Operands δ} (keep : opd.Keep ZeroKept) (other : i ≠ .mtspr) : Keeps ZeroKept (i.exec c opd) := by
  have closed := ZeroKept.closed c
  cases i with
  | plain body => exact closed.runP keep body
  | mtspr => exact absurd rfl other
  | mfspr => exact closed.lMfspr keep
  | rfe => exact lRfe_zeroKept
  | lwa => exact closed.lLwa keep fun _ _ _ zero => zero
  | swa => exact closed.lSwa keep

theorem setsimReg_zeroKept (regno value : Word) : Keeps ZeroKept (setsimReg regno value : Sim δ Unit) := by
  unfold setsimReg
  split
  · next low =>
    refine Keeps.modify fun s zero => ?_
    show (if (0 : Fin 32) = ⟨regno.toNat, low⟩ then if regno = 0 then 0 else value else s.reg 0) = 0
    split
    · next here =>
      have none : regno = 0 := BitVec.eq_of_toNat_eq (congrArg Fin.val here).symm
      exact if_pos none
    · exact zero
  · exact keeps_stop _

/-- The simple executor does not write register `0`. -/
theorem simpleOperands_zeroKept (insn : Word) (opds : List InsnOp) (v : Word) :
    Keeps ZeroKept ((simpleOperands insn opds : Operands δ).setParam0 v) := by
  unfold simpleOperands
  dsimp only
  split
  · split
    · exact setsimReg_zeroKept _ v
    · exact keeps_stop _
  · exact keeps_stop _

/-- Without the macro there is nothing to write with. -/
theorem complexOperands_undefined {opds : List InsnOp} (undefined : .defineSetParam0 ∉ Decode.genEvalOperands opds)
    {R : Machine δ → Machine δ → Prop} (vars : List Word) (v : Word) :
      Keeps R ((complexOperands opds vars : Operands δ).setParam0 v) := by
  unfold complexOperands
  dsimp only
  split
  · rw [if_neg undefined]
    exact keeps_stop _
  · exact keeps_stop _

section
variable {m after : Machine δ} {opds : List InsnOp} {opd : Operands δ} {tail : Machine δ → Machine δ} {i : Insn}

theorem Frame.keepZero (frame : Frame c m opds opd tail) (writes : ∀ v, Keeps ZeroKept (opd.setParam0 v)) : opd.Keep ZeroKept where
  param n s a s' ran zero := by rwa [frame.reads.1 n s a s' ran]
  regParam0 s a s' ran zero := by rwa [frame.reads.2 s a s' ran]
  setParam0 := writes

/-- A function that does not write its first operand could as well have none to write. -/
theorem leaves_zeroKept (frame : Frame c m opds opd tail) (leaves : i.LeavesParam0) (other : i ≠ .mtspr) :
    Keeps ZeroKept (i.exec c opd) := by
  let unwritable : Operands δ := { opd with setParam0 := fun _ => stop .crash }
  have keep : unwritable.Keep ZeroKept :=
    ⟨fun n s a s' ran zero => by rwa [frame.reads.1 n s a s' ran], fun s a s' ran zero => by rwa [frame.reads.2 s a s' ran],
      fun _ => keeps_stop _⟩
  cases i with
  | plain body =>
    refine Programs.Uses.run (R := ZeroKept) (fun _ => id) (fun _ _ _ first second zero => second (first zero))
      (fun o allowed => ?_) leaves
    have same : Op.sem c opd o = Op.sem c unwritable o := by
      cases o with
      | setParam0 value => exact allowed.elim
      | _ => rfl
    rw [same]
    exact (ZeroKept.closed c).sem keep o
  | mtspr => exact absurd rfl other
  | rfe => exact lRfe_zeroKept
  | mfspr | lwa | swa => exact leaves.elim

/-- An instruction other than `l.mtspr` leaves register `0` zero: it cannot write it, or what it wrote is put back. -/
theorem exec_zero (frame : Frame c m opds opd tail) (other : i ≠ .mtspr)
    (marked : Decode.writeToReg opds = true ∨ .defineSetParam0 ∉ Decode.genEvalOperands opds ∨ i.LeavesParam0) (zero : m.reg 0 = 0)
    (ran : i.exec c opd m = .ok ((), after)) : (tail after).reg 0 = 0 := by
  cases frame with
  | simple is => exact exec_zeroKept ((Frame.simple is).keepZero (simpleOperands_zeroKept _ _)) other _ _ _ ran zero
  | complex is =>
    unfold repair
    split
    · rfl
    · next unmarked =>
      rcases marked.resolve_left unmarked with undefined | leaves
      · exact exec_zeroKept ((Frame.complex is).keepZero (complexOperands_undefined undefined _)) other _ _ _ ran zero
      · exact leaves_zeroKept (Frame.complex is) leaves other _ _ _ ran zero

/-! ### Moves -/

/-- The operands of a move to the register that links to register `0`, with a value that is not zero. -/
def MovesToZero (opd : Operands δ) (m : Machine δ) : Prop :=
  ∃ x k value, opd.param 0 m = .ok (x, m) ∧ opd.param 2 m = .ok (k, m) ∧ opd.param 1 m = .ok (value, m) ∧
    (x ||| k).setWidth 16 = (0x400 : SprNo) ∧ value ≠ 0

theorem lMtspr_zero_iff (reads : ∀ n, Reads (opd.param n)) (zero : m.reg 0 = 0) (ran : lMtspr c opd m = .ok ((), after)) :
    after.reg 0 = 0 ↔ ¬ MovesToZero opd m := by
  obtain ⟨x, first, afterX⟩ := (reads 0).bind_ok ran
  obtain ⟨k, third, afterK⟩ := (reads 2).bind_ok afterX
  obtain ⟨value, second, moved⟩ := (reads 1).bind_ok afterK
  rw [Programs.get_bind] at moved
  split at moved
  · by_cases link : (x ||| k).setWidth 16 = (0x400 : SprNo)
    · rw [link] at moved
      rw [mtspr_link0 moved]
      constructor
      · rintro none ⟨x', k', value', first', third', second', link', some⟩
        rw [second] at second'
        cases second'
        exact some none
      · intro still
        by_contra some
        exact still ⟨x, k, value, first, third, second, link, some⟩
    · refine iff_of_true ((Reg0Kept.mtspr link value m () after moved).zero zero) ?_
      rintro ⟨x', k', value', first', third', second', link', some⟩
      rw [first] at first'
      rw [third] at third'
      cases first'
      cases third'
      exact link link'
  · cases moved

end

/-! ### A clock -/

/-- The table has no entries but those of the simulator. -/
def Config.Shipped (c : Config δ) : Prop := ∃ xori, ∀ op ∈ c.opcodes, op ∈ or1ksimOr32Opcodes xori

theorem insnAt_marked (built : c.Built) (shipped : c.Shipped) {index : Nat} {i : Insn} {opds : List InsnOp}
    (found : c.insnAt index = some i)
    (described : c.opStart[index]? = some opds) : ∃ op, c.opcodes[index]? = some op ∧ (insnset c).lookup op.functionName = some i ∧
      Decode.Marked op opds := by
  obtain ⟨xori, shipped⟩ := shipped
  obtain ⟨⟨heap, accepted⟩, -, -⟩ := built
  obtain ⟨op, entry, function⟩ := Option.bind_eq_some_iff.mp found
  exact ⟨op, entry, function,
    Decode.or1ksimOr32Opcodes_marked (shipped op (List.mem_of_getElem? entry)) (Decode.buildAutomata_parsed accepted entry described)⟩

/-- No other name has the function of moves. -/
theorem lookup_mtspr {name : String} (found : (insnset c).lookup name = some .mtspr) : name = "l_mtspr" := by
  obtain ⟨before, behind, entries, -⟩ := List.lookup_eq_some_iff.mp found
  have member : (name, .mtspr) ∈ insnset c := by
    rw [entries]
    exact List.mem_append_right _ List.mem_cons_self
  simpa [insnset] using member

/-- The instruction of a word moves a value that is not zero to the register that links to register `0`. -/
def MovesWord (c : Config δ) (m : Machine δ) : Prop :=
  ∃ index opds, c.decode m.insn = some index ∧ c.insnAt index = some .mtspr ∧ c.opStart[index]? = some opds ∧
    MovesToZero (c.operands m opds) m

theorem outcome_zero_iff (built : c.Built) (shipped : c.Shipped) {m n : Machine δ} (zero : m.reg 0 = 0) (outcome : Outcome c m n) :
    n.reg 0 = 0 ↔ ¬ MovesWord c m := by
  have idle (none : c.function m.insn = none) : ¬ MovesWord c m := by
    rintro ⟨index, opds, decoded, moves, -⟩
    rw [function_of_decode decoded, moves] at none
    cases none
  cases outcome with
  | illegal ea none => exact iff_of_true ((Reg0Kept.exceptHandle .illegal ea m).zero zero) (idle none)
  | silent opds none =>
    refine iff_of_true ?_ (idle none)
    unfold repair
    split
    · rfl
    · exact zero
  | exec index i opds opd tail after decoded found described frame ran =>
    obtain ⟨op, entry, function, marked⟩ := insnAt_marked built shipped found described
    by_cases is : i = .mtspr
    · subst is
      have unmarked := marked.mtspr (lookup_mtspr function)
      have kept : tail after = after := by
        cases frame with
        | simple => rfl
        | complex => rw [repair, unmarked, if_neg Bool.false_ne_true]
      rw [kept, lMtspr_zero_iff frame.reads.1 zero ran, frame.operands]
      refine not_congr ⟨fun moves => ⟨index, opds, decoded, found, described, moves⟩, ?_⟩
      rintro ⟨index', opds', decoded', -, described', moves⟩
      obtain rfl := Option.some.inj (decoded.symm.trans decoded')
      obtain rfl := Option.some.inj (described.symm.trans described')
      exact moves
    · refine iff_of_true (exec_zero frame is (marked.destination.imp_right
        (Or.imp_right fun reads => readers_leave reads function)) zero ran) ?_
      rintro ⟨index', opds', decoded', found', -⟩
      obtain rfl := Option.some.inj (decoded.symm.trans decoded')
      exact is (Option.some.inj (found.symm.trans found'))

/-- The instruction that a clock executes moves a value that is not zero to the register that links to register `0`. -/
def WritesZero (c : Config δ) (s : Machine δ) : Prop :=
  ∃ m, fetch c (begun s) = .ok (false, m) ∧ m.exceptPending = false ∧ m.breakpoint = false ∧ MovesWord c m

theorem cpuClock_zero_iff (built : c.Built) (shipped : c.Shipped) {s s' : Machine δ} {b : Bool} (zero : s.reg 0 = 0)
    (ran : cpuClock c s = .ok (b, s')) : s'.reg 0 = 0 ↔ ¬ WritesZero c s := by
  obtain ⟨m, fetched, ways⟩ := cpuClock_cases ran
  have zero' : m.reg 0 = 0 := ((Reg0Kept.closed c).fetch (fun _ _ => rfl) _ _ _ fetched).zero zero
  have trapped (n : Machine δ) : (trap n).reg 0 = n.reg 0 := Reg0Kept.exceptHandle _ _ n
  have same {m' : Machine δ} {b' : Bool} (again : fetch c (begun s) = .ok (b', m')) : b' = b ∧ m' = m := by
    rw [fetched] at again
    cases again
    exact ⟨rfl, rfl⟩
  rcases ways with ⟨rfl, rfl⟩ | ⟨rfl, pending, rfl⟩ | ⟨rfl, -, watched, rfl⟩ | ⟨rfl, idle, quiet, n, decoded, rfl⟩
  · refine iff_of_true zero' ?_
    rintro ⟨m', again, -⟩
    exact absurd (same again).1 (by decide)
  · refine iff_of_true zero' ?_
    rintro ⟨m', again, idle, -⟩
    rw [(same again).2, pending] at idle
    cases idle
  · refine iff_of_true ((trapped m).trans zero') ?_
    rintro ⟨m', again, -, quiet, -⟩
    rw [(same again).2, watched] at quiet
    cases quiet
  · have updated : (updatePc (if n.breakpoint then trap n else n)).reg 0 = n.reg 0 := by
      show (if n.breakpoint then trap n else n).reg 0 = n.reg 0
      split
      · exact trapped n
      · rfl
    rw [updated, outcome_zero_iff built shipped zero' (decodeExecute_outcome built decoded)]
    refine not_congr ⟨fun moves => ⟨m, fetched, idle, quiet, moves⟩, ?_⟩
    rintro ⟨m', again, -, -, moves⟩
    rwa [(same again).2] at moves

/-! ### The main loop -/

theorem cpuReset_zero (s : Machine δ) : (cpuReset s).reg 0 = 0 :=
  Reg0Kept.exceptHandle .reset 0 { s with
    cycles := 0
    reg := fun _ => 0
    insnAddr := 0
    insn := 0
    sbuf := { s.sbuf with head := 0, tail := 0, count := 0, prevCycles := 0 }
    pc := resetVector s
    pcnext := resetVector s + 4 }

/-- The state in which an iteration of `exec_main` calls `cpu_clock`. -/
def clocked (s : Machine δ) : Machine δ := { s with memCycles := 0 }

/-- The power manager lets the processor run. -/
def awake (c : Config δ) (s : Machine δ) : Bool := c.pmEnabled = 0 || !has (c.pmEnabled &&& s.sprs sprPmr) (pmrDme ||| pmrSme)

theorem charge_reg0Kept (fuel : Nat) (timeStart : Int) : Keeps Reg0Kept (charge c fuel timeStart) := by
  refine Reg0Kept.bind (Reg0Kept.modify fun _ => rfl) fun _ => Reg0Kept.bind (Reg0Kept.modify fun _ => rfl) fun _ => ?_
  refine Closed.get fun s a s' ran => ?_
  cases head : s.scheduler.headTime with
  | none =>
    rw [head] at ran
    cases ran
  | some time =>
    rw [head] at ran
    exact Reg0Kept.when (Reg0Kept.doScheduler c fuel) (time ≤ 0) s a s' ran

theorem execMainStep_zero_iff (built : c.Built) (shipped : c.Shipped) {s s' : Machine δ} {fuel : Nat} (zero : s.reg 0 = 0)
    (ran : execMainStep c fuel s = .ok ((), s')) : s'.reg 0 = 0 ↔ ¬ (awake c s = true ∧ WritesZero c (clocked s)) := by
  unfold execMainStep at ran
  rw [Programs.get_bind, Programs.modify_bind, Programs.get_bind] at ran
  change (if awake c s = true then _ else _ : Sim δ Unit) _ = _ at ran
  have stalls (n : Machine δ) : (if c.debugEnabled && has (n.sprs sprDmr1) dmr1St then setStallState true n else n).reg 0 = n.reg 0 := by
    split <;> rfl
  cases runs : awake c s with
  | false =>
    rw [runs, if_neg Bool.false_ne_true] at ran
    change charge c fuel s.cycles (if c.debugEnabled && has ((clocked s).sprs sprDmr1) dmr1St then setStallState true (clocked s)
      else clocked s) = _ at ran
    have kept : s'.reg 0 = s.reg 0 := Eq.trans (charge_reg0Kept _ _ _ _ _ ran) (stalls (clocked s))
    exact iff_of_true (kept.trans zero) fun both => Bool.false_ne_true both.1
  | true =>
    rw [runs, if_pos rfl] at ran
    obtain ⟨hit, n, clock, ran⟩ := Programs.bind_ok ran
    change charge c fuel s.cycles (if c.debugEnabled && has (n.sprs sprDmr1) dmr1St then setStallState true n else n) = _ at ran
    have kept : s'.reg 0 = n.reg 0 := Eq.trans (charge_reg0Kept _ _ _ _ _ ran) (stalls n)
    rw [kept, cpuClock_zero_iff built shipped (show (clocked s).reg 0 = 0 from zero) clock]
    exact not_congr (and_iff_right rfl).symm

end Or1ksim.Cpu
