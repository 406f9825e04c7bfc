import Or1ksim.Cpu.Multiplier

/-!
# The cause of a range exception

With `CPUCFGR[AECSRP]`, an arithmetic instruction that enters the range exception leaves its cause in `AESR`. `l_mulu`
tests the overflow flag, which it does not set, before it reports its carry.
-/

namespace Or1ksim.Cpu

open Overflow (Fits)

variable {δ : Type}

inductive Arith where
  | alu (i : Alu)
  | mac (i : MacInsn)
  deriving DecidableEq, Repr

namespace Arith

def body : Arith → P Unit
  | .alu i => i.body
  | .mac i => i.body

/-- The operands that are its sources. -/
def sources : Arith → Nat × Nat
  | .alu _ => (1, 2)
  | .mac _ => (0, 1)

/-- The bits of the conditions that its own result raises. -/
def raised (x y : Word) (m : Machine δ) : Arith → Word
  | .alu i => (i.answer x y (has m.sr srCy)).raised i.ovBit i.cyBit
  | .mac i => (sumFlag (m.acc.toInt + i.term x y)).raised aeOvmacadde 0

end Arith

/-- The range exception was entered, and `AESR` has its cause. -/
def Names (raised : Word) (m after : Machine δ) : Prop :=
  after.entries ≠ m.entries → after.sprs sprAesr ≠ 0 ∧ after.sprs sprAesr = raised

/-- `l_mulu` enters the exception by its carry, with the overflow flag clear. -/
def Unnamed (x y : Word) (m : Machine δ) (i : Arith) : Prop :=
  i = .alu .mulu ∧ 2 ^ 32 ≤ x.toNat * y.toNat ∧ has m.sr srOve = true ∧ has (m.sprs sprAecr) aeCymule = true ∧
    diverted m .range = false ∧ has m.sr srOv = false

theorem exceptHandle_entries (e : Exception) (ea : Word) (s : Machine δ) :
    (diverted s e = true ∧ (exceptHandle e ea s).entries = s.entries) ∨
      (diverted s e = false ∧ ∃ entry, (exceptHandle e ea s).entries = entry :: s.entries) := by
  have asked : (debugIgnoreException e { s with loadlockActive := false }).1 = diverted s e := rfl
  have kept : (debugIgnoreException e { s with loadlockActive := false }).2.entries = s.entries := by
    unfold debugIgnoreException setStallState
    dsimp only
    split <;> rfl
  unfold exceptHandle
  dsimp only
  rw [asked]
  split
  · next taken => exact .inl ⟨taken, kept⟩
  · next left => exact .inr ⟨by simpa using left, _, congrArg _ kept⟩

section
variable {a : Answer} {ovBit cyBit aesr : Word} {s : Machine δ}

/-- The end of an instruction names its cause, if it reports what is raised where that enters the exception. -/
theorem conclude_names_iff (aecsrp : has (s.sprs sprCpucfgr) cpucfgrAecsrp = true) :
    Names (a.raised ovBit cyBit) s (a.conclude ovBit cyBit aesr s) ↔
      (has s.sr srOve = true → has (s.sprs sprAecr) (a.raised ovBit cyBit) = true → diverted s .range = false →
        aesr = a.raised ovBit cyBit) := by
  unfold Names Answer.conclude
  rw [if_pos aecsrp]
  by_cases ove : has s.sr srOve = true
  · rw [if_pos ove]
    by_cases on : has (s.sprs sprAecr) (a.raised ovBit cyBit) = true
    · rw [if_pos on]
      have some : a.raised ovBit cyBit ≠ 0 := by
        intro none
        rw [none, has_none] at on
        cases on
      have reported : (exceptHandle .range s.pc (setSpr sprAesr aesr s)).sprs sprAesr = aesr :=
        (exceptHandle_sprs _ _ _ (by decide)).trans (by simp [setSpr])
      have same : diverted (setSpr sprAesr aesr s) .range = diverted s .range := rfl
      rw [reported]
      rcases exceptHandle_entries .range s.pc (setSpr sprAesr aesr s) with ⟨taken, kept⟩ | ⟨left, entry, newest⟩
      · refine iff_of_true (fun entered => absurd kept entered) fun _ _ left => ?_
        rw [same, left] at taken
        cases taken
      · have entered : (exceptHandle .range s.pc (setSpr sprAesr aesr s)).entries ≠ s.entries := by
          rw [newest]
          exact List.cons_ne_self _ _
        refine ⟨fun named _ _ _ => (named entered).2, fun reports _ => ?_⟩
        have cause := reports ove on (same.symm.trans left)
        exact ⟨by rw [cause]; exact some, cause⟩
    · rw [if_neg on]
      exact iff_of_true (fun entered => absurd rfl entered) fun _ here => absurd here on
  · rw [if_neg ove]
    exact iff_of_true (fun entered => absurd rfl entered) fun here => absurd here ove

end

/-! ### The instructions -/

/-- What the condition of a range exception depends on. -/
structure Alike (m s : Machine δ) : Prop where
  entries : s.entries = m.entries
  ove : has s.sr srOve = has m.sr srOve
  sprs : ∀ r, r = sprCpucfgr ∨ r = sprAecr ∨ r = sprDsr → s.sprs r = m.sprs r

theorem Answer.flags_alike (a : Answer) (s : Machine δ) : Alike s (a.flags s) := by
  have rest := a.flags_rest s
  refine ⟨?_, ?_, fun r which => ?_⟩
  · rw [rest]
    rfl
  · have kept (x : Word) : has (x &&& ~~~(srOv ||| srCy)) srOve = has x srOve := has_clear_of_apart (by decide)
    rw [← kept, a.flags_bits, kept]
  · rw [rest]
    exact if_neg (by rintro rfl; revert which; decide)

theorem Alike.trans {m s t : Machine δ} (first : Alike m s) (second : Alike s t) : Alike m t :=
  ⟨second.entries.trans first.entries, second.ove.trans first.ove, fun r which => (second.sprs r which).trans (first.sprs r which)⟩

theorem setAcc_alike (v : BitVec 64) (m : Machine δ) : Alike m (setAcc v m) := by
  refine ⟨rfl, rfl, fun r which => ?_⟩
  obtain rfl | rfl | rfl := which <;> rfl

theorem Answer.Stored.alike {a : Answer} {d : Fin 32} {m t : Machine δ} (stored : a.Stored d m t) : Alike m t := by
  obtain ⟨rfl, _⟩ | ⟨v, w, _, rfl, _⟩ := stored <;> exact ⟨rfl, rfl, fun _ _ => rfl⟩

theorem names_of_alike {m s : Machine δ} (alike : Alike m s) (aecsrp : has (m.sprs sprCpucfgr) cpucfgrAecsrp = true) (a : Answer)
    (ovBit cyBit aesr : Word) :
    Names (a.raised ovBit cyBit) m (a.conclude ovBit cyBit aesr s) ↔
      (has m.sr srOve = true → has (m.sprs sprAecr) (a.raised ovBit cyBit) = true → diverted m .range = false →
        aesr = a.raised ovBit cyBit) := by
  have dsr : diverted s .range = diverted m .range := by
    unfold diverted
    rw [alike.sprs _ (.inr (.inr rfl))]
  rw [← alike.ove, ← dsr, ← alike.sprs _ (.inr (.inl rfl)), ← conclude_names_iff (by rw [alike.sprs _ (.inl rfl)]; exact aecsrp),
    Names, Names, alike.entries]

section
variable {c : Config δ} {opd : Operands δ} {m : Machine δ} {x y : Word}

/-- Every instruction but `l_mulu` reports what its result raises. -/
theorem Alu.reports_eq (a : Answer) {i : Alu} (other : i ≠ .mulu) : i.reports a m = a.raised i.ovBit i.cyBit := by
  cases i <;> first | rfl | exact absurd rfl other

theorem mulu_reports_iff :
    (has m.sr srOve = true → has (m.sprs sprAecr) ((Arith.alu .mulu).raised x y m) = true → diverted m .range = false →
        (if has m.sr srOv then aeCymule else 0) = (Arith.alu .mulu).raised x y m) ↔ ¬ Unnamed x y m (.alu .mulu) := by
  have raised : (Arith.alu .mulu).raised x y m = if 2 ^ 32 ≤ x.toNat * y.toNat then aeCymule else 0 := by
    simp [Arith.raised, Answer.raised, Alu.answer, Alu.cyBit]
  rw [raised]
  unfold Unnamed
  by_cases carry : 2 ^ 32 ≤ x.toNat * y.toNat
  · rw [if_pos carry]
    cases ov : has m.sr srOv with
    | true => simp
    | false =>
      have differs : (if false = true then aeCymule else 0 : Word) ≠ aeCymule := by decide
      constructor
      · rintro reports ⟨-, -, ove, on, left, -⟩
        exact differs (reports ove on left)
      · intro named ove on left
        exact absurd ⟨rfl, carry, ove, on, left, rfl⟩ named
  · rw [if_neg carry]
    have none : has (m.sprs sprAecr) 0 = false := has_none _
    refine iff_of_true (fun _ on => ?_) fun unnamed => carry unnamed.2.1
    rw [none] at on
    cases on

/-- An arithmetic instruction that enters the range exception names its cause, unless it is `l_mulu` with the overflow
flag clear. -/
theorem aesr_names_cause {ops : List Decode.InsnOp} {tail : Machine δ → Machine δ} {after : Machine δ} (i : Arith)
    (frame : Frame c m ops opd tail) (hx : opd.param i.sources.1 m = .ok (x, m)) (hy : opd.param i.sources.2 m = .ok (y, m))
    (set : ∀ j, i = .alu j → ∃ v t, opd.setParam0 v m = .ok ((), t)) (aecsrp : has (m.sprs sprCpucfgr) cpucfgrAecsrp = true)
    (ran : runP c opd i.body m = .ok ((), after)) : Names (i.raised x y m) m after ↔ ¬ Unnamed x y m i := by
  cases i with
  | alu i =>
    obtain ⟨v, t, set⟩ := set i rfl
    obtain ⟨d, sets⟩ := frame.sets set
    obtain ⟨t, stored, done⟩ := alu_run (c := c) i hx hy sets
    obtain rfl := (Prod.mk.inj (Except.ok.inj (ran.symm.trans done))).2
    refine (names_of_alike (stored.alike.trans (Answer.flags_alike _ t)) aecsrp _ _ _ _).trans ?_
    by_cases mulu : i = .mulu
    · subst mulu
      exact mulu_reports_iff
    · refine iff_of_true (fun _ _ _ => Alu.reports_eq _ mulu) fun unnamed => mulu ?_
      exact Arith.alu.inj unnamed.1
  | mac i =>
    obtain rfl := (Prod.mk.inj (Except.ok.inj (ran.symm.trans (mac_run i hx hy)))).2
    refine (names_of_alike ((setAcc_alike _ m).trans (Answer.flags_alike _ _)) aecsrp _ _ _ _).trans ?_
    exact iff_of_true (fun _ _ _ => rfl) fun unnamed => nomatch unnamed.1

end

/-- An overflow of `l.add`. -/
def addMachine : Machine Unit := aluMachine (srOve ||| srSm) aeOvadde 0x7fffffff 1

theorem aesr_names_cause_add :
    ∃ after, runP aluConfig (aluOperands addMachine) lAdd addMachine = .ok ((), after) ∧
      (Names ((Arith.alu .add).raised 0x7fffffff 1 addMachine) addMachine after ↔ ¬ Unnamed 0x7fffffff 1 addMachine (.alu .add)) := by
  have frame : Frame aluConfig addMachine registerOps (aluOperands addMachine) (repair registerOps) := .complex rfl
  have set : (aluOperands addMachine).setParam0 0 addMachine = .ok ((), setReg 3 0 addMachine) := rfl
  have hx : (aluOperands addMachine).param 1 addMachine = .ok (0x7fffffff, addMachine) := rfl
  have hy : (aluOperands addMachine).param 2 addMachine = .ok (1, addMachine) := rfl
  obtain ⟨d, sets⟩ := frame.sets set
  obtain ⟨t, -, ran⟩ := alu_run (c := aluConfig) .add hx hy sets
  exact ⟨_, ran, aesr_names_cause (.alu .add) frame hx hy (fun _ _ => ⟨_, _, set⟩) (by decide) ran⟩

/-- A product that loses its high half is not named. -/
theorem mulu_unnamed :
    ¬ ∀ (c : Config Unit) (m after : Machine Unit) (ops : List Decode.InsnOp) (opd : Operands Unit) (tail : Machine Unit → Machine Unit)
        (i : Arith) (x y : Word), Frame c m ops opd tail → opd.param i.sources.1 m = .ok (x, m) →
      opd.param i.sources.2 m = .ok (y, m) → has (m.sprs sprCpucfgr) cpucfgrAecsrp = true →
      runP c opd i.body m = .ok ((), after) → Names (i.raised x y m) m after := by
  intro claim
  have ends : (runP aluConfig (aluOperands (aluMachine (srOve ||| srSm) aeCymule 0x10000 0x10000)) lMulu
      (aluMachine (srOve ||| srSm) aeCymule 0x10000 0x10000)).toOption.map (fun r => (r.2.entries.length, r.2.sprs sprAesr)) =
        some (1, 0) := by
    decide +kernel
  cases ran : runP aluConfig (aluOperands (aluMachine (srOve ||| srSm) aeCymule 0x10000 0x10000)) lMulu
      (aluMachine (srOve ||| srSm) aeCymule 0x10000 0x10000) with
  | error e =>
    rw [ran] at ends
    cases ends
  | ok r =>
    rw [ran] at ends
    obtain ⟨entered, none⟩ := Prod.mk.inj (Option.some.inj ends)
    have named := claim aluConfig _ r.2 registerOps _ (repair registerOps) (.alu .mulu) 0x10000 0x10000 (.complex rfl) rfl rfl
      (by decide) ran
    refine (named fun same => ?_).1 none
    rw [same] at entered
    cases entered

end Or1ksim.Cpu
