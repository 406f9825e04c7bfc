import Or1ksim.Cpu.Step

/-!
# User mode

A step in user mode leaves the supervisor's registers alone or enters an exception, with one way
around: `l.rfe`, which writes `SR` from `ESR` without a look at the mode.
-/

namespace Or1ksim.Cpu

open Programs (Keeps)

variable {δ : Type} {c : Config δ}

/-! ### Instructions -/

theorem setReg_moves (s : Machine δ) (i : Fin 32) (v : Word) : Moves s (setReg i v s) :=
  .of_quiet (.refl _) rfl rfl rfl rfl

theorem Frame.keepMoves {m : Machine δ} {opds : List Decode.InsnOp} {opd : Operands δ}
    {tail : Machine δ → Machine δ} (frame : Frame c m opds opd tail) : opd.Keep Moves :=
  frame.keep (Moves.closed c) setReg_moves

/-- In user mode `l.mtspr` reaches one register. -/
theorem lMtspr_moves {opd : Operands δ} (reads : ∀ n, Reads (opd.param n)) {s s' : Machine δ} {a : Unit}
    (user : has s.sr srSm = false) (ran : lMtspr c opd s = .ok (a, s')) : Moves s s' := by
  obtain ⟨x, _, afterX⟩ := (reads 0).bind_ok ran
  obtain ⟨y, _, afterY⟩ := (reads 2).bind_ok afterX
  obtain ⟨value, _, ran⟩ := (reads 1).bind_ok afterY
  rw [Programs.get_bind] at ran
  split at ran
  · next allowed =>
    have regno : (x ||| y).setWidth 16 = sprFpcsr := by
      rcases allowed with same | supervisor
      · exact same
      · rw [user] at supervisor
        cases supervisor
    rw [regno] at ran
    cases ran
    exact .of_local (Local.setSpr _ _ _ (by decide) (SprsKept.writeFree _ _ _ (by decide)))
  · cases ran

/-- Every instruction but `l.rfe`, in user mode. -/
theorem exec_moves {i : Insn} {m after : Machine δ} {opds : List Decode.InsnOp} {opd : Operands δ}
    {tail : Machine δ → Machine δ} (frame : Frame c m opds opd tail) (user : has m.sr srSm = false)
    (other : i ≠ .rfe) (ran : i.exec c opd m = .ok ((), after)) : Moves m after := by
  have keep := frame.keepMoves
  cases i with
  | plain body => exact (Moves.closed c).runP keep body _ _ _ ran
  | mtspr => exact lMtspr_moves frame.reads.1 user ran
  | mfspr => exact (Moves.closed c).lMfspr keep _ _ _ ran
  | rfe => exact absurd rfl other
  | lwa => exact (Moves.closed c).lLwa keep (fun s _ _ => .of_quiet (.refl _) rfl rfl rfl rfl) _ _ _ ran
  | swa => exact (Moves.closed c).lSwa keep _ _ _ ran

theorem tail_moves {m after : Machine δ} {opds : List Decode.InsnOp} {opd : Operands δ}
    {tail : Machine δ → Machine δ} (frame : Frame c m opds opd tail) : Moves after (tail after) := by
  cases frame with
  | simple => exact .refl _
  | complex =>
    unfold repair
    split
    · exact setReg_moves _ _ _
    · exact .refl _

/-! ### Steps -/

theorem fetch_moves : Keeps Moves (fetch c) := (Moves.closed c).fetch fun _ _ => .of_quiet (.refl _) rfl rfl rfl rfl

/-- The supervisor's registers after a step. -/
def Kept (s s' : Machine δ) : Prop := s.entries <:+ s'.entries ∧ (s'.entries = s.entries → SprsKept s.sprs s'.sprs)

theorem Moves.kept {s s' : Machine δ} (moves : Moves s s') : Kept s s' :=
  ⟨moves.entries, fun same => (moves.quiet same).1.sprs⟩

theorem Kept.trans {s t u : Machine δ} (left : Kept s t) (right : Kept t u) : Kept s u := by
  refine ⟨left.1.trans right.1, fun same => ?_⟩
  obtain ⟨before, after⟩ := Moves.entries_between left.1 right.1 same
  exact (left.2 before).trans (right.2 after)

theorem updatePc_kept (s : Machine δ) : Kept s (updatePc s) :=
  ⟨List.suffix_rfl, fun _ => SprsKept.writeFree _ _ _ (by decide)⟩

theorem trap_kept (s : Machine δ) : Kept s (if s.breakpoint then trap s else s) := by
  split
  · exact (exceptHandle_moves _ _ _).kept
  · exact ⟨List.suffix_rfl, fun _ => .refl _⟩

/-- The mode and the other control bits are those of the file before. -/
theorem SprsKept.sm {f g : SprNo → Word} (kept : SprsKept f g) : has (g sprSr) srSm = has (f sprSr) srSm := kept.bit (by decide)

/-- The step fetches an `l.rfe`, and nothing keeps it from running. -/
def ExecutesRfe (c : Config δ) (s : Machine δ) : Prop :=
  ∃ m, fetch c (begun s) = .ok (false, m) ∧ m.exceptPending = false ∧ m.breakpoint = false ∧
    c.function m.insn = some .rfe

/-- `ESR` holds what `SR` holds, the flags aside. -/
def EsrAgrees (s : Machine δ) : Prop := (s.sprs sprEsrBase ||| srFo) &&& ~~~srFlags = s.sr &&& ~~~srFlags

/-- A call of `sched_add`, if it ends, changes the queue alone. -/
theorem picIntsEn_ok {m m' : Machine δ} {a : Unit} (ran : picIntsEn m = .ok (a, m')) :
    ∃ q, m' = { m with scheduler := q } := by
  rw [picIntsEn, Programs.get_bind] at ran
  split at ran
  · unfold schedAdd at ran
    split at ran
    · cases ran
    · cases ran
      exact ⟨_, rfl⟩
  · cases ran
    exact ⟨m.scheduler, rfl⟩

/-- `l.rfe` writes `SR` and nothing else of the registers. -/
theorem lRfe_ok {m m' : Machine δ} {a : Unit} (ran : lRfe c m = .ok (a, m')) :
    ∃ q, m' = { setSpr sprSr (m.sprs sprEsrBase ||| srFo) (setSpr sprSr (m.sprs sprEsrBase) m) with
      pcnext := m.sprs sprEpcrBase, scheduler := q } := by
  rw [lRfe, Programs.modify_bind, Programs.get_bind, mtspr, Programs.get_bind, Programs.modify_bind] at ran
  rw [if_neg (by decide), if_neg (by decide), if_neg (by decide), if_neg (by decide), if_neg (by decide),
    if_neg (by decide), if_neg (by decide), if_neg (by decide), if_neg (by decide), if_neg (by decide),
    if_pos rfl, Programs.modify_bind] at ran
  split at ran
  · obtain ⟨q, rfl⟩ := picIntsEn_ok ran
    exact ⟨q, rfl⟩
  · cases ran
    exact ⟨m.scheduler, rfl⟩

theorem lRfe_kept {m m' : Machine δ} {a : Unit} (ran : lRfe c m = .ok (a, m')) :
    SprsKept m.sprs m'.sprs ↔ EsrAgrees m := by
  obtain ⟨q, rfl⟩ := lRfe_ok ran
  constructor
  · exact fun kept => kept.sr
  · intro agrees
    have written := SprsKept.write m.sprs sprSr (m.sprs sprEsrBase ||| srFo) (fun _ => agrees)
      (fun h => absurd rfl h) (fun h => absurd h (by decide)) (fun h => absurd h (by decide))
      (fun h => absurd h (by decide))
    have twice : (setSpr sprSr (m.sprs sprEsrBase ||| srFo) (setSpr sprSr (m.sprs sprEsrBase) m)).sprs =
        fun q => if q = sprSr then m.sprs sprEsrBase ||| srFo else m.sprs q := by
      funext q
      simp only [setSpr]
      split <;> rfl
    exact twice ▸ written

theorem tail_fields {m : Machine δ} (after : Machine δ) {opds : List Decode.InsnOp} {opd : Operands δ}
    {tail : Machine δ → Machine δ} (frame : Frame c m opds opd tail) :
    (tail after).sprs = after.sprs ∧ (tail after).entries = after.entries ∧
      (tail after).breakpoint = after.breakpoint := by
  cases frame with
  | simple => exact ⟨rfl, rfl, rfl⟩
  | complex =>
    unfold repair
    split <;> exact ⟨rfl, rfl, rfl⟩

theorem esrAgrees_of_kept {s m : Machine δ} (kept : SprsKept s.sprs m.sprs) : EsrAgrees m ↔ EsrAgrees s := by
  unfold EsrAgrees Machine.sr
  rw [kept.sr, kept.rest sprEsrBase (by decide) (by decide) (by decide) (by decide)]

/-- An `l.rfe` at the end of its step. -/
theorem rfe_step {s m after n : Machine δ} {a : Unit} (fetched : SprsKept s.sprs m.sprs)
    (ran : lRfe c m = .ok (a, after)) (same : n.sprs = after.sprs) :
    SprsKept s.sprs (updatePc n).sprs ↔ EsrAgrees s := by
  constructor
  · intro kept
    obtain ⟨q, rfl⟩ := lRfe_ok ran
    have sr : (updatePc n).sprs sprSr = m.sprs sprEsrBase ||| srFo := by
      show (if sprSr = sprPpc then n.pc else n.sprs sprSr) = _
      rw [if_neg (by decide), same]
      rfl
    unfold EsrAgrees
    rw [← fetched.rest sprEsrBase (by decide) (by decide) (by decide) (by decide), ← sr]
    exact kept.sr
  · intro agrees
    have executed := (lRfe_kept ran).mpr ((esrAgrees_of_kept fetched).mpr agrees)
    rw [← same] at executed
    exact (fetched.trans executed).trans ((updatePc_kept n).2 rfl)

/-- The step entered an exception, or it ended in user mode with the supervisor's registers unchanged. -/
def Contained (s s' : Machine δ) : Prop :=
  s'.entries ≠ s.entries ∨ (has s'.sr srSm = false ∧ SprsKept s.sprs s'.sprs)

/-- In user mode a step enters an exception, or ends in user mode with the supervisor's registers as
they were, exactly if it is no `l.rfe` or `ESR` agrees with `SR`. -/
theorem user_step (c : Config δ) (built : c.Built) (s s' : Machine δ) (b : Bool) (user : has s.sr srSm = false)
    (ran : cpuClock c s = .ok (b, s')) :
    Contained s s' ↔ (ExecutesRfe c s → EsrAgrees s) := by
  have safe : Kept s s' → Contained s s' := by
    intro kept
    by_cases entered : s'.entries = s.entries
    · exact .inr ⟨(kept.2 entered).sm.trans user, kept.2 entered⟩
    · exact .inl entered
  obtain ⟨m, fetched, ways⟩ := cpuClock_cases ran
  have moves : Moves (begun s) m := fetch_moves _ _ _ fetched
  have kept : Kept s m := moves.kept
  have unique {t : Machine δ} {b' : Bool} (again : fetch c (begun s) = .ok (b', t)) : b' = b ∧ t = m := by
    rw [fetched] at again
    cases again
    exact ⟨rfl, rfl⟩
  rcases ways with ⟨rfl, rfl⟩ | ⟨rfl, pending, rfl⟩ | ⟨rfl, _, watched, rfl⟩ | ⟨rfl, pending, watched, n, executed, rfl⟩
  · refine iff_of_true (safe kept) ?_
    rintro ⟨t, again, _⟩
    exact absurd (unique again).1 (by decide)
  · refine iff_of_true (safe (kept.trans (updatePc_kept m))) ?_
    rintro ⟨t, again, idle, _⟩
    obtain rfl := (unique again).2
    rw [pending] at idle
    cases idle
  · refine iff_of_true (safe (kept.trans ((exceptHandle_moves _ _ _).kept.trans (updatePc_kept (trap m))))) ?_
    rintro ⟨t, again, _, unwatched, _⟩
    obtain rfl := (unique again).2
    rw [watched] at unwatched
    cases unwatched
  · -- no exception is pending, so the fetch entered none
    have quiet : m.entries = (begun s).entries := by
      by_contra entered
      obtain ⟨e, early, newest⟩ := List.exists_cons_of_ne_nil (l := m.entries) fun empty => by
        have := moves.entries.length_le
        rw [empty, List.length_nil, Nat.le_zero, List.length_eq_zero_iff] at this
        exact entered (empty.trans this.symm)
      rw [(moves.latest e early newest entered).2] at pending
      cases pending
    have sprs : SprsKept s.sprs m.sprs := (moves.quiet quiet).1.sprs
    have notRfe (other : c.function m.insn ≠ some .rfe) (step : Kept m n) :
        Contained s (updatePc (if n.breakpoint then trap n else n)) ↔ (ExecutesRfe c s → EsrAgrees s) := by
      refine iff_of_true (safe (kept.trans (step.trans ((trap_kept n).trans (updatePc_kept _))))) ?_
      rintro ⟨t, again, _, _, rfe⟩
      obtain rfl := (unique again).2
      exact absurd rfe other
    cases decodeExecute_outcome built executed with
    | illegal ea none => exact notRfe (by rw [none]; simp) (exceptHandle_moves _ _ _).kept
    | silent opds none =>
      refine notRfe (by rw [none]; simp) ?_
      unfold repair
      split
      · exact (setReg_moves _ _ _).kept
      · exact (Moves.refl _).kept
    | exec index i opds opd tail after decoded found described frame done =>
      have function : c.function m.insn = some i := (function_of_decode decoded).trans found
      by_cases rfe : i = .rfe
      · subst rfe
        obtain ⟨sameSprs, sameEntries, sameWatch⟩ := tail_fields after frame
        have untouched : after.entries = m.entries ∧ after.breakpoint = m.breakpoint := by
          obtain ⟨q, rfl⟩ := lRfe_ok done
          exact ⟨rfl, rfl⟩
        have unwatched : ¬ (tail after).breakpoint = true := by
          rw [sameWatch, untouched.2, watched]
          decide
        rw [if_neg unwatched]
        have entries : (updatePc (tail after)).entries = s.entries := sameEntries.trans (untouched.1.trans quiet)
        have step := rfe_step sprs done sameSprs
        constructor
        · rintro (entered | ⟨_, all⟩)
          · exact absurd entries entered
          · exact fun _ => step.mp all
        · intro agrees
          have all := step.mpr (agrees ⟨m, fetched, pending, watched, function⟩)
          exact .inr ⟨all.sm.trans user, all⟩
      · have mode : has m.sr srSm = false := sprs.sm.trans user
        refine notRfe (by rw [function]; simpa using rfe) ?_
        exact ((exec_moves frame mode rfe done).trans (tail_moves frame)).kept

def lRfeOpcode : Decode.Opcode := ⟨"l.rfe", "", "00 0x9  ----- ----- ---- ---- ---- ----", "l_rfe"⟩

def rfeConfig : Config (Word → Word) := Config.bare [lRfeOpcode] [.words]

theorem rfeConfig_built : rfeConfig.Built := Config.bare_built _ (by simp) (by decide) (by decide +kernel)

/-- A user at an `l.rfe`, with `ESR` as given. -/
def rfeMachine (esr : Word) : Machine (Word → Word) :=
  setSpr sprEsrBase esr (.bare (fun _ => 0x24000000) srFo 0x2000)

/-- With `ESR` of user mode the return stays there. -/
theorem user_step_rfe_user :
    ∃ b s', cpuClock rfeConfig (rfeMachine srFo) = .ok (b, s') ∧
      (Contained (rfeMachine srFo) s' ↔ (ExecutesRfe rfeConfig (rfeMachine srFo) → EsrAgrees (rfeMachine srFo))) := by
  have ends : (cpuClock rfeConfig (rfeMachine srFo)).toOption.isSome = true := by decide +kernel
  cases ran : cpuClock rfeConfig (rfeMachine srFo) with
  | error e =>
    rw [ran] at ends
    cases ends
  | ok r => exact ⟨r.1, r.2, rfl, user_step rfeConfig rfeConfig_built _ _ _ (by decide) ran⟩

/-- With `ESR` of a supervisor it ends in supervisor mode. -/
theorem rfe_raises_privilege :
    ¬ ∀ (c : Config (Word → Word)) (s s' : Machine (Word → Word)) (b : Bool), c.Built → has s.sr srSm = false →
      cpuClock c s = .ok (b, s') → Contained s s' := by
  intro claim
  have ends : (cpuClock rfeConfig (rfeMachine (srFo ||| srSm))).toOption.map
      (fun r => (has r.2.sr srSm, r.2.entries.length)) = some (true, 0) := by decide +kernel
  cases ran : cpuClock rfeConfig (rfeMachine (srFo ||| srSm)) with
  | error e =>
    rw [ran] at ends
    cases ends
  | ok r =>
    rw [ran] at ends
    obtain ⟨mode, none⟩ := Prod.mk.inj (Option.some.inj ends)
    rcases claim _ _ _ _ rfeConfig_built (by decide) ran with entered | ⟨user, _⟩
    · exact entered (List.eq_nil_of_length_eq_zero none)
    · rw [mode] at user
      cases user

end Or1ksim.Cpu
