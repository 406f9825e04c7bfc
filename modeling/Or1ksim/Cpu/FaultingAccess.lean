import Or1ksim.Cpu.Step

/-!
# Accesses that fault

An access tells by `except_pending` that its alignment check or its translation raised an exception.
`except_handle` does not set it when the debug unit takes the exception, and the access goes on.
-/

namespace Or1ksim.Cpu

open Decode (InsnOp)

variable {δ : Type}

/-! ### Registers -/

theorem setSpr_here (r : SprNo) (v : Word) (s : Machine δ) : (setSpr r v s).sprs r = v := if_pos rfl

theorem setSpr_setSpr (r : SprNo) (v w : Word) (s : Machine δ) : setSpr r v (setSpr r w s) = setSpr r v s := by
  unfold setSpr
  congr 1
  funext q
  by_cases here : q = r
  · rw [if_pos here, if_pos here]
  · exact (if_neg here).trans ((if_neg here).trans (if_neg here).symm)

/-! ### What a fault leaves alone -/

/-- No write to memory or to a device, to a line of the data cache, or to a register. -/
structure Untouched (s s' : Machine δ) : Prop where
  dev : s'.dev = s.dev
  dc : s'.dc = s.dc
  reg : s'.reg = s.reg

namespace Untouched

variable {s t u : Machine δ}

theorem refl (s : Machine δ) : Untouched s s := ⟨rfl, rfl, rfl⟩

theorem trans (first : Untouched s t) (second : Untouched t u) : Untouched s u :=
  ⟨second.dev.trans first.dev, second.dc.trans first.dc, second.reg.trans first.reg⟩

theorem foldl {α : Type} {f : Machine δ → α → Machine δ} (each : ∀ t a, Untouched t (f t a)) (as : List α) (s : Machine δ) :
    Untouched s (as.foldl f s) := by
  induction as generalizing s with
  | nil => exact refl s
  | cons a as ih => exact (each s a).trans (ih _)

theorem exceptHandle (e : Exception) (ea : Word) (s : Machine δ) : Untouched s (exceptHandle e ea s) := by
  unfold Cpu.exceptHandle debugIgnoreException setStallState enterException
  dsimp only
  split
  · exact ⟨rfl, rfl, rfl⟩
  · split <;> split <;> exact ⟨rfl, rfl, rfl⟩

theorem pcuCountEvent (event : Word) (s : Machine δ) : Untouched s (pcuCountEvent event s) := by
  unfold Cpu.pcuCountEvent
  refine foldl (fun t i => ?_) _ s
  split
  · exact ⟨rfl, rfl, rfl⟩
  · exact refl t

theorem touchTlb (mmu : Mmu) (side : Side) (set : Fin 128) (way : Fin 4) (s : Machine δ) :
    Untouched s (touchTlb mmu side set way s) := by
  have aged := foldl (f := fun m i => setSpr (tlbmr side set i) (decrementLru (m.sprs (tlbmr side set i))) m)
    (fun _ _ => ⟨rfl, rfl, rfl⟩) mmu.ways s
  exact aged.trans ⟨rfl, rfl, rfl⟩

end Untouched

theorem setSpr_self (r : SprNo) (s : Machine δ) : setSpr r (s.sprs r) s = s := by
  unfold setSpr
  congr 1
  funext q
  split
  · next same => rw [same]
  · rfl

/-- Whether the debug unit takes an exception. -/
def diverted (s : Machine δ) (e : Exception) : Bool := s.sprs sprDsr &&& e.dsr ≠ 0

theorem exceptHandle_inactive (e : Exception) (ea : Word) (s : Machine δ) : (exceptHandle e ea s).loadlockActive = false := by
  unfold exceptHandle
  dsimp only
  split
  · exact ignored_inactive e s
  · exact (enterException_loadlockActive e ea _).trans (ignored_inactive e s)

theorem exceptHandle_pending {e : Exception} {s : Machine δ} (ea : Word) (left : diverted s e = false) :
    (exceptHandle e ea s).exceptPending = true := by
  have asked : (debugIgnoreException e { s with loadlockActive := false }).1 = false := left
  unfold exceptHandle
  dsimp only
  rw [if_neg (by rw [asked]; decide)]
  rfl

theorem enterException_dsr (e : Exception) (ea : Word) (s : Machine δ) : (enterException e ea s).sprs sprDsr = s.sprs sprDsr := by
  unfold enterException
  cases exceptEpcr e ea s.pc s.delayInsn <;> simp [setSpr, sprDsr, sprSr, sprEsrBase, sprEearBase, sprEpcrBase]

theorem exceptHandle_dsr (e : Exception) (ea : Word) (s : Machine δ) : (exceptHandle e ea s).sprs sprDsr = s.sprs sprDsr := by
  unfold exceptHandle
  dsimp only
  split
  · exact (ignored_local e s).sprs.dsr
  · exact (enterException_dsr e ea _).trans (ignored_local e s).sprs.dsr

/-- The registers that the entry of an exception writes. -/
def entrySprs : List SprNo := [sprSr, sprEsrBase, sprEearBase, sprEpcrBase, sprDrr]

theorem debugIgnoreException_sprs (e : Exception) (m : Machine δ) {r : SprNo} (other : r ≠ sprDrr) :
    (debugIgnoreException e m).2.sprs r = m.sprs r := by
  unfold debugIgnoreException setStallState
  dsimp only
  split <;> exact if_neg other

theorem exceptHandle_sprs (e : Exception) (ea : Word) (m : Machine δ) {r : SprNo} (other : r ∉ entrySprs) :
    (exceptHandle e ea m).sprs r = m.sprs r := by
  simp only [entrySprs, List.mem_cons, List.not_mem_nil, or_false, not_or] at other
  obtain ⟨sr, esr, eear, epcr, drr⟩ := other
  have ignored : (debugIgnoreException e { m with loadlockActive := false }).2.sprs r = m.sprs r := debugIgnoreException_sprs e _ drr
  unfold exceptHandle
  dsimp only
  split
  · exact ignored
  · refine Eq.trans ?_ ignored
    unfold enterException
    cases exceptEpcr e ea (debugIgnoreException e { m with loadlockActive := false }).2.pc _ <;>
      simp [setSpr, sr, esr, eear, epcr]

/-- The bits of `SR` that the entry of an exception writes. -/
def entryBits : Word := srOve ||| srSm ||| srIee ||| srTee ||| srDme ||| srIme

theorem exceptSr_has {bit : Word} (other : bit &&& entryBits = 0#32) (sr : Word) : has (exceptSr sr) bit = has sr bit := by
  have apart : ∀ b : Word, b &&& entryBits = b → ~~~b &&& bit = bit := by
    intro b inside
    have off : b &&& bit = 0#32 := by rw [← inside, BitVec.and_assoc, BitVec.and_comm entryBits, other, BitVec.and_zero]
    apply BitVec.eq_of_getLsbD_eq
    intro i small
    have bits := congrArg (BitVec.getLsbD · i) off
    simp only [BitVec.getLsbD_and, BitVec.getLsbD_zero] at bits
    rw [BitVec.getLsbD_and, BitVec.getLsbD_not, decide_eq_true small, Bool.true_and]
    cases set : bit.getLsbD i with
    | false => rw [Bool.and_false]
    | true =>
      rw [set, Bool.and_true] at bits
      rw [bits]
      rfl
  unfold has exceptSr
  rw [BitVec.and_assoc, apart srIme (by decide), BitVec.and_assoc, apart srDme (by decide), BitVec.and_assoc,
    apart (srIee ||| srTee) (by decide), BitVec.and_or_distrib_right, BitVec.and_assoc, apart srOve (by decide),
    show srSm &&& bit = 0#32 by
      rw [show srSm = srSm &&& entryBits by decide, BitVec.and_assoc, BitVec.and_comm entryBits, other, BitVec.and_zero],
    BitVec.or_zero]

theorem exceptHandle_has (e : Exception) (ea : Word) (m : Machine δ) {bit : Word} (other : bit &&& entryBits = 0#32) :
    has (exceptHandle e ea m).sr bit = has m.sr bit := by
  have ignored : (debugIgnoreException e { m with loadlockActive := false }).2.sr = m.sr := debugIgnoreException_sprs e _ (by decide)
  unfold exceptHandle
  dsimp only
  split
  · rw [ignored]
  · have entered (n : Machine δ) : (enterException e ea n).sr = exceptSr n.sr := by
      unfold enterException
      cases exceptEpcr e ea n.pc n.delayInsn <;> rfl
    rw [entered, exceptSr_has other, ignored]

theorem exceptHandle_pending_of {s : Machine δ} (e : Exception) (ea : Word) (pending : s.exceptPending = true) :
    (exceptHandle e ea s).exceptPending = true := by
  unfold exceptHandle
  dsimp only
  split
  · exact (ignored_local e s).exceptPending.trans pending
  · rfl

/-- What a step on the way to the memory does: it touches nothing, takes no exception back, and makes
no reservation. -/
structure Aside (s s' : Machine δ) : Prop where
  untouched : Untouched s s'
  pending : s.exceptPending = true → s'.exceptPending = true
  loadlock : s'.loadlockActive = true → s.loadlockActive = true
  dsr : s'.sprs sprDsr = s.sprs sprDsr

namespace Aside

variable {s t u : Machine δ}

theorem refl (s : Machine δ) : Aside s s := ⟨.refl s, id, id, rfl⟩

theorem trans (first : Aside s t) (second : Aside t u) : Aside s u where
  untouched := first.untouched.trans second.untouched
  pending pending := second.pending (first.pending pending)
  loadlock active := first.loadlock (second.loadlock active)
  dsr := second.dsr.trans first.dsr

theorem of_local (untouched : Untouched s t) (kept : Local s t) : Aside s t :=
  ⟨untouched, fun pending => kept.exceptPending.trans pending, kept.loadlock, kept.sprs.dsr⟩

theorem exceptHandle (e : Exception) (ea : Word) (s : Machine δ) : Aside s (exceptHandle e ea s) where
  untouched := .exceptHandle e ea s
  pending := exceptHandle_pending_of e ea
  loadlock active := by
    rw [exceptHandle_inactive] at active
    cases active
  dsr := exceptHandle_dsr e ea s

theorem pcuCountEvent (event : Word) (s : Machine δ) : Aside s (pcuCountEvent event s) :=
  of_local (.pcuCountEvent event s) (pcuCountEvent_local event s)

theorem touchTlb (mmu : Mmu) (side : Side) (set : Fin 128) (way : Fin 4) (s : Machine δ) :
    Aside s (touchTlb mmu side set way s) :=
  of_local (.touchTlb mmu side set way s) (touchTlb_local mmu side set way s)

end Aside

/-! ### The translation -/

/-- The entry that `dmmu_find_tlbmr` finds. -/
def tlbFind (side : Side) (mmu : Mmu) (s : Machine δ) (virtaddr : Word) : List (Fin 4) → Option (Fin 4 × Word)
  | [] => none
  | way :: ways =>
    let entry := s.sprs (tlbmr side (mmu.set virtaddr) way)
    if entry &&& mmu.vpnMask = virtaddr &&& mmu.vpnMask ∧ has entry tlbmrV then
      some (way, s.sprs (tlbmr side (mmu.set virtaddr) way + 128))
    else tlbFind side mmu s virtaddr ways

section
variable {c : Config δ} {opd : Operands δ}

theorem runP_findTlbmr (side : Side) (mmu : Mmu) (virtaddr : Word) (ways : List (Fin 4)) (s : Machine δ) :
    runP c opd (findTlbmr side mmu virtaddr ways) s = .ok (tlbFind side mmu s virtaddr ways, s) := by
  induction ways with
  | nil => rfl
  | cons way ways ih =>
    unfold findTlbmr tlbFind
    dsimp only
    split
    · next hit => exact congrFun (congrArg (runP c opd) (if_pos hit)) s
    · next miss => exact (congrFun (congrArg (runP c opd) (if_neg miss)) s).trans ih

/-- Translation is on. -/
def dmmuActive (s : Machine δ) : Bool := has s.sr srDme && has (s.sprs sprUpr) uprDmp

/-- The exception that `dmmu_translate` reports. -/
def translationFault (c : Config δ) (s : Machine δ) (virtaddr : Word) (write : Bool) : Option Exception :=
  if dmmuActive s then
    match tlbFind .data c.dmmu s virtaddr c.dmmu.ways with
    | some (_, tlbtr) => if dtlbPermits s.sr tlbtr write then none else some .dpf
    | none => some .dtlbmiss
  else none

/-- The exception that an access reports before it reaches the memory. -/
def accessFault (c : Config δ) (w : Width) (s : Machine δ) (memaddr : Word) (write : Bool) : Option Exception :=
  if has memaddr w.alignMask then some .align else translationFault c s memaddr write

/-- What `dmmu_translate` does. -/
structure Translated (c : Config δ) (virtaddr : Word) (write : Bool) (s s' : Machine δ) : Prop where
  aside : Aside s s'
  inactive : translationFault c s virtaddr write ≠ none → s'.loadlockActive = false
  reported : ∀ e, translationFault c s virtaddr write = some e → diverted s e = false → s'.exceptPending = true

theorem Translated.raise {c : Config δ} {virtaddr : Word} {write : Bool} {s t u : Machine δ} {e : Exception} (before : Aside s t)
    (fault : translationFault c s virtaddr write = some e) (after : Aside (exceptHandle e virtaddr t) u) :
    Translated c virtaddr write s u := by
  refine ⟨(before.trans (.exceptHandle e virtaddr t)).trans after, fun _ => ?_, fun f reports left => ?_⟩
  · have inactive := exceptHandle_inactive e virtaddr t
    cases active : u.loadlockActive with
    | false => rfl
    | true =>
      rw [after.loadlock active] at inactive
      cases inactive
  · obtain rfl : e = f := Option.some.inj (fault.symm.trans reports)
    refine after.pending (exceptHandle_pending virtaddr ?_)
    unfold diverted at left ⊢
    rw [before.dsr]
    exact left

theorem Translated.quiet {c : Config δ} {virtaddr : Word} {write : Bool} {s t : Machine δ} (aside : Aside s t)
    (none : translationFault c s virtaddr write = none) : Translated c virtaddr write s t :=
  ⟨aside, fun fault => absurd none fault, fun e reports => by rw [none] at reports; cases reports⟩

/-- The translation ends, whatever the operands of the instruction are. -/
def Translates (c : Config δ) (virtaddr : Word) (write : Bool) (s : Machine δ) : Prop :=
  ∃ phys s', (∀ opd, runP c opd (dmmuTranslate c virtaddr write) s = .ok (phys, s')) ∧ Translated c virtaddr write s s'

theorem dmmuTranslate_off (virtaddr : Word) (write : Bool) {s : Machine δ} (off : dmmuActive s = false) :
    Translates c virtaddr write s := by
  have fault : translationFault c s virtaddr write = none := by
    rw [translationFault, off, if_neg (by decide)]
  have skipped : (!has s.view.sr srDme || !has s.view.upr uprDmp) = true := by
    rw [← Bool.not_and]
    exact congrArg not off
  refine ⟨virtaddr, { s with dataCi := 0x80000000 ≤ virtaddr }, fun opd => ?_, .quiet ⟨⟨rfl, rfl, rfl⟩, id, id, rfl⟩ fault⟩
  unfold dmmuTranslate
  rw [runP_view, skipped]
  rfl

theorem not_skipped {s : Machine δ} (active : dmmuActive s = true) :
    (!has s.view.sr srDme || !has s.view.upr uprDmp) = false := by
  rw [← Bool.not_and]
  exact congrArg not active

theorem dmmuTranslate_miss (virtaddr : Word) (write : Bool) {s : Machine δ} (active : dmmuActive s = true)
    (found : tlbFind .data c.dmmu s virtaddr c.dmmu.ways = none) : Translates c virtaddr write s := by
  have fault : translationFault c s virtaddr write = some .dtlbmiss := by
    rw [translationFault, if_pos active, found]
  let s₁ : Machine δ := { s with memCycles := s.memCycles + c.dmmu.missdelay }
  have waited : Aside s s₁ := ⟨⟨rfl, rfl, rfl⟩, id, id, rfl⟩
  let raised := exceptHandle .dtlbmiss virtaddr s₁
  refine ⟨0, if c.pcuEnabled then pcuCountEvent pcmrDtlbm raised else raised, fun opd => ?_, .raise waited fault ?_⟩
  · unfold dmmuTranslate
    rw [runP_view, not_skipped active]
    refine (runP_bind_ok (runP_findTlbmr _ _ _ _ _)).trans ?_
    rw [found]
    cases c.pcuEnabled <;> rfl
  · split
    · exact .pcuCountEvent _ _
    · exact .refl _

theorem dmmuTranslate_hit (virtaddr : Word) (write : Bool) {s : Machine δ} (active : dmmuActive s = true) {way : Fin 4} {tlbtr : Word}
    (found : tlbFind .data c.dmmu s virtaddr c.dmmu.ways = some (way, tlbtr)) : Translates c virtaddr write s := by
  have fault : translationFault c s virtaddr write = if dtlbPermits s.sr tlbtr write then none else some .dpf := by
    rw [translationFault, if_pos active, found]
  let touched := touchTlb c.dmmu .data (c.dmmu.set virtaddr) way s
  let s₁ : Machine δ := { touched with dataCi := has tlbtr tlbtrCi, memCycles := touched.memCycles + c.dmmu.hitdelay }
  have aside : Aside s s₁ := (Aside.touchTlb _ _ _ _ _).trans ⟨⟨rfl, rfl, rfl⟩, id, id, rfl⟩
  refine ⟨c.dmmu.physical tlbtr virtaddr, if dtlbPermits s.sr tlbtr write then s₁ else exceptHandle .dpf virtaddr s₁, fun opd => ?_, ?_⟩
  · unfold dmmuTranslate
    rw [runP_view, not_skipped active]
    refine (runP_bind_ok (runP_findTlbmr _ _ _ _ _)).trans ?_
    rw [found]
    show runP c opd (if !dtlbPermits s.sr tlbtr write then _ else _) _ = _
    cases dtlbPermits s.sr tlbtr write <;> rfl
  · split at fault
    · next permits =>
      rw [if_pos permits]
      exact .quiet aside fault
    · next refused =>
      rw [if_neg refused]
      exact .raise aside fault (.refl _)

theorem dmmuTranslate_ok (c : Config δ) (virtaddr : Word) (write : Bool) (s : Machine δ) : Translates c virtaddr write s := by
  cases active : dmmuActive s with
  | false => exact dmmuTranslate_off virtaddr write active
  | true =>
    cases found : tlbFind .data c.dmmu s virtaddr c.dmmu.ways with
    | none => exact dmmuTranslate_miss virtaddr write active found
    | some entry => exact dmmuTranslate_hit virtaddr write active found

/-! ### The accesses -/

theorem translationFault_ne_align {s : Machine δ} {a : Word} {write : Bool} : translationFault c s a write ≠ some .align := by
  unfold translationFault
  split
  · split
    · split <;> nofun
    · nofun
  · nofun

/-- A load that faults ends, with the exception pending. -/
theorem evalMem_fault (opd : Operands δ) {w : Width} {memaddr : Word} {s : Machine δ} {e : Exception}
    (fault : accessFault c w s memaddr false = some e) (left : diverted s e = false) :
    ∃ s', runP c opd (evalMem c w memaddr) s = .ok (0, s') ∧ Aside s s' ∧ s'.exceptPending = true := by
  unfold accessFault at fault
  unfold evalMem
  split at fault
  · next misaligned =>
    obtain rfl := Option.some.inj fault
    rw [if_pos misaligned]
    exact ⟨_, rfl, .exceptHandle _ _ _, exceptHandle_pending _ left⟩
  · next aligned =>
    rw [if_neg aligned]
    obtain ⟨phys, s', ran, translated⟩ := dmmuTranslate_ok c memaddr false s
    have pending := translated.reported e fault left
    refine ⟨s', ?_, translated.aside, pending⟩
    refine (runP_bind_ok (ran opd)).trans ?_
    rw [runP_view, show s'.view.exceptPending = true from pending]
    rfl

/-- A store that faults ends, and writes nothing, if its exception is left to the core or its address
is not aligned. -/
theorem setMem_fault (opd : Operands δ) {w : Width} {memaddr : Word} (value : BitVec w.bits) {s : Machine δ} {e : Exception}
    (fault : accessFault c w s memaddr true = some e) (stops : diverted s e = false ∨ e = .align) :
    ∃ s', runP c opd (setMem c w memaddr value) s = .ok ((), s') ∧ Aside s s' := by
  unfold accessFault at fault
  split at fault
  · next misaligned =>
    exact ⟨_, congrArg (fun p => runP c opd p s) (if_pos misaligned), .exceptHandle _ _ _⟩
  · next aligned =>
    have left : diverted s e = false := stops.resolve_right fun same => translationFault_ne_align (same ▸ fault)
    obtain ⟨phys, s', ran, translated⟩ := dmmuTranslate_ok c memaddr true s
    have pending := translated.reported e fault left
    let s₁ : Machine δ := if phys &&& ~~~3 = s'.loadlockAddr then { s' with loadlockActive := false } else s'
    have released : Aside s' s₁ := by
      unfold s₁
      split
      · exact ⟨⟨rfl, rfl, rfl⟩, id, nofun, rfl⟩
      · exact .refl s'
    refine ⟨s₁, (congrArg (fun p => runP c opd p s) (if_neg aligned)).trans ?_, translated.aside.trans released⟩
    refine (runP_bind_ok (ran opd)).trans ?_
    show runP c opd (act .view >>= _) s₁ = _
    rw [runP_view, show s₁.view.exceptPending = true from released.pending pending]
    rfl

/-! ### Operands -/

/-- An operand has a value, as long as the registers stay as they are. -/
def Operands.Gives (opd : Operands δ) (m : Machine δ) (n : Nat) (a : Word) : Prop :=
  ∀ t : Machine δ, t.reg = m.reg → opd.param n t = .ok (a, t)

theorem regFile_congr {m t : Machine δ} (same : t.reg = m.reg) : regFile t = regFile m := by
  funext regno
  unfold regFile
  rw [same]

theorem evalsimReg_gives {m m' : Machine δ} {regno a : Word} (ran : evalsimReg regno m = .ok (a, m')) {t : Machine δ}
    (same : t.reg = m.reg) : evalsimReg regno t = .ok (a, t) := by
  unfold evalsimReg at ran ⊢
  split at ran
  · next low =>
    rw [if_pos low]
    rw [Programs.get_bind, ← regFile_congr same] at ran
    cases ran
    rfl
  · cases ran

theorem simpleOperands_gives {m m' : Machine δ} {insn a : Word} {ops : List InsnOp} {n : Nat}
    (ran : (simpleOperands insn ops).param n m = .ok (a, m')) : (simpleOperands insn ops).Gives m n a := by
  intro t same
  unfold simpleOperands at ran ⊢
  dsimp only at ran ⊢
  cases described : Decode.operandAt n ops with
  | none =>
    simp only [described] at ran
    cases ran
  | some here =>
    simp only [described, Programs.get_bind, regFile_congr same] at ran ⊢
    cases first : here.head? with
    | none =>
      simp only [first] at ran
      cases ran
    | some operand =>
      cases evaluated : Decode.evalOperand insn (regFile m) ops n with
      | none =>
        simp only [first, evaluated] at ran
        cases ran
      | some value =>
        simp only [first, evaluated] at ran ⊢
        split at ran
        · next displaced =>
          rw [if_pos displaced]
          cases base : Decode.evalOperandVal insn (Decode.behindOperand here) with
          | none =>
            simp only [base] at ran
            cases ran
          | some base' =>
            simp only [base] at ran ⊢
            split at ran
            · next low =>
              rw [if_pos low]
              cases ran
              rfl
            · cases ran
        · next direct =>
          rw [if_neg direct]
          split at ran
          · next register =>
            rw [if_pos register]
            exact evalsimReg_gives ran same
          · next immediate =>
            rw [if_neg immediate]
            cases ran
            rfl

theorem complexOperands_gives {m m' : Machine δ} {a : Word} {ops : List InsnOp} {vars : List Word} {n : Nat}
    (ran : (complexOperands ops vars).param n m = .ok (a, m')) : (complexOperands ops vars).Gives m n a := by
  intro t same
  unfold complexOperands at ran ⊢
  dsimp only at ran ⊢
  cases defined : vars[n]? with
  | none =>
    simp only [defined] at ran
    cases ran
  | some v =>
    simp only [defined] at ran ⊢
    split at ran
    · next register =>
      rw [if_pos register]
      split at ran
      · next low =>
        rw [if_pos low]
        rw [Programs.get_bind, ← regFile_congr same] at ran
        cases ran
        rfl
      · cases ran
    · next immediate =>
      rw [if_neg immediate]
      cases ran
      rfl

theorem Frame.gives {m m' : Machine δ} {ops : List InsnOp} {tail : Machine δ → Machine δ} (frame : Frame c m ops opd tail) {n : Nat}
    {a : Word} (ran : opd.param n m = .ok (a, m')) : opd.Gives m n a := by
  cases frame with
  | simple => exact simpleOperands_gives ran
  | complex => exact complexOperands_gives ran

/-! ### The instructions -/

/-- The instructions that access data memory. -/
inductive DataAccess where
  | load (w : Width) (extend : BitVec w.bits → Word)
  | lwa
  | store (w : Width)
  | swa

namespace DataAccess

def insn (c : Config δ) : DataAccess → Insn
  | .load w extend => .plain (loadInsn c w extend)
  | .lwa => .lwa
  | .store w => .plain (storeWidth c w)
  | .swa => .swa

/-- The operand that is the address. -/
def addrOperand : DataAccess → Nat
  | .load _ _ | .lwa => 1
  | .store _ | .swa => 0

/-- The exception that is reported for the access. `l_swa` translates its address for reading before
it looks at the reservation and stores. -/
def fault (c : Config δ) (m : Machine δ) (memaddr : Word) : DataAccess → Option Exception
  | .load w _ => accessFault c w m memaddr false
  | .lwa => accessFault c .word m memaddr false
  | .store w => accessFault c w m memaddr true
  | .swa =>
    match translationFault c m memaddr false, runP c noOperands (sbufOp c .sbufBegin >>= fun _ => dmmuTranslate c memaddr false) m with
    | some e, _ => some e
    | none, .ok (phys, m') =>
      if m'.loadlockAddr = phys && m'.loadlockActive then accessFault c .word m' memaddr true else none
    | none, .error _ => none

/-- The access ends with its exception: the debug unit leaves the exception to the core, or what
follows the exception is not a translated store. -/
def Stops (c : Config δ) (m : Machine δ) (memaddr : Word) (e : Exception) : DataAccess → Prop
  | .load _ _ | .lwa => diverted m e = false
  | .store _ => diverted m e = false ∨ e = .align
  | .swa => diverted m e = false ∨ e = .align ∨ translationFault c m memaddr false ≠ none

end DataAccess

theorem accessFault_congr {s t : Machine δ} (same : t.sprs = s.sprs) (w : Width) (a : Word) (write : Bool) :
    accessFault c w t a write = accessFault c w s a write ∧ translationFault c t a write = translationFault c s a write := by
  have found : ∀ ways, tlbFind .data c.dmmu t a ways = tlbFind .data c.dmmu s a ways := by
    intro ways
    induction ways with
    | nil => rfl
    | cons way ways ih => rw [tlbFind, tlbFind, ih, same]
  have faults : translationFault c t a write = translationFault c s a write := by
    unfold translationFault dmmuActive Machine.sr
    rw [found, same]
  exact ⟨by rw [accessFault, accessFault, faults], faults⟩

theorem runP_sbufOp (c : Config δ) (s : Machine δ) {o : Op} (buffered : o = .sbufLoad ∨ o = .sbufBegin ∨ o = .sbufEnd) :
    ∃ s', (∀ opd, runP c opd (sbufOp c o) s = .ok ((), s')) ∧ Aside s s' ∧ s'.sprs = s.sprs := by
  unfold sbufOp
  split
  · rcases buffered with rfl | rfl | rfl
    · exact ⟨_, fun _ => rfl, ⟨⟨rfl, rfl, rfl⟩, id, id, rfl⟩, rfl⟩
    · exact ⟨_, fun _ => rfl, ⟨⟨rfl, rfl, rfl⟩, id, id, rfl⟩, rfl⟩
    · exact ⟨_, fun _ => rfl, ⟨⟨rfl, rfl, rfl⟩, id, id, rfl⟩, rfl⟩
  · exact ⟨s, fun _ => rfl, .refl s, rfl⟩

theorem runP_param {α : Type} {n : Nat} {a : Word} {s : Machine δ} (value : opd.param n s = .ok (a, s)) (f : Word → P α) :
    runP c opd (param n >>= f) s = runP c opd (f a) s := Programs.bind_of_ok value

theorem diverted_congr {s t : Machine δ} (aside : Aside s t) (e : Exception) : diverted t e = diverted s e := by
  unfold diverted
  rw [aside.dsr]

section
variable {m : Machine δ} {a : Word} {e : Exception}

/-- The load of `loadInsn` and of `l_lwa`. -/
theorem load_fault {w : Width} (gives : opd.Gives m 1 a) (fault : accessFault c w m a false = some e) (left : diverted m e = false) :
    ∃ m₁ m₂, runP c opd (sbufOp c .sbufLoad) m = .ok ((), m₁) ∧ opd.param 1 m₁ = .ok (a, m₁) ∧
      runP c opd (evalMem c w a) m₁ = .ok (0, m₂) ∧ Aside m m₂ ∧ m₂.exceptPending = true := by
  obtain ⟨m₁, buffered, aside, sprs⟩ := runP_sbufOp c m (.inl rfl)
  rw [← (accessFault_congr sprs w a false).1] at fault
  rw [← diverted_congr aside] at left
  obtain ⟨m₂, read, aside', pending⟩ := evalMem_fault opd fault left
  exact ⟨m₁, m₂, buffered opd, gives m₁ aside.untouched.reg, read, aside.trans aside', pending⟩

theorem loadInsn_fault {w : Width} (extend : BitVec w.bits → Word) (gives : opd.Gives m 1 a)
    (fault : accessFault c w m a false = some e) (left : diverted m e = false) :
    ∃ m', runP c opd (loadInsn c w extend) m = .ok ((), m') ∧ Untouched m m' := by
  obtain ⟨m₁, m₂, buffered, address, read, aside, pending⟩ := load_fault gives fault left
  refine ⟨m₂, (runP_bind_ok buffered).trans ?_, aside.untouched⟩
  refine (runP_param address _).trans ?_
  refine (runP_bind_ok read).trans ?_
  rw [runP_view, show m₂.view.exceptPending = true from pending]
  rfl

theorem lLwa_fault (gives : opd.Gives m 1 a) (fault : accessFault c .word m a false = some e) (left : diverted m e = false) :
    ∃ m', lLwa c opd m = .ok ((), m') ∧ Untouched m m' := by
  obtain ⟨m₁, m₂, buffered, address, read, aside, pending⟩ := load_fault gives fault left
  let m₃ : Machine δ := { m₂ with loadlockActive := true }
  have reserved : Untouched m₂ m₃ := ⟨rfl, rfl, rfl⟩
  obtain ⟨phys, m₄, ran, translated⟩ := dmmuTranslate_ok c a false m₃
  have again : opd.param 1 m₃ = .ok (a, m₃) := gives m₃ (aside.untouched.trans reserved).reg
  refine ⟨{ m₄ with loadlockAddr := phys }, ?_, (aside.untouched.trans reserved).trans
    (translated.aside.untouched.trans ⟨rfl, rfl, rfl⟩)⟩
  refine (Programs.bind_of_ok buffered).trans ?_
  refine (Programs.bind_of_ok address).trans ?_
  refine (Programs.bind_of_ok read).trans ?_
  refine (Programs.modify_bind _ _ _).trans ?_
  refine (Programs.bind_of_ok again).trans ?_
  refine (Programs.bind_of_ok (ran opd)).trans ?_
  have kept : m₄.exceptPending = true := translated.aside.pending pending
  exact congrFun (if_pos (by rw [kept, Bool.true_or])) _

theorem storeWidth_fault {w : Width} {value : Word} (gives : opd.Gives m 0 a) (data : opd.Gives m 1 value)
    (fault : accessFault c w m a true = some e) (stops : diverted m e = false ∨ e = .align) :
    ∃ m', runP c opd (storeWidth c w) m = .ok ((), m') ∧ Untouched m m' := by
  obtain ⟨m₁, buffered, aside, sprs⟩ := runP_sbufOp c m (.inr (.inl rfl))
  rw [← (accessFault_congr sprs w a true).1] at fault
  rw [← diverted_congr aside] at stops
  obtain ⟨m₂, stored, aside'⟩ := setMem_fault opd (value.setWidth w.bits) fault stops
  obtain ⟨m₃, ended, aside'', _⟩ := runP_sbufOp c m₂ (.inr (.inr rfl))
  have store : runP c opd (param 0 >>= fun addr => param 1 >>= fun v => setMem c w addr (v.setWidth w.bits)) m₁ = .ok ((), m₂) := by
    refine (runP_param (gives m₁ aside.untouched.reg) _).trans ?_
    exact (runP_param (data m₁ aside.untouched.reg) _).trans stored
  refine ⟨m₃, (runP_bind_ok (buffered opd)).trans ?_, ((aside.trans aside').trans aside'').untouched⟩
  exact (runP_bind_ok store).trans (ended opd)

/-- `l_swa`, by what follows from the reservation. -/
theorem lSwa_eq {phys : Word} {m₁ m₂ m₃ : Machine δ} (buffered : runP c opd (sbufOp c .sbufBegin) m = .ok ((), m₁))
    (address : opd.param 0 m₁ = .ok (a, m₁)) (translated : runP c opd (dmmuTranslate c a false) m₁ = .ok (phys, m₂))
    (stored : (if (m₂.loadlockAddr = phys && m₂.loadlockActive) then storeConditional c opd else pure () : Sim δ Unit) m₂ =
      .ok ((), m₃)) :
    ∃ m', lSwa c opd m = .ok ((), m') ∧ Untouched m₃ m' := by
  refine ⟨{ setFlag .f (m₂.loadlockAddr = phys && m₂.loadlockActive) m₃ with loadlockActive := false }, ?_, ⟨rfl, rfl, rfl⟩⟩
  refine (Programs.bind_of_ok buffered).trans ?_
  refine (Programs.bind_of_ok address).trans ?_
  refine (Programs.bind_of_ok translated).trans ?_
  rw [Programs.get_bind]
  rw [← Bool.cond_eq_ite] at stored
  exact (Programs.bind_of_ok stored).trans rfl

theorem lSwa_fault {value : Word} (gives : opd.Gives m 0 a) (data : opd.Gives m 1 value)
    (fault : DataAccess.swa.fault c m a = some e) (stops : DataAccess.swa.Stops c m a e) :
    ∃ m', lSwa c opd m = .ok ((), m') ∧ Untouched m m' := by
  obtain ⟨m₁, buffered, aside₁, sprs⟩ := runP_sbufOp c m (.inr (.inl rfl))
  obtain ⟨phys, m₂, ran, translated⟩ := dmmuTranslate_ok c a false m₁
  have same := (accessFault_congr (c := c) sprs .word a false).2
  have aside₂ := aside₁.trans translated.aside
  have address := gives m₁ aside₁.untouched.reg
  have begun : runP c noOperands (sbufOp c .sbufBegin >>= fun _ => dmmuTranslate c a false) m = .ok (phys, m₂) :=
    (runP_bind_ok (buffered noOperands)).trans (ran noOperands)
  by_cases read : translationFault c m a false = none
  · -- the exception is one of the store
    unfold DataAccess.fault at fault
    rw [read, begun] at fault
    dsimp only at fault
    split at fault
    · next holds =>
      have stops : diverted m₂ e = false ∨ e = .align := by
        rw [diverted_congr aside₂]
        exact stops.imp_right fun either => either.resolve_right fun raised => raised read
      obtain ⟨m₃, stored, aside₃⟩ := setMem_fault (w := .word) opd value fault stops
      obtain ⟨m₄, ended, aside₄, _⟩ := runP_sbufOp c m₃ (.inr (.inr rfl))
      have store : storeConditional c opd m₂ = .ok ((), m₄) := by
        refine (Programs.bind_of_ok (gives m₂ aside₂.untouched.reg)).trans ?_
        refine (Programs.bind_of_ok (data m₂ aside₂.untouched.reg)).trans ?_
        exact (Programs.bind_of_ok stored).trans (ended opd)
      obtain ⟨m', done, untouched⟩ := lSwa_eq (buffered opd) address (ran opd) ((congrFun (if_pos holds) m₂).trans store)
      exact ⟨m', done, ((aside₂.trans aside₃).trans aside₄).untouched.trans untouched⟩
    · cases fault
  · -- the exception has ended the reservation
    have inactive : m₂.loadlockActive = false := translated.inactive (by rw [same]; exact read)
    have skipped : ¬ (m₂.loadlockAddr = phys && m₂.loadlockActive) = true := by
      rw [inactive, Bool.and_false]
      decide
    obtain ⟨m', done, untouched⟩ := lSwa_eq (buffered opd) address (ran opd) (congrFun (if_neg skipped) m₂)
    exact ⟨m', done, aside₂.untouched.trans untouched⟩

end

/-- An access that faults ends and has no effect, if it stops at its exception. -/
theorem faulting_access_untouched (m : Machine δ) (ops : List InsnOp) (opd : Operands δ) (tail : Machine δ → Machine δ)
    (frame : Frame c m ops opd tail) (access : DataAccess) (a value : Word) (e : Exception)
    (address : opd.param access.addrOperand m = .ok (a, m)) (data : opd.param 1 m = .ok (value, m))
    (fault : access.fault c m a = some e) (stops : access.Stops c m a e) :
    ∃ m', (access.insn c).exec c opd m = .ok ((), m') ∧ Untouched m m' := by
  cases access with
  | load w extend => exact loadInsn_fault extend (frame.gives address) fault stops
  | lwa => exact lLwa_fault (frame.gives address) fault stops
  | store w => exact storeWidth_fault (frame.gives address) (frame.gives data) fault stops
  | swa => exact lSwa_fault (frame.gives address) (frame.gives data) fault stops

end

/-- The operands of `l.sw`. -/
def lSwOps : List InsnOp := [⟨0x18000f00, 11⟩, ⟨0x58000f15, 5⟩, ⟨0x60000010, 5⟩, ⟨0xe000000b, 5⟩]

def wordsConfig : Config (Word → Word) := Config.bare [⟨"l.sw", "I(rA),rB", "11 0x5  IIIII AAAAA BBBB BIII IIII IIII", "l_sw"⟩] [.words]

/-- At `l.sw 0(r1),r2`, with translation on and an empty TLB. -/
def missMachine (dsr : Word) : Machine (Word → Word) :=
  { Machine.bare (fun _ => 0) 0 0x2000 with
    insn := 0xd4011000
    reg := fun i => if i = 2 then 5 else 0
    sprs := fun r =>
      if r = sprSr then srDme ||| srSm else if r = sprUpr then uprDmp else if r = sprDsr then dsr else 0 }

def missOperands (dsr : Word) : Operands (Word → Word) :=
  complexOperands lSwOps (Decode.operandVars (missMachine dsr).insn (regFile (missMachine dsr)) lSwOps)

/-- The miss of a store is left to the core. -/
theorem faulting_access_untouched_miss :
    ∃ m', ((DataAccess.store .word).insn wordsConfig).exec wordsConfig (missOperands 0) (missMachine 0) = .ok ((), m') ∧
      Untouched (missMachine 0) m' :=
  faulting_access_untouched (missMachine 0) lSwOps (missOperands 0) (repair lSwOps) (.complex rfl) (.store .word) 0 5 .dtlbmiss
    rfl rfl (by decide +kernel) (.inl (by decide +kernel))

/-- A miss that the debug unit takes: the store goes on, to address zero. -/
theorem diverted_store_writes :
    ¬ ∀ (c : Config (Word → Word)) (m : Machine (Word → Word)) (ops : List InsnOp) (opd : Operands (Word → Word))
        (tail : Machine (Word → Word) → Machine (Word → Word)), Frame c m ops opd tail →
      ∀ (access : DataAccess) (a value : Word) (e : Exception), opd.param access.addrOperand m = .ok (a, m) →
        opd.param 1 m = .ok (value, m) → access.fault c m a = some e →
        ∃ m', (access.insn c).exec c opd m = .ok ((), m') ∧ Untouched m m' := by
  intro claim
  obtain ⟨m', ran, untouched⟩ := claim wordsConfig (missMachine 0x100) lSwOps (missOperands 0x100) (repair lSwOps) (.complex rfl)
    (.store .word) 0 5 .dtlbmiss rfl rfl (by decide +kernel)
  have written : (((DataAccess.store .word).insn wordsConfig).exec wordsConfig (missOperands 0x100) (missMachine 0x100)).toOption.map
      (fun r => r.2.dev 0) = some 5 := by decide +kernel
  rw [ran] at written
  have kept : m'.dev 0 = 0 := congrFun untouched.dev 0
  have stored : m'.dev 0 = 5 := Option.some.inj written
  rw [kept] at stored
  exact absurd stored (by decide)

end Or1ksim.Cpu
