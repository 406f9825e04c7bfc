import Or1ksim.Cpu.FaultingAccess
import Or1ksim.Cpu.Step

/-!
# Diversion to the debugger

`DSR` has a bit for each exception that the debug unit can take from the core. It records the bit in `DRR` and
stalls the processor, and the core does not see the exception.
-/

namespace Or1ksim.Cpu

variable {δ : Type}

/-- The bit of an exception in `DSR` and `DRR`, in `spr-defs.h`. -/
def Exception.drr : Exception → Word
  | .fpe => 0x00001000
  | e => e.dsr

/-- The debug unit took the exception. -/
structure TakenByDebug (e : Exception) (s t : Machine δ) : Prop where
  sprs : ∀ r ∈ [sprSr, sprEsrBase, sprEpcrBase, sprEearBase], t.sprs r = s.sprs r
  pc : t.pc = s.pc
  pcnext : t.pcnext = s.pcnext
  delayInsn : t.delayInsn = s.delayInsn
  drr : t.sprs sprDrr = s.sprs sprDrr ||| e.drr
  stalled : t.stalled = true

/-- The core entered the exception, and the debugger sees nothing of it. -/
structure LeftToCore (e : Exception) (ea : Word) (s t : Machine δ) : Prop where
  sprs : t.sprs = (enterException e ea s).sprs
  pc : t.pc = (enterException e ea s).pc
  pcnext : t.pcnext = (enterException e ea s).pcnext
  delayInsn : t.delayInsn = (enterException e ea s).delayInsn
  exceptPending : t.exceptPending = true
  drr : t.sprs sprDrr = s.sprs sprDrr
  stalled : t.stalled = s.stalled

def Diverts (e : Exception) (ea : Word) (s t : Machine δ) : Prop :=
  if has (s.sprs sprDsr) e.drr then TakenByDebug e s t else LeftToCore e ea s t

variable {e : Exception} {ea : Word} {s : Machine δ}

theorem drr_eq_dsr (row : e ≠ .fpe) : e.drr = e.dsr := by
  cases e <;> first | rfl | exact absurd rfl row

theorem diverted_eq (row : e ≠ .fpe) : diverted s e = has (s.sprs sprDsr) e.drr := by
  rw [drr_eq_dsr row]
  rfl

theorem diverted_fpe (s : Machine δ) : diverted s .fpe = false := by
  have none : s.sprs sprDsr &&& Exception.fpe.dsr = 0 := BitVec.and_zero
  unfold diverted
  rw [none]
  rfl

theorem drr_single (e : Exception) : ∃ k, e.drr = BitVec.twoPow 32 k := by
  cases e
  exacts [⟨0, rfl⟩, ⟨1, rfl⟩, ⟨2, rfl⟩, ⟨3, rfl⟩, ⟨4, rfl⟩, ⟨5, rfl⟩, ⟨6, rfl⟩, ⟨7, rfl⟩, ⟨8, rfl⟩, ⟨9, rfl⟩, ⟨10, rfl⟩, ⟨11, rfl⟩,
    ⟨12, rfl⟩, ⟨13, rfl⟩]

theorem and_drr {dsr : Word} (bit : has dsr e.drr = true) : dsr &&& e.drr = e.drr := by
  obtain ⟨k, single⟩ := drr_single e
  have some : dsr &&& e.drr ≠ 0 := of_decide_eq_true bit
  rw [single, BitVec.and_twoPow] at some ⊢
  split at some
  · next set => rw [if_pos set]
  · exact absurd rfl some

theorem exceptHandle_taken (ea : Word) (row : e ≠ .fpe) (bit : has (s.sprs sprDsr) e.drr = true) :
    TakenByDebug e s (exceptHandle e ea s) := by
  have result : s.sprs sprDsr &&& e.dsr = e.drr := by
    rw [← drr_eq_dsr row]
    exact and_drr bit
  have some : e.drr ≠ 0 := by cases e <;> decide
  have answer : exceptHandle e ea s =
      { setSpr sprDrr (s.sprs sprDrr ||| e.drr) { s with loadlockActive := false } with stalled := true } := by
    unfold exceptHandle debugIgnoreException setStallState
    dsimp only
    rw [result, decide_eq_true some, if_pos rfl, if_pos rfl]
  rw [answer]
  refine ⟨fun r inside => ?_, rfl, rfl, rfl, ?_, rfl⟩
  · have other : r ≠ sprDrr := by
      rintro rfl
      exact absurd inside (by decide)
    exact if_neg other
  · show (if sprDrr = sprDrr then s.sprs sprDrr ||| e.drr else s.sprs sprDrr) = _
    exact if_pos rfl

/-- An exception that the debug unit leaves to the core. -/
theorem exceptHandle_left (e : Exception) (ea : Word) (s : Machine δ) (left : diverted s e = false) :
    exceptHandle e ea s = enterException e ea { s with
      loadlockActive := false, stalled := false, npcNotValid := false, halted := false } := by
  have none : s.sprs sprDsr &&& e.dsr = 0 := by
    by_contra some
    exact absurd left (by rw [diverted, decide_eq_true some]; decide)
  have kept : setSpr sprDrr (s.sprs sprDrr ||| 0) { s with loadlockActive := false } = { s with loadlockActive := false } := by
    show setSpr sprDrr (s.sprs sprDrr ||| 0#32) _ = _
    rw [BitVec.or_zero]
    exact setSpr_self sprDrr { s with loadlockActive := false }
  unfold exceptHandle debugIgnoreException setStallState
  dsimp only
  rw [none, kept]
  rfl

theorem enterException_drr (e : Exception) (ea : Word) (s : Machine δ) : (enterException e ea s).sprs sprDrr = s.sprs sprDrr := by
  unfold enterException
  cases exceptEpcr e ea s.pc s.delayInsn <;> simp [setSpr, sprDrr, sprSr, sprEsrBase, sprEearBase, sprEpcrBase]

theorem enterException_stalled (e : Exception) (ea : Word) (s : Machine δ) : (enterException e ea s).stalled = s.stalled := by
  unfold enterException
  dsimp only
  split <;> rfl

/-- The core enters it as it is, but a stall is over. -/
theorem leftToCore_iff (ea : Word) (left : diverted s e = false) : LeftToCore e ea s (exceptHandle e ea s) ↔ s.stalled = false := by
  rw [exceptHandle_left e ea s left]
  constructor
  · intro entered
    rw [← entered.stalled, enterException_stalled]
  · intro runs
    refine ⟨?_, rfl, rfl, rfl, rfl, ?_, ?_⟩
    · unfold enterException
      dsimp only
      cases exceptEpcr e ea s.pc s.delayInsn <;> rfl
    · exact enterException_drr e ea _
    · rw [enterException_stalled, runs]

/-- The debug unit diverts what `DSR` asks for, but a floating point exception; and the core enters the others, unless a
stall was requested, which the debug unit takes back. -/
theorem exceptHandle_diverts_iff (e : Exception) (ea : Word) (s : Machine δ) :
    Diverts e ea s (exceptHandle e ea s) ↔ if has (s.sprs sprDsr) e.drr then e ≠ .fpe else s.stalled = false := by
  unfold Diverts
  split
  · next bit =>
    constructor
    · rintro taken rfl
      have stalled := taken.stalled
      rw [exceptHandle_left _ _ _ (diverted_fpe s), enterException_stalled] at stalled
      cases stalled
    · intro row
      exact exceptHandle_taken ea row bit
  · next clear =>
    refine leftToCore_iff ea ?_
    by_cases row : e = .fpe
    · rw [row, diverted_fpe]
    · rw [diverted_eq row, Bool.eq_false_iff.mpr clear]

/-- A floating point exception whose bit is set. -/
theorem fpe_not_diverted : ¬ ∀ (e : Exception) (ea : Word) (s : Machine Unit), Diverts e ea s (exceptHandle e ea s) := by
  intro claim
  have diverts := claim .fpe 0 (setSpr sprDsr 0x1000 (Machine.bare () 0 0x100))
  unfold Diverts at diverts
  rw [if_pos (by decide)] at diverts
  exact absurd diverts.stalled (by decide)

end Or1ksim.Cpu
