import Or1ksim.Cpu.Direct

/-!
# Peeking into the TLBs

`peek_into_dtlb` and `peek_into_itlb` repeat the tests of `dmmu_translate` and `immu_translate`. They
give the same address where the translation calls no `except_handle`, and zero where it does.
-/

namespace Or1ksim.Cpu

open Programs (noting)

variable {δ : Type}

/-- The exception that an operation passes to `except_handle`. -/
def raising : Op → List Exception
  | .exceptHandle e _ => [e]
  | _ => []

/-- A run of a program, with the exceptions that it raises: those it passes to `except_handle`, whether
the core enters them or the debug unit takes them. -/
def runRaising (c : Config δ) (opd : Operands δ) {α : Type} (p : P α) (s : Machine δ) : Except Stop (α × Machine δ × List Exception) :=
  p.run (noting raising (Op.sem c opd)) (s, [])

section
variable {c : Config δ} {opd : Operands δ} {s : Machine δ}

theorem runRaising_run {α : Type} {p : P α} {a : α} {s' : Machine δ} {raised : List Exception}
    (ran : runRaising c opd p s = .ok (a, s', raised)) : runP c opd p s = .ok (a, s') :=
  Programs.run_noting raising ran

theorem runRaising_findTlbmr {α : Type} (side : Side) (mmu : Mmu) (virtaddr : Word) (ways : List (Fin 4))
    (rest : Option (Fin 4 × Word) → P α) :
    runRaising c opd (findTlbmr side mmu virtaddr ways >>= rest) s = runRaising c opd (rest (tlbFind side mmu s virtaddr ways)) s := by
  induction ways with
  | nil => rfl
  | cons way ways ih =>
    unfold findTlbmr tlbFind
    dsimp only
    split
    · next hit => exact congrFun (congrArg (runRaising c opd) (congrArg (· >>= rest) (if_pos hit))) s
    · next miss => exact (congrFun (congrArg (runRaising c opd) (congrArg (· >>= rest) (if_neg miss))) s).trans ih

theorem runRaising_view {α : Type} (rest : Op.view.Resp → P α) :
    runRaising c opd (act .view >>= rest) s = runRaising c opd (rest s.view) s := rfl

/-! ### What an MMU says -/

/-- Translation of instruction addresses is on. -/
def immuActive (s : Machine δ) : Bool := has s.sr srIme && has (s.sprs sprUpr) uprImp

/-- The physical address of an access to data, or the exception in its way. -/
def dmmuLookup (c : Config δ) (s : Machine δ) (virtaddr : Word) (write : Bool) : Except Exception Word :=
  if dmmuActive s then
    match tlbFind .data c.dmmu s virtaddr c.dmmu.ways with
    | some (_, tlbtr) => if dtlbPermits s.sr tlbtr write then .ok (c.dmmu.physical tlbtr virtaddr) else .error .dpf
    | none => .error .dtlbmiss
  else .ok virtaddr

def immuLookup (c : Config δ) (s : Machine δ) (virtaddr : Word) : Except Exception Word :=
  if immuActive s then
    match tlbFind .insn c.immu s virtaddr c.immu.ways with
    | some (_, tlbtr) => if itlbPermits s.sr tlbtr then .ok (c.immu.physical tlbtr virtaddr) else .error .ipf
    | none => .error .itlbmiss
  else .ok virtaddr

/-- The program gives the address, or raises the exception. -/
def Translation (c : Config δ) (opd : Operands δ) (p : P Word) (s : Machine δ) (lookup : Except Exception Word) : Prop :=
  ∃ phys t raised, runRaising c opd p s = .ok (phys, t, raised) ∧
    (lookup = .ok phys ∧ raised = [] ∨ ∃ e, lookup = .error e ∧ raised = [e])

/-- The program gives the address, or gives up. -/
def Peek (c : Config δ) (opd : Operands δ) (p : P Word) (s : Machine δ) (lookup : Except Exception Word) : Prop :=
  ∃ ci, runRaising c opd p s = .ok (lookup.toOption.getD 0, { s with dataCi := ci }, [])

theorem skipped (off : dmmuActive s = false) : (!has s.view.sr srDme || !has s.view.upr uprDmp) = true := by
  rw [← Bool.not_and]
  exact congrArg not off

theorem immu_skips (s : Machine δ) : (!has s.view.sr srIme || !has s.view.upr uprImp) = !immuActive s :=
  (Bool.not_and _ _).symm

theorem dmmuTranslate_lookup (virtaddr : Word) (write : Bool) :
    Translation c opd (dmmuTranslate c virtaddr write) s (dmmuLookup c s virtaddr write) := by
  have viewed : s.view.sr = s.sr := rfl
  unfold Translation dmmuTranslate dmmuLookup
  rw [runRaising_view]
  cases active : dmmuActive s with
  | false =>
    rw [skipped active]
    exact ⟨_, _, _, rfl, .inl ⟨rfl, rfl⟩⟩
  | true =>
    rw [not_skipped active, if_neg (by decide), if_pos rfl, runRaising_findTlbmr]
    cases tlbFind .data c.dmmu s virtaddr c.dmmu.ways with
    | none =>
      dsimp only
      cases c.pcuEnabled
      · exact ⟨_, _, _, rfl, .inr ⟨_, rfl, rfl⟩⟩
      · exact ⟨_, _, _, rfl, .inr ⟨_, rfl, rfl⟩⟩
    | some entry =>
      dsimp only
      rw [viewed]
      cases dtlbPermits s.sr entry.2 write
      · exact ⟨_, _, _, rfl, .inr ⟨_, rfl, rfl⟩⟩
      · exact ⟨_, _, _, rfl, .inl ⟨rfl, rfl⟩⟩

theorem peekDtlb_lookup (virtaddr : Word) (write throughDc : Bool) :
    Peek c opd (peekDtlb c virtaddr write throughDc) s (dmmuLookup c s virtaddr write) := by
  have viewed : s.view.sr = s.sr := rfl
  unfold Peek peekDtlb dmmuLookup
  rw [runRaising_view]
  cases active : dmmuActive s with
  | false =>
    rw [skipped active]
    cases throughDc
    · exact ⟨s.dataCi, rfl⟩
    · exact ⟨_, rfl⟩
  | true =>
    rw [not_skipped active, if_neg (by decide), if_pos rfl, runRaising_findTlbmr]
    cases tlbFind .data c.dmmu s virtaddr c.dmmu.ways with
    | none => exact ⟨s.dataCi, rfl⟩
    | some entry =>
      dsimp only
      rw [viewed]
      cases dtlbPermits s.sr entry.2 write
      · exact ⟨s.dataCi, rfl⟩
      · cases throughDc
        · exact ⟨s.dataCi, rfl⟩
        · exact ⟨_, rfl⟩

theorem immuTranslate_lookup (virtaddr : Word) : Translation c opd (immuTranslate c virtaddr) s (immuLookup c s virtaddr) := by
  have viewed : s.view.sr = s.sr := rfl
  unfold Translation immuTranslate immuLookup
  rw [runRaising_view, immu_skips]
  cases immuActive s with
  | false => exact ⟨_, _, _, rfl, .inl ⟨rfl, rfl⟩⟩
  | true =>
    rw [if_neg (by decide), if_pos rfl, runRaising_findTlbmr]
    cases tlbFind .insn c.immu s virtaddr c.immu.ways with
    | none =>
      dsimp only
      cases c.pcuEnabled
      · exact ⟨_, _, _, rfl, .inr ⟨_, rfl, rfl⟩⟩
      · exact ⟨_, _, _, rfl, .inr ⟨_, rfl, rfl⟩⟩
    | some entry =>
      dsimp only
      rw [viewed]
      cases itlbPermits s.sr entry.2
      · exact ⟨_, _, _, rfl, .inr ⟨_, rfl, rfl⟩⟩
      · exact ⟨_, _, _, rfl, .inl ⟨rfl, rfl⟩⟩

theorem peekIntoItlb_lookup (virtaddr : Word) : Peek c opd (peekIntoItlb c virtaddr) s (immuLookup c s virtaddr) := by
  have viewed : s.view.sr = s.sr := rfl
  refine ⟨s.dataCi, ?_⟩
  unfold peekIntoItlb immuLookup
  rw [runRaising_view, immu_skips]
  cases immuActive s with
  | false => rfl
  | true =>
    rw [if_neg (by decide), if_pos rfl, runRaising_findTlbmr]
    cases tlbFind .insn c.immu s virtaddr c.immu.ways with
    | none => rfl
    | some entry =>
      dsimp only
      rw [viewed]
      cases itlbPermits s.sr entry.2 <;> rfl

theorem dmmuLookup_error {virtaddr : Word} {write : Bool} {e : Exception} (refused : dmmuLookup c s virtaddr write = .error e) :
    e = .dtlbmiss ∨ e = .dpf := by
  unfold dmmuLookup at refused
  split at refused
  · split at refused
    · split at refused
      · cases refused
      · cases refused
        exact .inr rfl
    · cases refused
      exact .inl rfl
  · cases refused

theorem immuLookup_error {virtaddr : Word} {e : Exception} (refused : immuLookup c s virtaddr = .error e) :
    e = .itlbmiss ∨ e = .ipf := by
  unfold immuLookup at refused
  split at refused
  · split at refused
    · split at refused
      · cases refused
      · cases refused
        exact .inr rfl
    · cases refused
      exact .inl rfl
  · cases refused

end

/-! ### Agreement -/

/-- The exceptions that a run of a program raises. -/
def Raises (c : Config δ) (opd : Operands δ) {α : Type} (p : P α) (s : Machine δ) (raised : List Exception) : Prop :=
  ∃ a t, runRaising c opd p s = .ok (a, t, raised)

/-- `peek` raises nothing, and changes nothing but whether the data cache is inhibited. It returns what
`translate` returns if that raises nothing, and zero if it raises `miss` or `fault`. -/
def PeekAgrees (c : Config δ) (opd : Operands δ) (translate peek : P Word) (miss fault : Exception) (s : Machine δ) : Prop :=
  ∃ phys t raised found ci, runP c opd translate s = .ok (phys, t) ∧ Raises c opd translate s raised ∧
    runP c opd peek s = .ok (found, { s with dataCi := ci }) ∧ Raises c opd peek s [] ∧
    (raised = [] ∧ found = phys ∨ (raised = [miss] ∨ raised = [fault]) ∧ found = 0)

section
variable {c : Config δ} {opd : Operands δ} {s : Machine δ}

theorem PeekAgrees.of_lookup {translate peek : P Word} {miss fault : Exception} {lookup : Except Exception Word}
    (translates : Translation c opd translate s lookup) (peeks : Peek c opd peek s lookup)
    (errors : ∀ e, lookup = .error e → e = miss ∨ e = fault) : PeekAgrees c opd translate peek miss fault s := by
  obtain ⟨phys, t, raised, ran, answer⟩ := translates
  obtain ⟨ci, peeked⟩ := peeks
  refine ⟨phys, t, raised, _, ci, runRaising_run ran, ⟨_, _, ran⟩, runRaising_run peeked, ⟨_, _, peeked⟩, ?_⟩
  rcases answer with ⟨rfl, rfl⟩ | ⟨e, rfl, rfl⟩
  · exact .inl ⟨rfl, rfl⟩
  · refine .inr ⟨?_, rfl⟩
    rcases errors e rfl with rfl | rfl
    · exact .inl rfl
    · exact .inr rfl

/-- `peek_into_dtlb` agrees with `dmmu_translate`, and `peek_into_itlb` with `immu_translate`. -/
theorem peek_agrees (c : Config δ) (opd : Operands δ) (s : Machine δ) (virtaddr : Word) :
    (∀ write throughDc, PeekAgrees c opd (dmmuTranslate c virtaddr write) (peekDtlb c virtaddr write throughDc) .dtlbmiss .dpf s) ∧
      PeekAgrees c opd (immuTranslate c virtaddr) (peekIntoItlb c virtaddr) .itlbmiss .ipf s :=
  ⟨fun write throughDc => .of_lookup (dmmuTranslate_lookup virtaddr write) (peekDtlb_lookup virtaddr write throughDc)
      fun _ => dmmuLookup_error,
    .of_lookup (immuTranslate_lookup virtaddr) (peekIntoItlb_lookup virtaddr) fun _ => immuLookup_error⟩

end

end Or1ksim.Cpu
