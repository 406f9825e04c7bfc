import Or1ksim.Cpu.FaultingAccess

/-!
# What an access reports

`evalsim_mem` and `setsim_mem` report an address outside every area by their argument, and an area
without a function by `cur_vadd`, which only a store sets. A refill passes zero for the argument.
-/

namespace Or1ksim.Cpu

variable {δ : Type}

/-! ### Reports -/

/-- The entries behind a state with the addresses of their bus errors, the latest first, and `EEAR`
as the latest has left it. -/
structure Told (s s' : Machine δ) (eas : List Word) : Prop where
  entries : ∃ new, s'.entries = new ++ s.entries ∧ (new.filter fun e => e.except = .buserr).map Entry.ea = eas
  eear : s'.sprs sprEearBase = eas.headD (s.sprs sprEearBase)
  dsr : s'.sprs sprDsr = s.sprs sprDsr

namespace Told

variable {s t u : Machine δ} {eas later : List Word}

theorem refl (s : Machine δ) : Told s s [] := ⟨⟨[], rfl, rfl⟩, rfl, rfl⟩

theorem trans (first : Told s t eas) (second : Told t u later) : Told s u (later ++ eas) where
  entries := by
    obtain ⟨new, entries, told⟩ := first.entries
    obtain ⟨new', entries', told'⟩ := second.entries
    refine ⟨new' ++ new, ?_, ?_⟩
    · rw [entries', entries, List.append_assoc]
    · rw [List.filter_append, List.map_append, told, told']
  eear := by
    rw [second.eear, first.eear]
    cases later <;> rfl
  dsr := second.dsr.trans first.dsr

theorem of_same (entries : t.entries = s.entries) (sprs : t.sprs = s.sprs) : Told s t [] :=
  ⟨⟨[], entries, rfl⟩, congrFun sprs _, congrFun sprs _⟩

theorem of_local (kept : Local s t) : Told s t [] :=
  ⟨⟨[], kept.entries, rfl⟩, kept.sprs.rest _ (by decide) (by decide) (by decide) (by decide), kept.sprs.dsr⟩

theorem setSpr (s : Machine δ) {r : SprNo} (v : Word) (eear : r ≠ sprEearBase) (dsr : r ≠ sprDsr) : Told s (setSpr r v s) [] :=
  ⟨⟨[], rfl, rfl⟩, if_neg fun same => eear same.symm, if_neg fun same => dsr same.symm⟩

end Told

/-- The debug unit takes an exception, or the core enters it. -/
theorem exceptHandle_cases (e : Exception) (ea : Word) (s : Machine δ) :
    (diverted s e = true ∧ Local s (exceptHandle e ea s)) ∨
      (diverted s e = false ∧ (exceptHandle e ea s).sprs sprEearBase = ea ∧
        ∃ entry, entry.except = e ∧ entry.ea = ea ∧ (exceptHandle e ea s).entries = entry :: s.entries) := by
  have kept := ignored_local e s
  have asked : (ignored e s).1 = diverted s e := rfl
  cases taken : diverted s e with
  | true =>
    refine .inl ⟨rfl, ?_⟩
    have same : exceptHandle e ea s = (ignored e s).2 := if_pos (asked.trans taken)
    rw [same]
    exact kept
  | false =>
    have same : exceptHandle e ea s = enterException e ea (ignored e s).2 := if_neg fun yes => by
      cases (asked.trans taken).symm.trans yes
    rw [same]
    refine .inr ⟨rfl, ?_, _, rfl, rfl, congrArg _ kept.entries⟩
    unfold enterException
    cases exceptEpcr e ea (ignored e s).2.pc (ignored e s).2.delayInsn <;>
      simp [setSpr, sprSr, sprEsrBase, sprEearBase, sprEpcrBase]

/-- The reports that reach the core. -/
def reported (s : Machine δ) (eas : List Word) : List Word := if diverted s .buserr then [] else eas

theorem exceptHandle_told (ea : Word) (s : Machine δ) : Told s (exceptHandle .buserr ea s) (reported s [ea]) := by
  unfold reported
  rcases exceptHandle_cases .buserr ea s with ⟨taken, kept⟩ | ⟨left, eear, entry, is, here, entries⟩
  · rw [if_pos taken]
    exact .of_local kept
  · rw [if_neg (by rw [left]; decide)]
    refine ⟨⟨[entry], entries, ?_⟩, eear, exceptHandle_dsr _ _ s⟩
    rw [List.filter_cons_of_pos (by simp [is]), List.filter_nil, List.map_cons, here, List.map_nil]

/-- An interrupt leaves `EEAR` as it is. -/
theorem interrupt_told (s : Machine δ) : Told s (exceptHandle .int (s.sprs sprEearBase) s) [] := by
  rcases exceptHandle_cases .int (s.sprs sprEearBase) s with ⟨_, kept⟩ | ⟨_, eear, entry, is, _, entries⟩
  · exact .of_local kept
  · refine ⟨⟨[entry], entries, ?_⟩, eear, exceptHandle_dsr _ _ s⟩
    rw [List.filter_cons_of_neg (by simp [is]), List.filter_nil, List.map_nil]

/-! ### The events of a device -/

/-- The lines of the data cache, and what switches it on, stay as they are. -/
structure CacheKept (s s' : Machine δ) : Prop where
  dc : s'.dc = s.dc
  active : dcActive s'.view = dcActive s.view

namespace CacheKept

variable {s t u : Machine δ}

theorem refl (s : Machine δ) : CacheKept s s := ⟨rfl, rfl⟩

theorem trans (first : CacheKept s t) (second : CacheKept t u) : CacheKept s u :=
  ⟨second.dc.trans first.dc, second.active.trans first.active⟩

theorem of_same (dc : t.dc = s.dc) (sprs : t.sprs = s.sprs) (ci : t.dataCi = s.dataCi) : CacheKept s t := by
  refine ⟨dc, ?_⟩
  unfold dcActive Machine.view
  dsimp only
  rw [Machine.sr, sprs, ci]
  rfl

theorem setSpr (s : Machine δ) {r : SprNo} (v : Word) (upr : r ≠ sprUpr) (sr : r ≠ sprSr) : CacheKept s (setSpr r v s) := by
  refine ⟨rfl, ?_⟩
  have uprKept : (Cpu.setSpr r v s).sprs sprUpr = s.sprs sprUpr := if_neg fun same => upr same.symm
  have srKept : (Cpu.setSpr r v s).sr = s.sr := if_neg fun same => sr same.symm
  unfold dcActive Machine.view
  dsimp only
  rw [uprKept, srKept]
  rfl

theorem exceptHandle (e : Exception) (ea : Word) (s : Machine δ) : CacheKept s (exceptHandle e ea s) := by
  refine ⟨(Untouched.exceptHandle e ea s).dc, ?_⟩
  have ci : (Cpu.exceptHandle e ea s).dataCi = s.dataCi := by
    unfold Cpu.exceptHandle debugIgnoreException setStallState enterException
    dsimp only
    split
    · rfl
    · split <;> split <;> rfl
  unfold dcActive Machine.view
  dsimp only
  have dce : has (Cpu.exceptHandle e ea s).sr srDce = has s.sr srDce := exceptHandle_has e ea s (by decide)
  rw [exceptHandle_sprs e ea s (r := sprUpr) (by decide), dce, ci]

end CacheKept

/-- What the events of a device do. -/
structure Served (s s' : Machine δ) : Prop where
  told : Told s s' []
  kept : CacheKept s s'

namespace Served

variable {c : Config δ} {s t u : Machine δ}

theorem refl (s : Machine δ) : Served s s := ⟨.refl s, .refl s⟩

theorem trans (first : Served s t) (second : Served t u) : Served s u :=
  ⟨first.told.trans second.told, first.kept.trans second.kept⟩

theorem of_same (entries : t.entries = s.entries) (sprs : t.sprs = s.sprs) (dc : t.dc = s.dc) (ci : t.dataCi = s.dataCi) : Served s t :=
  ⟨.of_same entries sprs, .of_same dc sprs ci⟩

theorem setSpr (s : Machine δ) {r : SprNo} (v : Word) (other : r ∉ [sprEearBase, sprDsr, sprUpr, sprSr]) : Served s (setSpr r v s) := by
  simp only [List.mem_cons, List.not_mem_nil, or_false, not_or] at other
  exact ⟨.setSpr s v other.1 other.2.1, .setSpr s v other.2.2.1 other.2.2.2⟩

theorem schedAdd {job : Job} {time : Int} {a : Unit} (ran : schedAdd job time s = .ok (a, t)) : Served s t := by
  unfold Cpu.schedAdd at ran
  cases added : Sched.schedAdd s.scheduler job (Sched.int32 time) with
  | none =>
    simp only [added] at ran
    cases ran
  | some sched =>
    simp only [added] at ran
    cases ran
    exact of_same rfl rfl rfl rfl

theorem devEvent {e : DevEvent} {a : Unit} (ran : devEvent c e s = .ok (a, t)) : Served s t := by
  cases e with
  | reportInterrupt line =>
    have woken : Served s (wake s) := setSpr s _ (by decide)
    have set : Served (wake s) (Cpu.setSpr sprPicsr _ (wake s)) := setSpr _ ((wake s).sprs sprPicsr ||| lineMask line) (by decide)
    rcases reportInterrupt_cases ran with ⟨_, _, rfl⟩ | ⟨_, rfl⟩ | ⟨_, _, _, queued⟩ | ⟨_, _, _, rfl⟩
    · exact woken.trans ⟨interrupt_told (wake s), .exceptHandle _ _ (wake s)⟩
    · exact woken
    · exact woken.trans (set.trans (schedAdd queued))
    · exact woken.trans set
  | clearInterrupt line =>
    cases ran
    exact setSpr _ _ (by decide)
  | schedAdd job time => exact schedAdd ran
  | schedFindRemove job =>
    cases ran
    exact of_same rfl rfl rfl rfl
  | verifyMemoryarea addr =>
    cases ran
    exact of_same rfl rfl rfl rfl
  | simDone => cases ran

theorem devEvents {es : List DevEvent} {a : Unit} (ran : devEvents c es s = .ok (a, t)) : Served s t := by
  induction es generalizing s with
  | nil =>
    cases ran
    exact refl _
  | cons e es ih =>
    obtain ⟨_, mid, first, rest⟩ := Programs.bind_ok ran
    exact (devEvent first).trans (ih rest)

end Served

/-! ### Accesses to the areas -/

/-- What is missing where an access goes: an area, or the function of its width. -/
inductive BusFault where
  | unmapped | refused
  deriving DecidableEq, Repr

/-- The address that is reported: the argument, or `cur_vadd`. -/
def BusFault.ea (vaddr curVadd : Word) : BusFault → Word
  | .unmapped => vaddr
  | .refused => curVadd

namespace Config

def readFault (c : Config δ) (w : Width) (area : Option Nat) : Option BusFault :=
  match area.bind (c.areas[·]?) with
  | none => some .unmapped
  | some mem => if (mem.readfunc w).isSome then none else some .refused

def writeFault (c : Config δ) (w : Width) (area : Option Nat) : Option BusFault :=
  match area.bind (c.areas[·]?) with
  | none => some .unmapped
  | some mem => if (mem.writefunc w).isSome then none else some .refused

end Config

section
variable {c : Config δ} {s s' : Machine δ} {w : Width} {memaddr vaddr : Word}

theorem reported_nil (s : Machine δ) : reported s [] = [] := by
  unfold reported
  split <;> rfl

theorem reported_congr {t : Machine δ} (dsr : t.sprs sprDsr = s.sprs sprDsr) (eas : List Word) : reported t eas = reported s eas := by
  unfold reported diverted
  rw [dsr]

theorem Told.buserr {t : Machine δ} (before : Told s t []) (ea : Word) : Told s (exceptHandle .buserr ea t) (reported s [ea]) := by
  have raised := before.trans (exceptHandle_told ea t)
  rwa [List.append_nil, reported_congr before.dsr] at raised

theorem readFault_unmapped {area : Option Nat} (none : area.bind (c.areas[·]?) = none) : c.readFault w area = some .unmapped := by
  rw [Config.readFault, none]

theorem readFault_mapped {area : Option Nat} {mem : Area δ} (found : area.bind (c.areas[·]?) = some mem) :
    c.readFault w area = if (mem.readfunc w).isSome then none else some .refused := by
  rw [Config.readFault, found]

theorem writeFault_unmapped {area : Option Nat} (none : area.bind (c.areas[·]?) = none) : c.writeFault w area = some .unmapped := by
  rw [Config.writeFault, none]

theorem writeFault_mapped {area : Option Nat} {mem : Area δ} (found : area.bind (c.areas[·]?) = some mem) :
    c.writeFault w area = if (mem.writefunc w).isSome then none else some .refused := by
  rw [Config.writeFault, found]

theorem evalsimMem_told {a : BitVec w.bits × Bool} (ran : evalsimMem c w memaddr vaddr s = .ok (a, s')) :
    Told s s' (reported s ((c.readFault w (c.lookup s.dev s.curArea memaddr)).toList.map (BusFault.ea vaddr s.curVadd))) := by
  have looked : Told s (verifyMemoryarea c memaddr s) [] := .of_same rfl rfl
  rcases evalsimMem_cases ran with ⟨area, rfl, _⟩ | ⟨mem, area, ⟨callback, _, rfl⟩ | ⟨f, callback, events, _⟩⟩
  · have found : (c.lookup s.dev s.curArea memaddr).bind (c.areas[·]?) = none := area
    rw [readFault_unmapped found]
    exact looked.buserr vaddr
  · have found : (c.lookup s.dev s.curArea memaddr).bind (c.areas[·]?) = some mem := area
    rw [readFault_mapped found, callback]
    refine (Told.buserr ?_ s.curVadd : Told s _ (reported s [s.curVadd]))
    exact .of_same rfl rfl
  · have found : (c.lookup s.dev s.curArea memaddr).bind (c.areas[·]?) = some mem := area
    rw [readFault_mapped found, callback]
    rw [Option.isSome_some, if_pos rfl, Option.toList_none, List.map_nil, reported_nil]
    refine (Told.trans ?_ (Served.devEvents events).told : Told s s' ([] ++ []))
    exact .of_same rfl rfl

/-- A store reports its own address, whatever is missing. -/
theorem setsimMem_told {value : BitVec w.bits} {a : Bool} (ran : setsimMem c w memaddr vaddr value s = .ok (a, s')) :
    Told s s' (reported s ((c.writeFault w (c.lookup s.dev s.curArea memaddr)).toList.map (BusFault.ea vaddr vaddr))) := by
  have looked : Told s (verifyMemoryarea c memaddr s) [] := .of_same rfl rfl
  rcases setsimMem_cases ran with ⟨area, rfl, _⟩ | ⟨mem, area, ⟨callback, _, rfl⟩ | ⟨f, callback, events, _⟩⟩
  · have found : (c.lookup s.dev s.curArea memaddr).bind (c.areas[·]?) = none := area
    rw [writeFault_unmapped found]
    exact looked.buserr vaddr
  · have found : (c.lookup s.dev s.curArea memaddr).bind (c.areas[·]?) = some mem := area
    rw [writeFault_mapped found, callback]
    refine (Told.buserr ?_ vaddr : Told s _ (reported s [vaddr]))
    exact .of_same rfl rfl
  · have found : (c.lookup s.dev s.curArea memaddr).bind (c.areas[·]?) = some mem := area
    rw [writeFault_mapped found, callback]
    rw [Option.isSome_some, if_pos rfl, Option.toList_none, List.map_nil, reported_nil]
    refine (Told.trans ?_ (Served.devEvents events).told : Told s s' ([] ++ []))
    exact .of_same rfl rfl

/-! ### Refills -/

/-- What the reads of a refill meet: it goes on behind an area without a function, and ends where there
is no area. -/
def Config.refillFaults (c : Config δ) (place : Word → Option Nat) : List Word → List BusFault
  | [] => []
  | b :: line =>
    match c.readFault .word (place b) with
    | none => c.refillFaults place line
    | some .refused => .refused :: c.refillFaults place line
    | some .unmapped => [.unmapped]

/-- The area of a word of the line does not depend on what was looked up last, and a read of the word
changes nothing. -/
structure SteadyLine (c : Config δ) (place : Word → Option Nat) (d : δ) (line : List Word) : Prop where
  found : ∀ b ∈ line, ∀ cur, c.lookup d cur b = place b
  reads : ∀ b ∈ line, ∀ mem, (place b).bind (c.areas[·]?) = some mem → ∀ f, mem.readfunc .word = some f → ∀ off, (f off d).2 = (d, [])

/-- What a refill of the line reports. -/
def lineTells (c : Config δ) (place : Word → Option Nat) (line : List Word) (s : Machine δ) : List Word :=
  reported s ((c.refillFaults place line).map (BusFault.ea 0 s.curVadd)).reverse

theorem exceptHandle_curVadd (e : Exception) (ea : Word) (s : Machine δ) : (exceptHandle e ea s).curVadd = s.curVadd := by
  unfold exceptHandle debugIgnoreException setStallState enterException
  dsimp only
  split
  · rfl
  · split <;> split <;> rfl

variable {place : Word → Option Nat} {b : Word} {line : List Word}

theorem SteadyLine.tail {d : δ} (steady : SteadyLine c place d (b :: line)) : SteadyLine c place d line :=
  ⟨fun b member => steady.found b (.tail _ member), fun b member => steady.reads b (.tail _ member)⟩

theorem bind_isSome {α β : Type} {o : Option α} {f : α → Option β} {x : β} (found : o.bind f = some x) : o.isSome = true := by
  cases o with
  | none => cases found
  | some y => rfl

theorem lookup_present {d : δ} {cur : Option Nat} {addr : Word} {i : Nat} (found : c.lookup d cur addr = some i) :
    ∃ mem, c.areas[i]? = some mem := by
  have covered : ∀ o : Option Nat, o.any (c.covers d addr) = true → o = some i → ∃ mem, c.areas[i]? = some mem := by
    rintro _ covers rfl
    obtain ⟨mem, present, _⟩ := (Option.any_eq_true _ _).mp (show c.covers d addr i = true from covers)
    exact ⟨mem, present⟩
  unfold Config.lookup at found
  split at found
  · next mc => exact covered _ mc found
  · split at found
    · next cached => exact covered _ cached found
    · obtain ⟨inside, _⟩ := List.findIdx?_eq_some_iff_getElem.mp found
      exact ⟨_, List.getElem?_eq_getElem inside⟩

theorem lookup_none_of_bind {d : δ} {cur : Option Nat} {addr : Word} (unmapped : (c.lookup d cur addr).bind (c.areas[·]?) = none) :
    c.lookup d cur addr = none := by
  cases found : c.lookup d cur addr with
  | none => rfl
  | some i =>
    obtain ⟨mem, present⟩ := lookup_present found
    rw [found, Option.bind_some, present] at unmapped
    cases unmapped

theorem SteadyLine.read (steady : SteadyLine c place s.dev (b :: line)) {a : Word × Bool}
    (ran : evalsimMem c .word b 0 s = .ok (a, s')) :
    Told s s' (reported s ((c.readFault .word (place b)).toList.map (BusFault.ea 0 s.curVadd))) ∧ s'.dev = s.dev ∧
      s'.curVadd = s.curVadd ∧
      (a.2 = false ↔ c.readFault .word (place b) = some .unmapped) := by
  have told := evalsimMem_told ran
  have here := steady.found b List.mem_cons_self s.curArea
  rw [here] at told
  refine ⟨told, ?_⟩
  rcases evalsimMem_cases ran with ⟨unmapped, rfl, rfl⟩ | ⟨mem, mapped, ⟨callback, rfl, rfl⟩ | ⟨f, callback, events, rfl⟩⟩
  · have found : (place b).bind (c.areas[·]?) = none := here ▸ unmapped
    refine ⟨(Untouched.exceptHandle _ _ _).dev, exceptHandle_curVadd _ _ _, iff_of_true ?_ (readFault_unmapped found)⟩
    exact congrArg Option.isSome (lookup_none_of_bind unmapped)
  · have found : (place b).bind (c.areas[·]?) = some mem := here ▸ mapped
    refine ⟨(Untouched.exceptHandle _ _ _).dev, exceptHandle_curVadd _ _ _, ?_⟩
    rw [readFault_mapped found, callback]
    refine iff_of_false (fun none => ?_) nofun
    exact absurd ((bind_isSome mapped).symm.trans none) nofun
  · have found : (place b).bind (c.areas[·]?) = some mem := here ▸ mapped
    have quiet := steady.reads b List.mem_cons_self mem found f callback (b &&& mem.sizeMask s.dev)
    rw [readFault_mapped found, callback]
    rw [show (verifyMemoryarea c b s).dev = s.dev from rfl, quiet] at events
    cases events
    refine ⟨rfl, rfl, iff_of_false (fun none => ?_) nofun⟩
    exact absurd ((bind_isSome mapped).symm.trans none) nofun

theorem reported_append (s : Machine δ) (later eas : List Word) : reported s later ++ reported s eas = reported s (later ++ eas) := by
  unfold reported
  split <;> rfl

/-- A refill is told by its first read and by the refill of the rest. The cache between them does not
matter. -/
theorem lineTells_cons (s₂ : Machine δ) (steady : SteadyLine c place s.dev (b :: line)) {a : Word × Bool} {s₁ : Machine δ}
    (ran : evalsimMem c .word b 0 s = .ok (a, s₁)) (entries : s₂.entries = s₁.entries) (sprs : s₂.sprs = s₁.sprs)
    (dev : s₂.dev = s₁.dev) (curVadd : s₂.curVadd = s₁.curVadd)
    (rest : if a.2 then SteadyLine c place s₂.dev line → Told s₂ s' (lineTells c place line s₂) else s' = s₂) :
    Told s s' (lineTells c place (b :: line) s) := by
  obtain ⟨told, dev₁, curVadd₁, ends⟩ := steady.read ran
  have told : Told s s₂ _ := told.trans (.of_same entries sprs)
  rw [List.nil_append] at told
  have later : a.2 = true → Told s₂ s' (reported s ((c.refillFaults place line).map (BusFault.ea 0 s.curVadd)).reverse) := by
    intro goes
    rw [goes, if_pos rfl, lineTells, curVadd, curVadd₁, reported_congr told.dsr, dev, dev₁] at rest
    exact rest steady.tail
  have stops : a.2 = false → s' = s₂ := by
    intro stopped
    rwa [stopped, if_neg (by decide)] at rest
  unfold lineTells Config.refillFaults
  cases fault : c.readFault .word (place b) with
  | none =>
    rw [fault, Option.toList_none, List.map_nil, reported_nil] at told
    have goes : a.2 = true := Bool.eq_true_of_not_eq_false fun stopped => by
      cases fault.symm.trans (ends.mp stopped)
    have whole := told.trans (later goes)
    rwa [List.append_nil] at whole
  | some kind =>
    rw [fault, Option.toList_some, List.map_singleton] at told
    cases kind with
    | unmapped =>
      rw [stops (ends.mpr fault)]
      exact told
    | refused =>
      have goes : a.2 = true := Bool.eq_true_of_not_eq_false fun stopped => by
        cases fault.symm.trans (ends.mp stopped)
      have whole := told.trans (later goes)
      rw [reported_append] at whole
      simpa only [List.map_cons, List.reverse_cons] using whole

end

/-! ### The caches -/

namespace Config

/-- The words that a refill of the data cache reads. -/
def dcWords (c : Config δ) (dataaddr : Word) : Nat → Nat → List Word
  | 0, _ => []
  | more + 1, i => c.dc.refillAddr dataaddr i :: c.dcWords dataaddr more (i + 4)

def dcLine (c : Config δ) (dataaddr : Word) : List Word := c.dcWords dataaddr (c.dc.blocksize / 4) 0

/-- The words that a refill of the instruction cache reads. -/
def icWords (c : Config δ) (fetchaddr : Word) : Nat → Nat → List Word
  | 0, _ => []
  | more + 1, reloadAddr =>
    ((fetchaddr &&& ~~~(BitVec.ofNat 32 c.ic.blocksize - 1)) ||| BitVec.ofNat 32 (c.ic.offset reloadAddr)) ::
      c.icWords fetchaddr more (reloadAddr + 4)

def icLine (c : Config δ) (fetchaddr : Word) : List Word := c.icWords fetchaddr (c.ic.blocksize / 4) (c.ic.offset fetchaddr.toNat)

end Config

section
variable {c : Config δ} {opd : Operands δ} {s s' : Machine δ} {w : Width} {a virtAddr : Word} {place : Word → Option Nat}

theorem lineTells_nil (s : Machine δ) : Told s s (lineTells c place [] s) := by
  rw [lineTells, Config.refillFaults, List.map_nil, List.reverse_nil, reported_nil]
  exact .refl s

theorem dcRefill_told {way more i : Nat} {done : Bool} (steady : SteadyLine c place s.dev (c.dcWords a more i))
    (ran : runP c opd (dcRefill c a way more i) s = .ok (done, s')) : Told s s' (lineTells c place (c.dcWords a more i) s) := by
  induction more generalizing i s with
  | zero =>
    cases ran
    exact lineTells_nil _
  | succ more ih =>
    obtain ⟨got, s₁, read, rest⟩ := Programs.bind_ok ran
    let s₂ := { s₁ with dc := Dc.setLine (c.dc.set a) way (c.dc.index (a + BitVec.ofNat 32 i)) got.1 s₁.dc }
    have rest : runP c opd (if got.2 then dcRefill c a way more (i + 4) else
      act (.setDc (Dc.clear (c.dc.set a) way)) >>= fun _ => pure false) s₂ = .ok (done, s') := rest
    cases mapped : got.2 with
    | true =>
      rw [mapped, if_pos rfl] at rest
      refine lineTells_cons s₂ steady read rfl rfl rfl rfl ?_
      rw [mapped, if_pos rfl]
      exact fun steady₂ => ih steady₂ rest
    | false =>
      rw [mapped, if_neg (by decide)] at rest
      obtain rfl : { s₂ with dc := Dc.clear (c.dc.set a) way s₂.dc } = s' := by
        cases rest
        rfl
      refine lineTells_cons { s₂ with dc := Dc.clear (c.dc.set a) way s₂.dc } steady read rfl rfl rfl rfl ?_
      rw [mapped, if_neg (by decide)]

theorem icRefill_told {way more reloadAddr : Nat} {done : Bool} (steady : SteadyLine c place s.dev (c.icWords a more reloadAddr))
    (ran : icRefill c a way more reloadAddr s = .ok (done, s')) : Told s s' (lineTells c place (c.icWords a more reloadAddr) s) := by
  induction more generalizing reloadAddr s with
  | zero =>
    cases ran
    exact lineTells_nil _
  | succ more ih =>
    obtain ⟨got, s₁, read, rest⟩ := Programs.bind_ok ran
    rw [Programs.modify_bind] at rest
    let s₂ := { s₁ with ic := s₁.ic.write32 (way * c.ic.blocksize + c.ic.offset reloadAddr) got.1 }
    cases mapped : got.2 with
    | true =>
      rw [mapped, if_pos rfl] at rest
      refine lineTells_cons s₂ steady read rfl rfl rfl rfl ?_
      rw [mapped, if_pos rfl]
      exact fun steady₂ => ih steady₂ rest
    | false =>
      rw [mapped, if_neg (by decide)] at rest
      obtain rfl : { s₂ with ic := s₂.ic.clear way } = s' := by
        cases rest
        rfl
      refine lineTells_cons { s₂ with ic := s₂.ic.clear way } steady read rfl rfl rfl rfl ?_
      rw [mapped, if_neg (by decide)]

/-- The operations that neither raise an exception nor reach an area. -/
def Silent : Op → Prop
  | .view | .tlb .. | .touchTlb .. | .setDataCi _ | .setInsnCi _ | .addMemCycles _ | .pcuCountEvent _ | .checkDebugUnit .. |
      .setDc _ => True
  | _ => False

theorem Silent.keeps {o : Op} (is : Silent o) : Programs.Keeps Local (o.sem c opd) := by
  intro s a s' ran
  cases o with
  | touchTlb side set way =>
    cases ran
    exact touchTlb_local _ side set way _
  | pcuCountEvent event =>
    cases ran
    exact pcuCountEvent_local event _
  | checkDebugUnit action udata =>
    cases ran
    exact checkDebugUnit_local c action udata _
  | view | tlb | setDataCi | setInsnCi | addMemCycles | setDc =>
    cases ran
    exact ⟨rfl, rfl, rfl, rfl, rfl, rfl, id, rfl, rfl, .refl _, rfl⟩
  | _ => exact is.elim

theorem dcRefill_uses {allowed : Op → Prop} {way : Nat} (reads : ∀ b, allowed (.evalsimMem .word b 0))
    (lines : ∀ index value, allowed (.setDc (Dc.setLine (c.dc.set a) way index value)))
    (clear : allowed (.setDc (Dc.clear (c.dc.set a) way))) (more i : Nat) : (dcRefill c a way more i).Uses allowed := by
  induction more generalizing i with
  | zero => trivial
  | succ more ih =>
    refine act_uses (reads _) fun got => act_uses (lines _ _) fun _ => ?_
    cases got.2 with
    | true => exact ih (i + 4)
    | false => exact act_uses clear fun _ => trivial

theorem Silent.runP {α : Type} {p : P α} (uses : p.Uses Silent) : Programs.Keeps Local (runP c opd p) :=
  Programs.Uses.run Local.refl (fun _ _ _ => Local.trans) (fun _ is => is.keeps) uses

/-- What a read past the cache reports. -/
def readTells (c : Config δ) (w : Width) (a virtAddr : Word) (s : Machine δ) : List Word :=
  reported s ((c.readFault w (c.lookup s.dev s.curArea a)).toList.map (BusFault.ea virtAddr s.curVadd))

theorem dcSimulateRead_told {value : BitVec w.bits}
    (steady : dcActive s.view = true → c.dc.findWay s.dc a = none → SteadyLine c place s.dev (c.dcLine a))
    (ran : runP c opd (dcSimulateRead c w a virtAddr) s = .ok (value, s')) :
    Told s s' (if dcActive s.view then if (c.dc.findWay s.dc a).isSome then [] else lineTells c place (c.dcLine a) s
      else readTells c w a virtAddr s) := by
  rw [dcSimulateRead, runP_view] at ran
  cases active : dcActive s.view with
  | false =>
    rw [active, Bool.not_false, if_pos rfl] at ran
    obtain ⟨got, s₁, read, last⟩ := Programs.bind_ok ran
    rw [if_neg (by decide)]
    cases last
    exact evalsimMem_told read
  | true =>
    rw [active, Bool.not_true, if_neg (by decide)] at ran
    rw [if_pos rfl]
    cases hit : c.dc.findWay s.dc a with
    | some way =>
      simp only [show c.dc.findWay s.view.dc a = some way from hit] at ran
      cases ran
      exact .of_same rfl rfl
    | none =>
      simp only [show c.dc.findWay s.view.dc a = none from hit] at ran
      rw [runP_bind] at ran
      obtain ⟨done, s₁, refill, last⟩ := Programs.bind_ok ran
      have told := dcRefill_told (steady active hit) refill
      rw [Option.isSome_none, if_neg (by decide)]
      refine (told.trans ?_ : Told s s' ([] ++ _))
      refine .of_local (Silent.runP ?_ _ _ _ last)
      split
      · refine ⟨trivial, fun _ => ⟨trivial, fun _ => ?_⟩⟩
        cases c.pcuEnabled
        · exact ⟨trivial, fun _ => trivial⟩
        · exact ⟨trivial, fun _ => ⟨trivial, fun _ => trivial⟩⟩
      · trivial

/-- The devices behind a store. -/
def stored (c : Config δ) (w : Width) (a : Word) (value : BitVec w.bits) (s : Machine δ) : δ × List DevEvent :=
  match (c.lookup s.dev s.curArea a).bind (c.areas[·]?) with
  | none => (s.dev, [])
  | some mem =>
    match mem.writefunc w with
    | none => (s.dev, [])
    | some f => f (a &&& mem.sizeMask s.dev) value s.dev

theorem setsimMem_cacheKept {value : BitVec w.bits} {mapped : Bool} (ran : setsimMem c w a virtAddr value s = .ok (mapped, s')) :
    CacheKept s s' := by
  have looked : CacheKept s (verifyMemoryarea c a s) := .of_same rfl rfl rfl
  rcases setsimMem_cases ran with ⟨_, rfl, _⟩ | ⟨mem, _, ⟨_, _, rfl⟩ | ⟨f, _, events, _⟩⟩
  · exact looked.trans (.exceptHandle _ _ _)
  · refine CacheKept.trans ?_ (.exceptHandle _ _ _)
    exact .of_same rfl rfl rfl
  · refine CacheKept.trans ?_ (Served.devEvents events).kept
    exact .of_same rfl rfl rfl

/-- A store to an area without events leaves `cur_vadd`, and tells that there is an area. -/
theorem setsimMem_mapped_iff {value : BitVec w.bits} {mapped : Bool} (ran : setsimMem c w a virtAddr value s = .ok (mapped, s')) :
    ((c.lookup s.dev s.curArea a).isSome = false → mapped = false) ∧
      ((c.lookup s.dev s.curArea a).isSome = true → (stored c w a value s).2 = [] →
        mapped = true ∧ s'.dev = (stored c w a value s).1 ∧ s'.curVadd = virtAddr) := by
  unfold stored
  rcases setsimMem_cases ran with ⟨area, rfl, rfl⟩ | ⟨mem, area, ⟨callback, rfl, rfl⟩ | ⟨f, callback, events, rfl⟩⟩
  · have found : (c.lookup s.dev s.curArea a).bind (c.areas[·]?) = none := area
    have none := lookup_none_of_bind found
    refine ⟨fun _ => congrArg Option.isSome none, fun some => ?_⟩
    rw [none] at some
    cases some
  · have found : (c.lookup s.dev s.curArea a).bind (c.areas[·]?) = some mem := area
    have some := bind_isSome found
    refine ⟨fun none => absurd (some.symm.trans none) nofun, fun _ _ => ⟨some, ?_, exceptHandle_curVadd _ _ _⟩⟩
    rw [found]
    simp only [callback]
    exact (Untouched.exceptHandle _ _ _).dev
  · have found : (c.lookup s.dev s.curArea a).bind (c.areas[·]?) = some mem := area
    have some := bind_isSome found
    refine ⟨fun none => absurd (some.symm.trans none) nofun, fun _ quiet => ?_⟩
    rw [found] at quiet ⊢
    simp only [callback] at quiet ⊢
    have events : devEvents c (f (a &&& mem.sizeMask s.dev) value s.dev).2 _ = .ok ((), s') := events
    rw [quiet] at events
    cases events
    exact ⟨some, rfl, rfl⟩

/-- A cached store that meets an area but no line of its address. -/
def storeRefills (c : Config δ) (a : Word) (s : Machine δ) : Bool :=
  dcActive s.view && (c.lookup s.dev s.curArea a).isSome && (c.dc.findWay s.dc a).isNone

theorem dcSimulateWrite_told {value : BitVec w.bits}
    (steady : storeRefills c a s = true → (stored c w a value s).2 = [] ∧ SteadyLine c place (stored c w a value s).1 (c.dcLine a))
    (ran : runP c opd (dcSimulateWrite c w a virtAddr value) s = .ok ((), s')) :
    Told s s' ((if storeRefills c a s then reported s ((c.refillFaults place (c.dcLine a)).map (BusFault.ea 0 virtAddr)).reverse
      else []) ++
      reported s ((c.writeFault w (c.lookup s.dev s.curArea a)).toList.map (BusFault.ea virtAddr virtAddr))) := by
  obtain ⟨mapped, s₁, written, rest⟩ := Programs.bind_ok ran
  have told := setsimMem_told written
  have kept := setsimMem_cacheKept written
  obtain ⟨unmapped, there⟩ := setsimMem_mapped_iff written
  refine Told.trans told ?_
  have rest : runP c opd (if !dcActive s₁.view || !mapped then pure () else _) s₁ = .ok ((), s') := rest
  by_cases skipped : (!dcActive s₁.view || !mapped) = true
  · rw [if_pos skipped] at rest
    have spared : ¬ storeRefills c a s = true := by
      intro refills
      have quiet := (steady refills).1
      unfold storeRefills at refills
      simp only [Bool.and_eq_true] at refills
      rw [kept.active, refills.1.1, (there refills.1.2 quiet).1] at skipped
      cases skipped
    rw [if_neg spared]
    cases rest
    exact .refl _
  · rw [if_neg skipped] at rest
    have both : ∀ x y : Bool, ¬ (!x || !y) = true → x = true ∧ y = true := by decide
    obtain ⟨active, goes⟩ := both _ _ skipped
    have active : dcActive s.view = true := kept.active.symm.trans active
    have found : (c.lookup s.dev s.curArea a).isSome = true := Bool.eq_true_of_not_eq_false fun none => by
      cases (unmapped none).symm.trans goes
    have ways : c.dc.findWay s₁.view.dc a = c.dc.findWay s.dc a := congrArg (c.dc.findWay · a) kept.dc
    unfold storeRefills at steady ⊢
    rw [active, found] at steady ⊢
    cases hit : c.dc.findWay s.dc a with
    | some way =>
      simp only [ways, hit] at rest
      cases rest
      exact .of_same rfl rfl
    | none =>
      rw [hit] at steady
      obtain ⟨quiet, line⟩ := steady rfl
      obtain ⟨_, dev, curVadd⟩ := there found quiet
      simp only [ways, hit] at rest
      rw [runP_bind] at rest
      obtain ⟨done, s₂, refill, last⟩ := Programs.bind_ok rest
      have filled := dcRefill_told (dev ▸ line) refill
      rw [lineTells, curVadd, reported_congr told.dsr] at filled
      refine (filled.trans ?_ : Told s₁ s' ([] ++ _))
      refine .of_local (Silent.runP ?_ _ _ _ last)
      split
      · refine ⟨trivial, fun _ => ⟨trivial, fun _ => ?_⟩⟩
        cases c.pcuEnabled
        · trivial
        · exact ⟨trivial, fun _ => trivial⟩
      · trivial

/-- What a read through the instruction cache reports. -/
theorem icSimulateFetch_told {value : Word}
    (steady : icActive s = true → c.ic.findWay s.ic a = none → SteadyLine c place s.dev (c.icLine a))
    (ran : icSimulateFetch c a virtAddr s = .ok (value, s')) :
    Told s s' (if icActive s then if (c.ic.findWay s.ic a).isSome then [] else lineTells c place (c.icLine a) s
      else readTells c .word a virtAddr s) := by
  rw [icSimulateFetch, Programs.get_bind] at ran
  cases active : icActive s with
  | false =>
    rw [active, Bool.not_false, if_pos rfl] at ran
    obtain ⟨got, s₁, read, last⟩ := Programs.bind_ok ran
    rw [if_neg (by decide)]
    cases last
    exact evalsimMem_told read
  | true =>
    rw [active, Bool.not_true, if_neg (by decide)] at ran
    rw [if_pos rfl]
    cases hit : c.ic.findWay s.ic a with
    | some way =>
      simp only [hit] at ran
      cases ran
      exact .of_same rfl rfl
    | none =>
      simp only [hit, Programs.set_bind] at ran
      obtain ⟨done, s₁, refill, last⟩ := Programs.bind_ok ran
      let claimed : Machine δ := { s with ic := c.ic.claim a (c.ic.minway s.ic a) s.ic }
      have told : Told claimed s₁ (lineTells c place (c.icLine a) claimed) := icRefill_told (steady active hit) refill
      have told : Told s s₁ (lineTells c place (c.icLine a) s ++ []) := Told.trans (t := claimed) (.of_same rfl rfl) told
      rw [List.append_nil] at told
      rw [Option.isSome_none, if_neg (by decide)]
      refine (told.trans ?_ : Told s s' ([] ++ _))
      cases done with
      | false =>
        cases last
        exact .refl _
      | true =>
        rw [if_pos rfl, Programs.modify_bind] at last
        obtain ⟨_, s₂, counts, last⟩ := Programs.bind_ok last
        cases last
        unfold countEvent at counts
        have waited : Told s₁ { s₁ with memCycles := s₁.memCycles + c.ic.missdelay } [] := .of_same rfl rfl
        refine (waited.trans ?_ : Told _ _ ([] ++ []))
        split at counts
        · cases counts
          exact .of_local (pcuCountEvent_local _ _)
        · cases counts
          exact .refl _

end

end Or1ksim.Cpu
