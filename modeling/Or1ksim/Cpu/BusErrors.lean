import Or1ksim.Cpu.Reports

/-!
# The address of a bus error

A load, a store or a fetch that raises a bus error. The address that `EEAR` gets came as an argument,
from `cur_vadd`, or is the zero of a refill.
-/

namespace Or1ksim.Cpu

variable {δ : Type}

/-! ### The way to the memory -/

/-- What a translation does: it raises no bus error, and leaves an exception of its own pending. -/
structure Detour (s t : Machine δ) : Prop where
  entries : ∃ new, t.entries = new ++ s.entries ∧ ∀ e ∈ new, e.except ≠ .buserr
  dsr : t.sprs sprDsr = s.sprs sprDsr
  pending : s.exceptPending = true → t.exceptPending = true
  quiet : t.exceptPending = false → t.entries = s.entries ∧ t.sprs sprEearBase = s.sprs sprEearBase

namespace Detour

variable {s t u : Machine δ}

theorem of_local (kept : Local s t) : Detour s t where
  entries := ⟨[], kept.entries, nofun⟩
  dsr := kept.sprs.dsr
  pending := kept.exceptPending.trans
  quiet _ := ⟨kept.entries, kept.sprs.rest _ (by decide) (by decide) (by decide) (by decide)⟩

theorem trans (first : Detour s t) (second : Detour t u) : Detour s u where
  entries := by
    obtain ⟨new, entries, others⟩ := first.entries
    obtain ⟨new', entries', others'⟩ := second.entries
    refine ⟨new' ++ new, by rw [entries', entries, List.append_assoc], fun e member => ?_⟩
    rcases List.mem_append.mp member with later | earlier
    · exact others' e later
    · exact others e earlier
  dsr := second.dsr.trans first.dsr
  pending pending := second.pending (first.pending pending)
  quiet none := by
    have middle : t.exceptPending = false := Bool.eq_false_iff.mpr fun pending => by
      cases (second.pending pending).symm.trans none
    obtain ⟨entries, eear⟩ := first.quiet middle
    obtain ⟨entries', eear'⟩ := second.quiet none
    exact ⟨entries'.trans entries, eear'.trans eear⟩

theorem exceptHandle {e : Exception} (other : e ≠ .buserr) (ea : Word) (s : Machine δ) : Detour s (exceptHandle e ea s) := by
  rcases exceptHandle_cases e ea s with ⟨_, kept⟩ | ⟨left, _, entry, is, _, entries⟩
  · exact of_local kept
  · have pending := exceptHandle_pending ea left
    refine ⟨⟨[entry], entries, fun f member => ?_⟩, exceptHandle_dsr e ea s, fun _ => pending, fun none => ?_⟩
    · rw [List.mem_singleton.mp member, is]
      exact other
    · cases pending.symm.trans none

end Detour

/-- The operations of a translation. -/
def Translating (o : Op) : Prop := Silent o ∨ ∃ e ea, o = .exceptHandle e ea ∧ e ≠ .buserr

section
variable {c : Config δ} {opd : Operands δ} {s s' t : Machine δ}

theorem Translating.keeps {o : Op} (is : Translating o) : Programs.Keeps Detour (o.sem c opd) := by
  intro s a s' ran
  rcases is with silent | ⟨e, ea, rfl, other⟩
  · exact .of_local (silent.keeps _ _ _ ran)
  · cases ran
    exact .exceptHandle other ea _

theorem findTlbmr_uses (side : Side) (mmu : Mmu) (virtaddr : Word) (ways : List (Fin 4)) :
    (findTlbmr side mmu virtaddr ways).Uses Translating := by
  induction ways with
  | nil => trivial
  | cons way ways ih =>
    refine act_uses (.inl trivial) fun entry => ?_
    split
    · trivial
    · exact ih

theorem dmmuTranslate_uses (virtaddr : Word) (write : Bool) : (dmmuTranslate c virtaddr write).Uses Translating := by
  refine act_uses (.inl trivial) fun v => ?_
  split
  · exact act_uses (.inl trivial) fun _ => trivial
  · refine Programs.Uses.bind (findTlbmr_uses _ _ _ _) fun found => ?_
    cases found with
    | none =>
      refine act_uses (.inl trivial) fun _ => act_uses (.inr ⟨_, _, rfl, nofun⟩) fun _ => ?_
      cases c.pcuEnabled
      · trivial
      · exact act_uses (.inl trivial) fun _ => trivial
    | some entry =>
      refine act_uses (.inl trivial) fun _ => act_uses (.inl trivial) fun _ => act_uses (.inl trivial) fun _ => ?_
      cases dtlbPermits v.sr entry.2 write
      · exact act_uses (.inr ⟨_, _, rfl, nofun⟩) fun _ => trivial
      · trivial

theorem immuTranslate_uses (virtaddr : Word) : (immuTranslate c virtaddr).Uses Translating := by
  refine act_uses (.inl trivial) fun v => ?_
  split
  · exact act_uses (.inl trivial) fun _ => trivial
  · refine Programs.Uses.bind (findTlbmr_uses _ _ _ _) fun found => ?_
    cases found with
    | none =>
      refine act_uses (.inl trivial) fun _ => act_uses (.inr ⟨_, _, rfl, nofun⟩) fun _ => ?_
      cases c.pcuEnabled
      · trivial
      · exact act_uses (.inl trivial) fun _ => trivial
    | some entry =>
      refine act_uses (.inl trivial) fun _ => act_uses (.inl trivial) fun _ => act_uses (.inl trivial) fun _ => ?_
      cases itlbPermits v.sr entry.2
      · exact act_uses (.inr ⟨_, _, rfl, nofun⟩) fun _ => trivial
      · trivial

theorem translate_detour {p : P Word} (uses : p.Uses Translating) {phys : Word} (ran : runP c opd p s = .ok (phys, t)) : Detour s t := by
  have keeps : Programs.Keeps Detour (runP c opd p) :=
    Programs.Uses.run (R := Detour) (fun s => .of_local (.refl s)) (fun _ _ _ => Detour.trans) (fun _ is => is.keeps) uses
  exact keeps _ _ _ ran

/-- What the counters and the watchpoints leave alone. -/
structure Beside (s t : Machine δ) : Prop where
  dev : t.dev = s.dev
  curArea : t.curArea = s.curArea
  curVadd : t.curVadd = s.curVadd
  dc : t.dc = s.dc
  ic : t.ic = s.ic
  dataCi : t.dataCi = s.dataCi
  insnCi : t.insnCi = s.insnCi

namespace Beside

theorem refl (s : Machine δ) : Beside s s := ⟨rfl, rfl, rfl, rfl, rfl, rfl, rfl⟩

theorem trans {u : Machine δ} (first : Beside s t) (second : Beside t u) : Beside s u where
  dev := second.dev.trans first.dev
  curArea := second.curArea.trans first.curArea
  curVadd := second.curVadd.trans first.curVadd
  dc := second.dc.trans first.dc
  ic := second.ic.trans first.ic
  dataCi := second.dataCi.trans first.dataCi
  insnCi := second.insnCi.trans first.insnCi

theorem pcuCountEvent (event : Word) (s : Machine δ) : Beside s (pcuCountEvent event s) := by
  unfold Cpu.pcuCountEvent
  induction List.range 8 generalizing s with
  | nil => exact refl s
  | cons i is ih =>
    rw [List.foldl_cons]
    refine trans ?_ (ih _)
    split <;> exact ⟨rfl, rfl, rfl, rfl, rfl, rfl, rfl⟩

theorem checkDebugUnit (c : Config δ) (action : DebugAction) (udata : Word) (s : Machine δ) :
    Beside s (checkDebugUnit c action udata s) := by
  unfold Cpu.checkDebugUnit calculateWatchpoints countWatchpoints
  dsimp only
  split
  · split
    · split <;> exact ⟨rfl, rfl, rfl, rfl, rfl, rfl, rfl⟩
    · exact ⟨rfl, rfl, rfl, rfl, rfl, rfl, rfl⟩
  · exact ⟨rfl, rfl, rfl, rfl, rfl, rfl, rfl⟩

end Beside

/-- What an access does before it comes to the memory. -/
structure Passed (s t : Machine δ) : Prop where
  kept : Local s t
  beside : Beside s t

namespace Passed

theorem refl (s : Machine δ) : Passed s s := ⟨.refl s, .refl s⟩

theorem trans {u : Machine δ} (first : Passed s t) (second : Passed t u) : Passed s u :=
  ⟨first.kept.trans second.kept, first.beside.trans second.beside⟩

theorem bit (passed : Passed s t) {bit : Word} (other : ~~~srFlags &&& bit = bit) : has t.sr bit = has s.sr bit :=
  passed.kept.sprs.bit other

theorem dcActive (passed : Passed s t) : dcActive t.view = dcActive s.view := by
  have upr := passed.kept.sprs.rest sprUpr (by decide) (by decide) (by decide) (by decide)
  unfold Cpu.dcActive Machine.view
  dsimp only
  rw [upr, passed.bit (by decide), passed.beside.dataCi]

theorem icActive (passed : Passed s t) : icActive t = icActive s := by
  have upr := passed.kept.sprs.rest sprUpr (by decide) (by decide) (by decide) (by decide)
  unfold Cpu.icActive
  rw [upr, passed.bit (by decide), passed.beside.insnCi]

theorem readTells (passed : Passed s t) (c : Config δ) (w : Width) (a virtAddr : Word) :
    readTells c w a virtAddr t = readTells c w a virtAddr s := by
  unfold Cpu.readTells
  rw [passed.beside.dev, passed.beside.curArea, passed.beside.curVadd, reported_congr passed.kept.sprs.dsr]

theorem lineTells (passed : Passed s t) (c : Config δ) (place : Word → Option Nat) (line : List Word) :
    lineTells c place line t = lineTells c place line s := by
  unfold Cpu.lineTells
  rw [passed.beside.curVadd, reported_congr passed.kept.sprs.dsr]

theorem storeRefills (passed : Passed s t) (c : Config δ) (a : Word) : storeRefills c a t = storeRefills c a s := by
  unfold Cpu.storeRefills
  rw [passed.dcActive, passed.beside.dev, passed.beside.curArea, passed.beside.dc]

theorem stored (passed : Passed s t) (c : Config δ) (w : Width) (a : Word) (value : BitVec w.bits) :
    stored c w a value t = stored c w a value s := by
  unfold Cpu.stored
  rw [passed.beside.dev, passed.beside.curArea]

end Passed

end

/-! ### Accesses of the core -/

inductive CoreAccess where
  | load (w : Width) (memaddr : Word)
  | store (w : Width) (memaddr : Word) (value : BitVec w.bits)
  | fetch (memaddr : Word)

namespace CoreAccess

variable {c : Config δ}

def memaddr : CoreAccess → Word
  | .load _ a => a
  | .store _ a _ => a
  | .fetch a => a

def run (c : Config δ) : CoreAccess → Sim δ Unit
  | .load w a => do
    let _ ← runP c noOperands (evalMem c w a)
    pure ()
  | .store w a value => runP c noOperands (setMem c w a value)
  | .fetch a => do
    let _ ← evalInsn c a
    pure ()

def translate (c : Config δ) : CoreAccess → P Word
  | .load _ a => dmmuTranslate c a false
  | .store _ a _ => dmmuTranslate c a true
  | .fetch a => immuTranslate c a

def misaligned : CoreAccess → Bool
  | .load w a => has a w.alignMask
  | .store w a _ => has a w.alignMask
  | .fetch _ => false

/-- The width that a read of the memory past the cache has. -/
def readWidth : CoreAccess → Option Width
  | .load w _ => some w
  | .store .. => none
  | .fetch _ => some .word

/-- The access goes on to the memory, at the address that the translation has given it. -/
def Reaches (c : Config δ) (x : CoreAccess) (s : Machine δ) (phys : Word) (t : Machine δ) : Prop :=
  x.misaligned = false ∧ runP c noOperands (x.translate c) s = .ok (phys, t) ∧ t.exceptPending = false

/-- The cache of the access is on. -/
def cached (c : Config δ) (t : Machine δ) : CoreAccess → Bool
  | .fetch _ => c.ic.enabled && icActive t
  | _ => c.dc.enabled && dcActive t.view

/-- The access fills a line. -/
def refills (c : Config δ) (phys : Word) (t : Machine δ) : CoreAccess → Bool
  | .load .. => c.dc.enabled && dcActive t.view && (c.dc.findWay t.dc phys).isNone
  | .store .. => c.dc.enabled && storeRefills c phys t
  | .fetch _ => c.ic.enabled && icActive t && (c.ic.findWay t.ic phys).isNone

/-- The words of the line. -/
def line (c : Config δ) (phys : Word) : CoreAccess → List Word
  | .fetch _ => c.icLine phys
  | _ => c.dcLine phys

/-- The devices as the refill finds them, and the events on the way. -/
def behind (c : Config δ) (phys : Word) (t : Machine δ) : CoreAccess → δ × List DevEvent
  | .store w _ value => stored c w phys value t
  | _ => (t.dev, [])

/-- What stands in `cur_vadd` during the refill. -/
def vadd (t : Machine δ) : CoreAccess → Word
  | .store _ a _ => a
  | _ => t.curVadd

/-- The areas where they were before the access. -/
def place (c : Config δ) (t : Machine δ) (b : Word) : Option Nat := c.lookup t.dev none b

/-- A line that the access fills is one of memory: the access does not move the areas of its words, and
a read of one changes nothing. -/
def Steady (c : Config δ) (x : CoreAccess) (s : Machine δ) : Prop :=
  ∀ phys t, x.Reaches c s phys t → x.refills c phys t = true →
    (x.behind c phys t).2 = [] ∧ SteadyLine c (place c t) (x.behind c phys t).1 (x.line c phys)

/-- The condition on an access that comes to the memory. -/
structure Right (c : Config δ) (x : CoreAccess) (phys : Word) (t : Machine δ) : Prop where
  uncached : x.cached c t = false → ∀ w, x.readWidth = some w →
    c.readFault w (c.lookup t.dev t.curArea phys) = some .refused → t.curVadd = x.memaddr
  unmapped : x.refills c phys t = true → .unmapped ∈ c.refillFaults (place c t) (x.line c phys) → x.memaddr = 0
  refused : x.refills c phys t = true → .refused ∈ c.refillFaults (place c t) (x.line c phys) → x.vadd t = x.memaddr

/-- The condition under which the bus errors of an access report its address: the debug unit takes
them; or a read past the cache meets no area without a function, or finds its address in `cur_vadd`;
and a refill meets no word without an area, or its address is zero, and none in an area without a
function, or the address stands in `cur_vadd`. -/
def RightAddress (c : Config δ) (x : CoreAccess) (s : Machine δ) : Prop :=
  ∀ phys t, x.Reaches c s phys t → diverted t .buserr = true ∨ x.Right c phys t

end CoreAccess

/-- Every bus error between two states was entered with the address, and `EEAR` holds it at the end. -/
def ReportsAddress (a : Word) (s s' : Machine δ) : Prop :=
  ∀ new, s'.entries = new ++ s.entries → ∀ e ∈ new, e.except = .buserr → e.ea = a ∧ s'.sprs sprEearBase = a

section
variable {c : Config δ} {s s' t u : Machine δ} {a : Word}

theorem Told.reports_iff {eas : List Word} (told : Told s s' eas) : ReportsAddress a s s' ↔ ∀ ea ∈ eas, ea = a := by
  obtain ⟨new, entries, rfl⟩ := told.entries
  have eear := told.eear
  constructor
  · intro reports ea member
    obtain ⟨e, among, rfl⟩ := List.mem_map.mp member
    obtain ⟨inside, is⟩ := List.mem_filter.mp among
    exact (reports new entries e inside (of_decide_eq_true is)).1
  · intro all new' entries' e member is
    obtain rfl : new' = new := List.append_cancel_right (entries'.symm.trans entries)
    have among : e ∈ new'.filter fun e => e.except = .buserr := List.mem_filter.mpr ⟨member, decide_eq_true is⟩
    refine ⟨all _ (List.mem_map.mpr ⟨e, among, rfl⟩), ?_⟩
    cases list : new'.filter fun e => e.except = .buserr with
    | nil =>
      rw [list] at among
      cases among
    | cons f rest =>
      rw [list] at eear all
      exact eear.trans (all _ List.mem_cons_self)

theorem Detour.reports (detour : Detour s s') : ReportsAddress a s s' := by
  obtain ⟨new, entries, others⟩ := detour.entries
  intro new' entries' e member is
  obtain rfl : new' = new := List.append_cancel_right (entries'.symm.trans entries)
  exact absurd is (others e member)

theorem forall_reported {eas : List Word} : (∀ ea ∈ reported t eas, ea = a) ↔ diverted t .buserr = true ∨ ∀ ea ∈ eas, ea = a := by
  unfold reported
  split
  · next taken => exact iff_of_true nofun (.inl taken)
  · next left => rw [or_iff_right left]

theorem forall_faults {faults : List BusFault} {vaddr curVadd : Word} :
    (∀ ea ∈ (faults.map (BusFault.ea vaddr curVadd)).reverse, ea = a) ↔
      (.unmapped ∈ faults → vaddr = a) ∧ (.refused ∈ faults → curVadd = a) := by
  simp only [List.mem_reverse, List.mem_map]
  constructor
  · intro all
    exact ⟨fun member => all _ ⟨_, member, rfl⟩, fun member => all _ ⟨_, member, rfl⟩⟩
  · rintro ⟨unmapped, refused⟩ ea ⟨fault, member, rfl⟩
    cases fault with
    | unmapped => exact unmapped member
    | refused => exact refused member

theorem forall_lineTells {place : Word → Option Nat} {line : List Word} :
    (∀ ea ∈ lineTells c place line t, ea = a) ↔ diverted t .buserr = true ∨
      (.unmapped ∈ c.refillFaults place line → a = 0) ∧ (.refused ∈ c.refillFaults place line → t.curVadd = a) := by
  rw [lineTells, forall_reported, forall_faults, eq_comm (a := a)]

theorem forall_readTells {w : Width} {phys : Word} :
    (∀ ea ∈ readTells c w phys a t, ea = a) ↔ diverted t .buserr = true ∨
      (c.readFault w (c.lookup t.dev t.curArea phys) = some .refused → t.curVadd = a) := by
  rw [readTells, forall_reported]
  refine or_congr_right ?_
  cases c.readFault w (c.lookup t.dev t.curArea phys) with
  | none => exact iff_of_true nofun nofun
  | some fault => cases fault <;> simp [BusFault.ea]

def counted (c : Config δ) (event : Word) (s : Machine δ) : Machine δ := if c.pcuEnabled then pcuCountEvent event s else s

def checked (c : Config δ) (action : DebugAction) (udata : Word) (s : Machine δ) : Machine δ :=
  if c.debugEnabled then checkDebugUnit c action udata s else s

theorem counted_passed (c : Config δ) (event : Word) (s : Machine δ) : Passed s (counted c event s) := by
  unfold counted
  split
  · exact ⟨pcuCountEvent_local event s, .pcuCountEvent event s⟩
  · exact .refl s

theorem checked_passed (c : Config δ) (action : DebugAction) (udata : Word) (s : Machine δ) : Passed s (checked c action udata s) := by
  unfold checked
  split
  · exact ⟨checkDebugUnit_local c action udata s, .checkDebugUnit c action udata s⟩
  · exact .refl s

/-- `set_mem` gives up a reservation of its address before it looks for exceptions. -/
def released (phys : Word) (s : Machine δ) : Machine δ :=
  if phys &&& ~~~3 = s.loadlockAddr then { s with loadlockActive := false } else s

theorem released_passed (phys : Word) (s : Machine δ) : Passed s (released phys s) := by
  unfold released
  split
  · exact ⟨clearLoadlock_local s, rfl, rfl, rfl, rfl, rfl, rfl, rfl⟩
  · exact .refl s

/-- The machine as an access goes on to the memory: it is counted, and the watchpoints have seen it. -/
def CoreAccess.atMemory (c : Config δ) (phys : Word) (t : Machine δ) : CoreAccess → Machine δ
  | .load _ a => checked c .loadAddress a (counted c pcmrLa t)
  | .store _ a value => checked c .storeData (value.setWidth 32) (checked c .storeAddress a (counted c pcmrSa (released phys t)))
  | .fetch a => counted c pcmrIf (checked c .instructionFetch a t)

theorem CoreAccess.atMemory_passed (x : CoreAccess) (phys : Word) (t : Machine δ) : Passed t (x.atMemory c phys t) := by
  cases x with
  | load w a => exact (counted_passed c _ t).trans (checked_passed c _ _ _)
  | store w a value =>
    exact (released_passed phys t).trans ((counted_passed c _ _).trans ((checked_passed c _ _ _).trans (checked_passed c _ _ _)))
  | fetch a => exact (checked_passed c _ _ t).trans (counted_passed c _ _)

theorem evalMem_reaches {w : Width} {phys : Word} {value : BitVec w.bits} (aligned : has a w.alignMask = false)
    (translated : runP c noOperands (dmmuTranslate c a false) s = .ok (phys, t)) (goes : t.exceptPending = false)
    (ran : runP c noOperands (evalMem c w a) s = .ok (value, s')) :
    ∃ temp s₁, runP c noOperands (if c.dc.enabled then dcSimulateRead c w phys a else do
      let got ← act (.evalsimMem w phys a)
      pure got.1) ((CoreAccess.load w a).atMemory c phys t) = .ok (temp, s₁) ∧ s' = checked c .loadData (temp.setWidth 32) s₁ := by
  rw [evalMem, aligned, if_neg (by decide), runP_bind_ok translated, runP_view, show t.view.exceptPending = false from goes,
    if_neg (by decide)] at ran
  have ran : runP c noOperands ((if c.dc.enabled then dcSimulateRead c w phys a else do
      let got ← act (.evalsimMem w phys a)
      pure got.1) >>= fun temp => do
        if c.debugEnabled then act (.checkDebugUnit .loadData (temp.setWidth 32))
        pure temp) ((CoreAccess.load w a).atMemory c phys t) = .ok (value, s') := by
    unfold CoreAccess.atMemory checked counted
    rw [← ran]
    cases c.pcuEnabled <;> cases c.debugEnabled <;> cases c.dc.enabled <;> rfl
  rw [runP_bind] at ran
  obtain ⟨temp, s₁, read, last⟩ := Programs.bind_ok ran
  refine ⟨temp, s₁, read, ?_⟩
  unfold checked
  cases debug : c.debugEnabled with
  | false =>
    rw [debug] at last
    cases last
    rfl
  | true =>
    rw [debug] at last
    cases last
    rfl

theorem setMem_reaches {w : Width} {phys : Word} {value : BitVec w.bits} (aligned : has a w.alignMask = false)
    (translated : runP c noOperands (dmmuTranslate c a true) s = .ok (phys, t)) (goes : t.exceptPending = false)
    (ran : runP c noOperands (setMem c w a value) s = .ok ((), s')) :
    runP c noOperands (if c.dc.enabled then dcSimulateWrite c w phys a value else do
      let _ ← act (.setsimMem w phys a value)
      pure ()) ((CoreAccess.store w a value).atMemory c phys t) = .ok ((), s') := by
  have held : (released phys t).view.exceptPending = false := (released_passed phys t).kept.exceptPending.trans goes
  unfold setMem at ran
  have ran := (congrArg (fun p => runP c noOperands p s) (if_neg (Bool.eq_false_iff.mp aligned))).symm.trans ran
  have ran := (runP_bind_ok translated).symm.trans ran
  have ran : runP c noOperands (act .view >>= fun v => if v.exceptPending then pure () else _) (released phys t) = .ok ((), s') := ran
  rw [runP_view, held, if_neg (by decide)] at ran
  rw [← ran]
  unfold CoreAccess.atMemory checked counted
  cases c.pcuEnabled <;> cases c.debugEnabled <;> cases c.dc.enabled <;> rfl

theorem evalInsn_reaches {phys value : Word} (translated : runP c noOperands (immuTranslate c a) s = .ok (phys, t))
    (goes : t.exceptPending = false) (ran : evalInsn c a s = .ok (value, s')) :
    ∃ temp s₁, readInsn c phys a ((CoreAccess.fetch a).atMemory c phys t) = .ok (temp, s₁) ∧ s' = checked c .loadData temp s₁ := by
  unfold evalInsn at ran
  rw [Programs.bind_of_ok translated, Programs.get_bind, goes, if_neg (by decide)] at ran
  have ran : (readInsn c phys a >>= fun temp => watch c .loadData temp >>= fun _ => pure temp) ((CoreAccess.fetch a).atMemory c phys t) =
      .ok (value, s') := by
    rw [← ran]
    unfold CoreAccess.atMemory checked counted watch countEvent
    cases c.pcuEnabled <;> cases c.debugEnabled <;> rfl
  obtain ⟨temp, s₁, read, last⟩ := Programs.bind_ok ran
  obtain ⟨_, s₂, watched, last⟩ := Programs.bind_ok last
  cases last
  refine ⟨_, s₁, read, ?_⟩
  unfold watch at watched
  unfold checked
  split at watched
  · next debug =>
    rw [if_pos debug]
    cases watched
    rfl
  · next off =>
    rw [if_neg off]
    cases watched
    rfl

theorem checked_told (action : DebugAction) (udata : Word) (s : Machine δ) : Told s (checked c action udata s) [] :=
  .of_local (checked_passed c action udata s).kept

/-- An access that comes to the memory with nothing behind it but reports. -/
theorem Detour.told (detour : Detour s t) (goes : t.exceptPending = false) (passed : Passed t u) {eas : List Word} {s₁ : Machine δ}
    (told : Told u s₁ eas) (last : Told s₁ s' []) : Told s s' eas := by
  obtain ⟨entries, eear⟩ := detour.quiet goes
  have first : Told s t [] := ⟨⟨[], entries, rfl⟩, eear, detour.dsr⟩
  have whole := ((first.trans (.of_local passed.kept)).trans told).trans last
  simpa only [List.append_nil, List.nil_append] using whole

theorem forall_own (s : Machine δ) (fault : Option BusFault) : ∀ ea ∈ reported s (fault.toList.map (BusFault.ea a a)), ea = a := by
  rw [forall_reported]
  refine .inr fun ea member => ?_
  obtain ⟨f, _, rfl⟩ := List.mem_map.mp member
  cases f <;> rfl

/-- What a read reports, through the cache or past it. -/
def tells (c : Config δ) (w : Width) (phys : Word) (t : Machine δ) (x : CoreAccess) (hit : Bool) : List Word :=
  if x.cached c t then if hit then [] else lineTells c (CoreAccess.place c t) (x.line c phys) t else readTells c w phys x.memaddr t

theorem CoreAccess.forall_tells {x : CoreAccess} {w : Width} {phys : Word} {hit : Bool} (width : x.readWidth = some w)
    (vadd : x.vadd t = t.curVadd) (refills : x.refills c phys t = (x.cached c t && !hit)) :
    (∀ ea ∈ tells c w phys t x hit, ea = x.memaddr) ↔ diverted t .buserr = true ∨ x.Right c phys t := by
  unfold tells
  cases on : x.cached c t with
  | false =>
    rw [on, Bool.false_and] at refills
    rw [if_neg (by decide)]
    refine forall_readTells.trans (or_congr_right ⟨fun right => ?_, fun right => right.uncached on w width⟩)
    refine ⟨fun _ w' width' fault => ?_, fun fills => ?_, fun fills => ?_⟩
    · obtain rfl := Option.some.inj (width'.symm.trans width)
      exact right fault
    · cases refills.symm.trans fills
    · cases refills.symm.trans fills
  | true =>
    rw [on, Bool.true_and] at refills
    rw [if_pos rfl]
    cases hit with
    | true =>
      refine iff_of_true nofun (.inr ⟨fun off => ?_, fun fills => ?_, fun fills => ?_⟩)
      · cases on.symm.trans off
      · cases refills.symm.trans fills
      · cases refills.symm.trans fills
    | false =>
      rw [if_neg (by decide)]
      refine forall_lineTells.trans (or_congr_right ⟨fun right => ?_, fun right => ?_⟩)
      · refine ⟨fun off => ?_, fun _ => right.1, fun _ fault => vadd.trans (right.2 fault)⟩
        cases on.symm.trans off
      · exact ⟨right.unmapped refills, fun fault => vadd.symm.trans (right.refused refills fault)⟩

open CoreAccess in
theorem CoreAccess.told {x : CoreAccess} {phys : Word} (reaches : x.Reaches c s phys t) (steady : x.Steady c s)
    (ran : x.run c s = .ok ((), s')) :
    ∃ eas, Told s s' eas ∧ ((∀ ea ∈ eas, ea = x.memaddr) ↔ diverted t .buserr = true ∨ x.Right c phys t) := by
  have steady := steady phys t reaches
  obtain ⟨aligned, translated, goes⟩ := reaches
  cases x with
  | load w a =>
    have detour := translate_detour (dmmuTranslate_uses a false) translated
    obtain ⟨value, s₂, access, last⟩ := Programs.bind_ok ran
    cases last
    obtain ⟨temp, s₁, read, rfl⟩ := evalMem_reaches aligned translated goes access
    have passed := CoreAccess.atMemory_passed (c := c) (.load w a) phys t
    generalize (CoreAccess.load w a).atMemory c phys t = u at read passed
    refine ⟨tells c w phys t (.load w a) (c.dc.findWay t.dc phys).isSome, detour.told goes passed ?_ (checked_told _ _ _),
      CoreAccess.forall_tells rfl rfl ?_⟩
    · unfold tells cached
      cases enabled : c.dc.enabled with
      | false =>
        rw [enabled, if_neg (by decide)] at read
        obtain ⟨got, s₃, read, done⟩ := Programs.bind_ok read
        cases done
        exact passed.readTells c w phys a ▸ evalsimMem_told read
      | true =>
        rw [enabled, if_pos rfl] at read
        have line : dcActive u.view = true → c.dc.findWay u.dc phys = none → SteadyLine c (place c t) u.dev (c.dcLine phys) := by
          intro active absent
          rw [passed.dcActive] at active
          rw [passed.beside.dc] at absent
          rw [passed.beside.dev]
          exact (steady (by simp [refills, enabled, active, absent])).2
        have told := dcSimulateRead_told line read
        rw [passed.dcActive, passed.beside.dc, passed.lineTells, passed.readTells] at told
        rw [Bool.true_and]
        exact told
    · unfold refills cached
      rw [Option.not_isSome]
  | store w a value =>
    have detour := translate_detour (dmmuTranslate_uses a true) translated
    have stores := setMem_reaches aligned translated goes ran
    have passed := CoreAccess.atMemory_passed (c := c) (.store w a value) phys t
    generalize (CoreAccess.store w a value).atMemory c phys t = u at stores passed
    cases enabled : c.dc.enabled with
    | false =>
      rw [enabled, if_neg (by decide)] at stores
      obtain ⟨mapped, s₁, written, done⟩ := Programs.bind_ok stores
      cases done
      refine ⟨_, detour.told goes passed (setsimMem_told written) (.refl _), iff_of_true (forall_own _ _) (.inr ?_)⟩
      have spared : refills c phys t (.store w a value) = false := by simp [refills, enabled]
      exact ⟨fun _ _ => nofun, fun fills => absurd (spared.symm.trans fills) nofun, fun _ _ => rfl⟩
    | true =>
      rw [enabled, if_pos rfl] at stores
      have fills : refills c phys t (.store w a value) = storeRefills c phys u := by
        rw [passed.storeRefills]
        simp [refills, enabled]
      have line : storeRefills c phys u = true →
          (stored c w phys value u).2 = [] ∧ SteadyLine c (place c t) (stored c w phys value u).1 (c.dcLine phys) := by
        intro refills
        rw [passed.stored]
        exact steady (fills.trans refills)
      refine ⟨_, detour.told goes passed (dcSimulateWrite_told line stores) (.refl _), ?_⟩
      change (∀ ea ∈ _ ++ _, ea = a) ↔ _
      rw [List.forall_mem_append, and_iff_left (forall_own _ _)]
      cases missed : storeRefills c phys u with
      | false =>
        rw [missed] at fills
        exact iff_of_true nofun (.inr ⟨fun _ _ => nofun, fun yes => absurd (fills.symm.trans yes) nofun, fun _ _ => rfl⟩)
      | true =>
        rw [missed] at fills
        rw [if_pos rfl, forall_reported, forall_faults]
        have same : diverted u .buserr = diverted t .buserr :=
          congrArg (fun dsr => decide (dsr &&& Exception.buserr.dsr ≠ 0)) passed.kept.sprs.dsr
        rw [same]
        refine or_congr_right ⟨fun right => ?_, fun right => ?_⟩
        · exact ⟨fun _ _ => nofun, fun _ fault => (right.1 fault).symm, fun _ _ => rfl⟩
        · exact ⟨fun fault => (right.unmapped fills fault).symm, fun _ => rfl⟩
  | fetch a =>
    have detour := translate_detour (immuTranslate_uses a) translated
    obtain ⟨value, s₂, access, last⟩ := Programs.bind_ok ran
    cases last
    obtain ⟨temp, s₁, read, rfl⟩ := evalInsn_reaches translated goes access
    have passed := CoreAccess.atMemory_passed (c := c) (.fetch a) phys t
    generalize (CoreAccess.fetch a).atMemory c phys t = u at read passed
    refine ⟨tells c .word phys t (.fetch a) (c.ic.findWay t.ic phys).isSome, detour.told goes passed ?_ (checked_told _ _ _),
      CoreAccess.forall_tells rfl rfl ?_⟩
    · unfold tells cached
      unfold readInsn at read
      cases enabled : c.ic.enabled with
      | false =>
        rw [enabled, if_neg (by decide)] at read
        obtain ⟨got, s₃, read, done⟩ := Programs.bind_ok read
        cases done
        exact passed.readTells c .word phys a ▸ evalsimMem_told read
      | true =>
        rw [enabled, if_pos rfl] at read
        have line : icActive u = true → c.ic.findWay u.ic phys = none → SteadyLine c (place c t) u.dev (c.icLine phys) := by
          intro active absent
          rw [passed.icActive] at active
          rw [passed.beside.ic] at absent
          rw [passed.beside.dev]
          exact (steady (by simp [refills, enabled, active, absent])).2
        have told := icSimulateFetch_told line read
        rw [passed.icActive, passed.beside.ic, passed.lineTells, passed.readTells] at told
        rw [Bool.true_and]
        exact told
    · unfold refills cached
      rw [Option.not_isSome]

open CoreAccess in
/-- An access that does not come to the memory raises no bus error. -/
theorem CoreAccess.stops {x : CoreAccess} (never : ∀ phys t, ¬ x.Reaches c s phys t) (ran : x.run c s = .ok ((), s')) :
    Detour s s' := by
  have pends : x.misaligned = false → ∀ phys t, runP c noOperands (x.translate c) s = .ok (phys, t) → t.exceptPending = true :=
    fun aligned phys t translated => Bool.eq_true_of_not_eq_false fun goes => never phys t ⟨aligned, translated, goes⟩
  cases x with
  | load w a =>
    obtain ⟨value, s₂, access, last⟩ := Programs.bind_ok ran
    cases last
    unfold evalMem at access
    by_cases aligned : has a w.alignMask = true
    · have access := (congrArg (fun p => runP c noOperands p s) (if_pos aligned)).symm.trans access
      cases access
      exact .exceptHandle (by decide) a _
    · have access := (congrArg (fun p => runP c noOperands p s) (if_neg aligned)).symm.trans access
      rw [runP_bind] at access
      obtain ⟨phys, t, translated, rest⟩ := Programs.bind_ok access
      have pending : t.view.exceptPending = true := pends (Bool.eq_false_iff.mpr aligned) phys t translated
      rw [runP_view, pending, if_pos rfl] at rest
      cases rest
      exact translate_detour (dmmuTranslate_uses a false) translated
  | store w a value =>
    have access : runP c noOperands (setMem c w a value) s = .ok ((), s') := ran
    unfold setMem at access
    by_cases aligned : has a w.alignMask = true
    · have access := (congrArg (fun p => runP c noOperands p s) (if_pos aligned)).symm.trans access
      cases access
      exact .exceptHandle (by decide) a _
    · have access := (congrArg (fun p => runP c noOperands p s) (if_neg aligned)).symm.trans access
      rw [runP_bind] at access
      obtain ⟨phys, t, translated, rest⟩ := Programs.bind_ok access
      have pending := pends (Bool.eq_false_iff.mpr aligned) phys t translated
      have held : (released phys t).view.exceptPending = true := (released_passed phys t).kept.exceptPending.trans pending
      have rest : runP c noOperands (act .view >>= fun v => if v.exceptPending then pure () else _) (released phys t) = .ok ((), s') :=
        rest
      rw [runP_view, held, if_pos rfl] at rest
      cases rest
      exact (translate_detour (dmmuTranslate_uses a true) translated).trans (.of_local (released_passed phys t).kept)
  | fetch a =>
    obtain ⟨value, s₂, access, last⟩ := Programs.bind_ok ran
    cases last
    unfold evalInsn at access
    obtain ⟨phys, t, translated, rest⟩ := Programs.bind_ok access
    rw [Programs.get_bind, pends rfl phys t translated, if_pos rfl] at rest
    cases rest
    exact translate_detour (immuTranslate_uses a) translated

/-- An access that ends reports its bus errors by its own address exactly under that condition. -/
theorem buserr_address_iff (x : CoreAccess) (steady : x.Steady c s) (ran : x.run c s = .ok ((), s')) :
    ReportsAddress x.memaddr s s' ↔ x.RightAddress c s := by
  by_cases reaches : ∃ phys t, x.Reaches c s phys t
  · obtain ⟨phys, t, reaches⟩ := reaches
    obtain ⟨eas, told, right⟩ := CoreAccess.told reaches steady ran
    rw [told.reports_iff, right]
    constructor
    · intro here phys' t' reaches'
      obtain ⟨rfl, rfl⟩ : phys' = phys ∧ t' = t := by
        have same := reaches'.2.1.symm.trans reaches.2.1
        cases same
        exact ⟨rfl, rfl⟩
      exact here
    · exact fun all => all phys t reaches
  · have never : ∀ phys t, ¬ x.Reaches c s phys t := fun phys t here => reaches ⟨phys, t, here⟩
    exact iff_of_true (CoreAccess.stops never ran).reports fun phys t here => absurd here (never phys t)

end

/-- A core with `cur_vadd` as the last store has left it. -/
def storedMachine (curVadd : Word) : Machine (Word → Word) := { Machine.bare (fun _ => 0) srSm 0x100 with curVadd }

/-- A load of a byte behind a store to its address. -/
theorem buserr_address_stored : ∃ s', (CoreAccess.load .byte 4).run wordsConfig (storedMachine 4) = .ok ((), s') ∧
    s'.entries ≠ [] ∧ ReportsAddress 4 (storedMachine 4) s' := by
  have spared : ∀ phys t, (CoreAccess.load .byte 4).refills wordsConfig phys t = false := fun _ _ => rfl
  have steady : (CoreAccess.load .byte 4).Steady wordsConfig (storedMachine 4) := fun phys t _ fills => by
    cases (spared phys t).symm.trans fills
  refine ⟨_, rfl, nofun, (buserr_address_iff (c := wordsConfig) (.load .byte 4) steady rfl).mpr fun phys t reaches => .inr ?_⟩
  obtain ⟨_, translated, _⟩ := reaches
  cases translated
  refine ⟨fun _ _ _ _ => rfl, fun fills => ?_, fun fills => ?_⟩
  · cases (spared _ _).symm.trans fills
  · cases (spared _ _).symm.trans fills

/-- The first load of a byte reports the address zero. -/
theorem buserr_address_stale : ¬ ∀ (x : CoreAccess) (s s' : Machine (Word → Word)),
    x.run wordsConfig s = .ok ((), s') → ReportsAddress x.memaddr s s' := by
  intro claim
  have reports := claim (.load .byte 4) (storedMachine 0) _ rfl [_] rfl _ (List.mem_singleton_self _) rfl
  exact absurd reports.1 (by decide)

end Or1ksim.Cpu
