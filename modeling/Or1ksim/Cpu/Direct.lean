import Or1ksim.Cpu.Reports

/-!
# Direct accesses

`eval_direct32`, `set_direct32` and their siblings: the accesses of the simulator itself. They ask
`peek_into_dtlb`, which raises no exception, and go to the data cache or to the area.
-/

namespace Or1ksim.Cpu

variable {δ : Type}

/-! ### The accessors -/

/-- `peek_into_dtlb`. -/
def peekDtlb (c : Config δ) (virtaddr : Word) (write throughDc : Bool) : P Word := do
  let v ← act .view
  if !has v.sr srDme || !has v.upr uprDmp then
    if throughDc then act (.setDataCi (0x80000000 ≤ virtaddr))
    pure virtaddr
  else
    match ← findTlbmr .data c.dmmu virtaddr c.dmmu.ways with
    | some (_, tlbtr) =>
      if dtlbPermits v.sr tlbtr write then
        if throughDc then act (.setDataCi (has tlbtr tlbtrCi))
        pure (c.dmmu.physical tlbtr virtaddr)
      else pure 0
    | none => pure 0

/-- `phys_memaddr`. -/
def physMemaddr (c : Config δ) (memaddr : Word) (write throughMmu throughDc : Bool) : Sim δ Word :=
  if throughMmu then runP c noOperands (peekDtlb c memaddr write throughDc) else pure memaddr

/-- The read without the cache. What is missing is reported to the user and not to the core. -/
def directRead (c : Config δ) (w : Width) (physMemaddr : Word) : Sim δ (BitVec w.bits) := do
  modify (verifyMemoryarea c physMemaddr)
  let m ← get
  match c.area m with
  | none => pure 0
  | some mem =>
    match mem.readfunc w with
    | none => pure 0
    | some readfunc =>
      let answer := readfunc (physMemaddr &&& mem.sizeMask m.dev) m.dev
      set { m with dev := answer.2.1 }
      devEvents c answer.2.2
      pure answer.1

def directWrite (c : Config δ) (w : Width) (physMemaddr : Word) (value : BitVec w.bits) : Sim δ Unit := do
  modify (verifyMemoryarea c physMemaddr)
  let m ← get
  match c.area m with
  | none => pure ()
  | some mem =>
    match mem.writefunc w with
    | none => pure ()
    | some writefunc =>
      let answer := writefunc (physMemaddr &&& mem.sizeMask m.dev) value m.dev
      set { m with dev := answer.1 }
      devEvents c answer.2

/-- `eval_direct32`, `16` and `8`. -/
def evalDirect (c : Config δ) (w : Width) (memaddr : Word) (throughMmu throughDc : Bool) : Sim δ (BitVec w.bits) :=
  if has memaddr w.alignMask then pure 0
  else do
    let phys ← physMemaddr c memaddr false throughMmu throughDc
    if throughDc then runP c noOperands (dcSimulateRead c w phys memaddr) else directRead c w phys

/-- What the three stores share: they differ in the access they ask for, and in whether the cache gets
`phys_memaddr` or `memaddr`. -/
def setDirectWith (c : Config δ) (w : Width) (write physical : Bool) (memaddr : Word) (value : BitVec w.bits)
    (throughMmu throughDc : Bool) : Sim δ Unit :=
  if has memaddr w.alignMask then pure ()
  else do
    let phys ← physMemaddr c memaddr write throughMmu throughDc
    if throughDc then runP c noOperands (dcSimulateWrite c w (if physical then phys else memaddr) memaddr value)
    else directWrite c w phys value

def setDirect32 (c : Config δ) : Word → BitVec 32 → Bool → Bool → Sim δ Unit := setDirectWith c .word true false

def setDirect16 (c : Config δ) : Word → BitVec 16 → Bool → Bool → Sim δ Unit := setDirectWith c .half false false

def setDirect8 (c : Config δ) : Word → BitVec 8 → Bool → Bool → Sim δ Unit := setDirectWith c .byte false true

/-- `set_direct32`, `16` and `8`. -/
def setDirect (c : Config δ) : (w : Width) → Word → BitVec w.bits → Bool → Bool → Sim δ Unit
  | .word => setDirect32 c
  | .half => setDirect16 c
  | .byte => setDirect8 c

/-- The access that a store asks `peek_into_dtlb` for. -/
def Width.directWrite (w : Width) : Bool := w = .word

/-- The store passes the physical address to the cache. -/
def Width.directPhysical (w : Width) : Bool := w = .byte

theorem setDirect_eq (c : Config δ) (w : Width) : setDirect c w = setDirectWith c w w.directWrite w.directPhysical := by
  cases w <;> rfl

/-! ### The translation -/

/-- The address that an accessor gets, and `data_ci` behind it; `none` if `peek_into_dtlb` gives up. -/
def translation (c : Config δ) (s : Machine δ) (memaddr : Word) (write throughMmu throughDc : Bool) : Option (Word × Bool) :=
  if !throughMmu then some (memaddr, s.dataCi)
  else if dmmuActive s then
    match tlbFind .data c.dmmu s memaddr c.dmmu.ways with
    | some (_, tlbtr) =>
      if dtlbPermits s.sr tlbtr write then
        some (c.dmmu.physical tlbtr memaddr, if throughDc then has tlbtr tlbtrCi else s.dataCi)
      else none
    | none => none
  else some (memaddr, if throughDc then 0x80000000 ≤ memaddr else s.dataCi)

section
variable {c : Config δ} {s t u : Machine δ} {memaddr phys : Word} {write throughMmu throughDc ci : Bool}

theorem peekDtlb_off (off : dmmuActive s = false) :
    runP c noOperands (peekDtlb c memaddr write throughDc) s =
      .ok (memaddr, { s with dataCi := if throughDc then 0x80000000 ≤ memaddr else s.dataCi }) := by
  have skipped : (!has s.view.sr srDme || !has s.view.upr uprDmp) = true := by
    rw [← Bool.not_and]
    exact congrArg not off
  unfold peekDtlb
  rw [runP_view, skipped]
  cases throughDc <;> rfl

theorem peekDtlb_hit {way : Fin 4} {tlbtr : Word} (active : dmmuActive s = true)
    (found : tlbFind .data c.dmmu s memaddr c.dmmu.ways = some (way, tlbtr)) (permits : dtlbPermits s.sr tlbtr write = true) :
    runP c noOperands (peekDtlb c memaddr write throughDc) s =
      .ok (c.dmmu.physical tlbtr memaddr, { s with dataCi := if throughDc then has tlbtr tlbtrCi else s.dataCi }) := by
  unfold peekDtlb
  rw [runP_view, not_skipped active]
  refine (runP_bind_ok (runP_findTlbmr _ _ _ _ _)).trans ?_
  rw [found]
  show runP c noOperands (if dtlbPermits s.sr tlbtr write then _ else _) s = _
  rw [permits]
  cases throughDc <;> rfl

/-- An accessor gets the address of the translation, and changes `data_ci` alone. -/
theorem physMemaddr_eq (found : translation c s memaddr write throughMmu throughDc = some (phys, ci)) :
    physMemaddr c memaddr write throughMmu throughDc s = .ok (phys, { s with dataCi := ci }) := by
  unfold physMemaddr
  unfold translation at found
  cases throughMmu with
  | false =>
    cases found
    rfl
  | true =>
    rw [if_neg (by decide)] at found
    rw [if_pos rfl]
    cases active : dmmuActive s with
    | false =>
      rw [active, if_neg (by decide)] at found
      cases found
      exact peekDtlb_off active
    | true =>
      rw [active, if_pos rfl] at found
      cases hit : tlbFind .data c.dmmu s memaddr c.dmmu.ways with
      | none =>
        rw [hit] at found
        cases found
      | some entry =>
        rw [hit] at found
        dsimp only at found
        split at found
        · next permits =>
          cases found
          exact peekDtlb_hit active hit permits
        · cases found

/-- The offset in a page keeps the low bits of an aligned address clear. -/
theorem physical_aligned (mmu : Mmu) (tlbtr : Word) {a : Word} {w : Width} (aligned : has a w.alignMask = false) :
    has (mmu.physical tlbtr a) w.alignMask = false := by
  have clear : a &&& w.alignMask = 0#32 := by
    unfold has at aligned
    simpa using aligned
  have page : tlbtrPpn &&& w.alignMask = 0#32 := by cases w <;> decide
  have zero : mmu.physical tlbtr a &&& w.alignMask = 0#32 := by
    unfold Mmu.physical
    rw [BitVec.and_or_distrib_right, BitVec.and_assoc, page, BitVec.and_assoc, BitVec.and_comm mmu.pageOffsetMask, ← BitVec.and_assoc,
      clear]
    simp
  unfold has
  rw [zero]
  rfl

theorem translation_aligned {w : Width} (found : translation c s memaddr write throughMmu throughDc = some (phys, ci))
    (aligned : has memaddr w.alignMask = false) : has phys w.alignMask = false := by
  unfold translation at found
  split at found
  · cases found
    exact aligned
  · split at found
    · split at found
      · split at found
        · cases found
          exact physical_aligned _ _ aligned
        · cases found
      · cases found
    · cases found
      exact aligned

theorem tlb_congr (core : ∀ r < 0x3000, t.sprs r = s.sprs r) (set : Fin 128) (way : Fin 4) :
    t.sprs (tlbmr .data set way) = s.sprs (tlbmr .data set way) ∧
      t.sprs (tlbmr .data set way + 128) = s.sprs (tlbmr .data set way + 128) := by
  have := set.isLt
  have := way.isLt
  have number : (tlbmr .data set way).toNat = 0x0a00 + set.val + 256 * way.val := by
    show (0x0a00 + (set.val + 256 * way.val) % 2 ^ 16) % 2 ^ 16 = _
    omega
  refine ⟨core _ ?_, core _ ?_⟩
  · rw [BitVec.lt_def, number]
    show _ < 0x3000
    omega
  · rw [BitVec.lt_def, BitVec.toNat_add, number]
    show (0x0a00 + set.val + 256 * way.val + 128) % 2 ^ 16 < 0x3000
    omega

theorem tlbFind_congr (core : ∀ r < 0x3000, t.sprs r = s.sprs r) (mmu : Mmu) (virtaddr : Word) (ways : List (Fin 4)) :
    tlbFind .data mmu t virtaddr ways = tlbFind .data mmu s virtaddr ways := by
  induction ways with
  | nil => rfl
  | cons way ways ih =>
    obtain ⟨tlbmr, tlbtr⟩ := tlb_congr core (mmu.set virtaddr) way
    rw [tlbFind, tlbFind, ih, tlbmr, tlbtr]

/-! ### What the accessors leave alone -/

/-- The core has entered no exception, and what a translation and the caches read is as before. -/
structure Undisturbed (s s' : Machine δ) : Prop where
  entries : s'.entries = s.entries
  dataCi : s'.dataCi = s.dataCi
  dsr : s'.sprs sprDsr = s.sprs sprDsr
  core : ∀ r < 0x3000, s'.sprs r = s.sprs r

namespace Undisturbed

theorem refl (s : Machine δ) : Undisturbed s s := ⟨rfl, rfl, rfl, fun _ _ => rfl⟩

theorem trans (first : Undisturbed s t) (second : Undisturbed t u) : Undisturbed s u where
  entries := second.entries.trans first.entries
  dataCi := second.dataCi.trans first.dataCi
  dsr := second.dsr.trans first.dsr
  core r small := (second.core r small).trans (first.core r small)

theorem of_same (entries : t.entries = s.entries) (dataCi : t.dataCi = s.dataCi) (sprs : t.sprs = s.sprs) : Undisturbed s t :=
  ⟨entries, dataCi, congrFun sprs _, fun _ _ => congrFun sprs _⟩

theorem diverted (kept : Undisturbed s t) (e : Exception) : diverted t e = diverted s e := by
  unfold Cpu.diverted
  rw [kept.dsr]

theorem dcActive (kept : Undisturbed s t) : dcActive t.view = dcActive s.view := by
  unfold Cpu.dcActive Machine.view Machine.sr
  dsimp only
  rw [kept.core sprUpr (by decide), kept.core sprSr (by decide), kept.dataCi]

theorem pcuCountEvent (event : Word) (s : Machine δ) : Undisturbed s (pcuCountEvent event s) := by
  unfold Cpu.pcuCountEvent
  have numbers : ∀ i < 8, sprPccr i ≠ sprDsr ∧ ¬ sprPccr i < 0x3000 := by decide
  have folded : ∀ is : List Nat, (∀ i ∈ is, i < 8) → ∀ s : Machine δ, Undisturbed s (is.foldl
      (fun m i => if pcuCounts event m i then setSpr (sprPccr i) (m.sprs (sprPccr i) + 1) m else m) s) := by
    intro is
    induction is with
    | nil => exact fun _ s => refl s
    | cons i is ih =>
      intro small s
      refine trans ?_ (ih (fun j member => small j (.tail _ member)) _)
      obtain ⟨dsr, high⟩ := numbers i (small i List.mem_cons_self)
      dsimp only
      split
      · refine ⟨rfl, rfl, if_neg dsr.symm, fun r low => if_neg ?_⟩
        rintro rfl
        exact high low
      · exact refl s
  exact folded _ (fun i member => List.mem_range.mp member) s

theorem exceptHandle {e : Exception} (taken : Cpu.diverted s e = true) (ea : Word) : Undisturbed s (exceptHandle e ea s) := by
  have same : Cpu.exceptHandle e ea s = (ignored e s).2 := if_pos taken
  have ci : (ignored e s).2.dataCi = s.dataCi := by
    unfold ignored debugIgnoreException setStallState
    dsimp only
    split <;> rfl
  rw [same]
  refine ⟨(ignored_local e s).entries, ci, (ignored_local e s).sprs.dsr, fun r low => debugIgnoreException_sprs e _ ?_⟩
  rintro rfl
  exact absurd low (by decide)

theorem raised (before : Undisturbed s t) {e : Exception} (taken : Cpu.diverted s e = true) (ea : Word) :
    Undisturbed s (Cpu.exceptHandle e ea t) :=
  before.trans (exceptHandle ((before.diverted e).trans taken) ea)

theorem translation (kept : Undisturbed s t) (c : Config δ) (memaddr : Word) (write throughMmu throughDc : Bool) :
    translation c t memaddr write throughMmu throughDc = translation c s memaddr write throughMmu throughDc := by
  unfold Cpu.translation dmmuActive Machine.sr
  rw [tlbFind_congr kept.core, kept.core sprUpr (by decide), kept.core sprSr (by decide), kept.dataCi]

/-- A translation that is asked for again answers the same. -/
theorem settled (kept : Undisturbed { s with dataCi := ci } t)
    (found : Cpu.translation c s memaddr write throughMmu throughDc = some (phys, ci)) :
    Cpu.translation c t memaddr write throughMmu throughDc = some (phys, t.dataCi) := by
  have same : t.dataCi = ci := kept.dataCi
  have again : Cpu.translation c { s with dataCi := ci } memaddr write throughMmu throughDc = some (phys, ci) := by
    unfold Cpu.translation dmmuActive Machine.sr at found ⊢
    rw [tlbFind_congr (t := { s with dataCi := ci }) (s := s) fun _ _ => rfl]
    cases throughMmu with
    | false =>
      cases found
      rfl
    | true =>
      cases throughDc with
      | true => exact found
      | false =>
        have kept : ci = s.dataCi := by
          simp only [Bool.not_true, Bool.false_eq_true, if_false] at found
          split at found
          · split at found
            · split at found
              · cases found
                rfl
              · cases found
            · cases found
          · cases found
            rfl
        subst kept
        exact found
  rw [kept.translation, again, same]

end Undisturbed

/-! ### Aligned accesses -/

variable {w : Width} {vaddr : Word}

theorem setDirect_aligned (aligned : has memaddr w.alignMask = false)
    (found : translation c s memaddr w.directWrite throughMmu throughDc = some (phys, ci)) (value : BitVec w.bits) :
    setDirect c w memaddr value throughMmu throughDc s =
      (if throughDc then runP c noOperands (dcSimulateWrite c w (if w.directPhysical then phys else memaddr) memaddr value)
        else directWrite c w phys value) { s with dataCi := ci } := by
  rw [setDirect_eq, setDirectWith, aligned, if_neg (by decide)]
  exact Programs.bind_of_ok (physMemaddr_eq found)

theorem evalDirect_aligned (aligned : has memaddr w.alignMask = false)
    (found : translation c s memaddr false throughMmu throughDc = some (phys, s.dataCi)) :
    evalDirect c w memaddr throughMmu throughDc s =
      (if throughDc then runP c noOperands (dcSimulateRead c w phys memaddr) else directRead c w phys) s := by
  rw [evalDirect, aligned, if_neg (by decide)]
  exact Programs.bind_of_ok (physMemaddr_eq found)

theorem setDirect_unaligned (unaligned : has memaddr w.alignMask = true) (value : BitVec w.bits) :
    setDirect c w memaddr value throughMmu throughDc s = .ok ((), s) := by
  rw [setDirect_eq, setDirectWith, unaligned, if_pos rfl]
  rfl

/-- A read without a fault, or with one that the debug unit takes. -/
theorem evalsimMem_undisturbed {a : BitVec w.bits × Bool} (ran : evalsimMem c w phys vaddr s = .ok (a, t))
    (quiet : ∀ mem, (c.lookup s.dev s.curArea phys).bind (c.areas[·]?) = some mem → ∀ f, mem.readfunc w = some f →
      ∀ off, (f off s.dev).2.2 = [])
    (fine : diverted s .buserr = true ∨ c.readFault w (c.lookup s.dev s.curArea phys) = none) : Undisturbed s t := by
  have looked : Undisturbed s (verifyMemoryarea c phys s) := .of_same rfl rfl rfl
  rcases evalsimMem_cases ran with ⟨area, rfl, _⟩ | ⟨mem, area, ⟨callback, _, rfl⟩ | ⟨f, callback, events, _⟩⟩
  · have found : (c.lookup s.dev s.curArea phys).bind (c.areas[·]?) = none := area
    rw [readFault_unmapped found] at fine
    exact looked.raised (fine.resolve_right nofun) _
  · have found : (c.lookup s.dev s.curArea phys).bind (c.areas[·]?) = some mem := area
    rw [readFault_mapped found, callback] at fine
    refine Undisturbed.raised ?_ (fine.resolve_right nofun) _
    exact .of_same rfl rfl rfl
  · have none := quiet mem area f callback (phys &&& mem.sizeMask s.dev)
    rw [show (verifyMemoryarea c phys s).dev = s.dev from rfl, none] at events
    cases events
    exact .of_same rfl rfl rfl

theorem setsimMem_undisturbed {value : BitVec w.bits} {a : Bool} (ran : setsimMem c w phys vaddr value s = .ok (a, t))
    {mem : Area δ} (area : (c.lookup s.dev s.curArea phys).bind (c.areas[·]?) = some mem)
    {f : Word → BitVec w.bits → δ → δ × List DevEvent}
    (callback : mem.writefunc w = some f) (quiet : (f (phys &&& mem.sizeMask s.dev) value s.dev).2 = []) : Undisturbed s t := by
  rcases setsimMem_cases ran with ⟨none, _, _⟩ | ⟨mem', some, ⟨refused, _, _⟩ | ⟨f', same, events, _⟩⟩
  · cases area.symm.trans none
  · cases area.symm.trans some
    cases callback.symm.trans refused
  · cases area.symm.trans some
    cases callback.symm.trans same
    rw [show (verifyMemoryarea c phys s).dev = s.dev from rfl, quiet] at events
    cases events
    exact .of_same rfl rfl rfl

variable {place : Word → Option Nat}

theorem refillFaults_eq_nil_iff (line : List Word) : c.refillFaults place line = [] ↔ ∀ b ∈ line,
    c.readFault .word (place b) = none := by
  induction line with
  | nil => simp [Config.refillFaults]
  | cons b line ih =>
    unfold Config.refillFaults
    cases fault : c.readFault .word (place b) with
    | none => simp [fault, ih]
    | some kind => cases kind <;> simp [fault]

/-- A refill whose faults, if there are any, the debug unit takes. -/
theorem dcRefill_undisturbed {s t : Machine δ} {way more i : Nat} {done : Bool}
    (steady : SteadyLine c place s.dev (c.dcWords phys more i))
    (fine : diverted s .buserr = true ∨ ∀ b ∈ c.dcWords phys more i, c.readFault .word (place b) = none)
    (ran : runP c noOperands (dcRefill c phys way more i) s = .ok (done, t)) : Undisturbed s t := by
  induction more generalizing i s with
  | zero =>
    cases ran
    exact .refl _
  | succ more ih =>
    obtain ⟨got, s₁, read, rest⟩ := Programs.bind_ok ran
    have first : Undisturbed s s₁ := by
      refine evalsimMem_undisturbed read (fun mem area f callback off => ?_) ?_
      · rw [steady.found _ List.mem_cons_self] at area
        rw [steady.reads _ List.mem_cons_self mem area f callback]
      · rw [steady.found _ List.mem_cons_self]
        exact fine.imp_right fun all => all _ List.mem_cons_self
    have dev : s₁.dev = s.dev := (steady.read read).2.1
    let s₂ := { s₁ with dc := Dc.setLine (c.dc.set phys) way (c.dc.index (phys + BitVec.ofNat 32 i)) got.1 s₁.dc }
    have written : Undisturbed s s₂ := first.trans (.of_same rfl rfl rfl)
    have rest : runP c noOperands (if got.2 then dcRefill c phys way more (i + 4) else
      act (.setDc (Dc.clear (c.dc.set phys) way)) >>= fun _ => pure false) s₂ = .ok (done, t) := rest
    cases mapped : got.2 with
    | true =>
      rw [mapped, if_pos rfl] at rest
      refine written.trans (ih (s := s₂) ?_ ?_ rest)
      · exact dev.symm ▸ steady.tail
      · rw [written.diverted]
        exact fine.imp_right fun all b member => all b (.tail _ member)
    | false =>
      rw [mapped, if_neg (by decide)] at rest
      cases rest
      exact written.trans (.of_same rfl rfl rfl)

theorem dcSimulateRead_past {a : BitVec w.bits × Bool} (past : dcActive s.view = false)
    (read : evalsimMem c w phys vaddr s = .ok (a, t)) : runP c noOperands (dcSimulateRead c w phys vaddr) s = .ok (a.1, t) := by
  rw [dcSimulateRead, runP_view, past, Bool.not_false, if_pos rfl]
  exact (runP_evalsimMem read _).trans rfl

theorem dcSimulateWrite_past {value : BitVec w.bits} {mapped : Bool} (written : setsimMem c w phys vaddr value s = .ok (mapped, t))
    (past : dcActive t.view = false) : runP c noOperands (dcSimulateWrite c w phys vaddr value) s = .ok ((), t) := by
  rw [dcSimulateWrite, runP_setsimMem written, runP_view, past, Bool.not_false, Bool.true_or]
  rfl

/-! ### What changes the devices -/

theorem schedAdd_dev {job : Job} {time : Int} {a : Unit} (ran : schedAdd job time s = .ok (a, t)) : t.dev = s.dev := by
  unfold schedAdd at ran
  split at ran
  · cases ran
  · cases ran
    rfl

theorem devEvent_dev {e : DevEvent} {a : Unit} (ran : devEvent c e s = .ok (a, t)) : t.dev = s.dev := by
  cases e with
  | reportInterrupt line =>
    rcases reportInterrupt_cases ran with ⟨_, _, rfl⟩ | ⟨_, rfl⟩ | ⟨_, _, _, queued⟩ | ⟨_, _, _, rfl⟩
    · exact (Untouched.exceptHandle _ _ _).dev.trans rfl
    · rfl
    · exact (schedAdd_dev queued).trans rfl
    · rfl
  | schedAdd job time => exact schedAdd_dev ran
  | simDone => cases ran
  | clearInterrupt | schedFindRemove | verifyMemoryarea =>
    cases ran
    rfl

/-- The events of a device do not change the devices. -/
theorem devEvents_dev {es : List DevEvent} {a : Unit} (ran : devEvents c es s = .ok (a, t)) : t.dev = s.dev := by
  induction es generalizing s with
  | nil =>
    cases ran
    rfl
  | cons e es ih =>
    obtain ⟨_, mid, first, rest⟩ := Programs.bind_ok ran
    exact (ih rest).trans (devEvent_dev first)

/-- The operations of the cache behind the store itself. -/
def Refilling : Op → Prop
  | .view | .setDc _ | .addMemCycles _ | .pcuCountEvent _ | .evalsimMem .. => True
  | _ => False

/-- A store through the cache is the store, and what the cache does behind it. -/
theorem dcSimulateWrite_parts {value : BitVec w.bits} (ran : runP c noOperands (dcSimulateWrite c w phys vaddr value) s = .ok ((), t)) :
    ∃ mapped mid, setsimMem c w phys vaddr value s = .ok (mapped, mid) ∧
      ∃ p : P Unit, p.Uses Refilling ∧ runP c noOperands p mid = .ok ((), t) := by
  obtain ⟨mapped, mid, written, behind⟩ := Programs.bind_ok ran
  refine ⟨mapped, mid, written, _, act_uses trivial fun v => ?_, behind⟩
  split
  · trivial
  · split
    · exact act_uses trivial fun _ => act_uses trivial fun _ => act_uses trivial fun _ => trivial
    · refine Programs.Uses.bind (dcRefill_uses (fun _ => trivial) (fun _ _ => trivial) trivial _ _) fun done => ?_
      cases done with
      | false => trivial
      | true =>
        refine act_uses trivial fun _ => act_uses trivial fun _ => ?_
        cases c.pcuEnabled
        · trivial
        · exact act_uses trivial fun _ => trivial

end

end Or1ksim.Cpu
