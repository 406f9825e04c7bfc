import Or1ksim.Cpu.Execute

/-!
# What an operation of the core can change

Exceptions aside, an operation leaves the supervisor's registers as they are: the registers that
instructions own, the usage fields of the TLBs and the registers that the hardware itself updates are
all that moves. Every operation, and so every program, takes the machine along `Moves`.
-/

namespace Or1ksim.Cpu

open Programs (Keeps)

variable {δ : Type}

/-! ### Running programs -/

section Run
variable {α : Type} {c : Config δ} {opd : Operands δ} {s : Machine δ}

@[simp] theorem runP_pure (a : α) : runP c opd (pure a) s = .ok (a, s) := rfl

@[simp] theorem runP_bind {β : Type} (p : P α) (f : α → P β) :
    runP c opd (p >>= f) s = (runP c opd p >>= fun a => runP c opd (f a)) s := by
  unfold runP
  rw [Programs.run_bind]

theorem runP_bind_ok {β : Type} {p : P α} {f : α → P β} {a : α} {mid : Machine δ}
    (first : runP c opd p s = .ok (a, mid)) : runP c opd (p >>= f) s = runP c opd (f a) mid := by
  rw [runP_bind]
  exact Programs.bind_of_ok first

theorem runP_evalsimMem {w : Width} {addr vaddr : Word} {got : BitVec w.bits × Bool} {mid : Machine δ}
    (read : evalsimMem c w addr vaddr s = .ok (got, mid))
    (f : (Op.evalsimMem w addr vaddr).Resp → P α) :
    runP c opd (act (.evalsimMem w addr vaddr) >>= f) s = runP c opd (f got) mid := Programs.bind_of_ok read

theorem runP_setsimMem {w : Width} {addr vaddr : Word} {value : BitVec w.bits} {mapped : Bool} {mid : Machine δ}
    (written : setsimMem c w addr vaddr value s = .ok (mapped, mid))
    (f : (Op.setsimMem w addr vaddr value).Resp → P α) :
    runP c opd (act (.setsimMem w addr vaddr value) >>= f) s = runP c opd (f mapped) mid := Programs.bind_of_ok written

@[simp] theorem runP_view (f : Op.view.Resp → P α) : runP c opd (act .view >>= f) s = runP c opd (f s.view) s := rfl

@[simp] theorem runP_setDc (update : Dc → Dc) (f : PUnit → P α) :
    runP c opd (act (.setDc update) >>= f) s = runP c opd (f ()) { s with dc := update s.dc } := rfl

@[simp] theorem runP_addMemCycles (n : Int) (f : PUnit → P α) :
    runP c opd (act (.addMemCycles n) >>= f) s = runP c opd (f ()) { s with memCycles := s.memCycles + n } := rfl

end Run

theorem act_uses {allowed : Op → Prop} {α : Type} {o : Op} (is : allowed o) {f : o.Resp → P α} (rest : ∀ r, (f r).Uses allowed) :
    (act o >>= f).Uses allowed := ⟨is, rest⟩

/-! ### Kinds of registers -/

def srFlags : Word := srF ||| srCy ||| srOv

/-- The registers that an instruction may write in user mode, besides the flags. -/
def openSpr (r : SprNo) : Bool :=
  r = sprAesr ∨ r = sprFpcsr ∨ r = sprMaclo ∨ r = sprMachi ∨ r = sprPpc

/-- The match registers of the two TLBs. -/
def tlbmrSpr (r : SprNo) : Bool :=
  (0x0a00 ≤ r ∧ r < 0x0e00 ∨ 0x1200 ≤ r ∧ r < 0x1600) ∧ r &&& 0xff < 0x80

/-- Counters and status that the units of the machine update by themselves: the interrupt lines and
the power mode they end, the watchpoints and the performance counters. -/
def hardwareSpr (r : SprNo) : Bool :=
  r = sprPicsr ∨ r = sprPmr ∨ r = sprDrr ∨ r = sprDmr2 ∨ r = sprDwcr0 ∨ r = sprDwcr1 ∨ 0x3800 ≤ r ∧ r < 0x3808

def dmr2Wbs : Word := 0xffc00000

/-- The supervisor's registers are the same in both files. -/
structure SprsKept (f g : SprNo → Word) : Prop where
  sr : g sprSr &&& ~~~srFlags = f sprSr &&& ~~~srFlags
  rest : ∀ r, r ≠ sprSr → openSpr r = false → tlbmrSpr r = false → hardwareSpr r = false → g r = f r
  tlb : ∀ r, tlbmrSpr r = true → g r &&& ~~~tlbmrLru = f r &&& ~~~tlbmrLru
  dmr2 : g sprDmr2 &&& ~~~dmr2Wbs = f sprDmr2 &&& ~~~dmr2Wbs
  drr : g sprDrr &&& ~~~f sprDsr = f sprDrr &&& ~~~f sprDsr

namespace SprsKept

variable {f g h : SprNo → Word}

theorem refl (f : SprNo → Word) : SprsKept f f := ⟨rfl, fun _ _ _ _ _ => rfl, fun _ _ => rfl, rfl, rfl⟩

theorem dsr (kept : SprsKept f g) : g sprDsr = f sprDsr :=
  kept.rest sprDsr (by decide) (by decide) (by decide) (by decide)

theorem trans (first : SprsKept f g) (second : SprsKept g h) : SprsKept f h where
  sr := second.sr.trans first.sr
  rest r sr own tlb hw := (second.rest r sr own tlb hw).trans (first.rest r sr own tlb hw)
  tlb r tlb := (second.tlb r tlb).trans (first.tlb r tlb)
  dmr2 := second.dmr2.trans first.dmr2
  drr := by
    have later := second.drr
    rw [first.dsr] at later
    exact later.trans first.drr

theorem write (f : SprNo → Word) (r : SprNo) (v : Word)
    (sr : r = sprSr → v &&& ~~~srFlags = f sprSr &&& ~~~srFlags)
    (allowed : r ≠ sprSr → openSpr r = true ∨ tlbmrSpr r = true ∨ hardwareSpr r = true)
    (tlb : tlbmrSpr r = true → v &&& ~~~tlbmrLru = f r &&& ~~~tlbmrLru)
    (dmr2 : r = sprDmr2 → v &&& ~~~dmr2Wbs = f sprDmr2 &&& ~~~dmr2Wbs)
    (drr : r = sprDrr → v &&& ~~~f sprDsr = f sprDrr &&& ~~~f sprDsr) :
    SprsKept f fun q => if q = r then v else f q where
  sr := by
    split
    · next same => exact sr same.symm
    · rfl
  rest q notSr own notTlb notHw := by
    split
    · next same =>
      subst same
      rcases allowed notSr with h | h | h
      · rw [own] at h; cases h
      · rw [notTlb] at h; cases h
      · rw [notHw] at h; cases h
    · rfl
  tlb q isTlb := by
    split
    · next same =>
      subst same
      exact tlb isTlb
    · rfl
  dmr2 := by
    split
    · next same => exact dmr2 same.symm
    · rfl
  drr := by
    split
    · next same => exact drr same.symm
    · rfl

/-- A write to a register of the instructions, or to one that the hardware updates as a whole. -/
theorem writeFree (f : SprNo → Word) (r : SprNo) (v : Word)
    (free : r ≠ sprSr ∧ (openSpr r = true ∨ hardwareSpr r = true) ∧ tlbmrSpr r = false ∧ r ≠ sprDmr2 ∧ r ≠ sprDrr) :
    SprsKept f fun q => if q = r then v else f q := by
  obtain ⟨notSr, owned, notTlb, notDmr2, notDrr⟩ := free
  refine write f r v (fun h => absurd h notSr) (fun _ => ?_) (fun h => ?_) (fun h => absurd h notDmr2)
    (fun h => absurd h notDrr)
  · exact owned.imp id fun h => Or.inr h
  · rw [notTlb] at h; cases h

/-- The bits of `SR` besides the flags. -/
theorem bit (kept : SprsKept f g) {bit : Word} (other : ~~~srFlags &&& bit = bit) : has (g sprSr) bit = has (f sprSr) bit := by
  have masked (x : Word) : x &&& bit = (x &&& ~~~srFlags) &&& bit := by rw [BitVec.and_assoc, other]
  unfold has
  rw [masked (g sprSr), masked (f sprSr), kept.sr]

end SprsKept

/-! ### Two relations -/

/-- The machine after something that neither raises an exception nor reaches a device. -/
structure Local (s s' : Machine δ) : Prop where
  pc : s'.pc = s.pc
  delayInsn : s'.delayInsn = s.delayInsn
  exceptPending : s'.exceptPending = s.exceptPending
  entries : s'.entries = s.entries
  insn : s'.insn = s.insn
  loadlockAddr : s'.loadlockAddr = s.loadlockAddr
  loadlock : s'.loadlockActive = true → s.loadlockActive = true
  scheduler : s'.scheduler = s.scheduler
  picsr : s'.sprs sprPicsr = s.sprs sprPicsr
  sprs : SprsKept s.sprs s'.sprs
  reg0 : s'.reg 0 = s.reg 0

namespace Local

variable {s t u : Machine δ}

theorem refl (s : Machine δ) : Local s s := ⟨rfl, rfl, rfl, rfl, rfl, rfl, id, rfl, rfl, .refl _, rfl⟩

theorem trans (first : Local s t) (second : Local t u) : Local s u where
  pc := second.pc.trans first.pc
  delayInsn := second.delayInsn.trans first.delayInsn
  exceptPending := second.exceptPending.trans first.exceptPending
  entries := second.entries.trans first.entries
  insn := second.insn.trans first.insn
  loadlockAddr := second.loadlockAddr.trans first.loadlockAddr
  loadlock active := first.loadlock (second.loadlock active)
  scheduler := second.scheduler.trans first.scheduler
  picsr := second.picsr.trans first.picsr
  sprs := first.sprs.trans second.sprs
  reg0 := second.reg0.trans first.reg0

theorem setSpr (s : Machine δ) (r : SprNo) (v : Word) (other : r ≠ sprPicsr)
    (kept : SprsKept s.sprs fun q => if q = r then v else s.sprs q) : Local s (setSpr r v s) :=
  ⟨rfl, rfl, rfl, rfl, rfl, rfl, id, rfl, if_neg fun same => other same.symm, kept, rfl⟩

end Local

/-- The registers that an entry saves are those that the machine has. -/
def Saved (e : Entry) (f : SprNo → Word) : Prop :=
  f sprEsrBase = e.sprs sprSr ∧
    ∀ epcr, exceptEpcr e.except e.ea e.pc e.delayInsn = some epcr → f sprEpcrBase = epcr

theorem Saved.kept {e : Entry} {f g : SprNo → Word} (saved : Saved e f) (kept : SprsKept f g) : Saved e g := by
  unfold Saved
  rw [kept.rest sprEsrBase (by decide) (by decide) (by decide) (by decide),
    kept.rest sprEpcrBase (by decide) (by decide) (by decide) (by decide)]
  exact saved

/-- The machine as an entry would find it. -/
structure Quiet (s : Machine δ) (sprs : SprNo → Word) (pc : Word) (delayInsn : Bool) : Prop where
  sprs : SprsKept s.sprs sprs
  pc : pc = s.pc
  delayInsn : delayInsn = s.delayInsn

theorem Quiet.trans {s t : Machine δ} {sprs : SprNo → Word} {pc : Word} {delayInsn : Bool} (first : Quiet s t.sprs t.pc t.delayInsn)
    (second : Quiet t sprs pc delayInsn) : Quiet s sprs pc delayInsn :=
  ⟨first.sprs.trans second.sprs, second.pc.trans first.pc, second.delayInsn.trans first.delayInsn⟩

/-- The machine after an operation. Without an entry nothing of the supervisor has changed; the first
entry finds it so, and the latest leaves it so. -/
structure Moves (s s' : Machine δ) : Prop where
  entries : s.entries <:+ s'.entries
  quiet : s'.entries = s.entries → Quiet s s'.sprs s'.pc s'.delayInsn ∧ s'.exceptPending = s.exceptPending
  first : ∀ late e, s'.entries = late ++ e :: s.entries → Quiet s e.sprs e.pc e.delayInsn
  latest : ∀ e early, s'.entries = e :: early → s'.entries ≠ s.entries → Saved e s'.sprs ∧ s'.exceptPending = true

namespace Moves

variable {s t u : Machine δ}

theorem of_quiet (sprs : SprsKept s.sprs t.sprs) (pc : t.pc = s.pc)
    (delayInsn : t.delayInsn = s.delayInsn) (pending : t.exceptPending = s.exceptPending)
    (entries : t.entries = s.entries) : Moves s t where
  entries := by rw [entries]
  quiet _ := ⟨⟨sprs, pc, delayInsn⟩, pending⟩
  first late e longer := by
    have := congrArg List.length (entries.symm.trans longer)
    simp at this
    omega
  latest _ _ _ entered := absurd entries entered

theorem of_local (kept : Local s t) : Moves s t :=
  of_quiet kept.sprs kept.pc kept.delayInsn kept.exceptPending kept.entries

theorem refl (s : Machine δ) : Moves s s := of_local (.refl s)

/-- A sequence without an entry has none in its parts. -/
theorem entries_between (first : s.entries <:+ t.entries) (second : t.entries <:+ u.entries)
    (same : u.entries = s.entries) : t.entries = s.entries ∧ u.entries = t.entries := by
  rw [same] at second
  have middle := second.eq_of_length (Nat.le_antisymm second.length_le first.length_le)
  exact ⟨middle, same.trans middle.symm⟩

theorem trans (left : Moves s t) (right : Moves t u) : Moves s u where
  entries := left.entries.trans right.entries
  quiet same := by
    obtain ⟨before, after⟩ := entries_between left.entries right.entries same
    obtain ⟨quiet, pending⟩ := left.quiet before
    obtain ⟨quiet', pending'⟩ := right.quiet after
    exact ⟨quiet.trans quiet', pending'.trans pending⟩
  first late e longer := by
    obtain ⟨before, extended⟩ := left.entries
    obtain ⟨after, extended'⟩ := right.entries
    rw [← extended', ← extended, ← List.append_assoc] at longer
    -- the oldest new entry is the last of `before`, unless there is none
    rcases List.eq_nil_or_concat before with rfl | ⟨front, oldest, rfl⟩
    · have unchanged : t.entries = s.entries := extended.symm
      refine (left.quiet unchanged).1.trans (right.first late e ?_)
      rw [← extended', unchanged]
      simpa using longer
    · have split : (after ++ front ++ [oldest]) ++ s.entries = (late ++ [e]) ++ s.entries := by simpa using longer
      have same := List.append_inj_left' (List.append_cancel_right split) rfl
      have oldestIs := List.append_cancel_left (same ▸ List.append_cancel_right split)
      obtain rfl : oldest = e := by simpa using oldestIs
      exact left.first front oldest (by rw [← extended]; simp)
  latest e early newest entered := by
    by_cases after : u.entries = t.entries
    · have before : t.entries ≠ s.entries := fun same => entered (after.trans same)
      obtain ⟨quiet, pending⟩ := right.quiet after
      obtain ⟨saved, pending'⟩ := left.latest e early (after.symm.trans newest) before
      exact ⟨saved.kept quiet.sprs, pending.trans pending'⟩
    · exact right.latest e early newest after

end Moves

theorem keeps_stop {α : Type} {R : Machine δ → Machine δ → Prop} (e : Stop) : Keeps R (stop e : Sim δ α) := by
  intro s a s' ran
  cases ran

/-! ### Exceptions -/

theorem drr_kept (drr dsr bit : Word) : (drr ||| (dsr &&& bit)) &&& ~~~dsr = drr &&& ~~~dsr := by
  ext i
  simp only [BitVec.getElem_and, BitVec.getElem_or, BitVec.getElem_not]
  grind

theorem setStallState_local (state : Bool) (s : Machine δ) : Local s (setStallState state s) := by
  unfold setStallState
  split <;> exact ⟨rfl, rfl, rfl, rfl, rfl, rfl, id, rfl, rfl, .refl _, rfl⟩

theorem debugIgnoreException_local (e : Exception) (s : Machine δ) : Local s (debugIgnoreException e s).2 := by
  unfold debugIgnoreException
  have kept : SprsKept s.sprs fun q => if q = sprDrr then s.sprs sprDrr ||| (s.sprs sprDsr &&& e.dsr) else s.sprs q :=
    SprsKept.write s.sprs sprDrr _ (fun h => absurd h (by decide)) (fun _ => Or.inr (Or.inr (by decide)))
      (fun h => absurd h (by decide)) (fun h => absurd h (by decide)) (fun _ => drr_kept _ _ _)
  exact (Local.setSpr s _ _ (by decide) kept).trans (setStallState_local _ _)

theorem clearLoadlock_local (s : Machine δ) : Local s { s with loadlockActive := false } :=
  ⟨rfl, rfl, rfl, rfl, rfl, rfl, nofun, rfl, rfl, .refl _, rfl⟩

/-- The state in which `except_handle` asks the debug unit. -/
def ignored (e : Exception) (s : Machine δ) : Bool × Machine δ :=
  debugIgnoreException e { s with loadlockActive := false }

theorem ignored_local (e : Exception) (s : Machine δ) : Local s (ignored e s).2 :=
  (clearLoadlock_local s).trans (debugIgnoreException_local e _)

theorem ignored_inactive (e : Exception) (s : Machine δ) : (ignored e s).2.loadlockActive = false := by
  have := (debugIgnoreException_local e { s with loadlockActive := false }).loadlock
  unfold ignored
  simpa using this

theorem enterException_saved (e : Exception) (ea : Word) (s : Machine δ) :
    Saved ⟨e, ea, s.sprs, s.pc, s.delayInsn⟩ (enterException e ea s).sprs := by
  unfold Saved enterException
  cases table : exceptEpcr e ea s.pc s.delayInsn <;> simp [setSpr, Machine.sr, sprSr, sprEsrBase, sprEearBase, sprEpcrBase]

@[simp] theorem enterException_entries (e : Exception) (ea : Word) (s : Machine δ) :
    (enterException e ea s).entries = ⟨e, ea, s.sprs, s.pc, s.delayInsn⟩ :: s.entries := rfl

@[simp] theorem enterException_loadlockActive (e : Exception) (ea : Word) (s : Machine δ) :
    (enterException e ea s).loadlockActive = s.loadlockActive := by
  unfold enterException
  dsimp only
  split <;> rfl

@[simp] theorem enterException_loadlockAddr (e : Exception) (ea : Word) (s : Machine δ) :
    (enterException e ea s).loadlockAddr = s.loadlockAddr := by
  unfold enterException
  dsimp only
  split <;> rfl

@[simp] theorem enterException_insn (e : Exception) (ea : Word) (s : Machine δ) :
    (enterException e ea s).insn = s.insn := by
  unfold enterException
  dsimp only
  split <;> rfl

theorem enterException_moves (e : Exception) (ea : Word) (s : Machine δ) : Moves s (enterException e ea s) where
  entries := List.suffix_cons _ _
  quiet same := by
    have := congrArg List.length same
    simp at this
  first late f longer := by
    rw [enterException_entries] at longer
    cases late with
    | nil =>
      obtain rfl := (List.cons.inj longer).1
      exact ⟨.refl _, rfl, rfl⟩
    | cons g late =>
      have := congrArg List.length longer
      simp at this
      omega
  latest f early newest _ := by
    rw [enterException_entries] at newest
    obtain rfl := (List.cons.inj newest).1
    exact ⟨enterException_saved e ea s, rfl⟩

theorem exceptHandle_moves (e : Exception) (ea : Word) (s : Machine δ) : Moves s (exceptHandle e ea s) := by
  unfold exceptHandle
  dsimp only
  split
  · exact .of_local (ignored_local e s)
  · exact (Moves.of_local (ignored_local e s)).trans (enterException_moves e ea _)

/-! ### Counters and watchpoints -/

theorem sprPccr_free {i : Nat} (low : i < 8) :
    sprPccr i ≠ sprSr ∧ (openSpr (sprPccr i) = true ∨ hardwareSpr (sprPccr i) = true) ∧
      tlbmrSpr (sprPccr i) = false ∧ sprPccr i ≠ sprDmr2 ∧ sprPccr i ≠ sprDrr := by
  interval_cases i <;> decide

theorem sprPccr_ne_picsr {i : Nat} (low : i < 8) : sprPccr i ≠ sprPicsr := by
  interval_cases i <;> decide

theorem foldl_local {α : Type} (f : Machine δ → α → Machine δ) (as : List α) (each : ∀ a ∈ as, ∀ t, Local t (f t a))
    (s : Machine δ) : Local s (as.foldl f s) := by
  induction as generalizing s with
  | nil => exact .refl s
  | cons a as ih =>
    exact (each a (List.mem_cons_self ..) s).trans (ih (fun b mem => each b (List.mem_cons_of_mem _ mem)) _)

theorem pcuCountEvent_local (event : Word) (s : Machine δ) : Local s (pcuCountEvent event s) := by
  unfold pcuCountEvent
  refine foldl_local _ _ (fun i mem t => ?_) s
  have low : i < 8 := List.mem_range.mp mem
  split
  · exact Local.setSpr t _ _ (sprPccr_ne_picsr low) (SprsKept.writeFree _ _ _ (sprPccr_free low))
  · exact .refl t

theorem countWatchpoints_local (wp : Nat → Bool) (s : Machine δ) :
    Local s (countWatchpoints wp s) ∧ (countWatchpoints wp s).sprs sprDmr2 = s.sprs sprDmr2 := by
  unfold countWatchpoints
  dsimp only
  split
  · have free0 (v : Word) := SprsKept.writeFree s.sprs sprDwcr0 v (by decide)
    exact ⟨(Local.setSpr s sprDwcr0 _ (by decide) (free0 _)).trans
      (Local.setSpr _ sprDwcr1 _ (by decide) (SprsKept.writeFree _ _ _ (by decide))), rfl⟩
  · exact ⟨.refl s, rfl⟩

/-- The bits that a watchpoint sets are those of `WBS`. -/
theorem wbs_kept (hit : List Nat) (dmr2 : Word) :
    hit.foldl (fun d i => d ||| (1 : Word) <<< (dmr2WbsOff + i)) dmr2 &&& ~~~dmr2Wbs = dmr2 &&& ~~~dmr2Wbs := by
  induction hit generalizing dmr2 with
  | nil => rfl
  | cons i hit ih =>
    rw [List.foldl_cons, ih, BitVec.and_or_distrib_right]
    have outside : (1 : Word) <<< (dmr2WbsOff + i) &&& ~~~dmr2Wbs = 0 := by
      have high : ∀ k : Fin 32, 22 ≤ k.val → dmr2Wbs.getLsbD k = true := by decide
      ext k low
      by_cases reached : 22 ≤ k
      · simp [← BitVec.getLsbD_eq_getElem, high ⟨k, low⟩ reached]
      · simp [dmr2WbsOff, show k < 22 + i by omega]
    rw [outside]
    exact BitVec.or_zero

theorem calculateWatchpoints_local (c : Config δ) (action : DebugAction) (udata : Word) (s : Machine δ) :
    Local s (calculateWatchpoints c action udata s).2 := by
  unfold calculateWatchpoints
  dsimp only
  split
  · obtain ⟨counted, dmr2⟩ := countWatchpoints_local (watchpoint (s.sprs sprDmr1) (matchpoint c.long64 s action udata)) s
    refine counted.trans (Local.setSpr _ sprDmr2 _ (by decide) (SprsKept.write _ _ _ (fun h => absurd h (by decide))
      (fun _ => Or.inr (Or.inr (by decide))) (fun h => absurd h (by decide)) (fun _ => ?_) (fun h => absurd h (by decide))))
    rw [dmr2]
    exact wbs_kept _ _
  · exact .refl s

theorem checkDebugUnit_local (c : Config δ) (action : DebugAction) (udata : Word) (s : Machine δ) :
    Local s (checkDebugUnit c action udata s) := by
  unfold checkDebugUnit
  split
  · exact (calculateWatchpoints_local c action udata s).trans ⟨rfl, rfl, rfl, rfl, rfl, rfl, id, rfl, rfl, .refl _, rfl⟩
  · exact .refl s

/-! ### Flags and TLBs -/

theorem setFlag_local (flag : Flag) (value : Bool) (s : Machine δ) : Local s (setFlag flag value s) := by
  unfold setFlag
  refine Local.setSpr s _ _ (by decide) (SprsKept.write s.sprs _ _ (fun _ => ?_) (fun h => absurd rfl h)
    (fun h => absurd h (by decide)) (fun h => absurd h (by decide)) (fun h => absurd h (by decide)))
  have inside : ~~~flag.bit &&& ~~~srFlags = ~~~srFlags ∧ flag.bit &&& ~~~srFlags = 0 := by cases flag <;> decide
  split
  · rw [BitVec.and_or_distrib_right, inside.2]
    exact BitVec.or_zero
  · rw [BitVec.and_assoc, inside.1]
    rfl

theorem tlbmr_is_tlbmrSpr (side : Side) (set : Fin 128) (way : Fin 4) :
    tlbmrSpr (tlbmr side set way) = true ∧ tlbmr side set way ≠ sprSr ∧ tlbmr side set way ≠ sprDmr2 ∧
      tlbmr side set way ≠ sprDrr ∧ tlbmr side set way ≠ sprPicsr := by
  cases side <;> revert set way <;> decide +kernel

theorem setTlbmr_local (side : Side) (set : Fin 128) (way : Fin 4) (v : Word) (s : Machine δ)
    (kept : v &&& ~~~tlbmrLru = s.sprs (tlbmr side set way) &&& ~~~tlbmrLru) :
    Local s (setSpr (tlbmr side set way) v s) := by
  obtain ⟨isTlb, notSr, notDmr2, notDrr, notPicsr⟩ := tlbmr_is_tlbmrSpr side set way
  exact Local.setSpr s _ _ notPicsr (SprsKept.write s.sprs _ _ (fun h => absurd h notSr)
    (fun _ => Or.inr (Or.inl isTlb)) (fun _ => kept) (fun h => absurd h notDmr2) (fun h => absurd h notDrr))

theorem lruReload_inside (mmu : Mmu) : mmu.lruReload &&& ~~~tlbmrLru = 0 := by
  unfold Mmu.lruReload
  rw [BitVec.and_assoc, show tlbmrLru &&& ~~~tlbmrLru = 0 by decide]
  exact BitVec.and_zero

theorem decrementLru_kept (tlbmr : Word) : decrementLru tlbmr &&& ~~~tlbmrLru = tlbmr &&& ~~~tlbmrLru := by
  unfold decrementLru
  split
  · next used =>
    -- the field has two bits, and is not zero
    have field : tlbmr &&& tlbmrLru =
        (if tlbmr.getLsbD 6 then 0x40 else 0) ||| (if tlbmr.getLsbD 7 then 0x80 else 0) := by
      ext i low
      interval_cases i <;> cases h6 : tlbmr[6] <;> cases h7 : tlbmr[7] <;> simp_all [tlbmrLru]
    have counted : (tlbmr &&& tlbmrLru) - 0x40 &&& ~~~tlbmrLru = 0 := by
      unfold has at used
      rw [field] at used ⊢
      cases h6 : tlbmr.getLsbD 6 <;> cases h7 : tlbmr.getLsbD 7 <;> rw [h6, h7] at used <;> revert used <;> decide
    rw [BitVec.and_or_distrib_right, counted, BitVec.and_assoc, BitVec.and_self]
    exact BitVec.or_zero
  · rfl

theorem touchTlb_local (mmu : Mmu) (side : Side) (set : Fin 128) (way : Fin 4) (s : Machine δ) :
    Local s (touchTlb mmu side set way s) := by
  unfold touchTlb
  dsimp only
  refine Local.trans (foldl_local _ _ (fun i _ t => ?_) s) (setTlbmr_local side set way _ _ ?_)
  · exact setTlbmr_local side set i _ t (decrementLru_kept _)
  · rw [BitVec.and_or_distrib_right, lruReload_inside]
    exact BitVec.or_zero

/-! ### Operations -/

/-- The three ways of a read: no area, an area without the callback, and the callback with what its
device does. -/
theorem evalsimMem_cases {c : Config δ} {w : Width} {memaddr vaddr : Word} {s s' : Machine δ}
    {a : BitVec w.bits × Bool} (ran : evalsimMem c w memaddr vaddr s = .ok (a, s')) :
    let m := verifyMemoryarea c memaddr s
    (c.area m = none ∧ s' = exceptHandle .buserr vaddr m ∧ a = (0, m.curArea.isSome)) ∨
      ∃ mem, c.area m = some mem ∧
        ((mem.readfunc w = none ∧ a = (0, m.curArea.isSome) ∧
            s' = exceptHandle .buserr m.curVadd { m with memCycles := m.memCycles + mem.delayr m.dev }) ∨
          ∃ f, mem.readfunc w = some f ∧
            devEvents c (f (memaddr &&& mem.sizeMask m.dev) m.dev).2.2
                { m with
                  memCycles := m.memCycles + mem.delayr m.dev
                  dev := (f (memaddr &&& mem.sizeMask m.dev) m.dev).2.1 } = .ok ((), s') ∧
              a = ((f (memaddr &&& mem.sizeMask m.dev) m.dev).1, s'.curArea.isSome)) := by
  intro m
  rw [evalsimMem, Programs.modify_bind, Programs.get_bind] at ran
  cases area : c.area m with
  | none =>
    simp only [show c.area (verifyMemoryarea c memaddr s) = none from area] at ran
    cases ran
    exact .inl ⟨rfl, rfl, rfl⟩
  | some mem =>
    simp only [show c.area (verifyMemoryarea c memaddr s) = some mem from area] at ran
    refine .inr ⟨mem, rfl, ?_⟩
    cases callback : mem.readfunc w with
    | none =>
      simp only [callback] at ran
      cases ran
      exact .inl ⟨rfl, rfl, rfl⟩
    | some f =>
      simp only [callback, Programs.set_bind] at ran
      obtain ⟨_, after, events, last⟩ := Programs.bind_ok ran
      cases last
      exact .inr ⟨f, rfl, events, rfl⟩

theorem setsimMem_cases {c : Config δ} {w : Width} {memaddr vaddr : Word} {value : BitVec w.bits}
    {s s' : Machine δ} {a : Bool} (ran : setsimMem c w memaddr vaddr value s = .ok (a, s')) :
    let m := verifyMemoryarea c memaddr s
    (c.area m = none ∧ s' = exceptHandle .buserr vaddr m ∧ a = m.curArea.isSome) ∨
      ∃ mem, c.area m = some mem ∧
        ((mem.writefunc w = none ∧ a = m.curArea.isSome ∧
            s' = exceptHandle .buserr vaddr
              { m with curVadd := vaddr, memCycles := m.memCycles + mem.delayw m.dev }) ∨
          ∃ f, mem.writefunc w = some f ∧
            devEvents c (f (memaddr &&& mem.sizeMask m.dev) value m.dev).2
                { m with
                  curVadd := vaddr
                  memCycles := m.memCycles + mem.delayw m.dev
                  dev := (f (memaddr &&& mem.sizeMask m.dev) value m.dev).1 } = .ok ((), s') ∧
              a = s'.curArea.isSome) := by
  intro m
  rw [setsimMem, Programs.modify_bind, Programs.get_bind] at ran
  cases area : c.area m with
  | none =>
    simp only [show c.area (verifyMemoryarea c memaddr s) = none from area] at ran
    cases ran
    exact .inl ⟨rfl, rfl, rfl⟩
  | some mem =>
    simp only [show c.area (verifyMemoryarea c memaddr s) = some mem from area] at ran
    refine .inr ⟨mem, rfl, ?_⟩
    cases callback : mem.writefunc w with
    | none =>
      simp only [callback] at ran
      cases ran
      exact .inl ⟨rfl, rfl, rfl⟩
    | some f =>
      simp only [callback, Programs.set_bind] at ran
      obtain ⟨_, after, events, last⟩ := Programs.bind_ok ran
      cases last
      exact .inr ⟨f, rfl, events, rfl⟩

/-- What a relation has to be closed under for every operation, and so every program, to keep it. -/
structure Closed (c : Config δ) (R : Machine δ → Machine δ → Prop) : Prop where
  trans : ∀ s t u, R s t → R t u → R s u
  unit : ∀ s t, Local s t → R s t
  except : ∀ e ea s, R s (exceptHandle e ea s)
  event : ∀ e, Keeps R (devEvent c e)

/-- The operands of an instruction keep a relation. -/
structure Operands.Keep (opd : Operands δ) (R : Machine δ → Machine δ → Prop) : Prop where
  param : ∀ n, Keeps R (opd.param n)
  regParam0 : Keeps R opd.regParam0
  setParam0 : ∀ v, Keeps R (opd.setParam0 v)

theorem noOperands_keep (R : Machine δ → Machine δ → Prop) : (noOperands : Operands δ).Keep R :=
  ⟨fun _ => keeps_stop _, keeps_stop _, fun _ => keeps_stop _⟩

namespace Closed

variable {c : Config δ} {R : Machine δ → Machine δ → Prop}

protected theorem refl (closed : Closed c R) (s : Machine δ) : R s s := closed.unit s s (.refl s)

protected theorem pure {α : Type} (closed : Closed c R) (a : α) : Keeps R (pure a : Sim δ α) := Keeps.pure closed.refl a

protected theorem bind {α β : Type} {m : Sim δ α} {f : α → Sim δ β} (closed : Closed c R) (first : Keeps R m)
    (rest : ∀ a, Keeps R (f a)) : Keeps R (m >>= f) := Keeps.bind closed.trans first rest

protected theorem modify (closed : Closed c R) {f : Machine δ → Machine δ} (kept : ∀ s, Local s (f s)) :
    Keeps R (modify f : Sim δ PUnit) := Keeps.modify fun s => closed.unit _ _ (kept s)

/-- A step that reads the state first. -/
protected theorem get {α : Type} {f : Machine δ → Sim δ α} (rest : ∀ s a s', f s s = .ok (a, s') → R s s') :
    Keeps R (get >>= f) := fun s a s' ran => rest s a s' ran

theorem events (closed : Closed c R) (es : List DevEvent) : Keeps R (devEvents c es) := by
  induction es with
  | nil => exact closed.pure ()
  | cons e es ih => exact closed.bind (closed.event e) fun _ => ih

theorem idle (closed : Closed c R) {s t u : Machine δ} (later : R t u) (kept : Local s t) : R s u :=
  closed.trans _ _ _ (closed.unit _ _ kept) later

theorem verifyMemoryarea_local (addr : Word) (s : Machine δ) : Local s (verifyMemoryarea c addr s) :=
  ⟨rfl, rfl, rfl, rfl, rfl, rfl, id, rfl, rfl, .refl _, rfl⟩

protected theorem evalsimMem (closed : Closed c R) (w : Width) (memaddr vaddr : Word) :
    Keeps R (evalsimMem c w memaddr vaddr) := by
  intro s a s' ran
  refine closed.idle ?_ (verifyMemoryarea_local (c := c) memaddr s)
  rcases evalsimMem_cases ran with ⟨_, rfl, _⟩ | ⟨mem, _, ⟨_, _, rfl⟩ | ⟨f, _, events, _⟩⟩
  · exact closed.except _ _ _
  · exact closed.idle (closed.except _ _ _) ⟨rfl, rfl, rfl, rfl, rfl, rfl, id, rfl, rfl, .refl _, rfl⟩
  · exact closed.idle (closed.events _ _ _ _ events) ⟨rfl, rfl, rfl, rfl, rfl, rfl, id, rfl, rfl, .refl _, rfl⟩

protected theorem setsimMem (closed : Closed c R) (w : Width) (memaddr vaddr : Word) (value : BitVec w.bits) :
    Keeps R (setsimMem c w memaddr vaddr value) := by
  intro s a s' ran
  refine closed.idle ?_ (verifyMemoryarea_local (c := c) memaddr s)
  rcases setsimMem_cases ran with ⟨_, rfl, _⟩ | ⟨mem, _, ⟨_, _, rfl⟩ | ⟨f, _, events, _⟩⟩
  · exact closed.except _ _ _
  · exact closed.idle (closed.except _ _ _) ⟨rfl, rfl, rfl, rfl, rfl, rfl, id, rfl, rfl, .refl _, rfl⟩
  · exact closed.idle (closed.events _ _ _ _ events) ⟨rfl, rfl, rfl, rfl, rfl, rfl, id, rfl, rfl, .refl _, rfl⟩

theorem sem {opd : Operands δ} (closed : Closed c R) (keep : opd.Keep R) (o : Op) : Keeps R (o.sem c opd) := by
  cases o with
  | view => exact Closed.get fun s a s' ran => by cases ran; exact closed.refl s
  | param n => exact keep.param n
  | regParam0 => exact keep.regParam0
  | setParam0 value => exact keep.setParam0 value
  | setLink value => exact closed.modify fun s => ⟨rfl, rfl, rfl, rfl, rfl, rfl, id, rfl, rfl, .refl _, rfl⟩
  | setFlag flag value => exact closed.modify (setFlag_local flag value)
  | setSpr r value =>
    refine closed.modify fun s => Local.setSpr s _ _ ?_ (SprsKept.writeFree _ _ _ ?_) <;> cases r <;> decide
  | exceptHandle e ea => exact Keeps.modify (closed.except e ea)
  | setPcnext value => exact closed.modify fun s => ⟨rfl, rfl, rfl, rfl, rfl, rfl, id, rfl, rfl, .refl _, rfl⟩
  | setDelay target => exact closed.modify fun s => ⟨rfl, rfl, rfl, rfl, rfl, rfl, id, rfl, rfl, .refl _, rfl⟩
  | tlb side set way => exact Closed.get fun s a s' ran => by cases ran; exact closed.refl s
  | touchTlb side set way => exact closed.modify (touchTlb_local _ side set way)
  | setDataCi value => exact closed.modify fun s => ⟨rfl, rfl, rfl, rfl, rfl, rfl, id, rfl, rfl, .refl _, rfl⟩
  | setInsnCi value => exact closed.modify fun s => ⟨rfl, rfl, rfl, rfl, rfl, rfl, id, rfl, rfl, .refl _, rfl⟩
  | addMemCycles n => exact closed.modify fun s => ⟨rfl, rfl, rfl, rfl, rfl, rfl, id, rfl, rfl, .refl _, rfl⟩
  | pcuCountEvent event => exact closed.modify (pcuCountEvent_local event)
  | checkDebugUnit action udata => exact closed.modify (checkDebugUnit_local c action udata)
  | verifyMemoryarea addr => exact closed.modify (verifyMemoryarea_local addr)
  | evalsimMem w memaddr vaddr => exact closed.evalsimMem w memaddr vaddr
  | setsimMem w memaddr vaddr value => exact closed.setsimMem w memaddr vaddr value
  | setDc update => exact closed.modify fun s => ⟨rfl, rfl, rfl, rfl, rfl, rfl, id, rfl, rfl, .refl _, rfl⟩
  | storeLoadlock physMemaddr =>
    refine closed.modify fun s => ?_
    split
    · exact clearLoadlock_local s
    · exact .refl s
  | sbufLoad => exact closed.modify fun s => ⟨rfl, rfl, rfl, rfl, rfl, rfl, id, rfl, rfl, .refl _, rfl⟩
  | sbufBegin => exact closed.modify fun s => ⟨rfl, rfl, rfl, rfl, rfl, rfl, id, rfl, rfl, .refl _, rfl⟩
  | sbufEnd => exact closed.modify fun s => ⟨rfl, rfl, rfl, rfl, rfl, rfl, id, rfl, rfl, .refl _, rfl⟩
  | getTicks => exact closed.modify fun s => ⟨rfl, rfl, rfl, rfl, rfl, rfl, id, rfl, rfl, .refl _, rfl⟩
  | setReg11 value => exact closed.modify fun s => ⟨rfl, rfl, rfl, rfl, rfl, rfl, id, rfl, rfl, .refl _, rfl⟩
  | random =>
    exact Closed.get fun s a s' ran => by
      cases ran
      exact closed.unit _ _ ⟨rfl, rfl, rfl, rfl, rfl, rfl, id, rfl, rfl, .refl _, rfl⟩
  | halt =>
    exact closed.modify fun s => Local.trans (t := { s with halted := true })
      ⟨rfl, rfl, rfl, rfl, rfl, rfl, id, rfl, rfl, .refl _, rfl⟩ (setStallState_local true _)
  | simDone => exact keeps_stop _

/-- What the operations keep, every program keeps. -/
protected theorem runP {opd : Operands δ} {α : Type} (closed : Closed c R) (keep : opd.Keep R) (p : P α) :
    Keeps R (runP c opd p) := Keeps.run closed.refl closed.trans (closed.sem keep) p

/-! ### The fetch -/

protected theorem countEvent (closed : Closed c R) (event : Word) : Keeps R (countEvent c event) := by
  unfold Cpu.countEvent
  split
  · exact closed.modify (pcuCountEvent_local event)
  · exact closed.pure ()

protected theorem icRefill (closed : Closed c R) (fetchaddr : Word) (way more reloadAddr : Nat) :
    Keeps R (icRefill c fetchaddr way more reloadAddr) := by
  induction more generalizing reloadAddr with
  | zero => exact closed.pure true
  | succ more ih =>
    refine closed.bind (closed.evalsimMem _ _ _) fun got => ?_
    refine closed.bind (closed.modify fun s => ⟨rfl, rfl, rfl, rfl, rfl, rfl, id, rfl, rfl, .refl _, rfl⟩) fun _ => ?_
    split
    · exact ih _
    · exact closed.bind (closed.modify fun s => ⟨rfl, rfl, rfl, rfl, rfl, rfl, id, rfl, rfl, .refl _, rfl⟩) fun _ =>
        closed.pure false

protected theorem icSimulateFetch (closed : Closed c R) (fetchaddr virtAddr : Word) :
    Keeps R (icSimulateFetch c fetchaddr virtAddr) := by
  intro s a s' ran
  rw [icSimulateFetch, Programs.get_bind] at ran
  split at ran
  · exact closed.bind (closed.evalsimMem _ _ _) (fun _ => closed.pure _) s a s' ran
  · cases found : c.ic.findWay s.ic fetchaddr with
    | some way =>
      simp only [found] at ran
      cases ran
      exact closed.unit _ _ ⟨rfl, rfl, rfl, rfl, rfl, rfl, id, rfl, rfl, .refl _, rfl⟩
    | none =>
      simp only [found, Programs.set_bind] at ran
      refine closed.idle (closed.bind (closed.icRefill _ _ _ _) (fun filled => ?_) _ _ _ ran)
        ⟨rfl, rfl, rfl, rfl, rfl, rfl, id, rfl, rfl, .refl _, rfl⟩
      split
      · refine closed.bind (closed.modify fun t => ⟨rfl, rfl, rfl, rfl, rfl, rfl, id, rfl, rfl, .refl _, rfl⟩)
          fun _ => ?_
        exact closed.bind (closed.countEvent _) fun _ => Closed.get fun t b t' done => by
          cases done
          exact closed.refl t
      · exact closed.pure 0

protected theorem watch (closed : Closed c R) (action : DebugAction) (udata : Word) : Keeps R (watch c action udata) := by
  unfold Cpu.watch
  split
  · exact closed.modify (checkDebugUnit_local c action udata)
  · exact closed.pure ()

protected theorem readInsn (closed : Closed c R) (physMemaddr memaddr : Word) : Keeps R (readInsn c physMemaddr memaddr) := by
  unfold Cpu.readInsn
  split
  · exact closed.icSimulateFetch _ _
  · exact closed.bind (closed.evalsimMem _ _ _) fun _ => closed.pure _

protected theorem evalInsn (closed : Closed c R) (memaddr : Word) : Keeps R (evalInsn c memaddr) := by
  refine closed.bind (closed.runP (noOperands_keep R) _) fun physMemaddr => Closed.get fun s a s' ran => ?_
  split at ran
  · cases ran
    exact closed.refl s
  · refine closed.bind (closed.watch _ _) (fun _ => ?_) s a s' ran
    refine closed.bind (closed.countEvent _) fun _ => ?_
    refine closed.bind (closed.readInsn _ _) fun temp => ?_
    exact closed.bind (closed.watch _ _) fun _ => closed.pure temp

end Closed

/-! ### Devices -/

theorem wake_local (s : Machine δ) : Local s (wake s) :=
  Local.setSpr s _ _ (by decide) (SprsKept.writeFree _ _ _ (by decide))

/-- A request with the controller off is an exception at once; a line that is pending already changes
nothing; else the line is set, and its delivery queued when it is enabled. -/
theorem reportInterrupt_cases {c : Config δ} {line : Fin 32} {s s' : Machine δ} {a : Unit}
    (ran : reportInterrupt c line s = .ok (a, s')) :
    let m := wake s
    let set := setSpr sprPicsr (m.sprs sprPicsr ||| lineMask line) m
    (c.picEnabled = false ∧ has m.sr srIee = true ∧ s' = exceptHandle .int (m.sprs sprEearBase) m) ∨
      ((c.picEnabled = false ∧ has m.sr srIee = false ∨ has (m.sprs sprPicsr) (lineMask line) = true) ∧ s' = m) ∨
      (c.picEnabled = true ∧ has (m.sprs sprPicmr) (lineMask line) = true ∧ has m.sr srIee = true ∧
        schedAdd .picRepInt 0 set = .ok ((), s')) ∨
      (c.picEnabled = true ∧ has (m.sprs sprPicsr) (lineMask line) = false ∧
        (has (m.sprs sprPicmr) (lineMask line) && has m.sr srIee) = false ∧ s' = set) := by
  intro m set
  rw [reportInterrupt, Programs.modify_bind, Programs.get_bind] at ran
  split at ran
  · next off =>
    have off : c.picEnabled = false := by simpa using off
    split at ran
    · next enabled =>
      cases ran
      exact .inl ⟨off, enabled, rfl⟩
    · next disabled =>
      cases ran
      exact .inr (.inl ⟨.inl ⟨off, by simpa using disabled⟩, rfl⟩)
  · next on =>
    have on : c.picEnabled = true := by simpa using on
    split at ran
    · next pending =>
      cases ran
      exact .inr (.inl ⟨.inr pending, rfl⟩)
    · next new =>
      rw [Programs.set_bind] at ran
      split at ran
      · next queued =>
        obtain ⟨unmasked, enabled⟩ := Bool.and_eq_true_iff.mp queued
        exact .inr (.inr (.inl ⟨on, unmasked, enabled, ran⟩))
      · next quiet =>
        cases ran
        exact .inr (.inr (.inr ⟨on, by simpa using new, by simpa using quiet, rfl⟩))

namespace Moves

theorem setScheduler (s : Machine δ) (q : Sched.Scheduler Job) : Moves s { s with scheduler := q } :=
  of_quiet (.refl _) rfl rfl rfl rfl

theorem setPicsr (s : Machine δ) (v : Word) : Moves s (setSpr sprPicsr v s) :=
  of_quiet (SprsKept.writeFree _ _ _ (by decide)) rfl rfl rfl rfl

theorem schedAdd (job : Job) (time : Int) : Keeps Moves (schedAdd job time : Sim δ Unit) := by
  intro s a s' ran
  unfold Cpu.schedAdd at ran
  split at ran
  · cases ran
  · cases ran
    exact setScheduler s _

theorem schedFindRemove (job : Job) : Keeps Moves (schedFindRemove job : Sim δ Unit) :=
  Keeps.modify fun s => setScheduler s _

theorem reportInterrupt (c : Config δ) (line : Fin 32) : Keeps Moves (reportInterrupt c line) := by
  intro s a s' ran
  refine trans (of_local (wake_local s)) ?_
  rcases reportInterrupt_cases ran with ⟨_, _, rfl⟩ | ⟨_, rfl⟩ | ⟨_, _, _, added⟩ | ⟨_, _, _, rfl⟩
  · exact exceptHandle_moves _ _ _
  · exact refl _
  · exact (setPicsr _ _).trans (schedAdd _ _ _ _ _ added)
  · exact setPicsr _ _

theorem closed (c : Config δ) : Closed c Moves where
  trans _ _ _ := trans
  unit _ _ := of_local
  except := exceptHandle_moves
  event e := by
    cases e with
    | reportInterrupt line => exact reportInterrupt c line
    | clearInterrupt line => exact Keeps.modify fun s => setPicsr s _
    | schedAdd job time => exact schedAdd _ _
    | schedFindRemove job => exact schedFindRemove _
    | verifyMemoryarea addr => exact Keeps.modify fun s => of_local (Closed.verifyMemoryarea_local addr s)
    | simDone => exact keeps_stop _

end Moves

end Or1ksim.Cpu
