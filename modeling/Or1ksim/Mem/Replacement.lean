import Or1ksim.Cpu.Reports
import Or1ksim.Lib.Scan
import Or1ksim.Mem.Dcache

/-!
# Replacement in the data cache

A miss replaces one way of its set. A read takes the first of the ways with the least usage state. A
write forgets the least value that it saw, and takes the last way that is not just used.
-/

namespace Or1ksim.Mem

open Cpu (Word Width Config Machine DcConfig Dc Op P Operands act runP)
open Programs (Keeps)

/-! ### Changes of the cache -/

/-- Operations that change the data cache only along `S`. -/
def CacheOp (S : Dc → Dc → Prop) : Op → Prop
  | .setDc update => ∀ dc, S dc (update dc)
  | .view | .evalsimMem _ _ _ | .setsimMem _ _ _ _ | .addMemCycles _ | .pcuCountEvent _ => True
  | _ => False

section
variable {δ : Type} {c : Config δ} {opd : Operands δ} {S : Dc → Dc → Prop}

theorem evalsimMem_dc {w : Width} {addr vaddr : Word} {s t : Machine δ} {got : BitVec w.bits × Bool}
    (ran : Cpu.evalsimMem c w addr vaddr s = .ok (got, t)) : t.dc = s.dc := by
  rcases Cpu.evalsimMem_cases ran with ⟨_, rfl, _⟩ | ⟨mem, _, ⟨_, _, rfl⟩ | ⟨f, _, events, _⟩⟩
  · exact (Cpu.Untouched.exceptHandle _ _ _).dc
  · exact (Cpu.Untouched.exceptHandle _ _ _).dc
  · exact (Cpu.Served.devEvents events).kept.dc

theorem setsimMem_dc {w : Width} {addr vaddr : Word} {value : BitVec w.bits} {s t : Machine δ} {mapped : Bool}
    (ran : Cpu.setsimMem c w addr vaddr value s = .ok (mapped, t)) : t.dc = s.dc := by
  rcases Cpu.setsimMem_cases ran with ⟨_, rfl, _⟩ | ⟨mem, _, ⟨_, _, rfl⟩ | ⟨f, _, events, _⟩⟩
  · exact (Cpu.Untouched.exceptHandle _ _ _).dc
  · exact (Cpu.Untouched.exceptHandle _ _ _).dc
  · exact (Cpu.Served.devEvents events).kept.dc

theorem cacheOp_keeps (refl : ∀ dc, S dc dc) (o : Op) (allowed : CacheOp S o) :
    Keeps (fun s t : Machine δ => S s.dc t.dc) (o.sem c opd) := by
  intro s a t ran
  cases o with
  | setDc update =>
    cases ran
    exact allowed s.dc
  | view =>
    cases ran
    exact refl _
  | addMemCycles n =>
    cases ran
    exact refl _
  | pcuCountEvent event =>
    cases ran
    rw [(Cpu.Untouched.pcuCountEvent event s).dc]
    exact refl _
  | evalsimMem w addr vaddr =>
    rw [evalsimMem_dc ran]
    exact refl _
  | setsimMem w addr vaddr value =>
    rw [setsimMem_dc ran]
    exact refl _
  | _ => exact allowed.elim

theorem runP_cacheOps (refl : ∀ dc, S dc dc) (trans : ∀ a b d, S a b → S b d → S a d) {α : Type} {p : P α} (uses : p.Uses (CacheOp S))
    {s t : Machine δ} {a : α} (ran : runP c opd p s = .ok (a, t)) : S s.dc t.dc := by
  have kept : Keeps (fun s t : Machine δ => S s.dc t.dc) (runP c opd p) :=
    Programs.Uses.run (R := fun s t : Machine δ => S s.dc t.dc) (fun _ => refl _) (fun _ _ _ => trans _ _ _) (cacheOp_keeps refl) uses
  exact kept s a t ran

end

/-! ### Usage states -/

/-- The usage states of all ways are in their range. -/
def UsageBounded (d : DcConfig) (dc : Dc) : Prop := ∀ set way, 0 ≤ (dc set way).lru ∧ (dc set way).lru ≤ d.ustates - 1

section
variable {d : DcConfig} {dc : Dc} {set way : Nat}

theorem UsageBounded.hit (bounded : UsageBounded d dc) : UsageBounded d (d.hit set way dc) := by
  intro s w
  have here := bounded s w
  have used := bounded set way
  unfold DcConfig.hit Dc.mapSet
  dsimp only
  split
  · split
    · exact ⟨show 0 ≤ d.ustates - 1 by omega, le_refl _⟩
    · split
      · next next =>
        dsimp only
        omega
      · exact here
  · exact here

theorem UsageBounded.refilled (bounded : UsageBounded d dc) (tagaddr : Word) : UsageBounded d (d.refilled set way tagaddr dc) := by
  intro s w
  have here := bounded s w
  unfold DcConfig.refilled Dc.mapSet
  dsimp only
  split
  · split
    · exact ⟨show 0 ≤ d.ustates - 1 by omega, le_refl _⟩
    · split
      · dsimp only
        omega
      · exact here
  · exact here

theorem UsageBounded.setLine (bounded : UsageBounded d dc) (index : Nat) (value : Word) :
    UsageBounded d (Dc.setLine set way index value dc) := by
  intro s w
  unfold Dc.setLine Dc.setWay
  split
  · exact bounded set way
  · exact bounded s w

theorem UsageBounded.clear (bounded : UsageBounded d dc) : UsageBounded d (Dc.clear set way dc) := by
  intro s w
  have here := bounded s w
  unfold Dc.clear Dc.setWay
  split
  · exact ⟨le_refl _, show 0 ≤ d.ustates - 1 by omega⟩
  · exact here

theorem UsageBounded.clearSet (bounded : UsageBounded d dc) :
    UsageBounded d (Dc.mapSet dc set d.nways fun _ w => { w with tagaddr := -1, lru := 0 }) := by
  intro s w
  have here := bounded s w
  unfold Dc.mapSet
  split
  · exact ⟨le_refl _, show 0 ≤ d.ustates - 1 by omega⟩
  · exact here

end

/-! ### Victims -/

section
variable (d : DcConfig) (dc : Dc) (set : Nat)

/-- The usage states of a set. -/
def usage (dc : Dc) (set : Nat) : Nat → Int := fun way => (dc set way).lru

theorem minwayRead_eq : d.minwayRead dc set = (Scan.least (usage dc set) (d.ustates - 1) d.nways).1 := rfl

/-- A read replaces a way with the least usage state. -/
theorem minwayRead_least {d : DcConfig} {dc : Dc} (bounded : UsageBounded d dc) (set : Nat) :
    ∀ way < d.nways, (dc set (d.minwayRead dc set)).lru ≤ (dc set way).lru := by
  intro way inside
  rw [minwayRead_eq]
  rcases Scan.least_spec (usage dc set) (d.ustates - 1) d.nways with ⟨above, none⟩ | ⟨m, _, found, _, least, _⟩
  · rw [none]
    exact le_trans (bounded set 0).2 (above way inside)
  · rw [found]
    exact least way inside

end

/-! ### Accesses -/

section
variable {δ : Type} {c : Config δ} {opd : Operands δ} {S : Dc → Dc → Prop} {a : Word}

/-- What a refill of a way does to the cache, whether it comes to its end or not. -/
structure Refills (c : Config δ) (a : Word) (way : Nat) (S : Dc → Dc → Prop) : Prop where
  lines : ∀ index value dc, S dc (Dc.setLine (c.dc.set a) way index value dc)
  clear : ∀ dc, S dc (Dc.clear (c.dc.set a) way dc)
  refilled : ∀ dc, S dc (c.dc.refilled (c.dc.set a) way (c.dc.tagaddr a) dc)

theorem dcSimulateRead_cacheOps {w : Width} {virtAddr : Word} (hit : ∀ way dc, S dc (c.dc.hit (c.dc.set a) way dc)) (miss : ∀ way,
    Refills c a way S) :
    (Cpu.dcSimulateRead c w a virtAddr).Uses (CacheOp S) := by
  refine Cpu.act_uses trivial fun v => ?_
  split
  · exact Cpu.act_uses trivial fun _ => trivial
  · split
    · exact Cpu.act_uses (hit _) fun _ => Cpu.act_uses trivial fun _ => trivial
    · refine Programs.Uses.bind (Cpu.dcRefill_uses (fun _ => trivial) (fun index value => (miss _).lines index value)
        (miss _).clear _ _) fun done => ?_
      cases done with
      | false => trivial
      | true =>
        refine Cpu.act_uses (miss _).refilled fun _ => Cpu.act_uses trivial fun _ => ?_
        cases c.pcuEnabled with
        | false => exact Cpu.act_uses trivial fun _ => trivial
        | true => exact Cpu.act_uses trivial fun _ => Cpu.act_uses trivial fun _ => trivial

theorem dcSimulateWrite_cacheOps {w : Width} {virtAddr : Word} {data : BitVec w.bits} (hit : ∀ way dc,
    S dc (c.dc.hit (c.dc.set a) way dc))
    (stored : ∀ way index value dc, S dc (Dc.setLine (c.dc.set a) way index value dc)) (miss : ∀ way, Refills c a way S) :
    (Cpu.dcSimulateWrite c w a virtAddr data).Uses (CacheOp S) := by
  refine Cpu.act_uses trivial fun mapped => Cpu.act_uses trivial fun v => ?_
  split
  · trivial
  · split
    · exact Cpu.act_uses (hit _) fun _ => Cpu.act_uses trivial fun _ => Cpu.act_uses (stored _ _ _) fun _ => trivial
    · refine Programs.Uses.bind (Cpu.dcRefill_uses (fun _ => trivial) (fun index value => (miss _).lines index value)
        (miss _).clear _ _) fun done => ?_
      cases done with
      | false => trivial
      | true =>
        refine Cpu.act_uses (miss _).refilled fun _ => Cpu.act_uses trivial fun _ => ?_
        cases c.pcuEnabled with
        | false => trivial
        | true => exact Cpu.act_uses trivial fun _ => trivial

theorem dcInv_cacheOps (clear : ∀ way dc, S dc (Dc.clear (c.dc.set a) way dc))
    (clearSet : ∀ dc, S dc (Dc.mapSet dc (c.dc.set a) c.dc.nways fun _ w => { w with tagaddr := -1, lru := 0 })) :
    (Cpu.dcInv c a).Uses (CacheOp S) := by
  refine Cpu.act_uses trivial fun (v : Cpu.View) => ?_
  dsimp only
  split
  · trivial
  · cases off : Cpu.has v.sr Cpu.srDce with
    | false => exact Cpu.act_uses clearSet fun _ => trivial
    | true =>
      cases c.dc.findWay v.dc a with
      | some way => exact Cpu.act_uses (clear way) fun _ => trivial
      | none => trivial

end

/-- Only one way of one set has another tag or other words. -/
def OnlyWay (set way : Nat) (dc dc' : Dc) : Prop :=
  ∀ s w, ¬ (s = set ∧ w = way) → (dc' s w).tagaddr = (dc s w).tagaddr ∧ (dc' s w).line = (dc s w).line

theorem OnlyWay.refl (set way : Nat) (dc : Dc) : OnlyWay set way dc dc := fun _ _ _ => ⟨rfl, rfl⟩

theorem OnlyWay.trans {set way : Nat} (a b d : Dc) (first : OnlyWay set way a b) (second : OnlyWay set way b d) : OnlyWay set way a d :=
  fun s w other => ⟨(second s w other).1.trans (first s w other).1, (second s w other).2.trans (first s w other).2⟩

theorem OnlyWay.setWay (set way : Nat) (value : Cpu.DcWay) (dc : Dc) : OnlyWay set way dc (dc.setWay set way value) := by
  intro s w other
  rw [Dc.setWay, if_neg other]
  exact ⟨rfl, rfl⟩

section
variable {δ : Type} {c : Config δ} {opd : Operands δ} {a : Word}

theorem onlyWay_refills (way : Nat) : Refills c a way (OnlyWay (c.dc.set a) way) where
  lines _ _ _ := OnlyWay.setWay _ _ _ _
  clear _ := OnlyWay.setWay _ _ _ _
  refilled dc := by
    intro s w other
    unfold DcConfig.refilled Dc.mapSet
    dsimp only
    split
    · next here =>
      rw [if_neg fun same => other ⟨here.1, same⟩]
      split <;> exact ⟨rfl, rfl⟩
    · exact ⟨rfl, rfl⟩

/-- A read that misses replaces the way that the read chooses, if any. -/
theorem dcSimulateRead_onlyWay {w : Width} {virtAddr : Word} {s t : Machine δ} {value : BitVec w.bits}
    (absent : c.dc.findWay s.dc a = none) (ran : runP c opd (Cpu.dcSimulateRead c w a virtAddr) s = .ok (value, t)) :
    OnlyWay (c.dc.set a) (c.dc.minwayRead s.dc (c.dc.set a)) s.dc t.dc := by
  have miss := onlyWay_refills (c := c) (a := a) (c.dc.minwayRead s.dc (c.dc.set a))
  have absent : c.dc.findWay s.view.dc a = none := absent
  rw [Cpu.dcSimulateRead, Cpu.runP_view] at ran
  refine runP_cacheOps (OnlyWay.refl _ _) OnlyWay.trans ?_ ran
  split
  · exact Cpu.act_uses trivial fun _ => trivial
  · simp only [absent]
    refine Programs.Uses.bind (Cpu.dcRefill_uses (fun _ => trivial) (fun index value => miss.lines index value) miss.clear _ _)
      fun done => ?_
    cases done with
    | false => trivial
    | true =>
      refine Cpu.act_uses miss.refilled fun _ => Cpu.act_uses trivial fun _ => ?_
      cases c.pcuEnabled with
      | false => exact Cpu.act_uses trivial fun _ => trivial
      | true => exact Cpu.act_uses trivial fun _ => Cpu.act_uses trivial fun _ => trivial

/-- A write that misses replaces the way that the write chooses, if any. -/
theorem dcSimulateWrite_onlyWay {w : Width} {virtAddr : Word} {data : BitVec w.bits} {s t : Machine δ}
    (absent : c.dc.findWay s.dc a = none) (ran : runP c opd (Cpu.dcSimulateWrite c w a virtAddr data) s = .ok ((), t)) :
    OnlyWay (c.dc.set a) (c.dc.minwayWrite s.dc (c.dc.set a)) s.dc t.dc := by
  have miss := onlyWay_refills (c := c) (a := a) (c.dc.minwayWrite s.dc (c.dc.set a))
  obtain ⟨mapped, mid, written, ran⟩ := Programs.bind_ok ran
  have dc := setsimMem_dc written
  have absent : c.dc.findWay mid.view.dc a = none := by
    rw [show mid.view.dc = s.dc from dc]
    exact absent
  have ran : runP c opd (Cpu.act .view >>= fun v => if !Cpu.dcActive v || !mapped then pure () else _) mid = .ok ((), t) := ran
  rw [Cpu.runP_view] at ran
  rw [← dc] at miss ⊢
  refine runP_cacheOps (OnlyWay.refl _ _) OnlyWay.trans ?_ ran
  split
  · trivial
  · simp only [absent]
    refine Programs.Uses.bind (Cpu.dcRefill_uses (fun _ => trivial) (fun index value => miss.lines index value) miss.clear _ _)
      fun done => ?_
    cases done with
    | false => trivial
    | true =>
      refine Cpu.act_uses miss.refilled fun _ => Cpu.act_uses trivial fun _ => ?_
      cases c.pcuEnabled with
      | false => trivial
      | true => exact Cpu.act_uses trivial fun _ => trivial

end

/-! ### Runs -/

/-- The machines whose cache is what accesses have made of an empty one. Everything else about the machine may change in between. -/
inductive CacheReached {δ : Type} (c : Config δ) (opd : Operands δ) : Machine δ → Prop where
  | start {s : Machine δ} (fresh : ∀ set way, (s.dc set way).lru = 0) : CacheReached c opd s
  | other {s t : Machine δ} (reached : CacheReached c opd s) (same : t.dc = s.dc) : CacheReached c opd t
  | read {s t : Machine δ} {w : Width} {a virtAddr : Word} {value : BitVec w.bits} (reached : CacheReached c opd s)
      (ran : runP c opd (Cpu.dcSimulateRead c w a virtAddr) s = .ok (value, t)) : CacheReached c opd t
  | write {s t : Machine δ} {w : Width} {a virtAddr : Word} {data : BitVec w.bits} (reached : CacheReached c opd s)
      (ran : runP c opd (Cpu.dcSimulateWrite c w a virtAddr data) s = .ok ((), t)) : CacheReached c opd t
  | inv {s t : Machine δ} {a : Word} (reached : CacheReached c opd s) (ran : runP c opd (Cpu.dcInv c a) s = .ok ((), t)) :
      CacheReached c opd t

section
variable {δ : Type} {c : Config δ} {opd : Operands δ} {s : Machine δ}

theorem CacheReached.bounded (states : 1 ≤ c.dc.ustates) (reached : CacheReached c opd s) : UsageBounded c.dc s.dc := by
  have refl : ∀ dc, UsageBounded c.dc dc → UsageBounded c.dc dc := fun _ bounded => bounded
  have trans : ∀ a b d, (UsageBounded c.dc a → UsageBounded c.dc b) → (UsageBounded c.dc b → UsageBounded c.dc d) →
      UsageBounded c.dc a → UsageBounded c.dc d := fun _ _ _ first second bounded => second (first bounded)
  have miss : ∀ a way, Refills c a way fun dc dc' => UsageBounded c.dc dc → UsageBounded c.dc dc' := fun a way =>
    ⟨fun _ _ _ bounded => bounded.setLine _ _, fun _ bounded => bounded.clear, fun _ bounded => bounded.refilled _⟩
  induction reached with
  | start fresh =>
    intro set way
    rw [fresh]
    omega
  | other _ same ih =>
    rw [same]
    exact ih
  | read _ ran ih =>
    exact runP_cacheOps refl trans (dcSimulateRead_cacheOps (fun _ _ bounded => bounded.hit) (miss _)) ran ih
  | write _ ran ih =>
    exact runP_cacheOps refl trans
      (dcSimulateWrite_cacheOps (fun _ _ bounded => bounded.hit) (fun _ _ _ _ bounded => bounded.setLine _ _) (miss _)) ran ih
  | inv _ ran ih =>
    exact runP_cacheOps refl trans (dcInv_cacheOps (fun _ _ bounded => bounded.clear) fun _ bounded => bounded.clearSet) ran ih

/-- A write that misses replaces the way that a read would replace, whose usage state is least. -/
def ReplacesLeast (d : DcConfig) (dc : Dc) (set : Nat) : Prop :=
  d.minwayWrite dc set = d.minwayRead dc set ∧ ∀ way < d.nways, (dc set (d.minwayWrite dc set)).lru ≤ (dc set way).lru

/-- The last way of a set that is not just used has a smaller usage state than all ways before it. -/
def LastUsedLeast (d : DcConfig) (dc : Dc) (set : Nat) : Prop := Scan.LastIsLeast (usage dc set) (d.ustates - 1) d.nways

/-- In every cache that accesses have made, all usage states are in their range. A read and a write that
miss replace the ways that they choose, and the way of the write is that of the read, the least recently
used one, exactly if the last way that is not just used is used less than all before it. -/
theorem write_replaces_least_iff (states : 2 ≤ c.dc.ustates) (reached : CacheReached c opd s) :
    UsageBounded c.dc s.dc ∧ ∀ a, c.dc.findWay s.dc a = none →
      (∀ w virtAddr value t, runP c opd (Cpu.dcSimulateRead c w a virtAddr) s = .ok (value, t) →
        OnlyWay (c.dc.set a) (c.dc.minwayRead s.dc (c.dc.set a)) s.dc t.dc) ∧
      (∀ w virtAddr data t, runP c opd (Cpu.dcSimulateWrite c w a virtAddr data) s = .ok ((), t) →
        OnlyWay (c.dc.set a) (c.dc.minwayWrite s.dc (c.dc.set a)) s.dc t.dc) ∧
      (ReplacesLeast c.dc s.dc (c.dc.set a) ↔ LastUsedLeast c.dc s.dc (c.dc.set a)) := by
  have bounded := reached.bounded (by omega)
  refine ⟨bounded, fun a absent => ⟨fun w virtAddr value t => dcSimulateRead_onlyWay absent,
    fun w virtAddr data t => dcSimulateWrite_onlyWay absent, ?_⟩⟩
  have same : c.dc.minwayWrite s.dc (c.dc.set a) = c.dc.minwayRead s.dc (c.dc.set a) ↔ LastUsedLeast c.dc s.dc (c.dc.set a) :=
    Scan.last_eq_least_iff _ _ _
  rw [← same]
  constructor
  · exact fun least => least.1
  · intro equal
    refine ⟨equal, ?_⟩
    rw [equal]
    exact minwayRead_least bounded _

end

/-- A core with one set of four ways and four usage states. -/
def fourWays : Config (Devices Unit) := { cachedConfig ⟨1, 1⟩ 10 with dc := ⟨true, 0, 2, 0, 4, 0, 0, 0, 0⟩ }

/-- The machine behind a read of a word. -/
def afterRead (a : Word) (s : Machine (Devices Unit)) : Option (Machine (Devices Unit)) :=
  (runP fourWays Cpu.noOperands (Cpu.dcSimulateRead fourWays .word a a) s).toOption.map (·.2)

theorem CacheReached.afterRead {a : Word} {s t : Machine (Devices Unit)} (reached : CacheReached fourWays Cpu.noOperands s)
    (ran : afterRead a s = some t) : CacheReached fourWays Cpu.noOperands t := by
  unfold Mem.afterRead at ran
  cases run : runP fourWays Cpu.noOperands (Cpu.dcSimulateRead fourWays .word a a) s with
  | error e =>
    rw [run] at ran
    cases ran
  | ok r =>
    rw [run] at ran
    cases ran
    exact reached.read (show runP fourWays Cpu.noOperands (Cpu.dcSimulateRead fourWays .word a a) s = .ok (r.1, r.2) from run)

/-- The machine behind some reads. -/
def afterReads (reads : List Word) : Option (Machine (Devices Unit)) :=
  reads.foldlM (fun s a => afterRead a s) (cachedMachine fun _ => 0)

theorem CacheReached.afterReads {reads : List Word} {s t : Machine (Devices Unit)} (reached : CacheReached fourWays Cpu.noOperands s)
    (ran : reads.foldlM (fun s a => Mem.afterRead a s) s = some t) : CacheReached fourWays Cpu.noOperands t := by
  induction reads generalizing s with
  | nil =>
    cases ran
    exact reached
  | cons a reads ih =>
    rw [List.foldlM_cons] at ran
    obtain ⟨next, first, rest⟩ := Option.bind_eq_some_iff.mp ran
    exact ih (reached.afterRead first) rest

theorem afterReads_reached {reads : List Word} {t : Machine (Devices Unit)} (ran : afterReads reads = some t) :
    CacheReached fourWays Cpu.noOperands t := CacheReached.afterReads (.start fun _ _ => rfl) ran

/-- The four ways are filled, and all but the last are read again. A write that misses replaces the last way, as a read would. -/
theorem write_replaces_least_filled : ∃ s t, afterReads [0x10, 0x20, 0x30, 0x40, 0x10, 0x20, 0x30] = some s ∧
    ReplacesLeast fourWays.dc s.dc 0 ∧ runP fourWays Cpu.noOperands (Cpu.dcSimulateWrite fourWays .word 0x50 0x50 7) s = .ok ((), t) ∧
    (s.dc 0 3).tagaddr = 4 ∧ (t.dc 0 3).tagaddr = 5 ∧ OnlyWay 0 3 s.dc t.dc := by
  have seen : ((afterReads [0x10, 0x20, 0x30, 0x40, 0x10, 0x20, 0x30]).bind fun s =>
      (runP fourWays Cpu.noOperands (Cpu.dcSimulateWrite fourWays .word 0x50 0x50 7) s).toOption.map fun r =>
        (fourWays.dc.findWay s.dc 0x50, (usage s.dc 0 0, usage s.dc 0 1, usage s.dc 0 2, usage s.dc 0 3), fourWays.dc.minwayWrite s.dc 0,
          (s.dc 0 3).tagaddr, (r.2.dc 0 3).tagaddr)) = some (none, (1, 2, 3, 0), 3, 4, 5) := by decide +kernel
  obtain ⟨s, ran, seen⟩ := Option.bind_eq_some_iff.mp seen
  obtain ⟨⟨⟨⟩, t⟩, wrote, seen⟩ := Option.map_eq_some_iff.mp seen
  simp only [Prod.mk.injEq] at seen
  obtain ⟨absent, ⟨first, second, third, last⟩, victim, held, filled⟩ := seen
  have wrote : runP fourWays Cpu.noOperands (Cpu.dcSimulateWrite fourWays .word 0x50 0x50 7) s = .ok ((), t) := by
    generalize runP fourWays Cpu.noOperands (Cpu.dcSimulateWrite fourWays .word 0x50 0x50 7) s = r at wrote
    cases r with
    | error e => cases wrote
    | ok r =>
      cases wrote
      rfl
  obtain ⟨-, write, condition⟩ := (write_replaces_least_iff (by decide) (afterReads_reached ran)).2 0x50 absent
  have least : LastUsedLeast fourWays.dc s.dc 0 := by
    intro j inside below above i before
    obtain rfl | earlier : j = 3 ∨ j < 3 := by
      have ways : fourWays.dc.nways = 4 := rfl
      omega
    · obtain rfl | rfl | rfl : i = 0 ∨ i = 1 ∨ i = 2 := by omega
      · rw [last, first]
        decide
      · rw [last, second]
        decide
      · rw [last, third]
        decide
    · have high := above 3 earlier (by decide)
      rw [last] at high
      exact absurd high (by decide)
  have only := write _ _ _ _ wrote
  rw [show fourWays.dc.set 0x50 = 0 from rfl, victim] at only
  exact ⟨s, t, ran, condition.mpr least, wrote, held, filled, only⟩

/-- Four reads fill the ways, the first way is used least, and a write takes the third. -/
theorem write_replaces_other :
    ¬ ∀ (c : Config (Devices Unit)) (s : Machine (Devices Unit)), 2 ≤ c.dc.ustates → CacheReached c Cpu.noOperands s →
      ∀ a, c.dc.findWay s.dc a = none → ReplacesLeast c.dc s.dc (c.dc.set a) := by
  intro claim
  have reads : (afterReads [0x10, 0x20, 0x30, 0x40]).map
      (fun s => (fourWays.dc.findWay s.dc 0x50, (s.dc 0 0).lru, (s.dc 0 2).lru, fourWays.dc.minwayWrite s.dc 0)) =
        some (none, 0, 2, 2) := by decide +kernel
  obtain ⟨s, ran, found⟩ := Option.map_eq_some_iff.mp reads
  simp only [Prod.mk.injEq] at found
  obtain ⟨absent, least, used, victim⟩ := found
  have wrong := (claim fourWays s (by decide) (afterReads_reached ran) 0x50 absent).2 0 (by decide)
  rw [show fourWays.dc.set 0x50 = 0 from rfl, victim, used, least] at wrong
  exact absurd wrong (by decide)

end Or1ksim.Mem
