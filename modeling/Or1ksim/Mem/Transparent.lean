import Or1ksim.Mem.Dcache

/-!
# Transparency of the data cache

Runs of reads, writes and invalidations on memory. In every state no two ways of a set hold the same
line, every line is the block of memory it caches, and a read returns what the memory holds.
-/

namespace Or1ksim.Mem

open Cpu (Word Width Config Machine Dc DcConfig Operands runP runP_view)
open Caching (Lines)

variable {ε : Type}

/-! ### Coherence -/

/-- Every address of the line is one of memory that can be read and written. -/
def RamLine (c : Config (Devices ε)) (e : Endian) (d : Devices ε) (a : Word) : Prop :=
  ∀ b, c.dc.set b = c.dc.set a → c.dc.tagaddr b = c.dc.tagaddr a → RamAt c e d b

section
variable {c : Config (Devices ε)} {e : Endian} {o : ε} {d d' : Devices ε} {a : Word}

theorem RamLine.transfer (space : Space c e o) (rest : d.rest = o) (rest' : d'.rest = o) (line : RamLine c e d a) :
    RamLine c e d' a := by
  intro b set tag
  obtain ⟨i, m, ⟨found, memory⟩, isRam⟩ := line b set tag
  refine ⟨i, m, ⟨?_, memory⟩, isRam⟩
  obtain ⟨mem, o₁⟩ := d
  obtain ⟨mem', o₂⟩ := d'
  subst rest rest'
  exact (owner_mem space mem' mem b).trans found

theorem RamLine.ramAt (line : RamLine c e d a) {k : Nat} (inside : k < c.dc.blocksize / 4) :
    RamAt c e d (Geometry.lineAddr c.dc a k) := by
  have block : (Geometry.lineAddr c.dc a k).toNat / c.dc.blocksize = a.toNat / c.dc.blocksize := by
    rw [Geometry.lineAddr_toNat c.dc a inside]
    rcases Geometry.blocksize_cases c.dc with size | size <;> rw [size] at inside ⊢ <;> omega
  refine line _ ?_ ?_
  · unfold DcConfig.set
    rw [block]
  · unfold DcConfig.tagaddr
    rw [block]

theorem RamLine.mapped (line : RamLine c e d a) : LineMapped c d a := by
  intro k inside
  obtain ⟨i, m, here, _⟩ := line.ramAt inside
  rw [here.found]
  rfl

theorem RamAt.plain (ram : RamAt c e d a) : Plain c e d a := by
  intro j area found present
  obtain ⟨i, m, here, _⟩ := ram
  obtain rfl : j = i := Option.some.inj (found.symm.trans here.found)
  obtain ⟨area', present', memory⟩ := here.memory
  obtain rfl : area' = area := Option.some.inj (present'.symm.trans present)
  exact .inl ⟨m, memory⟩

theorem RamLine.plain (line : RamLine c e d a) : PlainLine c e d a := fun _ inside => (line.ramAt inside).plain

end

/-- The state of the cache on memory: a tag that is not invalid is that of a line of memory, at most
one way of a set holds it, and the line is what the memory holds. -/
structure Coherent (c : Config (Devices ε)) (e : Endian) (d : Devices ε) (dc : Dc) : Prop where
  unique : (dcLines c.dc dc).Unique fun tag => tag ≠ -1
  ram : ∀ set way, way < c.dc.nways → (dc set way).tagaddr ≠ -1 →
    ∃ a, c.dc.set a = set ∧ c.dc.tagaddr a = (dc set way).tagaddr ∧ RamLine c e d a
  agrees : DcAgrees c e d dc

namespace Coherent

variable {c : Config (Devices ε)} {e : Endian} {d d' : Devices ε} {dc dc' : Dc}

theorem of_empty (empty : ∀ set way, (dc set way).tagaddr = -1) : Coherent c e d dc where
  unique set way _ valid := absurd (empty set way) valid
  ram set way _ valid := absurd (empty set way) valid
  agrees a _ _ holds := absurd (holds.symm.trans (empty _ _)) (Geometry.tagaddr_ne c.dc a)

theorem retag (coherent : Coherent c e d dc) (tags : ∀ s w, (dc' s w).tagaddr = (dc s w).tagaddr)
    (lines : ∀ a, RamLine c e d a → RamLine c e d' a) (agrees : DcAgrees c e d' dc') : Coherent c e d' dc' where
  unique := coherent.unique.congr (by funext s w; exact tags s w)
  ram set way inside valid := by
    rw [tags] at valid ⊢
    obtain ⟨a, isSet, tag, line⟩ := coherent.ram set way inside valid
    exact ⟨a, isSet, tag, lines a line⟩
  agrees := agrees

theorem reused (coherent : Coherent c e d dc) (tags : ∀ s w, (dc' s w).tagaddr = (dc s w).tagaddr)
    (lines : ∀ s w, (dc' s w).line = (dc s w).line) : Coherent c e d dc' :=
  coherent.retag tags (fun _ line => line)
    (coherent.agrees.congr (by funext s w; exact tags s w) (by funext s w; exact lines s w))

/-- A way gets a line that no way held, or becomes empty. -/
theorem fill (coherent : Coherent c e d dc) {a : Word} {way : Nat} (filled : Filled c d a way dc dc')
    (new : c.dc.findWay dc a = none ∧ RamLine c e d a ∨ (dc' (c.dc.set a) way).tagaddr = -1) : Coherent c e d dc' where
  unique := by
    refine coherent.unique.fill (c.dc.set a) ⟨way, filled.inside⟩ (fun s w other => ?_) fun w valid => ?_
    · exact (filled.others s w fun same => other ⟨same.1, Fin.ext same.2⟩).1
    · rcases filled.here with empty | ⟨tag, _⟩
      · exact absurd empty valid
      · intro same
        exact findWay_none_iff.mp (new.resolve_right valid).1 w (same.trans tag)
  ram set w inside valid := by
    by_cases here : set = c.dc.set a ∧ w = way
    · obtain ⟨rfl, rfl⟩ := here
      rcases filled.here with empty | ⟨tag, _⟩
      · exact absurd empty valid
      · exact ⟨a, rfl, tag.symm, (new.resolve_right valid).2⟩
    · rw [(filled.others set w here).1] at valid ⊢
      exact coherent.ram set w inside valid
  agrees := filled.agrees coherent.agrees

end Coherent

/-! ### Operations -/

inductive DcOp where
  | read (w : Width) (dataaddr virtAddr : Word)
  | write (w : Width) (dataaddr virtAddr : Word) (data : BitVec w.bits)
  | inv (dataaddr : Word)

namespace DcOp

def addr : DcOp → Word
  | .read _ a _ => a
  | .write _ a _ _ => a
  | .inv a => a

def IsAligned : DcOp → Prop
  | .read w a _ => Mem.IsAligned w a
  | .write w a _ _ => Mem.IsAligned w a
  | .inv _ => True

instance : (op : DcOp) → Decidable op.IsAligned
  | .read w a _ => inferInstanceAs (Decidable (Mem.IsAligned w a))
  | .write w a _ _ => inferInstanceAs (Decidable (Mem.IsAligned w a))
  | .inv _ => inferInstanceAs (Decidable True)

/-- The call, with the word it returns. -/
def run (c : Config (Devices ε)) : DcOp → Cpu.Sim (Devices ε) Word
  | .read w a v => do pure ((← runP c Cpu.noOperands (Cpu.dcSimulateRead c w a v)).setWidth 32)
  | .write w a v data => do
    runP c Cpu.noOperands (Cpu.dcSimulateWrite c w a v data)
    pure 0
  | .inv a => do
    runP c Cpu.noOperands (Cpu.dcInv c a)
    pure 0

/-- A read returns what `evalsim_mem` would return. -/
def Answers (c : Config (Devices ε)) (s : Machine (Devices ε)) : DcOp → Word → Prop
  | .read w a v, answer => ∃ value s₁, Cpu.evalsimMem c w a v s = .ok ((value, true), s₁) ∧ answer = value.setWidth 32
  | _, _ => True

end DcOp

/-- In every state of the run the cache is coherent, every call returns, and every read returns what
the memory holds. -/
def Transparent (c : Config (Devices ε)) (e : Endian) : List DcOp → Machine (Devices ε) → Prop
  | [], s => Coherent c e s.dev s.dc
  | op :: ops, s => Coherent c e s.dev s.dc ∧
    ∃ answer s', op.run c s = .ok (answer, s') ∧ op.Answers c s answer ∧ Transparent c e ops s'

section
variable {c : Config (Devices ε)} {e : Endian} {o : ε} {s : Machine (Devices ε)} {a : Word}

/-- What holds before and after every call of a run. -/
structure Ready (c : Config (Devices ε)) (e : Endian) (o : ε) (s : Machine (Devices ε)) : Prop where
  rest : s.dev.rest = o
  active : Cpu.dcActive s.view = true
  coherent : Coherent c e s.dev s.dc

theorem read_step (space : Space c e o) (ready : Ready c e o s) (w : Width) (virtAddr : Word) (aligned : IsAligned w a)
    (line : RamLine c e s.dev a) :
    ∃ s', runP c Cpu.noOperands (Cpu.dcSimulateRead c w a virtAddr) s = .ok (peek c w s.dev a, s') ∧ s'.dev = s.dev ∧
      Ready c e o s' := by
  obtain ⟨rest, active, coherent⟩ := ready
  obtain ⟨i, m, here, isRam⟩ := line a rfl rfl
  have value : peek c w s.dev a = w.select a (word c s.dev (wordAddr a)) := by
    subst rest
    exact peek_eq_select space here aligned
  rw [value]
  cases hit : c.dc.findWay s.dc a with
  | some way =>
    obtain ⟨inside, holds⟩ := findWay_some hit
    have cached : (s.dc (c.dc.set a) way).line (c.dc.index a) = word c s.dev (wordAddr a) :=
      coherent.agrees a ⟨way, inside⟩ line.plain.word holds
    rw [← cached]
    exact ⟨_, dcSimulateRead_hit active hit, rfl, rest, active, coherent.reused (fun _ _ => hit_tagaddr ..) fun _ _ => hit_line ..⟩
  | none =>
    obtain ⟨done, s₁, refill, all, after⟩ :=
      miss_filled Cpu.noOperands space (minwayRead_lt c.dc s.dc (c.dc.set a)) c.dc.loadMissdelay s rest line.plain
      (a := a)
    obtain rfl : done = true := all.mpr line.mapped
    obtain ⟨dev, _, active', filled, loaded⟩ := after _ rfl
    rw [if_pos rfl] at dev active' filled loaded
    refine ⟨_, (dcSimulateRead_miss virtAddr active hit refill).trans ?_, dev, by rw [dev, rest], active'.trans active, ?_⟩
    · rw [if_pos rfl, ← loaded rfl]
    · rw [dev]
      exact coherent.fill filled (.inl ⟨hit, line⟩)

theorem write_step (space : Space c e o) (ready : Ready c e o s) (w : Width) (virtAddr : Word) (data : BitVec w.bits)
    (aligned : IsAligned w a) (line : RamLine c e s.dev a) :
    ∃ s', runP c Cpu.noOperands (Cpu.dcSimulateWrite c w a virtAddr data) s = .ok ((), s') ∧ Ready c e o s' := by
  classical
  obtain ⟨rest, active, coherent⟩ := ready
  have ram : RamAt c e s.dev a := line a rfl rfl
  obtain ⟨i, m, here, isRam⟩ := ram
  have kind : StoreKind c e s.dev w a := by
    intro j area found present
    obtain rfl : j = i := Option.some.inj (found.symm.trans here.found)
    obtain ⟨area', present', memory⟩ := here.memory
    obtain rfl : area' = area := Option.some.inj (present'.symm.trans present)
    exact .inl ⟨m, memory⟩
  obtain ⟨s₁, written, dc, _, rest₁, active₁, words⟩ := setsimMem_mapped space rest aligned virtAddr data kind here.found
  have active₁ := active₁.trans active
  have line₁ : RamLine c e s₁.dev a := line.transfer space rest rest₁
  have plains := plain_iff space rest rest₁
  cases hit : c.dc.findWay s.dc a with
  | some way =>
    refine ⟨_, dcSimulateWrite_hit written active₁ (by rw [dc]; exact hit), rest₁, active₁, ?_⟩
    rw [dc]
    refine coherent.retag (fun _ _ => by rw [setLine_tagaddr, hit_tagaddr]) (fun _ => RamLine.transfer space rest rest₁) ?_
    refine (hit_agrees_iff coherent.agrees line.plain.word plains words hit).mpr (.inr ⟨⟨i, m, here, isRam⟩, fun v inside tag => ?_⟩)
    obtain ⟨insideWay, holds⟩ := findWay_some hit
    have same := coherent.unique (c.dc.set a) ⟨v, inside⟩ ⟨way, insideWay⟩
      (fun empty => Geometry.tagaddr_ne c.dc a (tag.symm.trans empty))
      (tag.trans holds.symm)
    exact congrArg Fin.val same
  | none =>
    have absent : c.dc.findWay s₁.dc a = none := by rw [dc]; exact hit
    obtain ⟨done, s₂, refill, _, after⟩ :=
      miss_filled Cpu.noOperands space (minwayWrite_lt c.dc s₁.dc (c.dc.set a)) c.dc.storeMissdelay s₁ rest₁ line₁.plain
      (a := a)
    obtain ⟨dev, _, active₂, filled, _⟩ := after _ rfl
    refine ⟨_, dcSimulateWrite_miss written active₁ absent refill, by rw [dev, rest₁], active₂.trans active₁, ?_⟩
    rw [dev]
    refine Coherent.fill ?_ filled (.inl ⟨absent, line₁⟩)
    rw [dc]
    refine coherent.retag (fun _ _ => rfl) (fun _ => RamLine.transfer space rest rest₁) ?_
    unfold DcAgrees
    simp only [plains]
    refine Lines.Agrees.uncached coherent.agrees (a := a) (findWay_none_iff.mp hit) fun b valued other => ?_
    rw [words b valued, if_neg fun both => other (same_iff.mpr both.2)]

theorem inv_step (ready : Ready c e o s) (a : Word) :
    ∃ s', runP c Cpu.noOperands (Cpu.dcInv c a) s = .ok ((), s') ∧ s'.dev = s.dev ∧ Ready c e o s' := by
  obtain ⟨rest, active, coherent⟩ := ready
  have on : Cpu.has s.view.upr Cpu.uprDcp = true ∧ Cpu.has s.view.sr Cpu.srDce = true := by
    unfold Cpu.dcActive at active
    simp only [Bool.and_eq_true] at active
    exact active.1
  rw [Cpu.dcInv, runP_view, on.1, on.2]
  simp only [Bool.not_true, Bool.false_eq_true, if_false]
  cases hit : c.dc.findWay s.dc a with
  | none =>
    simp only [show c.dc.findWay s.view.dc a = none from hit]
    exact ⟨s, rfl, rfl, rest, active, coherent⟩
  | some way =>
    simp only [show c.dc.findWay s.view.dc a = some way from hit]
    obtain ⟨inside, _⟩ := findWay_some hit
    have emptied : (Cpu.Dc.clear (c.dc.set a) way s.dc (c.dc.set a) way).tagaddr = -1 := congrArg Cpu.DcWay.tagaddr (if_pos ⟨rfl, rfl⟩)
    have filled : Filled c s.dev a way s.dc (Cpu.Dc.clear (c.dc.set a) way s.dc) := by
      refine ⟨inside, fun s₁ w other => ?_, .inl emptied⟩
      have same : Cpu.Dc.clear (c.dc.set a) way s.dc s₁ w = s.dc s₁ w := if_neg other
      exact ⟨congrArg Cpu.DcWay.tagaddr same, congrArg Cpu.DcWay.line same⟩
    exact ⟨_, rfl, rfl, rest, active, coherent.fill filled (.inr emptied)⟩

theorem op_step (space : Space c e o) (ready : Ready c e o s) (op : DcOp) (aligned : op.IsAligned) (line : RamLine c e s.dev op.addr) :
    ∃ answer s', op.run c s = .ok (answer, s') ∧ op.Answers c s answer ∧ Ready c e o s' := by
  cases op with
  | read w a v =>
    obtain ⟨s', ran, _, ready'⟩ := read_step space ready w v aligned line
    obtain ⟨i, m, here, _⟩ := line a rfl rfl
    obtain ⟨s₁, direct, _⟩ := evalsimMem_eq space ready.rest w a v fun j area found present => by
      obtain rfl : j = i := Option.some.inj (found.symm.trans here.found)
      obtain ⟨area', present', memory⟩ := here.memory
      obtain rfl : area' = area := Option.some.inj (present'.symm.trans present)
      exact memory.steady w
    rw [here.found] at direct
    exact ⟨_, s', Programs.bind_of_ok ran, ⟨_, s₁, direct, rfl⟩, ready'⟩
  | write w a v data =>
    obtain ⟨s', ran, ready'⟩ := write_step space ready w v data aligned line
    exact ⟨0, s', Programs.bind_of_ok ran, trivial, ready'⟩
  | inv a =>
    obtain ⟨s', ran, _, ready'⟩ := inv_step ready a
    exact ⟨0, s', Programs.bind_of_ok ran, trivial, ready'⟩

/-- From an empty cache, every run of aligned accesses and invalidations on lines of memory is
transparent. -/
theorem dcache_transparent (space : Space c e o) (s : Machine (Devices ε)) (rest : s.dev.rest = o)
    (active : Cpu.dcActive s.view = true) (empty : ∀ set way, (s.dc set way).tagaddr = -1) (ops : List DcOp)
    (onRam : ∀ op ∈ ops, op.IsAligned ∧ RamLine c e s.dev op.addr) : Transparent c e ops s := by
  have runs : ∀ (ops : List DcOp) (s : Machine (Devices ε)), Ready c e o s →
      (∀ op ∈ ops, op.IsAligned ∧ RamLine c e s.dev op.addr) → Transparent c e ops s := by
    intro ops
    induction ops with
    | nil => exact fun s ready _ => ready.coherent
    | cons op ops ih =>
      intro s ready onRam
      obtain ⟨aligned, line⟩ := onRam op List.mem_cons_self
      obtain ⟨answer, s', ran, answers, ready'⟩ := op_step space ready op aligned line
      refine ⟨ready.coherent, answer, s', ran, answers, ih s' ready' fun later member => ?_⟩
      obtain ⟨alignedLater, lineLater⟩ := onRam later (List.mem_cons_of_mem _ member)
      exact ⟨alignedLater, lineLater.transfer space ready.rest ready'.rest⟩
  exact runs ops s ⟨rest, active, .of_empty empty⟩ onRam

end

/-- The machine with all lines invalid. -/
def invalidMachine (mem : Bytes) : Machine (Devices Unit) :=
  { cachedMachine mem with dc := fun _ _ => ⟨fun _ => 0, -1, 0⟩ }

theorem ramAt_cachedConfig (k : Nat) (d : Devices Unit) {a : Word} (below : a.toNat < 2 ^ k) :
    RamAt (cachedConfig ⟨1, 1⟩ k) .little d a := by
  refine ⟨0, ⟨1, 1⟩, ⟨?_, _, rfl, memoryArea_isMemory _ _ _ _ _⟩, by decide⟩
  have covers : (memoryArea .little 0 ⟨1, 1⟩ 0 k : Cpu.Area (Devices Unit)).covers d a = true := by
    unfold Cpu.Area.covers
    rw [decide_eq_true_iff]
    apply BitVec.eq_of_toNat_eq
    show (a &&& ~~~Aligned.low 32 k).toNat = ((0 : Word) &&& ~~~Aligned.low 32 k).toNat
    rw [Aligned.and_not_low, Aligned.and_not_low, Nat.div_eq_of_lt below]
    simp
  unfold owner
  rw [show (cachedConfig ⟨1, 1⟩ k).areas = [memoryArea .little 0 ⟨1, 1⟩ 0 k] from rfl, List.findIdx?_cons, covers]
  rfl

/-- A byte is read, a half word of the same line is written, and the word of both is read. -/
theorem dcache_transparent_mixed :
    Transparent (cachedConfig ⟨1, 1⟩ 6) .little [.read .byte 1 1, .write .half 2 2 (0x1234 : BitVec 16), .read .word 0 0]
      (invalidMachine fun _ => 1) := by
  have areas : (cachedConfig ⟨1, 1⟩ 6).areas = [memoryArea .little 0 ⟨1, 1⟩ 0 6] := rfl
  refine dcache_transparent (Space.memory () areas (by decide) (by decide)) _ rfl (by decide +kernel) (fun _ _ => rfl) _ ?_
  have line : ∀ a : Word, a.toNat < 16 → RamLine (cachedConfig ⟨1, 1⟩ 6) .little (invalidMachine fun _ => 1).dev a := by
    intro a small b _ tag
    have tags := congrArg BitVec.toNat tag
    rw [Geometry.tagaddr_toNat, Geometry.tagaddr_toNat] at tags
    have geometry : (cachedConfig ⟨1, 1⟩ 6).dc.blocksize = 16 ∧ (cachedConfig ⟨1, 1⟩ 6).dc.nsets = 1 := ⟨rfl, rfl⟩
    rw [geometry.1, geometry.2] at tags
    exact ramAt_cachedConfig 6 _ (by omega)
  intro op member
  simp only [List.mem_cons, List.not_mem_nil, or_false] at member
  rcases member with rfl | rfl | rfl
  · exact ⟨by decide, line _ (by decide)⟩
  · exact ⟨by decide, line _ (by decide)⟩
  · exact ⟨by decide, line _ (by decide)⟩

/-- A memory that is smaller than a line: the refill meets a word without an area, and the read
returns zero. -/
theorem dcache_partial_line :
    ¬ ∀ (c : Config (Devices Unit)) (e : Endian) (s : Machine (Devices Unit)), Space c e () → Cpu.dcActive s.view = true →
      (∀ set way, (s.dc set way).tagaddr = -1) → ∀ ops : List DcOp,
        (∀ op ∈ ops, op.IsAligned ∧ RamAt c e s.dev op.addr) → Transparent c e ops s := by
  intro claim
  have areas : (cachedConfig ⟨1, 1⟩ 2).areas = [memoryArea .little 0 ⟨1, 1⟩ 0 2] := rfl
  obtain ⟨_, answer, s', ran, ⟨value, s₁, direct, same⟩, _⟩ := claim (cachedConfig ⟨1, 1⟩ 2) .little (invalidMachine fun _ => 1)
    (Space.memory () areas (by decide) (by decide)) (by decide +kernel) (fun _ _ => rfl) [.read .word 0 0] fun op member => by
      obtain rfl := List.mem_singleton.mp member
      exact ⟨by decide, ramAt_cachedConfig 2 _ (by decide)⟩
  have cached : ((DcOp.read .word 0 0).run (cachedConfig ⟨1, 1⟩ 2) (invalidMachine fun _ => 1)).toOption.map Prod.fst = some 0 := by
    decide +kernel
  have memory : (Cpu.evalsimMem (cachedConfig ⟨1, 1⟩ 2) .word 0 0 (invalidMachine fun _ => 1)).toOption.map (fun r => (r.1.1 : Word)) =
      some 0x01010101 := by decide +kernel
  rw [ran] at cached
  rw [direct] at memory
  obtain rfl : answer = 0 := Option.some.inj cached
  obtain rfl : value = (0x01010101 : Word) := Option.some.inj memory
  exact absurd same (by decide)

end Or1ksim.Mem
