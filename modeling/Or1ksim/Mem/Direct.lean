import Or1ksim.Cpu.Direct
import Or1ksim.Mem.Dcache

/-!
# Direct accesses to memory

A value that `set_direct` stores and `eval_direct` reads back. The stores of words and half words
give the virtual address to the cache.
-/

namespace Or1ksim.Mem

open Cpu (Word Width Config Area Machine Dc Sim Undisturbed runP noOperands)

variable {ε : Type}

/-! ### Bytes -/

theorem bigRead_bigWrite (f : Bytes) (n : Nat) {w : Width} (value : BitVec w.bits) : bigRead (bigWrite f n w value) n w = value := by
  apply BitVec.eq_of_getLsbD_eq
  intro i inside
  have bits := bits_eq w
  rw [getLsbD_bigRead _ _ _ inside, getLsbD_bigWrite _ _ _ _ _ _ (Nat.mod_lt _ (by decide)), if_pos (by omega)]
  congr 1
  omega

theorem bigRead_bigWrite_other (f : Bytes) {n k : Nat} {w : Width} (value : BitVec w.bits) (apart : k + w.bytes ≤ n ∨ n + w.bytes ≤ k) :
    bigRead (bigWrite f n w value) k w = bigRead f k w := by
  apply BitVec.eq_of_getLsbD_eq
  intro i inside
  have bits := bits_eq w
  rw [getLsbD_bigRead _ _ _ inside, getLsbD_bigWrite _ _ _ _ _ _ (Nat.mod_lt _ (by decide)), if_neg (by omega),
    getLsbD_bigRead _ _ _ inside]

theorem select_merge {w : Width} {a : Word} (aligned : IsAligned w a) (line : Word) (data : BitVec w.bits) :
    w.select a (w.merge a line data) = data := by
  have place := (isAligned_iff w a).mp aligned
  have bits := bits_eq w
  apply BitVec.eq_of_getLsbD_eq
  intro i inside
  have lane : bitLane w a + i < 32 := by
    unfold bitLane
    cases w <;> simp only [Width.bytes] at * <;> omega
  rw [getLsbD_select aligned _ inside, getLsbD_merge aligned _ _ lane, if_pos (by omega), Nat.add_sub_cancel_left]

theorem apart_of_ne {w : Width} {n k : Nat} (first : n % w.bytes = 0) (second : k % w.bytes = 0) (other : n ≠ k) :
    k + w.bytes ≤ n ∨ n + w.bytes ≤ k := by
  cases w <;> simp only [Width.bytes] at * <;> omega

/-! ### Stores to memory -/

/-- The place of an address in its area. -/
def place (c : Config (Devices ε)) (d : Devices ε) (i : Nat) (addr : Word) : Nat :=
  ((c.areas[i]?).map fun a => (addr &&& a.sizeMask d).toNat).getD 0

/-- The value is at the place of the memory, and no other byte has changed. -/
def Stored (e : Endian) (i n : Nat) (w : Width) (value : BitVec w.bits) (d d' : Devices ε) : Prop :=
  ∃ bytes, d' = d.setMem i bytes ∧ cells e bytes = bigWrite (cells e (d.mem i)) n w value

theorem Stored.read {e : Endian} {i n : Nat} {w : Width} {value : BitVec w.bits} {d d' : Devices ε}
    (stored : Stored e i n w value d d') :
    bigRead (cells e (d'.mem i)) n w = value := by
  obtain ⟨bytes, rfl, written⟩ := stored
  rw [show (d.setMem i bytes).mem i = bytes from if_pos rfl, written, bigRead_bigWrite]

section
variable {c : Config (Devices ε)} {e : Endian} {o : ε} {s t : Machine (Devices ε)} {a phys vaddr : Word} {w : Width} {i : Nat}
    {m : MemConfig}

theorem lookup_owner (space : Space c e o) (rest : s.dev.rest = o) (addr : Word) :
    c.lookup s.dev s.curArea addr = owner c s.dev addr := by
  subst rest
  exact lookup_eq_owner space s.dev.mem s.curArea addr

/-- The memory of an address, and the place of the address in it. -/
theorem MemoryAt.place (space : Space c e o) (rest : s.dev.rest = o) (here : MemoryAt c e s.dev phys i m) :
    ∃ area k base, c.areas[i]? = some area ∧ IsMemory e i area m ∧ Window area o k base ∧ 2 ≤ k ∧
      Mem.place c s.dev i phys = phys.toNat % 2 ^ k ∧ (phys &&& area.sizeMask s.dev).toNat = phys.toNat % 2 ^ k := by
  subst rest
  obtain ⟨area, k, base, present, memory, window, words⟩ := here.window space
  have offset : (phys &&& area.sizeMask s.dev).toNat = phys.toNat % 2 ^ k := by
    rw [window.sizeMask]
    exact Aligned.and_low phys (Nat.le_of_lt window.small)
  refine ⟨area, k, base, present, memory, window, words, ?_, offset⟩
  unfold Mem.place
  rw [present]
  exact offset

theorem MemoryAt.stored (space : Space c e o) (rest : s.dev.rest = o) (here : MemoryAt c e s.dev phys i m) (isRam : m.IsRam)
    (aligned : IsAligned w phys) (value : BitVec w.bits) {area : Area (Devices ε)} (present : c.areas[i]? = some area) :
    Stored e i (Mem.place c s.dev i phys) w value s.dev (m.writefunc e i w (phys &&& area.sizeMask s.dev) value s.dev).1 := by
  obtain ⟨area', k, base, present', memory, window, words, placed, offset⟩ := here.place space rest
  obtain rfl : area = area' := Option.some.inj (present.symm.trans present')
  have inside : IsAligned w (phys &&& area.sizeMask s.dev) := by
    rw [← rest] at window
    rw [window.sizeMask]
    exact (window.offset words aligned).2.2
  unfold MemConfig.writefunc
  rw [if_pos isRam.2]
  exact ⟨_, rfl, by rw [cells_simmemWrite e inside, offset, placed]⟩

theorem Stored.peek (space : Space c e o) (rest : s.dev.rest = o) (here : MemoryAt c e s.dev phys i m) (isRam : m.IsRam)
    (aligned : IsAligned w phys) {value : BitVec w.bits} {d : Devices ε}
    (stored : Stored e i (Mem.place c s.dev i phys) w value s.dev d) :
    peek c w d phys = value := by
  obtain ⟨area, k, base, present, memory, window, words, placed, _⟩ := here.place space rest
  have value := stored.read
  obtain ⟨bytes, rfl, _⟩ := stored
  subst rest
  have found : owner c (s.dev.setMem i bytes) phys = some i := (owner_mem space _ s.dev.mem phys).trans here.found
  rw [← value, placed]
  refine (peek_memory found present memory window words aligned).trans ?_
  exact if_pos isRam.1

theorem MemoryAt.moved (space : Space c e o) (rest : s.dev.rest = o) (here : MemoryAt c e s.dev phys i m) {n : Nat}
    {value : BitVec w.bits} {d : Devices ε} (stored : Stored e i n w value s.dev d) : MemoryAt c e d phys i m ∧ d.rest = o := by
  obtain ⟨bytes, rfl, _⟩ := stored
  subst rest
  exact ⟨⟨(owner_mem space _ s.dev.mem phys).trans here.found, here.memory⟩, rfl⟩

/-- A store of the core to memory that can be read and written. -/
theorem setsimMem_ram (space : Space c e o) (rest : s.dev.rest = o) (here : MemoryAt c e s.dev phys i m) (isRam : m.IsRam)
    (aligned : IsAligned w phys) (vaddr : Word) (value : BitVec w.bits) :
    ∃ s₁, Cpu.setsimMem c w phys vaddr value s = .ok (true, s₁) ∧ Stored e i (Mem.place c s.dev i phys) w value s.dev s₁.dev ∧
      s₁.dc = s.dc ∧ Undisturbed s s₁ := by
  obtain ⟨area, present, memory⟩ := here.memory
  obtain ⟨s₁, written, calm⟩ := setsimMem_memory space rest w phys vaddr value here.found present memory
  refine ⟨s₁, written, ?_, calm.dc, Cpu.setsimMem_undisturbed written ?_ (congrFun memory.writes w) rfl⟩
  · rw [calm.dev]
    exact here.stored space rest isRam aligned value present
  · rw [lookup_owner space rest, here.found]
    exact present

theorem evalsimMem_memory (space : Space c e o) (rest : s.dev.rest = o) (here : MemoryAt c e s.dev phys i m) (w : Width) (vaddr : Word) :
    ∃ s₁, Cpu.evalsimMem c w phys vaddr s = .ok ((peek c w s.dev phys, true), s₁) ∧ s₁.dev = s.dev ∧ Undisturbed s s₁ := by
  obtain ⟨area, present, memory⟩ := here.memory
  have only : ∀ mem, (c.lookup s.dev s.curArea phys).bind (c.areas[·]?) = some mem → mem = area := by
    intro mem found
    rw [lookup_owner space rest, here.found] at found
    exact Option.some.inj (found.symm.trans present)
  obtain ⟨s₁, read, calm⟩ := evalsimMem_eq space rest w phys vaddr fun j mem found there => by
    have both : (c.lookup s.dev s.curArea phys).bind (c.areas[·]?) = some mem := by
      rw [lookup_owner space rest, found]
      exact there
    rw [only mem both]
    exact memory.steady w
  rw [here.found] at read
  refine ⟨s₁, read, calm.dev, Cpu.evalsimMem_undisturbed read (fun mem found f callback off => ?_) (.inr ?_)⟩
  · rw [only mem found] at callback
    exact congrArg Prod.snd (memory.steady w f callback off s.dev)
  · have mapped : (c.lookup s.dev s.curArea phys).bind (c.areas[·]?) = some area := by
      rw [lookup_owner space rest, here.found]
      exact present
    rw [Cpu.readFault_mapped mapped, memory.reads]
    rfl

end

/-! ### Lines -/

section
variable {c : Config (Devices ε)} {e : Endian} {o : ε} {s t : Machine (Devices ε)} {a phys vaddr : Word} {w : Width}

theorem mem_dcWords_iff {b : Word} {more i : Nat} : b ∈ c.dcWords a more i ↔ ∃ j < more, b = c.dc.refillAddr a (i + 4 * j) := by
  induction more generalizing i with
  | zero => simp [Config.dcWords]
  | succ more ih =>
    rw [Config.dcWords, List.mem_cons, ih]
    constructor
    · rintro (rfl | ⟨j, inside, rfl⟩)
      · exact ⟨0, by omega, rfl⟩
      · exact ⟨j + 1, by omega, by rw [show i + 4 + 4 * j = i + 4 * (j + 1) by omega]⟩
    · rintro ⟨j, inside, rfl⟩
      cases j with
      | zero => exact .inl rfl
      | succ j => exact .inr ⟨j, by omega, by rw [show i + 4 + 4 * j = i + 4 * (j + 1) by omega]⟩

theorem forall_dcLine_iff {P : Word → Prop} : (∀ b ∈ c.dcLine a, P b) ↔ ∀ k < c.dc.blocksize / 4, P (Geometry.lineAddr c.dc a k) := by
  unfold Config.dcLine
  constructor
  · intro all k inside
    obtain ⟨n, small, rfl⟩ := Geometry.index_surjective c.dc a inside
    rw [← Geometry.refillAddr_eq]
    exact all _ (mem_dcWords_iff.mpr ⟨n, small, by rw [Nat.zero_add]⟩)
  · intro all b member
    obtain ⟨j, _, rfl⟩ := mem_dcWords_iff.mp member
    rw [Nat.zero_add, Geometry.refillAddr_eq]
    exact all _ (Geometry.index_lt c.dc _)

theorem PlainLine.steady (space : Space c e o) (rest : s.dev.rest = o) (plain : PlainLine c e s.dev a) :
    Cpu.SteadyLine c (owner c s.dev) s.dev (c.dcLine a) where
  found b _ cur := by
    subst rest
    exact lookup_eq_owner space s.dev.mem cur b
  reads := by
    refine forall_dcLine_iff.mpr fun k inside mem found f callback off => ?_
    obtain ⟨i, there, present⟩ := Option.bind_eq_some_iff.mp found
    exact (plain k inside).steady there present f callback off s.dev

/-- Every word of the line has a reader. -/
def Readable (c : Config (Devices ε)) (d : Devices ε) (a : Word) : Prop :=
  ∀ k < c.dc.blocksize / 4, c.readFault .word (owner c d (Geometry.lineAddr c.dc a k)) = none

/-- The line of the address is in the cache, or can be fetched: no word of it is outside every area, and
none is without a reader unless the debug unit takes the bus error. -/
def Fetchable (c : Config (Devices ε)) (s : Machine (Devices ε)) (a : Word) : Prop :=
  c.dc.findWay s.dc a ≠ none ∨ LineMapped c s.dev a ∧ (Cpu.diverted s .buserr = true ∨ Readable c s.dev a)

theorem refill_undisturbed (space : Space c e o) (rest : s.dev.rest = o) (plain : PlainLine c e s.dev a)
    (fine : Cpu.diverted s .buserr = true ∨ Readable c s.dev a) {way : Nat} {done : Bool}
    (ran : runP c noOperands (Cpu.dcRefill c a way (c.dc.blocksize / 4) 0) s = .ok (done, t)) : Undisturbed s t :=
  Cpu.dcRefill_undisturbed (plain.steady space rest) (fine.imp_right forall_dcLine_iff.mpr) ran

/-- A fault that the debug unit does not take is an exception of the core. -/
theorem refill_enters (space : Space c e o) (rest : s.dev.rest = o) (plain : PlainLine c e s.dev a)
    (left : Cpu.diverted s .buserr = false) (unreadable : ¬ Readable c s.dev a) {way : Nat} {done : Bool}
    (ran : runP c noOperands (Cpu.dcRefill c a way (c.dc.blocksize / 4) 0) s = .ok (done, t)) : t.entries ≠ s.entries := by
  have told : Cpu.Told s t (Cpu.lineTells c (owner c s.dev) (c.dcLine a) s) := Cpu.dcRefill_told (plain.steady space rest) ran
  obtain ⟨new, entries, reports⟩ := told.entries
  intro same
  obtain rfl : new = [] := List.append_cancel_right (entries.symm.trans (same.trans (List.nil_append _).symm))
  have none : c.refillFaults (owner c s.dev) (c.dcLine a) = [] := by
    unfold Cpu.lineTells Cpu.reported at reports
    rw [left, if_neg (by decide)] at reports
    simpa using reports.symm
  exact unreadable (forall_dcLine_iff.mp ((Cpu.refillFaults_eq_nil_iff _).mp none))

theorem findWay_congr {dc dc' : Dc} (tags : ∀ s w, (dc' s w).tagaddr = (dc s w).tagaddr) (a : Word) :
    c.dc.findWay dc' a = c.dc.findWay dc a := by
  unfold Cpu.DcConfig.findWay
  simp only [tags]

/-- Behind a refill that came to its end the line is found where it was put. -/
theorem Filled.findWay {d : Devices ε} {way : Nat} {dc dc' : Dc} (filled : Filled c d a way dc dc')
    (absent : c.dc.findWay dc a = none) : c.dc.findWay dc' a = if (dc' (c.dc.set a) way).tagaddr = -1 then none else some way := by
  have absent := findWay_none_iff.mp absent
  have elsewhere : ∀ v, v.val ≠ way → ¬ (dcLines c.dc dc').Holds (dcSplit c.dc) a v := by
    intro v other holds
    refine absent v (Eq.trans ?_ holds)
    exact (filled.others _ _ fun same => other same.2).1.symm
  split
  · next empty =>
    refine findWay_none_iff.mpr fun v holds => ?_
    by_cases here : v.val = way
    · refine Geometry.tagaddr_ne c.dc a (Eq.trans holds.symm ?_)
      exact (congrArg (fun u => (dc' (c.dc.set a) u).tagaddr) here).trans empty
    · exact elsewhere v here holds
  · next full =>
    obtain ⟨tag, _⟩ := filled.here.resolve_left full
    cases found : c.dc.findWay dc' a with
    | none => exact absurd tag (findWay_none_iff.mp found ⟨way, filled.inside⟩)
    | some v =>
      obtain ⟨inside, holds⟩ := findWay_some found
      by_contra other
      exact elsewhere ⟨v, inside⟩ (fun same => other (congrArg some same)) holds

end

/-! ### Accesses without an exception -/

section
variable {c : Config (Devices ε)} {e : Endian} {o : ε} {s t : Machine (Devices ε)} {phys : Word} {w : Width} {i : Nat} {m : MemConfig}

theorem owner_rest (space : Space c e o) {d d' : Devices ε} (rest : d.rest = o) (rest' : d'.rest = o) (addr : Word) :
    owner c d' addr = owner c d addr := by
  obtain ⟨mem, _⟩ := d
  obtain ⟨mem', _⟩ := d'
  subst rest rest'
  exact owner_mem space mem' mem addr

theorem missed_undisturbed (c : Config (Devices ε)) (a : Word) (way : Nat) (delay : Int) (s : Machine (Devices ε)) :
    Undisturbed s (missed c a way delay s) := by
  unfold missed
  dsimp only
  split
  · refine Undisturbed.trans ?_ (.pcuCountEvent _ _)
    exact .of_same rfl rfl rfl
  · exact .of_same rfl rfl rfl

/-- The cache has the value of the address. -/
def CachedAs (c : Config (Devices ε)) (w : Width) (a : Word) (value : BitVec w.bits) (dc : Dc) : Prop :=
  ∃ way, c.dc.findWay dc a = some way ∧ w.select a ((dc (c.dc.set a) way).line (c.dc.index a)) = value

theorem dcSimulateWrite_ram (space : Space c e o) (rest : s.dev.rest = o) (here : MemoryAt c e s.dev phys i m) (isRam : m.IsRam)
    (aligned : IsAligned w phys) (plain : PlainLine c e s.dev phys) (fetch : Cpu.dcActive s.view = true → Fetchable c s phys)
    (vaddr : Word) (value : BitVec w.bits) :
    ∃ s₁, runP c noOperands (Cpu.dcSimulateWrite c w phys vaddr value) s = .ok ((), s₁) ∧
      Stored e i (place c s.dev i phys) w value s.dev s₁.dev ∧ Undisturbed s s₁ ∧
      (Cpu.dcActive s.view = true → CachedAs c w phys value s₁.dc) := by
  obtain ⟨t, written, stored, dc, kept⟩ := setsimMem_ram space rest here isRam aligned vaddr value
  obtain ⟨hereT, restT⟩ := here.moved space rest stored
  cases active : Cpu.dcActive s.view with
  | false => exact ⟨t, Cpu.dcSimulateWrite_past written (kept.dcActive.trans active), stored, kept, nofun⟩
  | true =>
    have activeT := kept.dcActive.trans active
    cases hit : c.dc.findWay s.dc phys with
    | some way =>
      refine ⟨_, dcSimulateWrite_hit written activeT (by rw [dc]; exact hit), stored, kept.trans (.of_same rfl rfl rfl),
        fun _ => ⟨way, ?_, ?_⟩⟩
      · rw [findWay_congr fun s w => (setLine_tagaddr ..).trans (hit_tagaddr ..), dc, hit]
      · rw [setLine_line, if_pos ⟨rfl, rfl, rfl⟩, select_merge aligned]
    | none =>
      obtain ⟨mapped, fine⟩ := (fetch active).resolve_left fun found => found hit
      have owners := owner_rest space rest restT
      have plainT : PlainLine c e t.dev phys := fun k inside => (plain_iff space rest restT _).mpr (plain k inside)
      have absent : c.dc.findWay t.dc phys = none := by rw [dc, hit]
      let way := c.dc.minwayWrite t.dc (c.dc.set phys)
      have insideWay : way < c.dc.nways := minwayWrite_lt c.dc t.dc _
      obtain ⟨done, t₂, refill, all, after⟩ := miss_filled noOperands space insideWay c.dc.storeMissdelay t restT plainT
      obtain rfl : done = true := all.mpr fun k inside => by rw [owners]; exact mapped k inside
      have fineT : Cpu.diverted t .buserr = true ∨ Readable c t.dev phys := by
        rw [kept.diverted]
        refine fine.imp_right fun readable k inside => ?_
        rw [owners]
        exact readable k inside
      have calm := missed_calm c phys way c.dc.storeMissdelay t₂
      have tag : ((missed c phys way c.dc.storeMissdelay t₂).dc (c.dc.set phys) way).tagaddr ≠ -1 := by
        rw [calm.dc, refilled_tagaddr _ _ _ _ _ _ _ insideWay, if_pos ⟨rfl, rfl⟩]
        exact Geometry.tagaddr_ne c.dc phys
      obtain ⟨dev, _, _, filled, loaded⟩ := after _ rfl
      rw [if_pos rfl] at dev filled loaded
      refine ⟨_, dcSimulateWrite_miss written activeT absent refill, ?_, ?_, fun _ => ⟨way, ?_, ?_⟩⟩
      · rw [if_pos rfl, dev]
        exact stored
      · exact kept.trans ((refill_undisturbed space restT plainT fineT refill).trans (missed_undisturbed _ _ _ _ _))
      · rw [if_pos rfl, filled.findWay absent, if_neg tag]
      · have selected : peek c w t.dev phys = w.select phys (word c t.dev (wordAddr phys)) := by
          subst restT
          exact peek_eq_select space hereT aligned
        rw [if_pos rfl, loaded rfl, ← selected]
        exact stored.peek space rest here isRam aligned

/-- A read through the cache of what the memory holds, or the cache. -/
theorem dcSimulateRead_memory (space : Space c e o) (rest : s.dev.rest = o) (here : MemoryAt c e s.dev phys i m) (vaddr : Word)
    {value : BitVec w.bits} (holds : peek c w s.dev phys = value)
    (cached : Cpu.dcActive s.view = true → CachedAs c w phys value s.dc) :
    ∃ s₁, runP c noOperands (Cpu.dcSimulateRead c w phys vaddr) s = .ok (value, s₁) ∧ s₁.dev = s.dev ∧ Undisturbed s s₁ := by
  cases active : Cpu.dcActive s.view with
  | false =>
    obtain ⟨s₁, read, dev, kept⟩ := evalsimMem_memory space rest here w vaddr
    rw [holds] at read
    exact ⟨s₁, Cpu.dcSimulateRead_past active read, dev, kept⟩
  | true =>
    obtain ⟨way, found, rfl⟩ := cached active
    exact ⟨_, dcSimulateRead_hit active found, rfl, .of_same rfl rfl rfl⟩

theorem directWrite_ram (space : Space c e o) (rest : s.dev.rest = o) (here : MemoryAt c e s.dev phys i m) (isRam : m.IsRam)
    (aligned : IsAligned w phys) (value : BitVec w.bits) :
    ∃ s₁, Cpu.directWrite c w phys value s = .ok ((), s₁) ∧ Stored e i (place c s.dev i phys) w value s.dev s₁.dev ∧
      Undisturbed s s₁ := by
  obtain ⟨area, present, memory⟩ := here.memory
  have found : c.area (Cpu.verifyMemoryarea c phys s) = some area := by
    rw [Config.area, area_verifyMemoryarea space rest phys, here.found]
    exact present
  have dev : (Cpu.verifyMemoryarea c phys s).dev = s.dev := rfl
  have stored := here.stored space rest isRam aligned value present
  unfold Cpu.directWrite
  rw [Programs.modify_bind, Programs.get_bind, found]
  simp only [memory.writes, dev, Programs.set_bind]
  exact ⟨_, rfl, stored, .of_same rfl rfl rfl⟩

theorem directRead_memory (space : Space c e o) (rest : s.dev.rest = o) (here : MemoryAt c e s.dev phys i m) (w : Width) :
    ∃ s₁, Cpu.directRead c w phys s = .ok (peek c w s.dev phys, s₁) ∧ s₁.dev = s.dev ∧ Undisturbed s s₁ := by
  obtain ⟨area, present, memory⟩ := here.memory
  have found : c.area (Cpu.verifyMemoryarea c phys s) = some area := by
    rw [Config.area, area_verifyMemoryarea space rest phys, here.found]
    exact present
  have dev : (Cpu.verifyMemoryarea c phys s).dev = s.dev := rfl
  have peeked : peek c w s.dev phys = (m.readfunc e i w (phys &&& area.sizeMask s.dev) s.dev).1 := by
    unfold peek
    rw [here.found, Option.bind_some, present]
    simp only [memory.reads]
  unfold Cpu.directRead
  rw [Programs.modify_bind, Programs.get_bind, found, peeked]
  simp only [memory.reads, dev, Programs.set_bind]
  exact ⟨_, rfl, rfl, .of_same rfl rfl rfl⟩

end

/-! ### Accesses elsewhere -/

/-- The other areas leave a memory alone. -/
structure Alone (c : Config (Devices ε)) (i : Nat) : Prop where
  reads : ∀ j area, j ≠ i → c.areas[j]? = some area → ∀ w f, area.readfunc w = some f → ∀ off d, (f off d).2.1.mem i = d.mem i
  writes : ∀ j area, j ≠ i → c.areas[j]? = some area → ∀ w f, area.writefunc w = some f → ∀ off v d, (f off v d).1.mem i = d.mem i

section
variable {c : Config (Devices ε)} {e : Endian} {o : ε} {s t : Machine (Devices ε)} {a phys vaddr : Word} {w : Width} {i : Nat}
    {m : MemConfig}

theorem evalsimMem_mem (alone : Alone c i) (memory : ∃ area, c.areas[i]? = some area ∧ IsMemory e i area m) {got : BitVec w.bits × Bool}
    (ran : Cpu.evalsimMem c w a vaddr s = .ok (got, t)) : t.dev.mem i = s.dev.mem i := by
  rcases Cpu.evalsimMem_cases ran with ⟨_, rfl, _⟩ | ⟨mem, area, ⟨_, _, rfl⟩ | ⟨f, callback, events, _⟩⟩
  · rw [(Cpu.Untouched.exceptHandle _ _ _).dev]
    rfl
  · rw [(Cpu.Untouched.exceptHandle _ _ _).dev]
    rfl
  · rw [Cpu.devEvents_dev events]
    obtain ⟨j, _, present⟩ := Option.bind_eq_some_iff.mp area
    by_cases same : j = i
    · obtain ⟨area', present', memory⟩ := memory
      obtain rfl : mem = area' := Option.some.inj (present.symm.trans (same ▸ present'))
      rw [memory.steady w f callback]
      rfl
    · exact alone.reads j mem same present w f callback _ _

theorem refilling_mem (alone : Alone c i) (memory : ∃ area, c.areas[i]? = some area ∧ IsMemory e i area m) {op : Cpu.Op}
    (is : Cpu.Refilling op) :
    Programs.Keeps (fun s t : Machine (Devices ε) => t.dev.mem i = s.dev.mem i) (op.sem c noOperands) := by
  intro s got t ran
  cases op with
  | evalsimMem w addr vaddr => exact evalsimMem_mem alone memory ran
  | pcuCountEvent event =>
    cases ran
    rw [(Cpu.Untouched.pcuCountEvent event _).dev]
  | view | setDc | addMemCycles =>
    cases ran
    rfl
  | _ => exact is.elim

/-- A store to another address leaves the value at its place. -/
theorem setsimMem_elsewhere (space : Space c e o) (rest : s.dev.rest = o) (here : MemoryAt c e s.dev phys i m) (alone : Alone c i)
    (aligned : IsAligned w phys) (alignedA : IsAligned w a) (other : a ≠ phys) {value : BitVec w.bits} {mapped : Bool}
    (ran : Cpu.setsimMem c w a vaddr value s = .ok (mapped, t)) :
    bigRead (cells e (t.dev.mem i)) (place c s.dev i phys) w = bigRead (cells e (s.dev.mem i)) (place c s.dev i phys) w := by
  rcases Cpu.setsimMem_cases ran with ⟨_, rfl, _⟩ | ⟨mem, found, ⟨_, _, rfl⟩ | ⟨f, callback, events, _⟩⟩
  · rw [(Cpu.Untouched.exceptHandle _ _ _).dev]
    rfl
  · rw [(Cpu.Untouched.exceptHandle _ _ _).dev]
    rfl
  · rw [Cpu.devEvents_dev events]
    obtain ⟨j, owned, present⟩ := Option.bind_eq_some_iff.mp found
    by_cases same : j = i
    · subst same
      have owned : owner c s.dev a = some j := (lookup_owner space rest a).symm.trans owned
      have hereA : MemoryAt c e s.dev a j m := ⟨owned, here.memory⟩
      obtain ⟨area, k, base, present', memory, window, words, placed, _⟩ := here.place space rest
      obtain rfl : mem = area := Option.some.inj (present.symm.trans present')
      rw [memory.writes] at callback
      obtain rfl := Option.some.inj callback
      subst rest
      have offset := window.offset words alignedA
      have offsetP := (window.offset words aligned).2.2
      have places : a.toNat % 2 ^ k ≠ phys.toNat % 2 ^ k := fun same =>
        other (window.eq_of_mod (here.covers space present) (hereA.covers space present) same)
      show bigRead (cells e ((m.writefunc e j w (a &&& mem.sizeMask s.dev) value s.dev).1.mem j)) _ w = _
      rw [placed, window.sizeMask]
      unfold MemConfig.writefunc
      split
      · rw [show (s.dev.setMem j _).mem j = _ from if_pos rfl, cells_simmemWrite e offset.2.2, offset.1]
        refine bigRead_bigWrite_other _ value (apart_of_ne ?_ ?_ places)
        · rw [← offset.1]
          exact (isAligned_iff w _).mp offset.2.2
        · rw [← (window.offset words aligned).1]
          exact (isAligned_iff w _).mp offsetP
      · rfl
    · exact congrArg (fun bytes => bigRead (cells e bytes) _ w) (alone.writes j mem same present w f callback _ _ _)

end

/-! ### Round trips -/

/-- A store and the read behind it: the read returns the value, the store has changed the bytes of the
value alone, and the core enters no exception. -/
def RoundTrips (c : Config (Devices ε)) (e : Endian) (i n : Nat) (w : Width) (a : Word) (throughMmu throughDc : Bool)
    (s : Machine (Devices ε)) : Prop :=
  ∀ value : BitVec w.bits, ∃ s₁ s₂, Cpu.setDirect c w a value throughMmu throughDc s = .ok ((), s₁) ∧
    Cpu.evalDirect c w a throughMmu throughDc s₁ = .ok (value, s₂) ∧ Stored e i n w value s.dev s₁.dev ∧ s₂.dev = s₁.dev ∧
      s₁.entries = s.entries ∧ s₂.entries = s.entries

/-- The condition under which they do: the address is aligned; with the cache, the store is that of a
byte or the translation leaves the address as it is; and a line that the cache needs can be fetched. -/
structure DirectSound (c : Config (Devices ε)) (w : Width) (a phys : Word) (throughDc ci : Bool) (s : Machine (Devices ε)) : Prop where
  aligned : IsAligned w a
  target : throughDc = true → w = .byte ∨ phys = a
  line : throughDc = true → Cpu.dcActive { s with dataCi := ci }.view = true → Fetchable c s phys

theorem not_ne_self {w : Width} (x : BitVec w.bits) : ~~~x ≠ x := by
  intro same
  have bit := congrArg (BitVec.getLsbD · 0) same
  have positive : 0 < w.bits := by cases w <;> decide
  simp [positive] at bit

section
variable {c : Config (Devices ε)} {e : Endian} {o : ε} {s t : Machine (Devices ε)} {a phys : Word} {w : Width} {i : Nat} {m : MemConfig}
  {throughMmu throughDc ci : Bool}

theorem directPhysical_target (target : w = .byte ∨ phys = a) : (if w.directPhysical then phys else a) = phys := by
  rcases target with rfl | rfl
  · exact if_pos rfl
  · exact ite_self _

theorem RoundTrips.of_sound (space : Space c e o) (rest : s.dev.rest = o)
    (set : Cpu.translation c s a w.directWrite throughMmu throughDc = some (phys, ci))
    (eval : Cpu.translation c s a false throughMmu throughDc = some (phys, ci)) (here : MemoryAt c e s.dev phys i m) (isRam : m.IsRam)
    (plain : throughDc = true → PlainLine c e s.dev phys) (sound : DirectSound c w a phys throughDc ci s) :
    RoundTrips c e i (place c s.dev i phys) w a throughMmu throughDc s := by
  intro value
  have alignedPhys : IsAligned w phys := Cpu.translation_aligned set sound.aligned
  let t : Machine (Devices ε) := { s with dataCi := ci }
  have ran := Cpu.setDirect_aligned sound.aligned set value
  cases throughDc with
  | false =>
    obtain ⟨s₁, written, stored, kept⟩ := directWrite_ram (s := t) space rest here isRam alignedPhys value
    obtain ⟨here₁, rest₁⟩ := here.moved space rest stored
    obtain ⟨s₂, read, dev, kept₂⟩ := directRead_memory space rest₁ here₁ w
    rw [stored.peek space rest here isRam alignedPhys] at read
    exact ⟨s₁, s₂, ran.trans written, (Cpu.evalDirect_aligned sound.aligned (kept.settled eval)).trans read, stored, dev, kept.entries,
      kept₂.entries.trans kept.entries⟩
  | true =>
    rw [if_pos rfl, directPhysical_target (sound.target rfl)] at ran
    obtain ⟨s₁, written, stored, kept, cached⟩ :=
      dcSimulateWrite_ram (s := t) space rest here isRam alignedPhys (plain rfl) (sound.line rfl) a value
    obtain ⟨here₁, rest₁⟩ := here.moved space rest stored
    obtain ⟨s₂, read, dev, kept₂⟩ := dcSimulateRead_memory space rest₁ here₁ a (stored.peek space rest here isRam alignedPhys)
      fun active => cached (kept.dcActive.symm.trans active)
    exact ⟨s₁, s₂, ran.trans written, (Cpu.evalDirect_aligned sound.aligned (kept.settled eval)).trans read, stored, dev, kept.entries,
      kept₂.entries.trans kept.entries⟩

theorem RoundTrips.aligned {n : Nat} (trips : RoundTrips c e i n w a throughMmu throughDc s) : IsAligned w a := by
  refine Bool.eq_false_iff.mpr fun unaligned => ?_
  obtain ⟨s₁, _, ran, _, stored, _⟩ := trips (~~~bigRead (cells e (s.dev.mem i)) n w)
  rw [Cpu.setDirect_unaligned unaligned] at ran
  cases ran
  exact not_ne_self _ stored.read.symm

/-- A store to the virtual address does not come to the place. -/
theorem RoundTrips.target (space : Space c e o) (rest : s.dev.rest = o)
    (set : Cpu.translation c s a w.directWrite throughMmu true = some (phys, ci)) (here : MemoryAt c e s.dev phys i m)
    (alone : Alone c i) (trips : RoundTrips c e i (place c s.dev i phys) w a throughMmu true s) : w = .byte ∨ phys = a := by
  by_contra neither
  obtain ⟨wide, other⟩ := not_or.mp neither
  have virtual : w.directPhysical = false := decide_eq_false wide
  have aligned := trips.aligned
  obtain ⟨s₁, _, ran, _, stored, _⟩ := trips (~~~bigRead (cells e (s.dev.mem i)) (place c s.dev i phys) w)
  rw [Cpu.setDirect_aligned aligned set, if_pos rfl, virtual, if_neg (by decide)] at ran
  obtain ⟨mapped, mid, written, p, uses, behind⟩ := Cpu.dcSimulateWrite_parts ran
  have spared := setsimMem_elsewhere (s := { s with dataCi := ci }) space rest here alone (Cpu.translation_aligned set aligned) aligned
    (fun same => other same.symm) written
  have kept : s₁.dev.mem i = mid.dev.mem i :=
    Programs.Uses.run (R := fun s t : Machine (Devices ε) => t.dev.mem i = s.dev.mem i) (fun _ => rfl)
      (fun _ _ _ first second => second.trans first) (fun _ is => refilling_mem alone here.memory is) uses _ _ _ behind
  refine not_ne_self _ (stored.read.symm.trans ?_)
  rw [kept]
  exact spared

theorem Readable.mapped {d : Devices ε} (readable : Readable c d a) : LineMapped c d a := by
  intro k inside
  have fault := readable k inside
  cases found : owner c d (Geometry.lineAddr c.dc a k) with
  | none =>
    rw [found, Cpu.readFault_unmapped rfl] at fault
    cases fault
  | some j => rfl

/-- A store to memory that misses the cache, and the refill behind it. -/
theorem store_refills (space : Space c e o) (rest : s.dev.rest = o) (here : MemoryAt c e s.dev phys i m) (isRam : m.IsRam)
    (aligned : IsAligned w phys) (plain : PlainLine c e s.dev phys) (active : Cpu.dcActive s.view = true)
    (absent : c.dc.findWay s.dc phys = none) (vaddr : Word) (value : BitVec w.bits) :
    ∃ way u done u₁, way < c.dc.nways ∧ Undisturbed s u ∧ u.dc = s.dc ∧ u.dev.rest = o ∧ PlainLine c e u.dev phys ∧
      runP c noOperands (Cpu.dcRefill c phys way (c.dc.blocksize / 4) 0) u = .ok (done, u₁) ∧
      runP c noOperands (Cpu.dcSimulateWrite c w phys vaddr value) s =
        .ok ((), if done then missed c phys way c.dc.storeMissdelay u₁ else u₁) := by
  obtain ⟨u, written, stored, dc, kept⟩ := setsimMem_ram space rest here isRam aligned vaddr value
  obtain ⟨_, restU⟩ := here.moved space rest stored
  have plainU : PlainLine c e u.dev phys := fun k inside => (plain_iff space rest restU _).mpr (plain k inside)
  have absentU : c.dc.findWay u.dc phys = none := by rw [dc, absent]
  obtain ⟨done, u₁, refill, _⟩ := dcRefill_line noOperands space phys (c.dc.minwayWrite u.dc (c.dc.set phys)) u restU plainU
  exact ⟨_, u, done, u₁, minwayWrite_lt c.dc u.dc _, kept, dc, restU, plainU, refill,
    dcSimulateWrite_miss written (kept.dcActive.trans active) absentU refill⟩

/-- A refill that meets an address without an area leaves no way with the line. -/
theorem refill_stops (space : Space c e o) (rest : s.dev.rest = o) (plain : PlainLine c e s.dev phys)
    (unmapped : ¬ LineMapped c s.dev phys)
    (absent : c.dc.findWay s.dc phys = none) {way : Nat} (inside : way < c.dc.nways) {done : Bool}
    (ran : runP c noOperands (Cpu.dcRefill c phys way (c.dc.blocksize / 4) 0) s = .ok (done, t)) :
    done = false ∧ t.dev = s.dev ∧ c.dc.findWay t.dc phys = none := by
  obtain ⟨done', t', ran', changed, all, _, empty⟩ := dcRefill_line noOperands space phys way s rest plain
  obtain ⟨rfl, rfl⟩ := Prod.mk.inj (Except.ok.inj (ran.symm.trans ran'))
  have stopped : done = false := Bool.eq_false_iff.mpr fun finished => unmapped (all.mp finished)
  have filled : Filled c s.dev phys way s.dc t.dc :=
    ⟨inside, fun s w other => by rw [changed.others s w other]; exact ⟨rfl, rfl⟩, .inl (empty stopped)⟩
  refine ⟨stopped, changed.dev, ?_⟩
  rw [filled.findWay absent, if_pos (empty stopped)]

/-- A line that cannot be fetched raises a bus error, or reads as zero. -/
theorem RoundTrips.line (space : Space c e o) (rest : s.dev.rest = o)
    (set : Cpu.translation c s a w.directWrite throughMmu true = some (phys, ci))
    (eval : Cpu.translation c s a false throughMmu true = some (phys, ci)) (here : MemoryAt c e s.dev phys i m) (isRam : m.IsRam)
    (plain : PlainLine c e s.dev phys) (target : w = .byte ∨ phys = a)
    (trips : RoundTrips c e i (place c s.dev i phys) w a throughMmu true s)
    (active : Cpu.dcActive { s with dataCi := ci }.view = true) : Fetchable c s phys := by
  by_contra unfetchable
  obtain ⟨absent, unfilled⟩ := not_or.mp unfetchable
  have absent := not_not.mp absent
  have aligned := trips.aligned
  -- no other value is read back, as what the read returns is zero
  obtain ⟨s₁, s₂, ran, read, stored, _, entries, _⟩ := trips (~~~0)
  obtain ⟨_, rest₁⟩ := here.moved space rest stored
  rw [Cpu.setDirect_aligned aligned set, if_pos rfl, directPhysical_target target] at ran
  obtain ⟨way, u, done, u₁, inside, kept, dc, restU, plainU, refill, written⟩ :=
    store_refills (s := { s with dataCi := ci }) space rest here isRam (Cpu.translation_aligned set aligned) plain active absent a (~~~0)
  have owners := owner_rest space rest restU
  obtain rfl : (if done then missed c phys way c.dc.storeMissdelay u₁ else u₁) = s₁ :=
    congrArg Prod.snd (Except.ok.inj (written.symm.trans ran))
  have entries₁ : (if done then missed c phys way c.dc.storeMissdelay u₁ else u₁).entries = u₁.entries := by
    cases done
    · rfl
    · exact (missed_undisturbed ..).entries
  cases taken : Cpu.diverted s .buserr with
  | false =>
    have left : Cpu.diverted u .buserr = false := (kept.diverted _).trans taken
    refine refill_enters space restU plainU left (fun readable => ?_) refill (entries₁.symm.trans (entries.trans kept.entries.symm))
    have readable : Readable c s.dev phys := fun k small => by
      rw [← owners]
      exact readable k small
    exact unfilled ⟨readable.mapped, .inr readable⟩
  | true =>
    have unmapped : ¬ LineMapped c s.dev phys := fun mapped => unfilled ⟨mapped, .inl taken⟩
    have unmappedU : ¬ LineMapped c u.dev phys := fun mapped => unmapped fun k small => by
      rw [← owners]
      exact mapped k small
    obtain ⟨rfl, dev, absent₁⟩ := refill_stops space restU plainU unmappedU (by rw [dc]; exact absent) inside refill
    rw [if_neg (by decide)] at read rest₁
    have kept₁ := kept.trans (refill_undisturbed space restU plainU (.inl ((kept.diverted _).trans taken)) refill)
    have plain₁ : PlainLine c e u₁.dev phys := by
      rw [dev]
      exact plainU
    have unmapped₁ : ¬ LineMapped c u₁.dev phys := by
      rw [dev]
      exact unmappedU
    have active₁ := kept₁.dcActive.trans active
    obtain ⟨done, u₂, refill₂, _⟩ := dcRefill_line noOperands space phys (c.dc.minwayRead u₁.dc (c.dc.set phys)) u₁ rest₁ plain₁
    obtain ⟨rfl, _⟩ := refill_stops space rest₁ plain₁ unmapped₁ absent₁ (minwayRead_lt c.dc u₁.dc _) refill₂
    rw [Cpu.evalDirect_aligned aligned (kept₁.settled eval), if_pos rfl, dcSimulateRead_miss a active₁ absent₁ refill₂] at read
    exact not_ne_self (w := w) 0 (congrArg Prod.fst (Except.ok.inj read)).symm

/-- A store and a read through the translation and the cache round trip on memory exactly under the
condition. -/
theorem direct_roundTrips_iff (space : Space c e o) (rest : s.dev.rest = o)
    (set : Cpu.translation c s a w.directWrite throughMmu throughDc = some (phys, ci))
    (eval : Cpu.translation c s a false throughMmu throughDc = some (phys, ci)) (here : MemoryAt c e s.dev phys i m) (isRam : m.IsRam)
    (plain : throughDc = true → PlainLine c e s.dev phys) (alone : Alone c i) :
    RoundTrips c e i (place c s.dev i phys) w a throughMmu throughDc s ↔ DirectSound c w a phys throughDc ci s := by
  constructor
  · intro trips
    have target : throughDc = true → w = .byte ∨ phys = a := by
      rintro rfl
      exact trips.target space rest set here alone
    refine ⟨trips.aligned, target, ?_⟩
    rintro rfl active
    exact trips.line space rest set eval here isRam (plain rfl) (target rfl) active
  · exact .of_sound space rest set eval here isRam plain

end

/-- A machine whose page at 0x2000 is the page at 0x4000 of the memory. -/
def remappedMachine : Machine (Devices Unit) :=
  { cachedMachine fun _ => 0 with
    sprs := fun r =>
      if r = Cpu.sprSr then Cpu.srDce ||| Cpu.srDme ||| Cpu.srSm
      else if r = Cpu.sprUpr then Cpu.uprDcp ||| Cpu.uprDmp
      else if r = Cpu.tlbmr .data 0 0 then 0x2000 ||| Cpu.tlbmrV
      else if r = Cpu.tlbmr .data 0 0 + 128 then 0x4000 ||| Cpu.dtlbtrSre ||| Cpu.dtlbtrSwe
      else 0 }

theorem space_remapped : Space (cachedConfig ⟨1, 1⟩ 15) .little () :=
  Space.memory () (show (cachedConfig ⟨1, 1⟩ 15).areas = [memoryArea .little 0 ⟨1, 1⟩ 0 15] from rfl) (by decide) (by decide)

theorem memoryAt_remapped : MemoryAt (cachedConfig ⟨1, 1⟩ 15) .little remappedMachine.dev 0x4000 0 ⟨1, 1⟩ :=
  ⟨by decide +kernel, _, rfl, memoryArea_isMemory _ _ _ _ _⟩

theorem translation_remapped (write : Bool) :
    Cpu.translation (cachedConfig ⟨1, 1⟩ 15) remappedMachine 0x2000 write true true = some (0x4000, false) := by
  cases write <;> decide +kernel

theorem alone_remapped : Alone (cachedConfig ⟨1, 1⟩ 15) 0 where
  reads _ _ other present := absurd (cachedConfig_memory present).1 other
  writes _ _ other present := absurd (cachedConfig_memory present).1 other

/-- A byte, through the translation and the cache. -/
theorem direct_roundTrips_byte : RoundTrips (cachedConfig ⟨1, 1⟩ 15) .little 0 0x4000 .byte 0x2000 true true remappedMachine := by
  have readable : Readable (cachedConfig ⟨1, 1⟩ 15) remappedMachine.dev 0x4000 := by
    unfold Readable
    decide +kernel
  exact (direct_roundTrips_iff space_remapped rfl (translation_remapped _) (translation_remapped _) memoryAt_remapped (by decide)
    (fun _ _ _ => plain_cachedConfig _ _ _ _) alone_remapped).mpr
    ⟨by decide, fun _ => .inl rfl, fun _ _ => .inr ⟨readable.mapped, .inr readable⟩⟩

/-- A word goes to the virtual address, and zero is read back. -/
theorem direct_roundTrips_virtual :
    ¬ ∀ (c : Config (Devices Unit)) (e : Endian) (s : Machine (Devices Unit)) (w : Width) (a phys : Word)
      (throughMmu throughDc ci : Bool)
      (i : Nat) (m : MemConfig), Space c e () → Cpu.translation c s a w.directWrite throughMmu throughDc = some (phys, ci) →
      Cpu.translation c s a false throughMmu throughDc = some (phys, ci) → MemoryAt c e s.dev phys i m → m.IsRam → IsAligned w a →
      RoundTrips c e i (place c s.dev i phys) w a throughMmu throughDc s := by
  intro claim
  obtain ⟨s₁, s₂, written, read, _⟩ :=
    claim (cachedConfig ⟨1, 1⟩ 15) .little remappedMachine .word 0x2000 0x4000 true true false 0 ⟨1, 1⟩
    space_remapped (translation_remapped _) (translation_remapped _) memoryAt_remapped (by decide) (by decide) 1
  have answer : (((Cpu.setDirect (cachedConfig ⟨1, 1⟩ 15) .word 0x2000 1 true true >>= fun _ =>
      Cpu.evalDirect (cachedConfig ⟨1, 1⟩ 15) .word 0x2000 true true) remappedMachine).toOption.map fun r => (r.1 : Word)) = some 0 := by
    decide +kernel
  rw [Programs.bind_of_ok written, read] at answer
  exact absurd (Option.some.inj answer : (1 : Word) = 0) (by decide)

end Or1ksim.Mem
