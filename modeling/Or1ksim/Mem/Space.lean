import Or1ksim.Mem.Memory
import Or1ksim.Cpu.FaultingAccess

/-!
# The address space

The areas of a machine as `reg_mem_area` leaves them. A word of a memory, or of a device that a read
does not change, has contents: what `evalsim_mem32` returns there.
-/

namespace Or1ksim.Mem

open Aligned (low)
open Cpu (Word Width Config Area Machine DevEvent)

/-- The state of the devices: the memories, numbered as their areas are, and the rest. -/
structure Devices (ε : Type) where
  mem : Nat → Bytes
  rest : ε

variable {ε : Type}

def Devices.setMem (d : Devices ε) (i : Nat) (bytes : Bytes) : Devices ε :=
  { d with mem := fun j => if j = i then bytes else d.mem j }

/-! ### Kinds of areas -/

/-- The part of `mem_config` that decides what the callbacks do. -/
structure MemConfig where
  delayr : Int
  delayw : Int
  deriving DecidableEq, Repr

namespace MemConfig

/-- The callbacks that `memory_sec_end` chooses: `simmem_read`, or `simmem_read_zero`. -/
def readfunc (m : MemConfig) (e : Endian) (i : Nat) (w : Width) (addr : Word) (d : Devices ε) :
    BitVec w.bits × Devices ε × List DevEvent :=
  (if 0 < m.delayr then simmemRead e w addr (d.mem i) else 0, d, [])

/-- `simmem_write`, or `simmem_write_null`. -/
def writefunc (m : MemConfig) (e : Endian) (i : Nat) (w : Width) (addr : Word) (value : BitVec w.bits) (d : Devices ε) :
    Devices ε × List DevEvent :=
  (if 0 < m.delayw then d.setMem i (simmemWrite e w addr value (d.mem i)) else d, [])

end MemConfig

/-- The area of a memory. -/
structure IsMemory (e : Endian) (i : Nat) (a : Area (Devices ε)) (m : MemConfig) : Prop where
  reads : a.readfunc = fun w => some (m.readfunc e i w)
  writes : a.writefunc = fun w => some (m.writefunc e i w)

/-- The area of a device whose words can be read without changing it. -/
def IsRegisters (a : Area (Devices ε)) : Prop :=
  ∀ f, a.readfunc .word = some f → ∃ g : Word → ε → Word, ∀ addr d, f addr d = (g addr d.rest, d, [])

/-- The window of an area as `reg_mem_area` makes it: a block of `2 ^ k` addresses. -/
structure Window (a : Area (Devices ε)) (o : ε) (k : Nat) (base : Word) : Prop where
  small : k < 32
  addrMask : ∀ mem, a.addrMask ⟨mem, o⟩ = ~~~low 32 k
  addrCompare : ∀ mem, a.addrCompare ⟨mem, o⟩ = base
  sizeMask : ∀ mem, a.sizeMask ⟨mem, o⟩ = low 32 k
  valid : ∀ mem, a.valid ⟨mem, o⟩ = true

/-- The area of an address. -/
def owner (c : Config (Devices ε)) (d : Devices ε) (addr : Word) : Option Nat :=
  c.areas.findIdx? fun a => a.covers d addr

/-- An address space in which no areas overlap. The size of a memory is a multiple of four. -/
structure Space (c : Config (Devices ε)) (e : Endian) (o : ε) : Prop where
  window : ∀ i a, c.areas[i]? = some a → ∃ k base, Window a o k base ∧ ∀ m, IsMemory e i a m → 2 ≤ k
  apart : ∀ mem addr i j, c.covers ⟨mem, o⟩ addr i = true → c.covers ⟨mem, o⟩ addr j = true → i = j

section
variable {c : Config (Devices ε)} {e : Endian} {o : ε}

theorem owner_eq_some_iff (space : Space c e o) (mem : Nat → Bytes) (addr : Word) (i : Nat) :
    owner c ⟨mem, o⟩ addr = some i ↔ c.covers ⟨mem, o⟩ addr i = true := by
  have covered : ∀ j a, c.areas[j]? = some a → a.covers ⟨mem, o⟩ addr = true → c.covers ⟨mem, o⟩ addr j = true := by
    intro j a present covers
    rw [Config.covers, present]
    exact covers
  constructor
  · intro found
    obtain ⟨inside, covers, _⟩ := List.findIdx?_eq_some_iff_getElem.mp found
    exact covered i _ (List.getElem?_eq_getElem inside) covers
  · intro covers
    obtain ⟨a, present, coversA⟩ := (Option.any_eq_true _ _).mp covers
    obtain ⟨inside, rfl⟩ := List.getElem?_eq_some_iff.mp present
    refine List.findIdx?_eq_some_iff_getElem.mpr ⟨inside, coversA, fun j earlier coversJ => ?_⟩
    have := space.apart mem addr i j covers (covered j _ (List.getElem?_eq_getElem (Nat.lt_trans earlier inside)) coversJ)
    omega

theorem covers_mem (space : Space c e o) (mem mem' : Nat → Bytes) (addr : Word) (i : Nat) :
    c.covers ⟨mem, o⟩ addr i = c.covers ⟨mem', o⟩ addr i := by
  unfold Config.covers
  cases present : c.areas[i]? with
  | none => rfl
  | some a =>
    obtain ⟨k, base, window, _⟩ := space.window i a present
    show a.covers _ addr = a.covers _ addr
    unfold Area.covers
    rw [window.addrMask, window.addrMask, window.addrCompare, window.addrCompare]

/-- The contents of the memories do not move the areas. -/
theorem owner_mem (space : Space c e o) (mem mem' : Nat → Bytes) (addr : Word) :
    owner c ⟨mem, o⟩ addr = owner c ⟨mem', o⟩ addr := by
  apply Option.ext
  intro i
  rw [owner_eq_some_iff space, owner_eq_some_iff space, covers_mem space mem mem']

theorem findIdx?_and_of_all {α : Type} {p q : α → Bool} {l : List α} (all : ∀ a ∈ l, q a = true) :
    (l.findIdx? fun a => p a && q a) = l.findIdx? p := by
  induction l with
  | nil => rfl
  | cons a l ih =>
    rw [List.findIdx?_cons, List.findIdx?_cons, all a List.mem_cons_self, Bool.and_true,
      ih fun b member => all b (List.mem_cons_of_mem _ member)]

/-- The lookup finds the area of the address, whatever area it found last. -/
theorem lookup_eq_owner (space : Space c e o) (mem : Nat → Bytes) (cur : Option Nat) (addr : Word) :
    c.lookup ⟨mem, o⟩ cur addr = owner c ⟨mem, o⟩ addr := by
  have kept : ∀ i : Option Nat, i.any (c.covers ⟨mem, o⟩ addr) = true → i = owner c ⟨mem, o⟩ addr := by
    intro i covers
    obtain ⟨j, rfl, covers⟩ := (Option.any_eq_true _ _).mp covers
    exact ((owner_eq_some_iff space mem addr j).mpr covers).symm
  unfold Config.lookup
  split
  · next mc => exact kept _ mc
  · split
    · next cached => exact kept _ cached
    · refine findIdx?_and_of_all fun a member => ?_
      obtain ⟨i, inside, rfl⟩ := List.getElem_of_mem member
      obtain ⟨k, base, window, _⟩ := space.window i _ (List.getElem?_eq_getElem inside)
      exact window.valid mem

/-! ### Contents -/

/-- What a read of an address returns. -/
def peek (c : Config (Devices ε)) (w : Width) (d : Devices ε) (addr : Word) : BitVec w.bits :=
  match (owner c d addr).bind (c.areas[·]?) with
  | none => 0
  | some a =>
    match a.readfunc w with
    | none => 0
    | some f => (f (addr &&& a.sizeMask d) d).1

def word (c : Config (Devices ε)) (d : Devices ε) (addr : Word) : Word := peek c .word d addr

/-- The address has contents: its area, if there is one, is a memory or a register file. -/
def Plain (c : Config (Devices ε)) (e : Endian) (d : Devices ε) (addr : Word) : Prop :=
  ∀ i a, owner c d addr = some i → c.areas[i]? = some a → (∃ m, IsMemory e i a m) ∨ IsRegisters a

theorem Plain.mem (space : Space c e o) {mem : Nat → Bytes} {addr : Word} (plain : Plain c e ⟨mem, o⟩ addr)
    (mem' : Nat → Bytes) : Plain c e ⟨mem', o⟩ addr :=
  fun i a found => plain i a ((owner_mem space mem mem' addr).trans found)

theorem owner_present {c : Config (Devices ε)} {d : Devices ε} {addr : Word} {i : Nat} (found : owner c d addr = some i) :
    ∃ a, c.areas[i]? = some a ∧ a.covers d addr = true := by
  obtain ⟨inside, covers, _⟩ := List.findIdx?_eq_some_iff_getElem.mp found
  exact ⟨_, List.getElem?_eq_getElem inside, covers⟩

end

/-! ### What an access leaves alone -/

/-- The devices, the caches and what switches them on stay as they are. -/
structure Calm (s s' : Machine (Devices ε)) : Prop where
  dev : s'.dev = s.dev
  dc : s'.dc = s.dc
  ic : s'.ic = s.ic
  dcActive : Cpu.dcActive s'.view = Cpu.dcActive s.view
  icActive : Cpu.icActive s' = Cpu.icActive s

namespace Calm

variable {s t u : Machine (Devices ε)}

theorem refl (s : Machine (Devices ε)) : Calm s s := ⟨rfl, rfl, rfl, rfl, rfl⟩

theorem trans (first : Calm s t) (second : Calm t u) : Calm s u :=
  ⟨second.dev.trans first.dev, second.dc.trans first.dc, second.ic.trans first.ic,
    second.dcActive.trans first.dcActive, second.icActive.trans first.icActive⟩

theorem setSpr (s : Machine (Devices ε)) (r : Cpu.SprNo) (v : Word) (upr : r ≠ Cpu.sprUpr)
    (sr : r = Cpu.sprSr → Cpu.has v Cpu.srDce = Cpu.has s.sr Cpu.srDce ∧ Cpu.has v Cpu.srIce = Cpu.has s.sr Cpu.srIce) :
    Calm s (Cpu.setSpr r v s) := by
  have uprKept : (Cpu.setSpr r v s).sprs Cpu.sprUpr = s.sprs Cpu.sprUpr := if_neg fun same => upr same.symm
  have srKept : Cpu.has (Cpu.setSpr r v s).sr Cpu.srDce = Cpu.has s.sr Cpu.srDce ∧
      Cpu.has (Cpu.setSpr r v s).sr Cpu.srIce = Cpu.has s.sr Cpu.srIce := by
    by_cases same : r = Cpu.sprSr
    · obtain rfl := same
      exact sr rfl
    · have : (Cpu.setSpr r v s).sr = s.sr := if_neg fun h => same h.symm
      rw [this]
      exact ⟨rfl, rfl⟩
  refine ⟨rfl, rfl, rfl, ?_, ?_⟩
  · unfold Cpu.dcActive Cpu.Machine.view
    dsimp only
    rw [uprKept, srKept.1]
    rfl
  · unfold Cpu.icActive
    rw [uprKept, srKept.2]
    rfl

theorem exceptSr_caches (sr : Word) : Cpu.has (Cpu.exceptSr sr) Cpu.srDce = Cpu.has sr Cpu.srDce ∧
    Cpu.has (Cpu.exceptSr sr) Cpu.srIce = Cpu.has sr Cpu.srIce :=
  ⟨Cpu.exceptSr_has (by decide) sr, Cpu.exceptSr_has (by decide) sr⟩

theorem enterException (e : Cpu.Exception) (ea : Word) (s : Machine (Devices ε)) :
    Calm s (Cpu.enterException e ea s) := by
  unfold Cpu.enterException
  dsimp only
  have saved : Calm s (Cpu.setSpr Cpu.sprSr (Cpu.exceptSr s.sr) (Cpu.setSpr Cpu.sprEsrBase s.sr (Cpu.setSpr Cpu.sprEearBase ea s))) :=
    ((setSpr s _ _ (by decide) fun h => absurd h (by decide)).trans (setSpr _ _ _ (by decide) fun h => absurd h (by decide))).trans
      (setSpr _ _ _ (by decide) fun _ => exceptSr_caches s.sr)
  cases Cpu.exceptEpcr e ea s.pc s.delayInsn with
  | none => exact saved.trans ⟨rfl, rfl, rfl, rfl, rfl⟩
  | some epcr =>
    exact (saved.trans (setSpr _ Cpu.sprEpcrBase epcr (by decide) fun h => absurd h (by decide))).trans ⟨rfl, rfl, rfl, rfl, rfl⟩

theorem exceptHandle (e : Cpu.Exception) (ea : Word) (s : Machine (Devices ε)) : Calm s (Cpu.exceptHandle e ea s) := by
  have asked : Calm s (Cpu.ignored e s).2 := by
    unfold Cpu.ignored Cpu.debugIgnoreException Cpu.setStallState
    dsimp only
    have drr : Calm s (Cpu.setSpr Cpu.sprDrr (s.sprs Cpu.sprDrr ||| (s.sprs Cpu.sprDsr &&& e.dsr)) s) :=
      setSpr s _ _ (by decide) fun h => absurd h (by decide)
    split <;> exact drr.trans ⟨rfl, rfl, rfl, rfl, rfl⟩
  unfold Cpu.exceptHandle
  dsimp only
  split
  · exact asked
  · exact asked.trans (enterException e ea _)

theorem pcuCountEvent (event : Word) (s : Machine (Devices ε)) : Calm s (Cpu.pcuCountEvent event s) := by
  unfold Cpu.pcuCountEvent
  have numbers : ∀ i < 8, Cpu.sprPccr i ≠ Cpu.sprUpr ∧ Cpu.sprPccr i ≠ Cpu.sprSr := by decide
  have folded : ∀ (is : List Nat), (∀ i ∈ is, i < 8) → ∀ s : Machine (Devices ε), Calm s (is.foldl
      (fun m i => if Cpu.pcuCounts event m i then Cpu.setSpr (Cpu.sprPccr i) (m.sprs (Cpu.sprPccr i) + 1) m else m) s) := by
    intro is
    induction is with
    | nil => exact fun _ s => refl s
    | cons i is ih =>
      intro small s
      refine trans ?_ (ih (fun j member => small j (List.mem_cons_of_mem _ member)) _)
      dsimp only
      split
      · exact setSpr s _ _ (numbers i (small i List.mem_cons_self)).1
          fun same => absurd same (numbers i (small i List.mem_cons_self)).2
      · exact refl s
  exact folded _ (fun i member => List.mem_range.mp member) s

end Calm

/-! ### Accesses -/

/-- Reads of a width do not change the devices. -/
def Steady (w : Width) (a : Area (Devices ε)) : Prop :=
  ∀ f, a.readfunc w = some f → ∀ addr d, (f addr d).2 = (d, [])

theorem IsMemory.steady {e : Endian} {i : Nat} {a : Area (Devices ε)} {m : MemConfig} (memory : IsMemory e i a m)
    (w : Width) : Steady w a := by
  intro f reads addr d
  rw [memory.reads] at reads
  obtain rfl := Option.some.inj reads
  rfl

theorem IsRegisters.steady {a : Area (Devices ε)} (registers : IsRegisters a) : Steady .word a := by
  intro f reads addr d
  obtain ⟨g, same⟩ := registers f reads
  rw [same]

section
variable {c : Config (Devices ε)} {e : Endian} {o : ε} {s : Machine (Devices ε)}

theorem Plain.steady {addr : Word} (plain : Plain c e s.dev addr) {i : Nat} {a : Area (Devices ε)}
    (found : owner c s.dev addr = some i) (present : c.areas[i]? = some a) : Steady .word a := by
  obtain ⟨m, memory⟩ | registers := plain i a found present
  · exact memory.steady .word
  · exact registers.steady

theorem area_verifyMemoryarea (space : Space c e o) (rest : s.dev.rest = o) (addr : Word) :
    (Cpu.verifyMemoryarea c addr s).curArea = owner c s.dev addr := by
  subst rest
  exact lookup_eq_owner space s.dev.mem s.curArea addr

/-- A steady read returns the contents of its address, and whether there is an area. -/
theorem evalsimMem_eq (space : Space c e o) (rest : s.dev.rest = o) (w : Width) (addr vaddr : Word)
    (steady : ∀ i a, owner c s.dev addr = some i → c.areas[i]? = some a → Steady w a) :
    ∃ s', Cpu.evalsimMem c w addr vaddr s = .ok ((peek c w s.dev addr, (owner c s.dev addr).isSome), s') ∧ Calm s s' := by
  have cur := area_verifyMemoryarea space rest addr
  have area : c.area (Cpu.verifyMemoryarea c addr s) = (owner c s.dev addr).bind (c.areas[·]?) := by
    rw [Config.area, cur]
  unfold Cpu.evalsimMem peek
  rw [Programs.modify_bind, Programs.get_bind, area]
  have looked : Calm s (Cpu.verifyMemoryarea c addr s) := ⟨rfl, rfl, rfl, rfl, rfl⟩
  cases found : owner c s.dev addr with
  | none =>
    rw [found] at cur
    refine ⟨Cpu.exceptHandle .buserr vaddr (Cpu.verifyMemoryarea c addr s), ?_, looked.trans (.exceptHandle _ _ _)⟩
    simp only [Option.bind_none, Programs.set_bind, Programs.pure_apply, cur]
  | some i =>
    rw [found] at cur
    obtain ⟨a, present, _⟩ := owner_present found
    simp only [Option.bind_some, present]
    cases reads : a.readfunc w with
    | none =>
      refine ⟨_, by simp only [Programs.set_bind, Programs.pure_apply, cur]; rfl, ?_⟩
      refine looked.trans (Calm.trans ?_ (.exceptHandle _ _ _))
      exact ⟨rfl, rfl, rfl, rfl, rfl⟩
    | some f =>
      have same := steady i a found present f reads (addr &&& a.sizeMask s.dev) s.dev
      have dev : (Cpu.verifyMemoryarea c addr s).dev = s.dev := rfl
      simp only [dev, same, Programs.set_bind, Cpu.devEvents, Programs.pure_bind_apply, Programs.get_bind,
        Programs.pure_apply, cur]
      exact ⟨_, rfl, ⟨rfl, rfl, rfl, rfl, rfl⟩⟩

theorem evalsimMem_word (space : Space c e o) (rest : s.dev.rest = o) {addr : Word} (plain : Plain c e s.dev addr) (vaddr : Word) :
    ∃ s', Cpu.evalsimMem c .word addr vaddr s = .ok ((word c s.dev addr, (owner c s.dev addr).isSome), s') ∧ Calm s s' :=
  evalsimMem_eq space rest .word addr vaddr fun _ _ => plain.steady

/-- A store to no area, or to one without a writer of the width, changes nothing. -/
theorem setsimMem_refused (space : Space c e o) (rest : s.dev.rest = o) (w : Width) (addr vaddr : Word)
    (value : BitVec w.bits)
    (refused : ∀ i a, owner c s.dev addr = some i → c.areas[i]? = some a → a.writefunc w = none) :
    ∃ s', Cpu.setsimMem c w addr vaddr value s = .ok ((owner c s.dev addr).isSome, s') ∧ Calm s s' := by
  have cur := area_verifyMemoryarea space rest addr
  have area : c.area (Cpu.verifyMemoryarea c addr s) = (owner c s.dev addr).bind (c.areas[·]?) := by
    rw [Config.area, cur]
  unfold Cpu.setsimMem
  rw [Programs.modify_bind, Programs.get_bind, area]
  have looked : Calm s (Cpu.verifyMemoryarea c addr s) := ⟨rfl, rfl, rfl, rfl, rfl⟩
  cases found : owner c s.dev addr with
  | none =>
    rw [found] at cur
    refine ⟨Cpu.exceptHandle .buserr vaddr (Cpu.verifyMemoryarea c addr s), ?_, looked.trans (.exceptHandle _ _ _)⟩
    simp only [Option.bind_none, Programs.set_bind, Programs.pure_apply, cur]
  | some i =>
    rw [found] at cur
    obtain ⟨a, present, _⟩ := owner_present found
    simp only [Option.bind_some, present, refused i a found present]
    refine ⟨_, by simp only [Programs.set_bind, Programs.pure_apply, cur]; rfl, ?_⟩
    refine looked.trans (Calm.trans ?_ (.exceptHandle _ _ _))
    exact ⟨rfl, rfl, rfl, rfl, rfl⟩

theorem setsimMem_memory (space : Space c e o) (rest : s.dev.rest = o) (w : Width) (addr vaddr : Word)
    (value : BitVec w.bits) {i : Nat} {a : Area (Devices ε)} {m : MemConfig} (found : owner c s.dev addr = some i)
    (present : c.areas[i]? = some a) (memory : IsMemory e i a m) :
    ∃ s', Cpu.setsimMem c w addr vaddr value s = .ok (true, s') ∧
      Calm { s with dev := (m.writefunc e i w (addr &&& a.sizeMask s.dev) value s.dev).1 } s' := by
  have cur := area_verifyMemoryarea space rest addr
  have area : c.area (Cpu.verifyMemoryarea c addr s) = some a := by
    rw [Config.area, cur, found, Option.bind_some, present]
  have dev : (Cpu.verifyMemoryarea c addr s).dev = s.dev := rfl
  unfold Cpu.setsimMem
  rw [Programs.modify_bind, Programs.get_bind, area]
  simp only [memory.writes, dev, MemConfig.writefunc, Programs.set_bind, Cpu.devEvents, Programs.pure_bind_apply,
    Programs.get_bind, Programs.pure_apply, cur, found]
  exact ⟨_, rfl, ⟨rfl, rfl, rfl, rfl, rfl⟩⟩

end

/-! ### The words of a memory -/

/-- The address belongs to the memory of an area. -/
structure MemoryAt (c : Config (Devices ε)) (e : Endian) (d : Devices ε) (addr : Word) (i : Nat) (m : MemConfig) : Prop where
  found : owner c d addr = some i
  memory : ∃ a, c.areas[i]? = some a ∧ IsMemory e i a m

/-- Memory that can be read and written. -/
def MemConfig.IsRam (m : MemConfig) : Prop := 0 < m.delayr ∧ 0 < m.delayw

instance (m : MemConfig) : Decidable m.IsRam := inferInstanceAs (Decidable (_ ∧ _))

section
variable {c : Config (Devices ε)} {e : Endian} {o : ε} {mem : Nat → Bytes} {addr : Word} {i : Nat} {m : MemConfig}

theorem MemoryAt.window (space : Space c e o) (here : MemoryAt c e ⟨mem, o⟩ addr i m) :
    ∃ a k base, c.areas[i]? = some a ∧ IsMemory e i a m ∧ Window a o k base ∧ 2 ≤ k := by
  obtain ⟨a, present, memory⟩ := here.memory
  obtain ⟨k, base, window, words⟩ := space.window i a present
  exact ⟨a, k, base, present, memory, window, words m memory⟩

/-- The low bits of an address do not lead out of a window. -/
theorem Window.covers_wordAddr {a : Area (Devices ε)} {k : Nat} {base : Word} (window : Window a o k base) (words : 2 ≤ k)
    (mem : Nat → Bytes) (addr : Word) : a.covers ⟨mem, o⟩ (wordAddr addr) = a.covers ⟨mem, o⟩ addr := by
  have masked : wordAddr addr &&& ~~~low 32 k = addr &&& ~~~low 32 k := by
    have both : ~~~(3 : Word) &&& ~~~low 32 k = ~~~low 32 k := by
      apply BitVec.eq_of_getLsbD_eq
      intro j inside
      rw [show (3 : Word) = low 32 2 from rfl]
      simp only [BitVec.getLsbD_and, BitVec.getLsbD_not, Aligned.getLsbD_low]
      grind
    rw [wordAddr, BitVec.and_assoc, both]
  unfold Area.covers
  rw [window.addrMask, masked]

theorem MemoryAt.wordAddr (space : Space c e o) (here : MemoryAt c e ⟨mem, o⟩ addr i m) :
    MemoryAt c e ⟨mem, o⟩ (wordAddr addr) i m := by
  refine ⟨?_, here.memory⟩
  obtain ⟨a, k, base, present, _, window, words⟩ := here.window space
  rw [owner_eq_some_iff space, Config.covers, present]
  have covers := (owner_eq_some_iff space mem addr i).mp here.found
  rw [Config.covers, present] at covers
  exact (window.covers_wordAddr words mem addr).trans covers

section
variable {a : Area (Devices ε)} {k : Nat} {base : Word} {w : Width}

theorem Window.offset (window : Window a o k base) (words : 2 ≤ k) (aligned : IsAligned w addr) :
    (addr &&& low 32 k).toNat = addr.toNat % 2 ^ k ∧ addr.toNat % 2 ^ k % 4 = addr.toNat % 4 ∧
      IsAligned w (addr &&& low 32 k) := by
  have small := window.small
  have offset := Aligned.and_low (w := 32) (k := k) addr (by omega)
  have divides : 4 ∣ 2 ^ k := (Nat.pow_dvd_pow 2 words : 2 ^ 2 ∣ 2 ^ k)
  refine ⟨offset, Nat.mod_mod_of_dvd _ divides, ?_⟩
  rw [isAligned_iff] at aligned ⊢
  rw [offset, Nat.mod_mod_of_dvd _ (Nat.dvd_trans (by cases w <;> decide) divides), aligned]

theorem peek_memory (found : owner c ⟨mem, o⟩ addr = some i) (present : c.areas[i]? = some a) (memory : IsMemory e i a m)
    (window : Window a o k base) (words : 2 ≤ k) (aligned : IsAligned w addr) :
    peek c w ⟨mem, o⟩ addr = if 0 < m.delayr then bigRead (cells e (mem i)) (addr.toNat % 2 ^ k) w else 0 := by
  obtain ⟨offset, _, inside⟩ := window.offset words aligned
  unfold peek
  rw [found]
  simp only [Option.bind_some, present, memory.reads, MemConfig.readfunc, window.sizeMask]
  rw [simmemRead_eq e inside, offset]

end

theorem wordAddr_aligned (addr : Word) : IsAligned .word (wordAddr addr) := by
  rw [isAligned_iff, wordAddr_toNat]
  exact Nat.mul_mod_left _ 4

theorem select_zero (w : Width) {addr : Word} (aligned : IsAligned w addr) : w.select addr 0 = 0 := by
  apply BitVec.eq_of_getLsbD_eq
  intro j inside
  rw [getLsbD_select aligned 0 inside]
  simp

theorem wordAddr_mod (addr : Word) {k : Nat} (words : 2 ≤ k) :
    (wordAddr addr).toNat % 2 ^ k = addr.toNat % 2 ^ k / 4 * 4 := by
  obtain ⟨p, size⟩ : 4 ∣ 2 ^ k := (Nat.pow_dvd_pow 2 words : 2 ^ 2 ∣ 2 ^ k)
  rw [wordAddr_toNat, size, Nat.mul_comm 4 p, Nat.mul_mod_mul_right, Nat.mod_mul_left_div_self]

theorem word_memory {a : Area (Devices ε)} {k : Nat} {base : Word} (found : owner c ⟨mem, o⟩ addr = some i)
    (present : c.areas[i]? = some a) (memory : IsMemory e i a m) (window : Window a o k base) (words : 2 ≤ k)
    (aligned : IsAligned .word addr) :
    word c ⟨mem, o⟩ addr = if 0 < m.delayr then bigWord (cells e (mem i)) (addr.toNat % 2 ^ k) else 0 :=
  peek_memory found present memory window words aligned

/-- An aligned read of a memory is its part of a word. -/
theorem peek_eq_select (space : Space c e o) (here : MemoryAt c e ⟨mem, o⟩ addr i m) {w : Width} (aligned : IsAligned w addr) :
    peek c w ⟨mem, o⟩ addr = w.select addr (word c ⟨mem, o⟩ (Mem.wordAddr addr)) := by
  obtain ⟨a, k, base, present, memory, window, words⟩ := here.window space
  rw [peek_memory here.found present memory window words aligned,
    word_memory (here.wordAddr space).found present memory window words (wordAddr_aligned addr), wordAddr_mod addr words]
  split
  · exact (select_bigWord _ aligned (window.offset words aligned).2.1).symm
  · exact (select_zero w aligned).symm

/-- The contents of an area do not depend on the memory of another. -/
theorem word_other (space : Space c e o) {b : Word} (plain : Plain c e ⟨mem, o⟩ b) {j : Nat} (found : owner c ⟨mem, o⟩ b = some j)
    (other : j ≠ i) (bytes : Bytes) : word c (Devices.setMem ⟨mem, o⟩ i bytes) b = word c ⟨mem, o⟩ b := by
  obtain ⟨a, present, _⟩ := owner_present found
  obtain ⟨k, base, window, _⟩ := space.window j a present
  have found' : owner c (Devices.setMem ⟨mem, o⟩ i bytes) b = some j := (owner_mem space _ mem b).trans found
  unfold word peek
  rw [found, found']
  simp only [Option.bind_some, present]
  cases reads : a.readfunc .word with
  | none => rfl
  | some f =>
    have offset : a.sizeMask (Devices.setMem ⟨mem, o⟩ i bytes) = a.sizeMask ⟨mem, o⟩ :=
      (window.sizeMask _).trans (window.sizeMask _).symm
    simp only [offset]
    obtain ⟨m', memory⟩ | registers := plain j a found present
    · rw [memory.reads] at reads
      obtain rfl := Option.some.inj reads
      have same : (Devices.setMem ⟨mem, o⟩ i bytes).mem j = mem j := if_neg other
      simp only [MemConfig.readfunc, same]
      rfl
    · obtain ⟨g, same⟩ := registers f reads
      rw [same, same]
      rfl

/-- Two addresses of a window at the same place are the same. -/
theorem Window.eq_of_mod {a : Area (Devices ε)} {k : Nat} {base b : Word} (window : Window a o k base)
    (covers : a.covers ⟨mem, o⟩ addr = true) (coversB : a.covers ⟨mem, o⟩ b = true)
    (place : b.toNat % 2 ^ k = addr.toNat % 2 ^ k) : b = addr := by
  unfold Area.covers at covers coversB
  rw [decide_eq_true_iff, window.addrMask] at covers coversB
  have block := congrArg BitVec.toNat (coversB.trans covers.symm)
  rw [Aligned.and_not_low, Aligned.and_not_low] at block
  apply BitVec.eq_of_toNat_eq
  rw [← Nat.div_add_mod' b.toNat (2 ^ k), ← Nat.div_add_mod' addr.toNat (2 ^ k), block, place]

theorem MemoryAt.covers (space : Space c e o) (here : MemoryAt c e ⟨mem, o⟩ addr i m) {a : Area (Devices ε)}
    (present : c.areas[i]? = some a) : a.covers ⟨mem, o⟩ addr = true := by
  have covers := (owner_eq_some_iff space mem addr i).mp here.found
  rwa [Config.covers, present] at covers

/-- The words after the bytes of an access are replaced, whether or not a guest may write them: its own
word has the value merged in if the memory can be read, and nothing else changes. -/
theorem word_program (space : Space c e o) (here : MemoryAt c e ⟨mem, o⟩ addr i m) {a : Area (Devices ε)}
    (present : c.areas[i]? = some a) {w : Width} (aligned : IsAligned w addr) (value : BitVec w.bits) {b : Word}
    (start : IsAligned .word b) (plain : Plain c e ⟨mem, o⟩ b) :
    word c (Devices.setMem ⟨mem, o⟩ i (simmemWrite e w (addr &&& a.sizeMask ⟨mem, o⟩) value (mem i))) b =
      if 0 < m.delayr ∧ b = Mem.wordAddr addr then w.merge addr (word c ⟨mem, o⟩ b) value else word c ⟨mem, o⟩ b := by
  obtain ⟨a', k, base, present', memory, window, words⟩ := here.window space
  obtain rfl : a = a' := Option.some.inj (present.symm.trans present')
  have wordHere := (here.wordAddr space).found
  cases found : owner c ⟨mem, o⟩ b with
  | none =>
    rw [if_neg fun both => by rw [both.2, wordHere] at found; cases found]
    have found' : owner c (Devices.setMem ⟨mem, o⟩ i (simmemWrite e w (addr &&& a.sizeMask ⟨mem, o⟩) value (mem i))) b = none :=
      (owner_mem space _ mem b).trans found
    unfold word peek
    rw [found, found']
    rfl
  | some j =>
    by_cases same : j = i
    · subst same
      have hereB : MemoryAt c e ⟨mem, o⟩ b j m := ⟨found, here.memory⟩
      obtain ⟨offset, lane, inside⟩ := window.offset words aligned
      rw [window.sizeMask]
      have after : word c (Devices.setMem ⟨mem, o⟩ j (simmemWrite e w (addr &&& low 32 k) value (mem j))) b =
          if 0 < m.delayr then bigWord (bigWrite (cells e (mem j)) (addr.toNat % 2 ^ k) w value) (b.toNat % 2 ^ k) else 0 := by
        have bytes : cells e ((Devices.setMem ⟨mem, o⟩ j (simmemWrite e w (addr &&& low 32 k) value (mem j))).mem j) =
            bigWrite (cells e (mem j)) (addr.toNat % 2 ^ k) w value := by
          rw [← offset, ← cells_simmemWrite e inside]
          exact congrArg (cells e) (if_pos rfl)
        rw [← bytes]
        exact word_memory ((owner_mem space _ mem b).trans found) present memory window words start
      rw [word_memory found present memory window words start, after]
      by_cases readable : 0 < m.delayr
      · rw [if_pos readable, if_pos readable]
        by_cases stored : b = Mem.wordAddr addr
        · rw [if_pos ⟨readable, stored⟩, stored, wordAddr_mod addr words]
          exact bigWord_bigWrite _ aligned value lane
        · rw [if_neg fun both => stored both.2]
          refine bigWord_bigWrite_other _ aligned value lane ?_ fun place => stored ?_
          · exact ((window.offset words start).2.1).trans ((isAligned_iff .word b).mp start)
          · rw [← wordAddr_mod addr words] at place
            exact window.eq_of_mod ((here.wordAddr space).covers space present) (hereB.covers space present) place
      · rw [if_neg readable, if_neg readable, if_neg fun both => readable both.1]
    · rw [if_neg fun both => same (by rw [both.2, wordHere] at found; exact (Option.some.inj found).symm)]
      exact word_other space plain found same _

/-- The words after a store to a memory: its own word has the value merged in if the memory can be
read and written, and nothing else changes. -/
theorem word_store (space : Space c e o) (here : MemoryAt c e ⟨mem, o⟩ addr i m) {a : Area (Devices ε)}
    (present : c.areas[i]? = some a) {w : Width} (aligned : IsAligned w addr) (value : BitVec w.bits) {b : Word}
    (start : IsAligned .word b) (plain : Plain c e ⟨mem, o⟩ b) :
    word c (m.writefunc e i w (addr &&& a.sizeMask ⟨mem, o⟩) value ⟨mem, o⟩).1 b =
      if m.IsRam ∧ b = Mem.wordAddr addr then w.merge addr (word c ⟨mem, o⟩ b) value else word c ⟨mem, o⟩ b := by
  by_cases writable : 0 < m.delayw
  · simp only [MemConfig.writefunc, if_pos writable]
    exact (word_program space here present aligned value start plain).trans
      (if_congr (and_congr_left' (and_iff_left writable).symm) rfl rfl)
  · simp only [MemConfig.writefunc, if_neg writable]
    rw [if_neg fun both => writable both.1.2]

end

/-! ### A machine with one memory -/

/-- The area that `memory_sec_end` registers for a memory of `2 ^ k` bytes. -/
def memoryArea (e : Endian) (i : Nat) (m : MemConfig) (base : Word) (k : Nat) : Area (Devices ε) :=
  { addrMask := fun _ => ~~~low 32 k
    addrCompare := fun _ => base
    sizeMask := fun _ => low 32 k
    valid := fun _ => true
    delayr := fun _ => m.delayr
    delayw := fun _ => m.delayw
    readfunc := fun w => some (m.readfunc e i w)
    writefunc := fun w => some (m.writefunc e i w) }

section
variable {c : Config (Devices ε)} {e : Endian} {m : MemConfig} {base : Word} {k : Nat}

theorem memoryArea_isMemory (e : Endian) (i : Nat) (m : MemConfig) (base : Word) (k : Nat) :
    IsMemory e i (memoryArea e i m base k : Area (Devices ε)) m := ⟨rfl, rfl⟩

theorem Space.memory (o : ε) (areas : c.areas = [memoryArea e 0 m base k]) (words : 2 ≤ k) (small : k < 32) : Space c e o := by
  have only : ∀ i a, c.areas[i]? = some a → i = 0 ∧ a = memoryArea e 0 m base k := by
    intro i a present
    rw [areas, List.getElem?_singleton] at present
    split at present
    · next first => exact ⟨first, (Option.some.inj present).symm⟩
    · cases present
  refine ⟨fun i a present => ?_, fun mem addr i j first second => ?_⟩
  · obtain ⟨rfl, rfl⟩ := only i a present
    exact ⟨k, base, ⟨small, fun _ => rfl, fun _ => rfl, fun _ => rfl, fun _ => rfl⟩, fun _ _ => words⟩
  · obtain ⟨a, presentI, _⟩ := (Option.any_eq_true _ _).mp first
    obtain ⟨b, presentJ, _⟩ := (Option.any_eq_true _ _).mp second
    rw [(only i a presentI).1, (only j b presentJ).1]

end

end Or1ksim.Mem
