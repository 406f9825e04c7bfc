import Or1ksim.Mem.AddressMap

/-!
# Lookup

`verify_memoryarea` keeps the area it found last and tries that one before it walks the list. The
walk asks whether an area is valid; the test of the kept area does not.
-/

namespace Or1ksim.Mem

open Cpu (Word)

namespace AddressMap

/-- Whether the area at a place covers an address. -/
def coversAt (map : AddressMap) (addr : Word) (i : Nat) : Bool := (map.devList[i]?).any fun a => a.covers addr

/-- The loop over `dev_list`. -/
def walk (map : AddressMap) (addr : Word) : Option Nat := map.devList.findIdx? fun a => a.covers addr && a.valid

def verifyMemoryarea (map : AddressMap) (addr : Word) : Option Nat :=
  if map.mcArea.any (map.coversAt addr) then map.mcArea
  else if map.curArea.any (map.coversAt addr) then map.curArea
  else map.walk addr

def setMemValid (i : Nat) (valid : Bool) (map : AddressMap) : AddressMap :=
  { map with devList := map.devList.modify i fun a => { a with valid } }

/-- The area of an address: that of the memory controller first, else a valid one. -/
def areaOf (map : AddressMap) (addr : Word) : Option Nat :=
  if map.mcArea.any (map.coversAt addr) then map.mcArea else map.walk addr

/-- The area found last, if the memory controller leaves the address to it, is valid, and no valid
area registered before it covers the address too. -/
def Fresh (map : AddressMap) (addr : Word) : Prop :=
  map.mcArea.any (map.coversAt addr) = true ∨ ∀ i a, map.curArea = some i → map.devList[i]? = some a →
    a.covers addr = true → a.valid = true ∧
      ∀ j b, j < i → map.devList[j]? = some b → b.covers addr = true → b.valid = false

theorem walk_eq_some_iff {map : AddressMap} {addr : Word} {i : Nat} {a : Memarea} (present : map.devList[i]? = some a)
    (covers : a.covers addr = true) :
    map.walk addr = some i ↔ a.valid = true ∧
      ∀ j b, j < i → map.devList[j]? = some b → b.covers addr = true → b.valid = false := by
  rw [walk, List.findIdx?_eq_some_iff_getElem]
  obtain ⟨inside, rfl⟩ := List.getElem?_eq_some_iff.mp present
  constructor
  · rintro ⟨_, here, before⟩
    refine ⟨(Bool.and_eq_true_iff.mp here).2, fun j b earlier found coversB => ?_⟩
    obtain ⟨insideB, rfl⟩ := List.getElem?_eq_some_iff.mp found
    simpa [coversB] using before j earlier
  · rintro ⟨valid, before⟩
    refine ⟨inside, by rw [covers, valid]; rfl, fun j earlier => ?_⟩
    have insideB : j < map.devList.length := Nat.lt_trans earlier inside
    have invalid := before j map.devList[j] earlier (List.getElem?_eq_getElem insideB)
    cases coversB : map.devList[j].covers addr with
    | false => simp
    | true => simp [invalid coversB]

/-- One lookup finds the area of the address exactly if the area found last is fresh. -/
theorem verifyMemoryarea_eq_iff (map : AddressMap) (addr : Word) :
    map.verifyMemoryarea addr = map.areaOf addr ↔ map.Fresh addr := by
  unfold verifyMemoryarea areaOf Fresh
  by_cases mc : map.mcArea.any (map.coversAt addr) = true
  · simp [mc]
  · rw [if_neg mc, if_neg mc]
    by_cases kept : map.curArea.any (map.coversAt addr) = true
    · rw [if_pos kept]
      obtain ⟨i, cur, coversI⟩ := (Option.any_eq_true _ _).mp kept
      obtain ⟨a, present, covers⟩ := (Option.any_eq_true _ _).mp coversI
      rw [cur, eq_comm, walk_eq_some_iff present covers]
      constructor
      · rintro valid
        refine .inr fun j b same found _ => ?_
        obtain rfl := Option.some.inj same
        rw [present] at found
        obtain rfl := Option.some.inj found
        exact valid
      · rintro (controller | all)
        · exact absurd controller mc
        · exact all i a rfl present covers
    · rw [if_neg kept]
      refine iff_of_true rfl (.inr fun i a cur present covers => absurd ?_ kept)
      rw [cur, Option.any_some, coversAt, present, Option.any_some, covers]

end AddressMap

/-! ### Runs -/

inductive MapOp where
  | regMemArea (r : Request)
  | setMemValid (area : Nat) (valid : Bool)
  | verifyMemoryarea (addr : Word)
  deriving DecidableEq, Repr

/-- What an operation answers, and the map after it; `none` if it ends the program. -/
def AddressMap.step (map : AddressMap) : MapOp → Option (Option Nat × AddressMap)
  | .regMemArea r => (Mem.regMemArea r map).map fun map => (map.curArea, map)
  | .setMemValid area valid => some (none, map.setMemValid area valid)
  | .verifyMemoryarea addr => some (map.verifyMemoryarea addr, { map with curArea := map.verifyMemoryarea addr })

/-- Every lookup of the run satisfies `P`, in the state in which it is made. -/
def EveryLookup (P : AddressMap → Word → Prop) : List MapOp → AddressMap → Prop
  | [], _ => True
  | op :: ops, map =>
    (∀ addr, op = .verifyMemoryarea addr → P map addr) ∧ ∀ answer next, map.step op = some (answer, next) →
      EveryLookup P ops next

theorem everyLookup_congr {P Q : AddressMap → Word → Prop} (same : ∀ map addr, P map addr ↔ Q map addr)
    (ops : List MapOp) (map : AddressMap) : EveryLookup P ops map ↔ EveryLookup Q ops map := by
  induction ops generalizing map with
  | nil => exact Iff.rfl
  | cons op ops ih => simp only [EveryLookup, same, ih]

/-- In every run of registrations, validations and lookups, every lookup answers with the area of its
address exactly if at every lookup the area found last is fresh. -/
theorem lookups_transparent_iff (ops : List MapOp) :
    EveryLookup (fun map addr => map.verifyMemoryarea addr = map.areaOf addr) ops .empty ↔
      EveryLookup AddressMap.Fresh ops .empty :=
  everyLookup_congr AddressMap.verifyMemoryarea_eq_iff ops .empty

/-- An area that is switched off after a lookup is found again. -/
theorem lookup_finds_invalid :
    ¬ ∀ ops : List MapOp,
      EveryLookup (fun map addr => map.verifyMemoryarea addr = map.areaOf addr) ops .empty := by
  intro claim
  have run := claim [.regMemArea ⟨0, 0x1000, false⟩, .setMemValid 0 false, .verifyMemoryarea 0x10]
  have registered : (AddressMap.empty.step (.regMemArea ⟨0, 0x1000, false⟩)).map
      (fun r => decide ((r.2.setMemValid 0 false).verifyMemoryarea 0x10 = (r.2.setMemValid 0 false).areaOf 0x10)) =
      some false := by decide +kernel
  obtain ⟨⟨answer, next⟩, done, differs⟩ := Option.map_eq_some_iff.mp registered
  have looked := ((run.2 answer next done).2 _ _ rfl).1 0x10 rfl
  exact of_decide_eq_false differs looked

/-! ### The core's view -/

section
variable {δ : Type}

/-- The map of a configuration, in a state of its devices. -/
def ofConfig (c : Cpu.Config δ) (d : δ) (curArea : Option Nat) : AddressMap :=
  { devList := c.areas.map fun a =>
      { addrMask := a.addrMask d, addrCompare := a.addrCompare d, size := 0, sizeMask := a.sizeMask d, valid := a.valid d }
    mcArea := c.mcArea
    curArea }

theorem lookup_ofConfig (c : Cpu.Config δ) (d : δ) (curArea : Option Nat) (addr : Word) :
    c.lookup d curArea addr = (ofConfig c d curArea).verifyMemoryarea addr := by
  have covers : (ofConfig c d curArea).coversAt addr = c.covers d addr := by
    funext i
    unfold AddressMap.coversAt ofConfig Cpu.Config.covers
    rw [List.getElem?_map]
    cases c.areas[i]? <;> rfl
  have walk : (ofConfig c d curArea).walk addr = c.areas.findIdx? fun a => a.covers d addr && a.valid d := by
    unfold AddressMap.walk ofConfig
    rw [List.findIdx?_map]
    rfl
  unfold Cpu.Config.lookup AddressMap.verifyMemoryarea
  rw [covers, walk]
  rfl

end

end Or1ksim.Mem
