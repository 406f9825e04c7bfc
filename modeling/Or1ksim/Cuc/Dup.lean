import Or1ksim.Cuc.Graph

/-!
# Duplication of functions

`dup_func` copies a function field by field. A write outside of what has been allocated has no outcome.
-/

namespace Or1ksim.Cuc

/-- A dependency that is there already is not added. -/
def addDep (l : List Op) (dep : Op) : List Op := if dep ∈ l then l else l ++ [dep]

def copyDeps (l : List Op) : List Op := l.foldl addDep []

def sizeofInt : Nat := 4
def sizeofItem : Nat := 8

/-- The items are stored one after another in `room` bytes. -/
def storeItems (room : Nat) : List SharedItem → Option (List SharedItem)
  | [] => some []
  | item :: rest => if sizeofItem ≤ room then (storeItems (room - sizeofItem) rest).map fun stored => item :: stored else none

/-- There is room for as many `int` as there are items. -/
def Timings.copy (t : Timings) : Option Timings :=
  (storeItems (sizeofInt * t.shared.length) t.shared).map fun shared => { t with shared }

def cpyBb (src : Bb) : Option Bb :=
  (src.tim.mapM Timings.copy).map fun tim =>
    { src with insn := src.insn.map fun ii => { ii with dep := copyDeps ii.dep }, mdep := copyDeps src.mdep, tim }

/-- The fields that are copied. -/
def Func.copied (f : Func) (bb : List Bb) : Func :=
  { bb, initBbReloc := f.initBbReloc, savedRegs := f.savedRegs, lur := f.lur, usedRegs := f.usedRegs, startAddr := f.startAddr,
    endAddr := f.endAddr, origTime := f.origTime, numRuns := f.numRuns, msched := f.msched }

/-- The function after the duplication, and the copy. The function dependencies are allocated anew for the first and then stored through
the null pointer of the second. -/
def dupFunc (f : Func) : Option (Func × Func) :=
  (f.bb.mapM cpyBb).bind fun bb => if f.fdeps = [] then some (f, f.copied bb) else none

/-- The later passes cannot tell the two apart: they differ in the base timings and the scratch value at most. -/
def SameFor (f n : Func) : Prop := n = { f with timings := n.timings, tmp := n.tmp }

/-- The duplication of the blocks loses nothing: there are no shared items, and no dependency is listed twice. -/
structure Bb.Plain (b : Bb) : Prop where
  shared : ∀ t ∈ b.tim, t.shared = []
  mdep : b.mdep.Nodup
  dep : ∀ ii ∈ b.insn, ii.dep.Nodup

section
variable {l acc : List Op} {t t' : Timings} {b b' : Bb} {f : Func}

theorem foldl_addDep (nodup : (acc ++ l).Nodup) : l.foldl addDep acc = acc ++ l := by
  induction l generalizing acc with
  | nil => rw [List.foldl_nil, List.append_nil]
  | cons dep l ih =>
    have apart : dep ∉ acc := fun inside => (List.nodup_append.mp nodup).2.2 dep inside dep List.mem_cons_self rfl
    rw [List.append_cons] at nodup
    rw [List.foldl_cons, addDep, if_neg apart, ih nodup, ← List.append_cons]

theorem nodup_foldl (nodup : acc.Nodup) : (l.foldl addDep acc).Nodup := by
  induction l generalizing acc with
  | nil => exact nodup
  | cons dep l ih =>
    rw [List.foldl_cons]
    apply ih
    unfold addDep
    split_ifs with inside
    · exact nodup
    · refine List.nodup_append.mpr ⟨nodup, List.nodup_singleton dep, fun a there b single same => inside ?_⟩
      rw [← List.mem_singleton.mp single, ← same]
      exact there

theorem copyDeps_eq_iff : copyDeps l = l ↔ l.Nodup := by
  constructor
  · intro same
    rw [← same]
    exact nodup_foldl List.nodup_nil
  · exact fun nodup => foldl_addDep (show ([] ++ l).Nodup from nodup)

theorem storeItems_eq {room : Nat} {items : List SharedItem} :
    storeItems room items = if sizeofItem * items.length ≤ room then some items else none := by
  induction items generalizing room with
  | nil => rfl
  | cons item rest ih =>
    rw [storeItems, ih, List.length_cons, Nat.mul_succ]
    by_cases first : sizeofItem ≤ room
    · have more : sizeofItem * rest.length ≤ room - sizeofItem ↔ sizeofItem * rest.length + sizeofItem ≤ room :=
        Nat.le_sub_iff_add_le first
      by_cases others : sizeofItem * rest.length ≤ room - sizeofItem
      · rw [if_pos first, if_pos others, if_pos (more.mp others), Option.map_some]
      · rw [if_pos first, if_neg others, if_neg (mt more.mpr others), Option.map_none]
    · rw [if_neg first, if_neg fun all => first ((Nat.le_add_left ..).trans all)]

/-- Only without items is there room enough. -/
theorem copy_eq_some : t.copy = some t' ↔ t.shared = [] ∧ t' = t := by
  have room : sizeofItem * t.shared.length ≤ sizeofInt * t.shared.length ↔ t.shared = [] := by
    rw [← List.length_eq_zero_iff]
    simp only [sizeofItem, sizeofInt]
    omega
  unfold Timings.copy
  rw [storeItems_eq]
  by_cases none : t.shared = []
  · rw [if_pos (room.mpr none)]
    have same : { t with shared := t.shared } = t := rfl
    simp only [none, Option.map_some, Option.some.injEq, true_and]
    rw [← none, same, eq_comm]
  · rw [if_neg (mt room.mp none)]
    simp [none]

theorem mapM_copy {tim tim' : List Timings} : tim.mapM Timings.copy = some tim' ↔ (∀ t ∈ tim, t.shared = []) ∧ tim' = tim := by
  induction tim generalizing tim' with
  | nil => simp [eq_comm]
  | cons t tim ih =>
    rw [List.mapM_cons]
    simp only [Option.bind_eq_bind, Option.bind_eq_some_iff, copy_eq_some, ih, Option.pure_def, Option.some.injEq, List.forall_mem_cons]
    constructor
    · rintro ⟨_, ⟨first, rfl⟩, _, ⟨rest, rfl⟩, rfl⟩
      exact ⟨⟨first, rest⟩, rfl⟩
    · rintro ⟨⟨first, rest⟩, rfl⟩
      exact ⟨t, ⟨first, rfl⟩, tim, ⟨rest, rfl⟩, rfl⟩

theorem map_dep_eq_iff {l : List Insn} : (l.map fun ii => { ii with dep := copyDeps ii.dep }) = l ↔ ∀ ii ∈ l, ii.dep.Nodup := by
  induction l with
  | nil => simp
  | cons ii l ih =>
    rw [List.map_cons, List.cons.injEq, ih, List.forall_mem_cons, ← copyDeps_eq_iff]
    refine and_congr_left fun _ => ⟨fun same => congrArg Insn.dep same, fun same => ?_⟩
    rw [same]

/-- A block is copied as it is exactly where nothing is lost. -/
theorem cpyBb_iff : cpyBb b = some b ↔ b.Plain := by
  unfold cpyBb
  rw [Option.map_eq_some_iff]
  constructor
  · rintro ⟨tim, copied, same⟩
    have insn := congrArg Bb.insn same
    have mdep := congrArg Bb.mdep same
    exact ⟨(mapM_copy.mp copied).1, copyDeps_eq_iff.mp mdep, map_dep_eq_iff.mp insn⟩
  · rintro ⟨shared, mdep, dep⟩
    exact ⟨b.tim, mapM_copy.mpr ⟨shared, rfl⟩, by rw [map_dep_eq_iff.mpr dep, copyDeps_eq_iff.mpr mdep]⟩

theorem mapM_self {α : Type} {g : α → Option α} {l : List α} : l.mapM g = some l ↔ ∀ a ∈ l, g a = some a := by
  induction l with
  | nil => simp
  | cons a l ih =>
    rw [List.mapM_cons, List.forall_mem_cons, ← ih]
    simp only [Option.bind_eq_bind, Option.bind_eq_some_iff, Option.pure_def, Option.some.injEq, List.cons.injEq]
    constructor
    · rintro ⟨_, first, _, rest, rfl, rfl⟩
      exact ⟨first, rest⟩
    · rintro ⟨first, rest⟩
      exact ⟨a, first, l, rest, rfl, rfl⟩

end

/-- The copy is the same for the later passes, and the original left alone, exactly where accesses are not ordered, no function is called
and no block loses anything. -/
theorem dupFunc_same_iff (f : Func) :
    (∃ n, dupFunc f = some (f, n) ∧ SameFor f n) ↔ f.memoryOrder = .none ∧ f.fdeps = [] ∧ ∀ b ∈ f.bb, b.Plain := by
  have blocks : (∀ b ∈ f.bb, b.Plain) ↔ f.bb.mapM cpyBb = some f.bb := by
    rw [mapM_self]
    exact forall₂_congr fun b _ => cpyBb_iff.symm
  rw [blocks]
  unfold dupFunc
  constructor
  · rintro ⟨n, copied, same⟩
    obtain ⟨bb, blocks, copied⟩ := Option.bind_eq_some_iff.mp copied
    split_ifs at copied with alone
    have made : f.copied bb = n := congrArg Prod.snd (Option.some.inj copied)
    rw [← made] at same
    have order : MemoryOrder.none = f.memoryOrder := congrArg Func.memoryOrder same
    have kept : bb = f.bb := congrArg Func.bb same
    exact ⟨order.symm, alone, by rw [blocks, kept]⟩
  · rintro ⟨order, alone, blocks⟩
    refine ⟨f.copied f.bb, ?_, ?_⟩
    · rw [blocks, Option.bind_some, if_pos alone]
    · unfold SameFor
      rw [order, alone]
      rfl

/-- A store and the load behind it, in the order of the program. -/
def ordered : Func :=
  { bb := [{ insn := [⟨{}, .sw, ![.none, .register, .register, .none, .none], ![0, 5, 3, 0, 0], []⟩,
      ⟨{}, .lw, ![.register, .register, .none, .none, .none], ![6, 4, 0, 0, 0], [0]⟩], mdep := [0, 1], nmemory := 2 }]
    msched := [{ ref := 0 }, { ref := 1 }]
    memoryOrder := .exact }

/-- The order of the memory accesses is forgotten. -/
theorem exact_forgotten : ¬∀ f : Func, ∃ n, dupFunc f = some (f, n) ∧ SameFor f n := by
  intro all
  obtain ⟨n, copied, same⟩ := all ordered
  have made : (dupFunc ordered).map (fun p => p.2.memoryOrder) = some .none := by decide
  rw [copied] at made
  have order : n.memoryOrder = .exact := congrArg Func.memoryOrder same
  rw [Option.map_some, order] at made
  cases made

end Or1ksim.Cuc
