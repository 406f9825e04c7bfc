import Or1ksim.Lib.Linked
import Or1ksim.Peripheral.Mc

/-!
# Which controller owns an area

A reset unlinks the areas of its controller and remembers the node before the one it looks at. After an
area has been moved that node is on the other list, so the next area is unlinked from the wrong place when
it follows at once.
-/

namespace Or1ksim.MemoryController

open Function (update)
open Linked (Segment Chain)

/-- The node is registered for the controller. -/
def Mine (h : Heap) (m p : Nat) : Prop := (h.areas p).mc = (h.mcs m).index

instance (h : Heap) (m p : Nat) : Decidable (Mine h m p) := inferInstanceAs (Decidable (_ = _))

/-- No two areas of the controller follow each other. -/
def Apart (h : Heap) (m : Nat) (l : List Nat) : Prop := l.IsChain fun p q => ¬ (Mine h m p ∧ Mine h m q)

section
variable {m fuel : Nat} {h h' : Heap} {prev : Option Nat} {kept rest own : List Nat} {cur : Nat}

/-! ### What a reset leaves alone -/

structure Frame (m : Nat) (h h' : Heap) : Prop where
  areas : h'.areas = h.areas
  index : ∀ n, (h'.mcs n).index = (h.mcs n).index
  others : ∀ n, n ≠ m → (h'.mcs n).mcAreas = (h.mcs n).mcAreas

theorem Frame.refl (m : Nat) (h : Heap) : Frame m h h := ⟨rfl, fun _ => rfl, fun _ _ => rfl⟩

theorem Frame.trans {k : Heap} (first : Frame m h h') (second : Frame m h' k) : Frame m h k :=
  ⟨second.areas.trans first.areas, fun n => (second.index n).trans (first.index n),
    fun n other => (second.others n other).trans (first.others n other)⟩

theorem Frame.mine (frame : Frame m h h') (n p : Nat) : Mine h' n p ↔ Mine h n p := by
  unfold Mine
  rw [frame.areas, frame.index]

theorem unlink_frame (m : Nat) (prev : Option Nat) (cur : Nat) (h : Heap) : Frame m h (unlink prev cur h) := by
  unfold unlink
  cases prev <;> exact ⟨rfl, fun _ => rfl, fun _ _ => rfl⟩

theorem push_frame (m cur : Nat) (h : Heap) : Frame m h (push m cur h) := by
  refine ⟨rfl, fun n => ?_, fun n other => ?_⟩
  · show (update h.mcs m { h.mcs m with mcAreas := some cur } n).index = (h.mcs n).index
    by_cases same : n = m
    · rw [same, Function.update_self]
    · rw [Function.update_of_ne same]
  · show (update h.mcs m _ n).mcAreas = (h.mcs n).mcAreas
    rw [Function.update_of_ne other]

theorem unlink_next (other : prev ≠ some cur) : (unlink prev cur h).next cur = h.next cur := by
  unfold unlink
  cases prev with
  | none => rfl
  | some p => exact Function.update_of_ne (fun same => other (congrArg some same.symm)) _ _

/-- Only the links of the node before and of the node itself change. -/
theorem move_next {q : Nat} (before : prev ≠ some q) (other : q ≠ cur) : (push m cur (unlink prev cur h)).next q = h.next q := by
  refine (Function.update_of_ne other _ _).trans ?_
  unfold unlink
  cases prev with
  | none => rfl
  | some p => exact Function.update_of_ne (fun same => before (congrArg some same.symm)) _ _

theorem move_mcAreas (m : Nat) (prev : Option Nat) (cur : Nat) (h : Heap) :
    ((push m cur (unlink prev cur h)).mcs m).mcAreas = some cur := by
  show (update (unlink prev cur h).mcs m _ m).mcAreas = some cur
  rw [Function.update_self]

/-! ### The loop that grabs, over the nodes ahead -/

def grabAll (m : Nat) : List Nat → Option Nat → Heap → Heap
  | [], _, h => h
  | cur :: rest, prev, h =>
    if Mine h m cur then grabAll m rest (some cur) (push m cur (unlink prev cur h)) else grabAll m rest (some cur) h

theorem Chain.head {next : Nat → Option Nat} {a : Option Nat} {l : List Nat} (chain : Chain next a l) : a = l.head? := by
  cases l with
  | nil => exact chain
  | cons p l => exact chain.1

/-- The nodes ahead are not disturbed, so the loop goes through all of them. -/
theorem grab_eq (chain : Chain h.next rest.head? rest) (behind : ∀ p, prev = some p → p ∉ rest) :
    grab m fuel rest.head? prev h = if rest.length ≤ fuel then some (grabAll m rest prev h) else none := by
  induction rest generalizing fuel prev h with
  | nil =>
    rw [if_pos (show ([] : List Nat).length ≤ fuel from Nat.zero_le fuel)]
    cases fuel <;> rfl
  | cons cur rest ih =>
    cases fuel with
    | zero => exact (if_neg (Nat.not_succ_le_zero _)).symm
    | succ fuel =>
      obtain ⟨-, tail⟩ := chain
      have next : h.next cur = rest.head? := Chain.head tail
      have once : cur ∉ rest := (List.nodup_cons.mp (Linked.Chain.nodup (show Chain h.next (some cur) (cur :: rest) from ⟨rfl, tail⟩))).1
      have ahead : ∀ p, some cur = some p → p ∉ rest := fun p is => Option.some.inj is ▸ once
      rw [next] at tail
      have shorter : (cur :: rest).length ≤ fuel + 1 ↔ rest.length ≤ fuel := Nat.succ_le_succ_iff
      simp only [shorter]
      show (if Mine h m cur then grab m fuel ((unlink prev cur h).next cur) (some cur) (push m cur (unlink prev cur h))
        else grab m fuel (h.next cur) (some cur) h) = _
      unfold grabAll
      rw [unlink_next fun is => behind cur is List.mem_cons_self, next]
      split
      · refine ih (tail.congr fun p inside => ?_) ahead
        exact move_next (fun is => behind p is (List.mem_cons_of_mem cur inside)) fun same => once (same ▸ inside)
      · exact ih tail ahead

theorem grabAll_frame (m : Nat) (rest : List Nat) (prev : Option Nat) (h : Heap) : Frame m h (grabAll m rest prev h) := by
  induction rest generalizing prev h with
  | nil => exact Frame.refl m h
  | cons cur rest ih =>
    unfold grabAll
    split
    · exact ((unlink_frame m prev cur h).trans (push_frame m cur _)).trans (ih _ _)
    · exact ih _ _

theorem grabAll_next {q : Nat} (before : prev ≠ some q) (outside : q ∉ rest) : (grabAll m rest prev h).next q = h.next q := by
  induction rest generalizing prev h with
  | nil => rfl
  | cons cur rest ih =>
    obtain ⟨other, outside⟩ := not_or.mp (List.mem_cons.not.mp outside)
    have before' : some cur ≠ some q := fun same => other (Option.some.inj same).symm
    unfold grabAll
    split
    · exact (ih before' outside).trans (move_next before other)
    · exact ih before' outside

theorem grabAll_none (none' : ∀ p ∈ rest, ¬ Mine h m p) : grabAll m rest prev h = h := by
  induction rest generalizing prev with
  | nil => rfl
  | cons cur rest ih =>
    unfold grabAll
    rw [if_neg (none' cur List.mem_cons_self)]
    exact ih fun p inside => none' p (List.mem_cons_of_mem cur inside)

/-! ### Areas that are apart -/

/-- The loop stands at `rest`: the nodes that it has left on the global list, and those that the controller owns. -/
structure At (m : Nat) (h : Heap) (kept rest own : List Nat) : Prop where
  front : Segment h.next h.mcAreas kept rest.head?
  chain : Chain h.next rest.head? rest
  owned : Chain h.next (h.mcs m).mcAreas own
  nodup : (kept ++ rest ++ own).Nodup

theorem At.next (here : At m h kept (cur :: rest) own) : h.next cur = rest.head? := Chain.head here.chain.2

theorem At.leave (here : At m h kept (cur :: rest) own) : At m h (kept ++ [cur]) rest own := by
  refine ⟨?_, ?_, here.owned, ?_⟩
  · rw [← here.next]
    exact here.front.snoc
  · rw [← here.next]
    exact here.chain.2
  · simpa using here.nodup

/-- The node before is the last one that was left, so the node is unlinked from the global list. -/
theorem At.move (here : At m h kept (cur :: rest) own) (before : prev = kept.getLast?) :
    At m (push m cur (unlink prev cur h)) kept rest (cur :: own) := by
  have parts := here.nodup
  rw [List.append_assoc, List.nodup_append] at parts
  obtain ⟨keptOnce, restOnce, keptApart⟩ := parts
  obtain ⟨curOnce, restOnce⟩ := List.nodup_cons.mp restOnce
  have outKept : cur ∉ kept := fun inside => keptApart cur inside cur List.mem_cons_self rfl
  have prevKept (q : Nat) (is : prev = some q) : q ∈ kept := List.mem_of_getLast? (before.symm.trans is)
  have away (q : Nat) (outside : q ∈ rest ++ own) : (push m cur (unlink prev cur h)).next q = h.next q := by
    refine move_next (fun is => keptApart q (prevKept q is) q (List.mem_cons_of_mem cur outside) rfl) ?_
    rintro rfl
    exact curOnce outside
  refine ⟨?_, ?_, ?_, ?_⟩
  · rcases List.eq_nil_or_concat' kept with rfl | ⟨k, p, rfl⟩
    · obtain rfl : prev = none := before
      exact here.next
    · rw [List.getLast?_append_of_ne_nil k (List.cons_ne_nil p []), List.getLast?_singleton] at before
      subst before
      have pOut : p ∉ k := fun inside => (List.nodup_append.mp keptOnce).2.2 p inside p List.mem_cons_self rfl
      have front := (here.front.of_snoc).1
      have moved : Segment (push m cur (unlink (some p) cur h)).next h.mcAreas k (some p) := by
        refine front.congr fun q inside => move_next (fun is => pOut (Option.some.inj is ▸ inside)) ?_
        rintro rfl
        exact outKept (List.mem_append_left _ inside)
      have whole := moved.snoc
      have link : (push m cur (unlink (some p) cur h)).next p = rest.head? := by
        have differ : p ≠ cur := fun same => outKept (same ▸ List.mem_append_right k List.mem_cons_self)
        refine (Function.update_of_ne differ _ _).trans ?_
        exact (Function.update_self p _ h.next).trans here.next
      rw [link] at whole
      exact whole
  · have tail := here.chain.2
    rw [here.next] at tail
    exact tail.congr fun q inside => away q (List.mem_append_left own inside)
  · rw [move_mcAreas]
    refine ⟨rfl, ?_⟩
    have link : (push m cur (unlink prev cur h)).next cur = (h.mcs m).mcAreas := by
      refine (Function.update_self cur _ _).trans ?_
      unfold unlink
      cases prev <;> rfl
    rw [link]
    exact here.owned.congr fun q inside => away q (List.mem_append_right rest inside)
  · have perm : (kept ++ rest ++ cur :: own).Perm (kept ++ cur :: rest ++ own) := by
      rw [List.append_assoc, List.append_assoc]
      exact List.Perm.append_left kept List.perm_middle
    exact perm.nodup_iff.mpr here.nodup

theorem At.cur_outside (here : At m h kept (cur :: rest) own) : cur ∉ kept ∧ cur ∉ rest := by
  have parts := here.nodup
  rw [List.append_assoc, List.nodup_append] at parts
  obtain ⟨-, ahead, apart⟩ := parts
  exact ⟨fun inside => apart cur inside cur List.mem_cons_self rfl,
    fun inside => (List.nodup_cons.mp ahead).1 (List.mem_append_left own inside)⟩

/-- The node before is in place, or the next node stays. -/
def Ready (h : Heap) (m : Nat) (prev : Option Nat) (kept rest : List Nat) : Prop :=
  prev = kept.getLast? ∨ ∀ c, rest.head? = some c → ¬ Mine h m c

theorem apart_cons : Apart h m (cur :: rest) ↔ (Mine h m cur → ∀ c, rest.head? = some c → ¬ Mine h m c) ∧ Apart h m rest := by
  unfold Apart
  cases rest with
  | nil => exact iff_of_true (List.isChain_singleton cur) ⟨nofun, List.isChain_nil⟩
  | cons c rest =>
    rw [List.isChain_cons_cons, not_and]
    refine and_congr_left fun _ => imp_congr_right fun _ => ⟨fun out d is => ?_, fun out => out c rfl⟩
    cases is
    exact out

theorem Frame.apart (frame : Frame m h h') (l : List Nat) : Apart h' m l ↔ Apart h m l := by
  unfold Apart
  simp only [frame.mine]

theorem moved_frame (m : Nat) (prev : Option Nat) (cur : Nat) (h : Heap) : Frame m h (push m cur (unlink prev cur h)) :=
  (unlink_frame m prev cur h).trans (push_frame m cur _)

/-- The areas of the controller go to its list, and the others stay. -/
theorem grabAll_apart (here : At m h kept rest own) (ready : Ready h m prev kept rest) (apart : Apart h m rest) :
    At m (grabAll m rest prev h) (kept ++ rest.filter fun p => ¬ Mine h m p) [] ((rest.filter fun p => Mine h m p).reverse ++ own) := by
  induction rest generalizing kept own prev h with
  | nil => simpa [grabAll] using here
  | cons cur rest ih =>
    obtain ⟨alone, apart⟩ := apart_cons.mp apart
    unfold grabAll
    by_cases mine : Mine h m cur
    · have before : prev = kept.getLast? := ready.resolve_right fun out => out cur rfl mine
      have frame := moved_frame m prev cur h
      have ready : Ready (push m cur (unlink prev cur h)) m (some cur) kept rest :=
        .inr fun c is => (frame.mine m c).not.mpr (alone mine c is)
      have done := ih (here.move before) ready ((frame.apart rest).mpr apart)
      simp only [frame.mine] at done
      rw [if_pos mine, List.filter_cons_of_neg (by simpa using mine), List.filter_cons_of_pos (by simpa using mine), List.reverse_cons,
        List.append_assoc]
      exact done
    · have ready : Ready h m (some cur) (kept ++ [cur]) rest :=
        .inl (by rw [List.getLast?_append_of_ne_nil kept (List.cons_ne_nil cur []), List.getLast?_singleton])
      have done := ih here.leave ready apart
      rw [if_neg mine, List.filter_cons_of_pos (by simpa using mine), List.filter_cons_of_neg (by simpa using mine)]
      rw [List.append_assoc] at done
      exact done

/-! ### Areas that are not apart -/

/-- What the global list leads to behind the loop stays there, once the node before is not on the way. -/
theorem grabAll_reached {s : List Nat} {q y : Nat} (reached : Segment h.next h.mcAreas s (some y)) (behind : ∀ p ∈ s, p ∉ rest)
    (off : q ∉ s) :
    Segment (grabAll m rest (some q) h).next (grabAll m rest (some q) h).mcAreas s (some y) := by
  induction rest generalizing q h with
  | nil => exact reached
  | cons cur rest ih =>
    have behind' : ∀ p ∈ s, p ∉ rest := fun p inside ahead => behind p inside (List.mem_cons_of_mem cur ahead)
    have off' : cur ∉ s := fun inside => behind cur inside List.mem_cons_self
    unfold grabAll
    split
    · refine ih (reached.congr fun p inside => move_next (fun is => off ?_) fun same => off' (same ▸ inside)) behind' off'
      cases is
      exact inside
    · exact ih reached behind' off'

/-- The second of two neighbours stays on the global list. -/
theorem grabAll_neighbours (here : At m h kept rest own) (off : prev = kept.getLast? ∨ ∃ q, prev = some q ∧ q ∉ kept)
    (together : ¬ (Ready h m prev kept rest ∧ Apart h m rest)) :
    ∃ s y, Segment (grabAll m rest prev h).next (grabAll m rest prev h).mcAreas s (some y) ∧ Mine h m y := by
  induction rest generalizing kept own prev h with
  | nil => exact absurd ⟨.inr nofun, List.isChain_nil⟩ together
  | cons cur rest ih =>
    obtain ⟨outKept, outRest⟩ := here.cur_outside
    by_cases mine : Mine h m cur
    · rcases off with before | ⟨q, rfl, away⟩
      · have frame := moved_frame m prev cur h
        unfold grabAll
        rw [if_pos mine]
        have together' : ¬ (Ready (push m cur (unlink prev cur h)) m (some cur) kept rest ∧
            Apart (push m cur (unlink prev cur h)) m rest) := by
          rintro ⟨ready, apart⟩
          have alone := ready.resolve_left fun last => outKept (List.mem_of_getLast? last.symm)
          exact together ⟨.inl before,
            apart_cons.mpr ⟨fun _ c is => (frame.mine m c).not.mp (alone c is), (frame.apart rest).mp apart⟩⟩
        obtain ⟨s, y, reached, is⟩ := ih (here.move before) (.inr ⟨cur, rfl, outKept⟩) together'
        exact ⟨s, y, reached, (frame.mine m y).mp is⟩
      · refine ⟨kept, cur, grabAll_reached here.front (fun p inside ahead => ?_) away, mine⟩
        have parts := here.nodup
        rw [List.append_assoc, List.nodup_append] at parts
        exact parts.2.2 p inside p (List.mem_append_left own ahead) rfl
    · unfold grabAll
      rw [if_neg mine]
      refine ih here.leave (.inl ?_) fun both => together ⟨.inr fun c is => ?_, apart_cons.mpr ⟨fun is => absurd is mine, both.2⟩⟩
      · rw [List.getLast?_append_of_ne_nil kept (List.cons_ne_nil cur []), List.getLast?_singleton]
      · cases is
        exact mine

/-! ### The walks that follow -/

/-- Only memory areas have changed. -/
def OnlyMems (h h' : Heap) : Prop := h' = { h with mems := h'.mems }

theorem invalidate_same {a : Option Nat} (ran : invalidate fuel a h = some h') : OnlyMems h h' := by
  induction fuel generalizing a h with
  | zero =>
    cases a with
    | none => cases ran; rfl
    | some cur => cases ran
  | succ fuel ih =>
    cases a with
    | none => cases ran; rfl
    | some cur =>
      have rest : OnlyMems (setMemValid (h.areas cur).mem false h) h' := ih (show invalidate fuel (h.next cur) _ = some h' from ran)
      exact rest

theorem invalidate_returns {a : Option Nat} {l : List Nat} (chain : Chain h.next a l) (enough : l.length ≤ fuel) :
    ∃ h', invalidate fuel a h = some h' := by
  induction l generalizing fuel a h with
  | nil =>
    cases chain
    cases fuel <;> exact ⟨h, rfl⟩
  | cons cur l ih =>
    obtain ⟨rfl, rest⟩ := chain
    cases fuel with
    | zero => cases enough
    | succ fuel => exact ih (h := setMemValid (h.areas cur).mem false h) rest (Nat.le_of_succ_le_succ enough)

theorem programArea_same (mem : Nat) (csc tms baMask : Word) (h : Heap) : OnlyMems h (programArea mem csc tms baMask h) := by
  unfold programArea
  dsimp only
  repeat' split
  all_goals rfl

theorem setCscTms_same {cs csc tms baMask : Word} {a : Option Nat} (ran : setCscTms cs csc tms baMask fuel a h = some h') :
    OnlyMems h h' := by
  induction fuel generalizing a with
  | zero =>
    cases a with
    | none => cases ran; rfl
    | some cur => cases ran
  | succ fuel ih =>
    cases a with
    | none => cases ran; rfl
    | some cur =>
      unfold setCscTms at ran
      split at ran
      · cases ran
        exact programArea_same _ _ _ _ h
      · exact ih ran

theorem setCscTms_returns {cs csc tms baMask : Word} {a : Option Nat} {l : List Nat} (chain : Chain h.next a l)
    (enough : l.length ≤ fuel) :
    ∃ h', setCscTms cs csc tms baMask fuel a h = some h' := by
  induction l generalizing fuel a with
  | nil =>
    cases chain
    cases fuel <;> exact ⟨h, rfl⟩
  | cons cur l ih =>
    obtain ⟨rfl, rest⟩ := chain
    cases fuel with
    | zero => cases enough
    | succ fuel =>
      unfold setCscTms
      split
      · exact ⟨_, rfl⟩
      · exact ih rest (Nat.le_of_succ_le_succ enough)

theorem clearMc_frame (m : Nat) (h : Heap) : Frame m h (clearMc m h) := by
  refine ⟨rfl, fun n => ?_, fun n other => ?_⟩
  · show (update h.mcs m (resetRegs (h.mcs m)) n).index = (h.mcs n).index
    by_cases same : n = m
    · rw [same, Function.update_self]
      rfl
    · rw [Function.update_of_ne same]
  · show (update h.mcs m _ n).mcAreas = (h.mcs n).mcAreas
    rw [Function.update_of_ne other]

theorem clearMc_mcAreas (m : Nat) (h : Heap) : ((clearMc m h).mcs m).mcAreas = (h.mcs m).mcAreas := by
  show (update h.mcs m (resetRegs (h.mcs m)) m).mcAreas = _
  rw [Function.update_self]
  rfl

/-- What the loop leaves when it has gone through the global list. -/
def grabbed (m : Nat) (l : List Nat) (h : Heap) : Heap := grabAll m l none (clearMc m h)

theorem grab_grabbed {l : List Nat} (chain : Chain h.next h.mcAreas l) :
    grab m fuel (clearMc m h).mcAreas none (clearMc m h) = if l.length ≤ fuel then some (grabbed m l h) else none := by
  have head := Chain.head chain
  rw [show (clearMc m h).mcAreas = l.head? from head]
  exact grab_eq (show Chain h.next l.head? l from head ▸ chain) nofun

/-- A reset that returns has grabbed from the whole list. -/
theorem mcReset_some {l : List Nat} (chain : Chain h.next h.mcAreas l) (ran : mcReset fuel m h = some h') :
    OnlyMems (grabbed m l h) h' := by
  obtain ⟨g, grab', rest⟩ := Option.bind_eq_some_iff.mp ran
  obtain ⟨i, invalid, walk⟩ := Option.bind_eq_some_iff.mp rest
  rw [grab_grabbed chain] at grab'
  split at grab'
  · obtain rfl := Option.some.inj grab'
    have first := invalidate_same invalid
    have second : OnlyMems i h' := setCscTms_same (show setCscTms 0 ((i.mcs m).csc 0) ((i.mcs m).tms 0) (i.mcs m).baMask fuel
      (i.mcs m).mcAreas i = some h' from walk)
    unfold OnlyMems at first second ⊢
    rw [second, first]
  · cases grab'

theorem mcReset_returns {l own : List Nat} (chain : Chain h.next h.mcAreas l)
    (owned : Chain (grabbed m l h).next ((grabbed m l h).mcs m).mcAreas own) : ∃ fuel h', mcReset fuel m h = some h' := by
  refine ⟨l.length + own.length, ?_⟩
  have first : grab m (l.length + own.length) (clearMc m h).mcAreas none (clearMc m h) = some (grabbed m l h) := by
    rw [grab_grabbed chain, if_pos (Nat.le_add_right _ _)]
  obtain ⟨i, invalid⟩ := invalidate_returns owned (Nat.le_add_left own.length l.length)
  have only := invalidate_same invalid
  have owned' : Chain i.next (i.mcs m).mcAreas own := by
    rw [show i = _ from only]
    exact owned
  obtain ⟨h', ran⟩ : ∃ h', setCscTms 0 ((i.mcs m).csc 0) ((i.mcs m).tms 0) (i.mcs m).baMask (l.length + own.length)
      (i.mcs m).mcAreas i = some h' :=
    setCscTms_returns owned' (Nat.le_add_left own.length l.length)
  refine ⟨h', ?_⟩
  rw [mcReset, first, Option.bind_eq_bind, Option.bind_some, invalid]
  exact ran

end

/-! ### Resets -/

section
variable (start : Heap) (registered : List Nat)

/-- The areas of the controllers that have not been reset. -/
def remaining (done : List Nat) : List Nat := registered.filter fun p => ∀ n ∈ done, ¬ Mine start n p

/-- The global list holds the areas of the controllers that have not been reset, and every other one owns its areas. -/
structure Owned (done : List Nat) (h : Heap) : Prop where
  waiting : ∃ l, Chain h.next h.mcAreas l ∧ l.Nodup ∧ ∀ p, p ∈ l ↔ p ∈ registered ∧ ∀ n ∈ done, ¬ Mine start n p
  owned : ∀ n ∈ done, ∃ l, Chain h.next (h.mcs n).mcAreas l ∧ l.Nodup ∧ ∀ p, p ∈ l ↔ p ∈ registered ∧ Mine start n p

/-- The areas of the controller are apart, and no controller with its number has been reset. -/
def Separate (done : List Nat) (m : Nat) : Prop :=
  Apart start m (remaining start registered done) ∧
    ∀ n ∈ done, (start.mcs n).index = (start.mcs m).index → n = m ∨ ∀ p ∈ registered, ¬ Mine start m p

/-- The controllers of a list are reset in turn. -/
inductive Resets : List Nat → Heap → Prop where
  | nil : Resets [] start
  | snoc {done : List Nat} {m fuel : Nat} {h h' : Heap} (before : Resets done h) (ran : mcReset fuel m h = some h') :
  Resets (done ++ [m]) h'

structure Sorted (done : List Nat) (h : Heap) : Prop where
  areas : h.areas = start.areas
  index : ∀ n, (h.mcs n).index = (start.mcs n).index
  waiting : Chain h.next h.mcAreas (remaining start registered done)
  owned : ∀ n ∈ done, ∃ l, Chain h.next (h.mcs n).mcAreas l ∧ ∀ p, p ∈ l ↔ p ∈ registered ∧ Mine start n p
  unowned : ∀ n, n ∉ done → (h.mcs n).mcAreas = none
  single : ∀ n ∈ done, ∀ m ∈ done, (start.mcs n).index = (start.mcs m).index → n = m ∨ ∀ p ∈ registered, ¬ Mine start m p

end

section
variable {start h h' : Heap} {registered done : List Nat} {m fuel : Nat}

theorem mem_remaining {p : Nat} : p ∈ remaining start registered done ↔ p ∈ registered ∧ ∀ n ∈ done, ¬ Mine start n p := by
  unfold remaining
  rw [List.mem_filter, decide_eq_true_iff]

theorem remaining_snoc (done : List Nat) (m : Nat) :
    remaining start registered (done ++ [m]) = (remaining start registered done).filter fun p => ¬ Mine start m p := by
  unfold remaining
  rw [List.filter_filter]
  refine List.filter_congr fun p _ => ?_
  simp only [List.forall_mem_append, List.forall_mem_singleton, Bool.decide_and, Bool.and_comm]

theorem Sorted.toOwned (sorted : Sorted start registered done h) : Owned start registered done h := by
  refine ⟨⟨_, sorted.waiting, Linked.Chain.nodup sorted.waiting, fun p => mem_remaining⟩, fun n inside => ?_⟩
  obtain ⟨l, chain, members⟩ := sorted.owned n inside
  exact ⟨l, chain, Linked.Chain.nodup chain, members⟩

theorem Sorted.mine_iff (sorted : Sorted start registered done h) (n p : Nat) : Mine h n p ↔ Mine start n p := by
  unfold Mine
  rw [sorted.areas, sorted.index]

theorem Sorted.ownList (sorted : Sorted start registered done h) (m : Nat) :
    ∃ own, Chain h.next (h.mcs m).mcAreas own ∧ ∀ p, p ∈ own ↔ m ∈ done ∧ p ∈ registered ∧ Mine start m p := by
  by_cases inside : m ∈ done
  · obtain ⟨own, chain, members⟩ := sorted.owned m inside
    exact ⟨own, chain, fun p => (members p).trans (and_iff_right inside).symm⟩
  · exact ⟨[], sorted.unowned m inside, fun p => iff_of_false List.not_mem_nil fun both => inside both.1⟩

theorem Sorted.start_at (sorted : Sorted start registered done h) {own : List Nat} (chain : Chain h.next (h.mcs m).mcAreas own)
    (members : ∀ p, p ∈ own ↔ m ∈ done ∧ p ∈ registered ∧ Mine start m p) :
    At m (clearMc m h) [] (remaining start registered done) own := by
  refine ⟨Chain.head sorted.waiting, ?_, ?_, ?_⟩
  · have waiting := sorted.waiting
    rw [Chain.head waiting] at waiting
    exact waiting
  · rw [clearMc_mcAreas]
    exact chain
  · rw [List.nil_append, List.nodup_append]
    refine ⟨Linked.Chain.nodup sorted.waiting, Linked.Chain.nodup chain, fun p waits q owned same => ?_⟩
    subst same
    obtain ⟨inside, -, mine⟩ := (members p).mp owned
    exact (mem_remaining.mp waits).2 m inside mine

theorem Sorted.apart_iff (sorted : Sorted start registered done h) (l : List Nat) : Apart (clearMc m h) m l ↔ Apart start m l := by
  rw [(clearMc_frame m h).apart l]
  unfold Apart
  simp only [sorted.mine_iff]

theorem Sorted.grabbed (sorted : Sorted start registered done h) (apart : Apart start m (remaining start registered done))
    {own : List Nat} (chain : Chain h.next (h.mcs m).mcAreas own)
    (members : ∀ p, p ∈ own ↔ m ∈ done ∧ p ∈ registered ∧ Mine start m p) :
    At m (grabbed m (remaining start registered done) h) (remaining start registered (done ++ [m])) []
      (((remaining start registered done).filter fun p => Mine start m p).reverse ++ own) := by
  have ready : Ready (clearMc m h) m none [] (remaining start registered done) := .inl rfl
  have spec := grabAll_apart (sorted.start_at chain members) ready ((sorted.apart_iff _).mpr apart)
  have same (p : Nat) : Mine (clearMc m h) m p ↔ Mine start m p := ((clearMc_frame m h).mine m p).trans (sorted.mine_iff m p)
  simp only [same] at spec
  rw [remaining_snoc]
  exact spec

theorem Sorted.step (sorted : Sorted start registered done h) (separate : Separate start registered done m)
    (ran : mcReset fuel m h = some h') : Sorted start registered (done ++ [m]) h' := by
  obtain ⟨own, chain, members⟩ := sorted.ownList m
  have after := sorted.grabbed separate.1 chain members
  have frame : Frame m h (MemoryController.grabbed m (remaining start registered done) h) :=
    (clearMc_frame m h).trans (grabAll_frame _ _ _ _)
  have only := mcReset_some sorted.waiting ran
  unfold OnlyMems at only
  rw [only]
  have outside {n : Nat} (other : n ∉ done ++ [m]) : n ∉ done ∧ n ≠ m :=
    ⟨fun inside => other (List.mem_append_left _ inside), fun same => other (same ▸ List.mem_append_right _ List.mem_cons_self)⟩
  refine ⟨frame.areas.trans sorted.areas, fun n => (frame.index n).trans (sorted.index n), after.front, fun n inside => ?_,
    fun n other => (frame.others n (outside other).2).trans (sorted.unowned n (outside other).1), ?_⟩
  · by_cases same : n = m
    · subst same
      refine ⟨_, after.owned, fun p => ?_⟩
      rw [List.mem_append, List.mem_reverse, List.mem_filter, mem_remaining, members, decide_eq_true_iff]
      constructor
      · rintro (⟨⟨known, -⟩, mine⟩ | ⟨-, known, mine⟩)
        · exact ⟨known, mine⟩
        · exact ⟨known, mine⟩
      · rintro ⟨known, mine⟩
        by_cases before : n ∈ done
        · exact .inr ⟨before, known, mine⟩
        · refine .inl ⟨⟨known, fun k inside other => ?_⟩, mine⟩
          rcases separate.2 k inside (other.symm.trans mine) with is | none
          · exact before (is ▸ inside)
          · exact none p known mine
    · obtain inside | is := List.mem_append.mp inside
      · obtain ⟨l, chain, members⟩ := sorted.owned n inside
        refine ⟨l, ?_, members⟩
        show Chain (MemoryController.grabbed m (remaining start registered done) h).next
          ((MemoryController.grabbed m (remaining start registered done) h).mcs n).mcAreas l
        rw [frame.others n same]
        refine chain.congr fun p owned => grabAll_next nofun fun waits => ?_
        exact (mem_remaining.mp waits).2 n inside ((members p).mp owned).2
      · exact absurd (List.mem_singleton.mp is) same
  · intro n inside k inside' same
    rcases List.mem_append.mp inside with before | last
    · rcases List.mem_append.mp inside' with before' | last'
      · exact sorted.single n before k before' same
      · obtain rfl := List.mem_singleton.mp last'
        exact separate.2 n before same
    · obtain rfl := List.mem_singleton.mp last
      rcases List.mem_append.mp inside' with before' | last'
      · rcases separate.2 k before' same.symm with is | none
        · exact .inl is.symm
        · refine .inr fun p known mine => none p known ?_
          unfold Mine at mine ⊢
          rw [mine, same]
      · exact .inl (List.mem_singleton.mp last').symm

theorem Sorted.returns (sorted : Sorted start registered done h) (apart : Apart start m (remaining start registered done)) :
    ∃ fuel h', mcReset fuel m h = some h' := by
  obtain ⟨own, chain, members⟩ := sorted.ownList m
  exact mcReset_returns sorted.waiting (sorted.grabbed apart chain members).owned

/-- Neighbours, and two controllers of one number, leave an area on the wrong list. -/
theorem Sorted.not_owned (sorted : Sorted start registered done h) (mixed : ¬ Separate start registered done m)
    (ran : mcReset fuel m h = some h') : ¬ Owned start registered (done ++ [m]) h' := by
  intro owned
  have only := mcReset_some sorted.waiting ran
  unfold OnlyMems at only
  rw [only] at owned
  have last : m ∈ done ++ [m] := List.mem_append_right done List.mem_cons_self
  obtain ⟨own, chain, members⟩ := sorted.ownList m
  by_cases apart : Apart start m (remaining start registered done)
  · have twice : ∃ n ∈ done, (start.mcs n).index = (start.mcs m).index ∧ n ≠ m ∧ ∃ p ∈ registered, Mine start m p := by
      by_contra no
      refine mixed ⟨apart, fun n inside same => ?_⟩
      by_contra both
      obtain ⟨differ, some⟩ := not_or.mp both
      refine no ⟨n, inside, same, differ, ?_⟩
      by_contra none
      exact some fun p known mine => none ⟨p, known, mine⟩
    obtain ⟨n, inside, same, differ, p, known, mine⟩ := twice
    have fresh : m ∉ done := by
      intro before
      rcases sorted.single n inside m before same with is | none
      · exact differ is
      · exact none p known mine
    have still : MemoryController.grabbed m (remaining start registered done) h = clearMc m h := by
      refine grabAll_none fun q waits other => (mem_remaining.mp waits).2 n inside ?_
      have other := (sorted.mine_iff m q).mp (((clearMc_frame m h).mine m q).mp other)
      unfold Mine at other ⊢
      rw [other, same]
    rw [still] at owned
    obtain ⟨l, chain', -, members'⟩ := owned.owned m last
    have empty : ((clearMc m h).mcs m).mcAreas = none := (clearMc_mcAreas m h).trans (sorted.unowned m fresh)
    have none : l = [] := Linked.Chain.unique chain' (show Chain h.next ((clearMc m h).mcs m).mcAreas [] from empty)
    rw [none] at members'
    exact List.not_mem_nil ((members' p).mpr ⟨known, mine⟩)
  · have together : ¬ (Ready (clearMc m h) m none [] (remaining start registered done) ∧
        Apart (clearMc m h) m (remaining start registered done)) :=
      fun both => apart ((sorted.apart_iff _).mp both.2)
    obtain ⟨s, y, reached, mine⟩ := grabAll_neighbours (sorted.start_at chain members) (.inl rfl) together
    obtain ⟨l, chain', -, members'⟩ := owned.waiting
    have inside : y ∈ l := Linked.Chain.mem_of_reached chain' reached
    have mine := (sorted.mine_iff m y).mp (((clearMc_frame m h).mine m y).mp mine)
    exact ((members' y).mp inside).2 m last mine

theorem Resets.last {ms : List Nat} (run : Resets start ms h') (is : ms = done ++ [m]) :
    ∃ fuel h, Resets start done h ∧ mcReset fuel m h = some h' := by
  cases run with
  | nil => exact absurd is.symm (List.append_ne_nil_of_right_ne_nil done (List.cons_ne_nil m []))
  | snoc before ran =>
    obtain ⟨rfl, same⟩ := List.append_inj' is rfl
    cases same
    exact ⟨_, _, before, ran⟩

theorem Resets.sorted (first : Sorted start registered [] start) (run : Resets start done h)
    (separate : ∀ pre m, pre ++ [m] <+: done → Separate start registered pre m) : Sorted start registered done h := by
  induction run with
  | nil => exact first
  | snoc before ran ih =>
    have sorted := ih fun pre m inside => separate pre m (inside.trans (List.prefix_append _ _))
    exact sorted.step (separate _ _ (List.prefix_refl _)) ran

theorem resets_exist (first : Sorted start registered [] start) (separate : ∀ pre m,
    pre ++ [m] <+: done → Separate start registered pre m) :
    ∃ h, Resets start done h := by
  induction done using List.reverseRecOn with
  | nil => exact ⟨start, .nil⟩
  | append_singleton done m ih =>
    have separate' : ∀ pre m, pre ++ [m] <+: done → Separate start registered pre m :=
      fun pre m inside => separate pre m (inside.trans (List.prefix_append _ _))
    obtain ⟨h, run⟩ := ih separate'
    obtain ⟨fuel, h', ran⟩ := (run.sorted first separate').returns (separate done m (List.prefix_refl _)).1
    exact ⟨h', run.snoc ran⟩

theorem mcRegMemAreas_chain (areas : List Area) (chain : Chain h.next h.mcAreas (List.range h.size).reverse) :
    (mcRegMemAreas areas h).mcs = h.mcs ∧ (mcRegMemAreas areas h).size = h.size + areas.length ∧
      Chain (mcRegMemAreas areas h).next (mcRegMemAreas areas h).mcAreas (List.range (h.size + areas.length)).reverse := by
  induction areas generalizing h with
  | nil => exact ⟨rfl, rfl, chain⟩
  | cons area areas ih =>
    have longer : Chain (mcRegMemArea area h).next (mcRegMemArea area h).mcAreas (List.range (h.size + 1)).reverse := by
      rw [List.range_succ, List.reverse_append, List.reverse_singleton]
      refine ⟨rfl, ?_⟩
      show Segment _ (update h.next h.size h.mcAreas h.size) _ _
      rw [Function.update_self]
      exact Linked.Segment.update chain (by simp) h.mcAreas
    obtain ⟨mcs, size, chain'⟩ := ih longer
    rw [List.length_cons, Nat.add_comm areas.length, ← Nat.add_assoc]
    exact ⟨mcs, size, chain'⟩

theorem mcRegMemAreas_area (areas : List Area) (h : Heap) {p : Nat} (inside : p < areas.length) :
    (mcRegMemAreas areas h).areas (h.size + p) = areas[p] := by
  have below (areas : List Area) (h : Heap) {q : Nat} (old : q < h.size) : (mcRegMemAreas areas h).areas q = h.areas q := by
    induction areas generalizing h with
    | nil => rfl
    | cons area areas ih =>
      refine (ih (mcRegMemArea area h) (Nat.lt_succ_of_lt old)).trans ?_
      exact Function.update_of_ne (Nat.ne_of_lt old) _ _
  induction areas generalizing h p with
  | nil => cases inside
  | cons area areas ih =>
    cases p with
    | zero =>
      refine (below areas (mcRegMemArea area h) (Nat.lt_succ_self _)).trans ?_
      exact Function.update_self h.size area h.areas
    | succ p =>
      have rest := ih (mcRegMemArea area h) (Nat.lt_of_succ_lt_succ inside)
      rw [show (mcRegMemArea area h).size + p = h.size + (p + 1) from Nat.succ_add_eq_add_succ h.size p] at rest
      exact rest

end

/-- The nodes of the areas, the one registered last first. -/
def nodes (areas : List Area) : List Nat := (List.range areas.length).reverse

section
variable (sections : Nat → Section) (left : Nat → Mc) (mems : Nat → Memarea) (areas : List Area)

theorem configured_sorted :
    Sorted (configured sections left mems areas) (nodes areas) [] (configured sections left mems areas) := by
  let empty : Heap := ⟨0, fun _ => ⟨0, 0, 0⟩, fun _ => none, none, fun m => mcSec (sections m) (left m), mems⟩
  obtain ⟨mcs, -, chain⟩ := mcRegMemAreas_chain (h := empty) areas rfl
  rw [show empty.size + areas.length = areas.length from Nat.zero_add _] at chain
  refine ⟨rfl, fun _ => rfl, ?_, nofun, fun n _ => ?_, nofun⟩
  · rw [show remaining (configured sections left mems areas) (nodes areas) [] = nodes areas from List.filter_true _]
    exact chain
  · show ((mcRegMemAreas areas empty).mcs n).mcAreas = none
    rw [mcs]
    rfl

theorem configured_area {p : Nat} (inside : p < areas.length) : (configured sections left mems areas).areas p = areas[p] := by
  have area := mcRegMemAreas_area areas ⟨0, fun _ => ⟨0, 0, 0⟩, fun _ => none, none, fun m => mcSec (sections m) (left m), mems⟩ inside
  rw [Nat.zero_add] at area
  exact area

/-- Every area is owned as it should be after each reset, exactly when no reset finds two of its areas together on the global
list, or areas that another controller of its number has taken. -/
theorem areas_owned_iff (ms : List Nat) :
    (∀ done, done <+: ms → ∃ h, Resets (configured sections left mems areas) done h ∧
        Owned (configured sections left mems areas) (nodes areas) done h) ↔
      ∀ done m, done ++ [m] <+: ms → Separate (configured sections left mems areas) (nodes areas) done m := by
  have first := configured_sorted sections left mems areas
  constructor
  · intro owned
    induction ms using List.reverseRecOn with
    | nil =>
      exact fun done m inside => absurd (List.prefix_nil.mp inside) (List.append_ne_nil_of_right_ne_nil done (List.cons_ne_nil m []))
    | append_singleton ms k ih =>
      have before := ih fun done inside => owned done (inside.trans (List.prefix_append _ _))
      intro done m inside
      rcases List.prefix_concat_iff.mp inside with whole | inside
      · obtain ⟨rfl, same⟩ := List.append_inj' whole rfl
        cases same
        obtain ⟨h', run, owned'⟩ := owned _ (List.prefix_refl _)
        obtain ⟨fuel, h, run, ran⟩ := run.last rfl
        by_contra mixed
        exact (run.sorted first before).not_owned mixed ran owned'
      · exact before done m inside
  · intro separate done inside
    have separate' : ∀ pre m, pre ++ [m] <+: done → Separate (configured sections left mems areas) (nodes areas) pre m :=
      fun pre m short => separate pre m (short.trans inside)
    obtain ⟨h, run⟩ := resets_exist first separate'
    exact ⟨h, run, (run.sorted first separate').toOwned⟩

end

/-- Two areas of one controller, registered one after the other. -/
theorem neighbours_not_owned : ∃ sections left mems areas ms,
    ¬ ∀ done, done <+: ms → ∃ h, Resets (configured sections left mems areas) done h ∧
      Owned (configured sections left mems areas) (nodes areas) done h := by
  let areas : List Area := [⟨0, 0, 0⟩, ⟨1, 1, 0⟩]
  let sections : Nat → Section := fun m => ⟨0, m⟩
  let left : Nat → Mc := fun _ => ⟨0, 0, 0, fun _ => 0, fun _ => 0, 0, none⟩
  let mems : Nat → Memarea := fun _ => ⟨0, 0, true, 0, 0⟩
  refine ⟨sections, left, mems, areas, [0], fun owned => ?_⟩
  obtain ⟨h', run, owned'⟩ := owned [0] (List.prefix_refl _)
  obtain ⟨fuel, h, run, ran⟩ := run.last (show [0] = [] ++ [0] from rfl)
  have first := (run.sorted (configured_sorted sections left mems areas) fun pre m inside =>
    absurd (List.prefix_nil.mp inside) (List.append_ne_nil_of_right_ne_nil pre (List.cons_ne_nil m [])))
  refine first.not_owned (fun separate => ?_) ran owned'
  exact (List.isChain_cons_cons.mp separate.1).1 ⟨rfl, rfl⟩

end Or1ksim.MemoryController
