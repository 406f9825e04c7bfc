import Or1ksim.Cpu.Memory
import Or1ksim.Lib.FifoServer
import Or1ksim.Lib.RingBuffer
import Or1ksim.Sched.Due

/-!
# The store buffer serves in order

Stores wait in the buffer until the bus is free for them. What a store or a load has to wait for is the time of a server that completes
the stores one after another. The time is added to `mem_cycles`, which has 32 bits.
-/

namespace Or1ksim.Cpu

open FifoServer (Waits left begins Serves)
open RingBuffer (Valid contents)
open Sched (int32)

/-! ### Accesses -/

/-- A store, with the cycles that it takes, or a load: when it starts, and what its instruction was charged before. -/
structure Access where
  start : Int
  memCycles : Nat
  cyc : Option Nat
  memCycles_lt : memCycles < 2 ^ 31
  cyc_lt : ∀ n ∈ cyc, n < 2 ^ 31

def Sbuf.access (sbufLen : Nat) (a : Access) (b : Sbuf) : Sbuf × Int :=
  match a.cyc with
  | none => b.load a.start
  | some cyc => b.store sbufLen a.start cyc

theorem access_load {sbufLen : Nat} {a : Access} {b : Sbuf} (load : a.cyc = none) : b.access sbufLen a = b.load a.start := by
  unfold Sbuf.access
  rw [load]

theorem access_store {sbufLen : Nat} {a : Access} {b : Sbuf} {cyc : Nat} (store : a.cyc = some cyc) :
    b.access sbufLen a = b.store sbufLen a.start cyc := by
  unfold Sbuf.access
  rw [store]

/-- What is added to `mem_cycles`, an `int`. -/
def Access.charged (sbufLen : Nat) (a : Access) (b : Sbuf) : Int := int32 (a.memCycles + (b.access sbufLen a).2) - a.memCycles

/-- A load waits for all stores, a store until there is room in the buffer. -/
def Access.limit (sbufLen : Nat) (a : Access) : Nat := if a.cyc.isSome then sbufLen else 1

/-- What the server has to do after the access. -/
def Access.serve (a : Access) (wait : Int) (done : List Int) : List Int :=
  match a.cyc with
  | none => done
  | some cyc => done ++ [begins done (a.start + wait) + cyc]

/-- An access follows another, by its start and charge. -/
def Access.Follows (a : Access) : Option (Int × Int) → Prop
  | none => True
  | some (start, charged) => start + charged ≤ a.start ∧ a.start - start < 2 ^ 31

/-- The runs in which no charge is too large: the buffer, the times at which the server completes its stores, and the last access. -/
inductive Buffered (sbufLen : Nat) : Sbuf → List Int → Option (Int × Int) → Prop where
  | reset (buf : Nat → Int) (prevCycles : Int) : Buffered sbufLen ⟨0, 0, 0, buf, prevCycles⟩ [] none
  | access {b : Sbuf} {done : List Int} {last : Option (Int × Int)} (before : Buffered sbufLen b done last) (a : Access)
  (follows : a.Follows last)
      {wait : Int} (waits : Waits (fun t => left done t < a.limit sbufLen) a.start wait) (fits : a.memCycles + wait < 2 ^ 31) :
      Buffered sbufLen (b.access sbufLen a).1 (a.serve wait done) (some (a.start, a.charged sbufLen b))

/-! ### The ring -/

namespace Sbuf

def items (b : Sbuf) : List Int := contents b.buf maxSbufLen b.tail b.count

structure Ring (sbufLen : Nat) (b : Sbuf) : Prop where
  valid : Valid maxSbufLen b.head b.tail b.count
  count_le : b.count ≤ sbufLen

/-- The buffer has the jobs of a server, counted from its reference. -/
structure Models (b : Sbuf) (done : List Int) (now : Int) : Prop where
  valid : Valid maxSbufLen b.head b.tail b.count
  reference : b.prevCycles = int32 now
  serves : Serves done now b.items

variable {b : Sbuf} {done : List Int} {now : Int}

theorem length_items (b : Sbuf) : b.items.length = b.count := RingBuffer.length_contents

/-- The buffer without its oldest store. -/
def pop (b : Sbuf) : Sbuf := { b with tail := (b.tail + 1) % maxSbufLen, count := b.count - 1 }

theorem items_pop (valid : Valid maxSbufLen b.head b.tail b.count) (some : b.count ≠ 0) : b.items = b.buf b.tail :: b.pop.items := by
  obtain ⟨n, count⟩ := Nat.exists_eq_succ_of_ne_zero some
  unfold items pop
  rw [count]
  exact RingBuffer.contents_pop valid.tail_lt n

theorem items_nil (count : b.count = 0) : b.items = [] := by
  unfold items
  rw [count]
  rfl

theorem pop_valid (valid : Valid maxSbufLen b.head b.tail b.count) (some : b.count ≠ 0) :
    Valid maxSbufLen b.pop.head b.pop.tail b.pop.count := by
  obtain ⟨n, count⟩ := Nat.exists_eq_succ_of_ne_zero some
  unfold pop
  rw [count] at valid ⊢
  exact valid.pop

/-- The oldest store has been worked on. -/
def spend (delta : Int) (b : Sbuf) : Sbuf := { b with buf := fun k => if k = b.tail then b.buf k - delta else b.buf k }

theorem items_spend (valid : Valid maxSbufLen b.head b.tail b.count) (some : b.count ≠ 0) (delta : Int) :
    (b.spend delta).items = (b.buf b.tail - delta) :: b.pop.items := by
  obtain ⟨n, count⟩ := Nat.exists_eq_succ_of_ne_zero some
  have written : (b.spend delta).buf = Function.update b.buf b.tail (b.buf b.tail - delta) := funext fun k => by
    rw [Function.update_apply]
    show (if k = b.tail then b.buf k - delta else b.buf k) = _
    by_cases here : k = b.tail
    · rw [if_pos here, if_pos here, here]
    · rw [if_neg here, if_neg here]
  unfold items pop
  rw [written]
  show contents _ _ b.tail b.count = _
  have within := valid.full_le
  rw [count] at within ⊢
  exact RingBuffer.contents_update_tail valid.tail_lt within _

/-- What is left of a time when the stores that are done in it are taken out. -/
structure Drained (b : Sbuf) (done : List Int) (t : Int) (r : Sbuf × Int) : Prop where
  valid : Valid maxSbufLen r.1.head r.1.tail r.1.count
  count_le : r.1.count ≤ b.count
  reference : r.1.prevCycles = b.prevCycles
  nonneg : 0 ≤ r.2
  serves : Serves done (t - r.2) r.1.items
  short : r.1.count ≠ 0 → r.2 < r.1.buf r.1.tail

theorem drain_drained {n : Nat} {delta : Int} (count : b.count = n) (valid : Valid maxSbufLen b.head b.tail b.count) (nonneg : 0 ≤ delta)
    (serves : Serves done now b.items) : Drained b done (now + delta) (drain n delta b) := by
  induction n generalizing b now delta with
  | zero => exact ⟨valid, le_refl _, rfl, nonneg, by rw [drain, add_sub_cancel_right]; exact serves, fun some => absurd count some⟩
  | succ n ih =>
    have some : b.count ≠ 0 := by
      rw [count]
      exact Nat.succ_ne_zero n
    rw [drain]
    by_cases whole : b.buf b.tail ≤ delta
    · rw [if_pos ⟨some, whole⟩]
      rw [items_pop valid some] at serves
      have rest := ih (show b.pop.count = n by show b.count - 1 = n; omega) (pop_valid valid some)
        (show 0 ≤ delta - b.buf b.tail by omega) serves.next
      rw [show now + b.buf b.tail + (delta - b.buf b.tail) = now + delta by omega] at rest
      exact ⟨rest.valid, rest.count_le.trans (Nat.sub_le _ _), rest.reference, rest.nonneg, rest.serves, rest.short⟩
    · rw [if_neg fun both => whole both.2]
      exact ⟨valid, le_refl _, rfl, nonneg, by rw [add_sub_cancel_right]; exact serves, fun _ => not_le.mp whole⟩

theorem settle {r : Sbuf × Int} {t : Int} (drained : Drained b done t r) (reference : b.prevCycles = int32 t) :
    Models (if r.1.count ≠ 0 then r.1.spend r.2 else r.1) done t := by
  obtain ⟨b', delta⟩ := r
  obtain ⟨valid, -, same, nonneg, serves, short⟩ := drained
  have reference' : b'.prevCycles = int32 t := same.trans reference
  by_cases some : b'.count ≠ 0
  · have short := short some
    rw [if_pos some]
    rw [items_pop valid some] at serves
    have spent := serves.spend (t := t) (by omega) (by omega)
    rw [show t - (t - delta) = delta by omega, ← items_spend valid some] at spent
    exact ⟨valid, reference', spent⟩
  · rw [if_neg some]
    have empty := items_nil (not_not.mp some)
    rw [empty] at serves
    exact ⟨valid, reference', empty ▸ serves.idle (by omega)⟩

theorem settle_count_le {r : Sbuf × Int} {n : Nat} (less : r.1.count ≤ n) :
    (if r.1.count ≠ 0 then r.1.spend r.2 else r.1).count ≤ n := by
  split <;> exact less

theorem drain_count_le (n : Nat) (delta : Int) (b : Sbuf) : (drain n delta b).1.count ≤ b.count := by
  induction n generalizing delta b with
  | zero => exact le_refl _
  | succ n ih =>
    rw [drain]
    split
    · exact (ih _ _).trans (Nat.sub_le _ _)
    · exact le_refl _

theorem elapse_count_le (t : Int) (b : Sbuf) : (b.elapse t).count ≤ b.count := settle_count_le (drain_count_le _ _ _)

/-- Since the reference, less than `2 ^ 31` cycles have passed, so that they are not lost in an `int`. -/
theorem elapse_models {t : Int} (models : Models b done now) (later : now ≤ t) (near : t - now < 2 ^ 31) :
    Models (b.elapse t) done t := by
  have delta : int32 (t - b.prevCycles) = t - now := by
    have same : int32 (t - int32 now) = int32 (t - now) := Int.sub_bmod_bmod
    rw [models.reference, same]
    exact Sched.int32_of_range (by unfold Sched.int32Min; omega) (by unfold Sched.int32Max; omega)
  have drained := drain_drained (b := { b with prevCycles := int32 t }) rfl models.valid (sub_nonneg.mpr later) models.serves
  rw [add_sub_cancel] at drained
  have settled := settle drained rfl
  unfold elapse
  rw [delta]
  exact settled

theorem elapse_empty {t : Int} (valid : Valid maxSbufLen b.head b.tail b.count) (count : b.count = 0) : Models (b.elapse t) [] t := by
  have same : b.elapse t = { b with prevCycles := int32 t } := by
    obtain ⟨head, tail, full, buf, prevCycles⟩ := b
    subst count
    rfl
  rw [same]
  refine ⟨valid, rfl, ?_⟩
  have empty : ({ b with prevCycles := int32 t } : Sbuf).items = [] := items_nil count
  rw [empty]
  exact .start t

/-- A wait for the oldest store. -/
theorem takeOut_models {t : Int} (models : Models b done t) (some : b.count ≠ 0) :
    Models b.takeOut.1 done (t + b.takeOut.2) ∧ b.takeOut.1.count + 1 = b.count ∧ b.items = b.takeOut.2 :: b.takeOut.1.items := by
  have items : b.items = b.takeOut.2 :: b.takeOut.1.items := items_pop models.valid some
  have serves := models.serves
  rw [items] at serves
  have reference : b.takeOut.1.prevCycles = int32 (t + b.takeOut.2) := by
    show int32 (b.prevCycles + b.buf b.tail) = int32 (t + b.buf b.tail)
    rw [models.reference, Sched.int32_add]
  exact ⟨⟨pop_valid models.valid some, reference, serves.next⟩, Nat.sub_one_add_one some, items⟩

theorem flush_models {n : Nat} {t wait : Int} (models : Models b done t) (count : b.count = n) :
    Models (flush n b wait).1 done (t + b.items.sum) ∧ (flush n b wait).1.count = 0 ∧ (flush n b wait).2 = wait + b.items.sum := by
  induction n generalizing b t wait with
  | zero =>
    rw [flush, items_nil count, List.sum_nil, add_zero, add_zero]
    exact ⟨models, count, rfl⟩
  | succ n ih =>
    obtain ⟨next, less, items⟩ := takeOut_models models (by rw [count]; exact Nat.succ_ne_zero n)
    obtain ⟨after, empty, waited⟩ := @ih _ _ (wait + b.takeOut.2) next (Nat.succ.inj (less.trans count))
    rw [flush, items, List.sum_cons, ← add_assoc, ← add_assoc]
    exact ⟨after, empty, waited⟩

/-- The newest store is put behind the others. -/
def put (cyc : Int) (b : Sbuf) : Sbuf :=
  { b with buf := fun k => if k = b.head then cyc else b.buf k, head := (b.head + 1) % maxSbufLen, count := b.count + 1 }

theorem put_models {t : Int} (models : Models b done t) (room : b.count < maxSbufLen) (cyc : Nat) :
    Models (b.put cyc) (done ++ [begins done t + cyc]) t := by
  refine ⟨models.valid.push room, models.reference, ?_⟩
  have written : (b.put cyc).buf = Function.update b.buf b.head (cyc : Int) :=
    funext fun k => (Function.update_apply b.buf b.head (cyc : Int) k).symm
  have items : (b.put cyc).items = b.items ++ [(cyc : Int)] := by
    unfold items
    rw [written]
    exact RingBuffer.contents_push models.valid room (cyc : Int)
  rw [items]
  exact models.serves.take (Int.natCast_nonneg cyc)

/-- A store waits for room. -/
def room (sbufLen : Nat) (b : Sbuf) : Sbuf × Int := if sbufLen ≤ b.count then b.takeOut else (b, 0)

theorem room_models {sbufLen : Nat} {t : Int} (positive : 0 < sbufLen) (models : Models b done t) (count_le : b.count ≤ sbufLen) :
    Waits (fun t => left done t < sbufLen) t (b.room sbufLen).2 ∧ Models (b.room sbufLen).1 done (t + (b.room sbufLen).2) ∧
      (b.room sbufLen).1.count < sbufLen := by
  unfold room
  by_cases full : sbufLen ≤ b.count
  · rw [if_pos full]
    obtain ⟨next, less, items⟩ := takeOut_models models (by omega)
    have serves := models.serves
    have length := b.length_items
    rw [items] at serves length
    have waits := serves.waits_next
    rw [show b.takeOut.1.items.length + 1 = sbufLen by rw [List.length_cons] at length; omega] at waits
    exact ⟨waits, next, by omega⟩
  · rw [if_neg full, add_zero]
    have few : left done t < sbufLen := lt_of_le_of_lt models.serves.left_le (b.length_items ▸ not_le.mp full)
    exact ⟨.now few, models, not_le.mp full⟩

end Sbuf

/-- An access waits for the server, and hands its store over to it. -/
theorem access_models {sbufLen : Nat} {b : Sbuf} {done : List Int} {a : Access} (positive : 0 < sbufLen) (bound : sbufLen < maxSbufLen)
    (count_le : b.count ≤ sbufLen) (models : (b.elapse a.start).Models done a.start) :
    Waits (fun t => left done t < a.limit sbufLen) a.start (b.access sbufLen a).2 ∧
      (b.access sbufLen a).1.Models (a.serve (b.access sbufLen a).2 done) (a.start + (b.access sbufLen a).2) ∧
        (b.access sbufLen a).1.count ≤ sbufLen := by
  have count_le := (Sbuf.elapse_count_le a.start b).trans count_le
  obtain ⟨start, memCycles, cyc, _, _⟩ := a
  cases cyc with
  | none =>
    show Waits (fun t => left done t < 1) start (b.load start).2 ∧ (b.load start).1.Models done (start + (b.load start).2) ∧
      (b.load start).1.count ≤ sbufLen
    obtain ⟨after, empty, waited⟩ := @Sbuf.flush_models _ _ _ _ 0 models rfl
    rw [zero_add] at waited
    have loaded : b.load start = Sbuf.flush (b.elapse start).count (b.elapse start) 0 := rfl
    rw [loaded, waited, empty]
    exact ⟨models.serves.waits_flush, after, Nat.zero_le _⟩
  | some cyc =>
    obtain ⟨waits, waited, less⟩ := Sbuf.room_models positive models count_le
    have stored : b.store sbufLen start cyc = (((b.elapse start).room sbufLen).1.put cyc, ((b.elapse start).room sbufLen).2) := rfl
    show Waits (fun t => left done t < sbufLen) start (b.store sbufLen start cyc).2 ∧
      (b.store sbufLen start cyc).1.Models (done ++ [_]) _ ∧
      (b.store sbufLen start cyc).1.count ≤ sbufLen
    rw [stored]
    exact ⟨waits, Sbuf.put_models waited (less.trans bound) cyc, less⟩

theorem charged_iff {sbufLen : Nat} {a : Access} {b : Sbuf} (nonneg : 0 ≤ (b.access sbufLen a).2) :
    a.charged sbufLen b = (b.access sbufLen a).2 ↔ a.memCycles + (b.access sbufLen a).2 < 2 ^ 31 := by
  unfold Access.charged
  constructor
  · intro same
    have high := (Sched.int32_range (a.memCycles + (b.access sbufLen a).2)).2
    unfold Sched.int32Max at high
    omega
  · intro fits
    rw [Sched.int32_of_range (by unfold Sched.int32Min; omega) (by unfold Sched.int32Max; omega)]
    omega

/-- A run stays with the server. -/
theorem Buffered.models {sbufLen : Nat} (positive : 0 < sbufLen) (bound : sbufLen < maxSbufLen) {b : Sbuf} {done : List Int}
    {last : Option (Int × Int)} (run : Buffered sbufLen b done last) (a : Access) (follows : a.Follows last) :
      b.count ≤ sbufLen ∧ (b.elapse a.start).Models done a.start := by
  induction run generalizing a with
  | reset buf prevCycles => exact ⟨Nat.zero_le _, Sbuf.elapse_empty (.empty (by decide)) rfl⟩
  | @access b done last before first earlier wait waits fits ih =>
    obtain ⟨count_le, models⟩ := ih first earlier
    obtain ⟨waited, after, count_le⟩ := access_models positive bound count_le models
    obtain rfl := waits.unique waited
    refine ⟨count_le, ?_⟩
    obtain ⟨later, near⟩ := follows
    rw [(charged_iff waits.nonneg).mpr fits] at later
    exact Sbuf.elapse_models after later (by have := waits.nonneg; omega)

/-- In each access the buffer is a ring of at most `sbufLen` stores, and what is charged is the wait of the server exactly when it
fits. -/
theorem sbuf_serves {sbufLen : Nat} (positive : 0 < sbufLen) (bound : sbufLen < maxSbufLen) {b : Sbuf} {done : List Int}
    {last : Option (Int × Int)} (run : Buffered sbufLen b done last) (a : Access) (follows : a.Follows last) :
    ∃ wait, Waits (fun t => left done t < a.limit sbufLen) a.start wait ∧ (b.access sbufLen a).1.Ring sbufLen ∧
      (a.charged sbufLen b = wait ↔ a.memCycles + wait < 2 ^ 31) := by
  obtain ⟨count_le, models⟩ := run.models positive bound a follows
  obtain ⟨waits, after, count_le⟩ := access_models positive bound count_le models
  exact ⟨_, waits, ⟨after.valid, count_le⟩, charged_iff waits.nonneg⟩

/-! ### The instructions -/

section
variable {δ : Type} {c : Config δ} {opd : Operands δ} {m : Machine δ} {a : Access}

theorem sbufLoad_access (load : a.cyc = none) (start : a.start = m.cycles) (memCycles : m.memCycles = a.memCycles) :
    Op.sem c opd .sbufLoad m = .ok ((), { m with
      sbuf := (m.sbuf.access c.sbufLen a).1, memCycles := a.memCycles + (m.sbuf.access c.sbufLen a).2 }) := by
  rw [access_load load, start, ← memCycles]
  rfl

theorem sbufEnd_access {cyc : Nat} (store : a.cyc = some cyc) (start : a.start = m.cycles) (oldCyc : m.oldCyc = a.memCycles)
    (took : m.memCycles - m.oldCyc = cyc) :
    Op.sem c opd .sbufEnd m = .ok ((), { m with
      sbuf := (m.sbuf.access c.sbufLen a).1, memCycles := a.memCycles + (m.sbuf.access c.sbufLen a).2 }) := by
  rw [access_store store, start, ← oldCyc, ← took]
  rfl

end

/-! ### Stores of many cycles -/

def emptySbuf : Sbuf := ⟨0, 0, 0, fun _ => 0, 0⟩

def storeAt (start : Int) (cyc : Nat) (lt : cyc < 2 ^ 31) : Access :=
  ⟨start, 0, some cyc, by decide, fun n some => Option.some.inj some ▸ lt⟩

def loadAt (start : Int) : Access := ⟨start, 0, none, by decide, fun _ some => nomatch some⟩

/-- A store at once, with nothing to wait for. -/
theorem Buffered.first {sbufLen : Nat} (positive : 0 < sbufLen) (a : Access) :
    Buffered sbufLen (emptySbuf.access sbufLen a).1 (a.serve 0 [])
    (some (a.start, a.charged sbufLen emptySbuf)) := by
  have none : left [] a.start < a.limit sbufLen := by
    unfold Access.limit
    split
    · exact positive
    · exact Nat.one_pos
  refine (Buffered.reset (fun _ => 0) 0).access a trivial (.now none) ?_
  have := a.memCycles_lt
  omega

/-- A buffer for one store: the second one, three cycles later, waits for seven. -/
theorem sbuf_serves_full : ∃ b done last, Buffered 1 b done last ∧ (storeAt 3 10 (by decide)).Follows last ∧
    (storeAt 3 10 (by decide)).charged 1 b = 7 ∧ (b.access 1 (storeAt 3 10 (by decide))).1.Ring 1 := by
  have follows : (storeAt 3 10 (by decide)).Follows (some (0, (storeAt 0 10 (by decide)).charged 1 emptySbuf)) := by
    unfold Access.Follows
    decide +kernel
  obtain ⟨wait, _, ring, _⟩ :=
    sbuf_serves (by decide) (by decide) (Buffered.first (show 0 < 1 by decide) (storeAt 0 10 (by decide))) _ follows
  exact ⟨_, _, _, Buffered.first (by decide) _, follows, by decide +kernel, ring⟩

/-- A store of many cycles. -/
def longStore (start : Int) : Access := storeAt start (2 ^ 30) (by decide)

def twoStores : Sbuf := ((emptySbuf.access 4 (longStore 0)).1.access 4 (longStore 1)).1

def threeStores : Sbuf := (twoStores.access 4 (longStore 2)).1

/-- Three of them are in a buffer for four when a load comes. -/
theorem long_wait_lost : ¬ ∀ (sbufLen : Nat) (b : Sbuf) (done : List Int) (last : Option (Int × Int)) (a : Access) (wait : Int),
    0 < sbufLen →
    sbufLen < maxSbufLen → Buffered sbufLen b done last → a.Follows last → Waits (fun t => left done t < a.limit sbufLen) a.start wait →
      a.charged sbufLen b = wait := by
  intro claim
  have run₁ : Buffered 4 _ _ _ := .first (by decide) (longStore 0)
  have run₂ := run₁.access (longStore 1) (by unfold Access.Follows; decide +kernel) (.now (by decide +kernel)) (by decide)
  have run₃ := run₂.access (longStore 2) (by unfold Access.Follows; decide +kernel) (.now (by decide +kernel)) (by decide)
  have follows : (loadAt 3).Follows (some ((longStore 2).start, (longStore 2).charged 4 twoStores)) := by
    unfold Access.Follows
    decide +kernel
  obtain ⟨count_le, models⟩ := run₃.models (by decide) (by decide) (loadAt 3) follows
  have waits := (access_models (by decide) (by decide) count_le models).1
  have charged : (loadAt 3).charged 4 threeStores = (threeStores.access 4 (loadAt 3)).2 :=
    claim 4 _ _ _ _ _ (by decide) (by decide) run₃ follows waits
  revert charged
  decide +kernel

end Or1ksim.Cpu
