import Or1ksim.Profiler.Acquire

/-!
# Profiled cycles are conserved

A frame of the stack is at the start of its call, later by the durations of the calls that have returned to it or to a call inside it.
So a call that ends is charged its own time, and all of the time of the outermost calls is charged.
-/

namespace Or1ksim.Profiler

open Nesting

/-! ### The table of functions -/

/-- The table has an entry for each function that was charged, with what was charged to it. -/
structure Tally (charged : List (Word × Int)) (table : List FuncStruct) : Prop where
  once : (table.map FuncStruct.addr).Nodup
  entered : ∀ addr, addr ∈ table.map FuncStruct.addr ↔ addr ∈ charged.map Prod.fst
  cum : ∀ f ∈ table, f.cumCycles = ((charged.filter fun e => e.1 = f.addr).map Prod.snd).sum
  calls : ∀ f ∈ table, f.calls = charged.countP fun e => e.1 = f.addr
  total : (table.map FuncStruct.cumCycles).sum = (charged.map Prod.snd).sum

theorem Tally.empty : Tally [] [] where
  once := List.nodup_nil
  entered _ := Iff.rfl
  cum _ inside := nomatch inside
  calls _ inside := nomatch inside
  total := rfl

/-- What an entry becomes. -/
def FuncStruct.charge (addr : Word) (time : Int) (f : FuncStruct) : FuncStruct :=
  if addr = f.addr then { f with cumCycles := f.cumCycles + time, calls := f.calls + 1 } else f

theorem charge_others {addr : Word} (time : Int) {table : List FuncStruct} (fresh : addr ∉ table.map FuncStruct.addr) :
    table.map (.charge addr time) = table := by
  refine (List.map_congr_left fun f inside => ?_).trans (List.map_id table)
  have other : addr ≠ f.addr := fun same => fresh (List.mem_map.mpr ⟨f, inside, same.symm⟩)
  exact if_neg other

theorem charge_known {addr : Word} {name : String} {time : Int} {room : Nat} {table : List FuncStruct}
    (once : (table.map FuncStruct.addr).Nodup)
    (known : addr ∈ table.map FuncStruct.addr) : charge addr name time room table = some (table.map (.charge addr time)) := by
  induction table generalizing room with
  | nil => cases known
  | cons f rest ih =>
    obtain ⟨fresh, once⟩ := List.nodup_cons.mp once
    rw [charge, List.map_cons, FuncStruct.charge]
    by_cases here : addr = f.addr
    · rw [if_pos here, if_pos here, charge_others time (here ▸ fresh)]
    · rw [if_neg here, if_neg here, ih once ((List.mem_cons.mp known).resolve_left here)]
      rfl

theorem charge_new {addr : Word} {name : String} {time : Int} {room : Nat} {table : List FuncStruct}
    (fresh : addr ∉ table.map FuncStruct.addr)
    (fits : table.length < room) : charge addr name time room table = some (table ++ [⟨addr, name, time, 1⟩]) := by
  induction table generalizing room with
  | nil => exact if_neg (Nat.ne_of_gt fits)
  | cons f rest ih =>
    obtain ⟨other, fresh⟩ := not_or.mp fun either => fresh (List.mem_cons.mpr either)
    have fits : rest.length < room - 1 := Nat.lt_sub_of_add_lt fits
    rw [charge, if_neg other, ih fresh fits]
    rfl

section
variable {charged : List (Word × Int)} {table : List FuncStruct}

theorem charged_snoc (e : Word × Int) (addr : Word) : (((charged ++ [e]).filter fun e => e.1 = addr).map Prod.snd).sum =
    ((charged.filter fun e => e.1 = addr).map Prod.snd).sum + if e.1 = addr then e.2 else 0 := by
  rw [List.filter_append, List.map_append, List.sum_append]
  by_cases here : e.1 = addr <;> simp [here]

theorem count_snoc (e : Word × Int) (addr : Word) : ((charged ++ [e]).countP fun e => e.1 = addr) =
    (charged.countP fun e => e.1 = addr) + if e.1 = addr then 1 else 0 := by
  rw [List.countP_append]
  by_cases here : e.1 = addr <;> simp [here]

theorem charge_addr (addr : Word) (time : Int) (f : FuncStruct) : (f.charge addr time).addr = f.addr := by
  unfold FuncStruct.charge
  split <;> rfl

theorem map_charge_addr (addr : Word) (time : Int) (table : List FuncStruct) :
    (table.map (.charge addr time)).map FuncStruct.addr = table.map FuncStruct.addr := by
  rw [List.map_map]
  exact List.map_congr_left fun f _ => charge_addr addr time f

theorem sum_charge {addr : Word} (time : Int) (once : (table.map FuncStruct.addr).Nodup) (known : addr ∈ table.map FuncStruct.addr) :
    ((table.map (.charge addr time)).map FuncStruct.cumCycles).sum = (table.map FuncStruct.cumCycles).sum + time := by
  induction table with
  | nil => cases known
  | cons f rest ih =>
    obtain ⟨fresh, once⟩ := List.nodup_cons.mp once
    rw [List.map_cons, List.map_cons, List.map_cons, List.sum_cons, List.sum_cons]
    by_cases here : addr = f.addr
    · rw [charge_others time (here ▸ fresh), FuncStruct.charge, if_pos here]
      exact add_right_comm _ _ _
    · rw [ih once ((List.mem_cons.mp known).resolve_left here), FuncStruct.charge, if_neg here, add_assoc]

theorem entered_snoc (e : Word × Int) (addr : Word) : addr ∈ (charged ++ [e]).map Prod.fst ↔ addr ∈ charged.map Prod.fst ∨
    addr = e.1 := by
  rw [List.map_append, List.mem_append, List.map_singleton, List.mem_singleton]

theorem sum_snoc (e : Word × Int) : ((charged ++ [e]).map Prod.snd).sum = (charged.map Prod.snd).sum + e.2 := by
  rw [List.map_append, List.sum_append, List.map_singleton, List.sum_singleton]

theorem Tally.known (tally : Tally charged table) {addr : Word} (time : Int) (known : addr ∈ table.map FuncStruct.addr) :
    Tally (charged ++ [(addr, time)]) (table.map (.charge addr time)) where
  once := by
    rw [map_charge_addr]
    exact tally.once
  entered a := by
    rw [map_charge_addr, entered_snoc, tally.entered]
    refine ⟨.inl, fun either => either.elim id fun same => ?_⟩
    exact same ▸ (tally.entered addr).mp known
  cum f inside := by
    obtain ⟨g, entry, rfl⟩ := List.mem_map.mp inside
    rw [charge_addr, charged_snoc, ← tally.cum g entry, FuncStruct.charge]
    by_cases here : addr = g.addr
    · rw [if_pos here, if_pos here]
    · rw [if_neg here, if_neg here, add_zero]
  calls f inside := by
    obtain ⟨g, entry, rfl⟩ := List.mem_map.mp inside
    rw [charge_addr, count_snoc, Nat.cast_add, ← tally.calls g entry, FuncStruct.charge]
    by_cases here : addr = g.addr
    · rw [if_pos here, if_pos here, Nat.cast_one]
    · rw [if_neg here, if_neg here, Nat.cast_zero, add_zero]
  total := by rw [sum_charge time tally.once known, tally.total, sum_snoc]

theorem Tally.new (tally : Tally charged table) {addr : Word} (name : String) (time : Int) (fresh : addr ∉ table.map FuncStruct.addr) :
    Tally (charged ++ [(addr, time)]) (table ++ [⟨addr, name, time, 1⟩]) := by
  have unseen : ∀ e ∈ charged, ¬e.1 = addr := fun e inside same =>
    fresh ((tally.entered addr).mpr (List.mem_map.mpr ⟨e, inside, same⟩))
  have none : (charged.filter fun e => e.1 = addr) = [] := List.filter_eq_nil_iff.mpr fun e inside => by
    rw [decide_eq_true_eq]
    exact unseen e inside
  constructor
  case once =>
    rw [List.map_append, List.nodup_append]
    refine ⟨tally.once, List.nodup_singleton _, fun a inside b here => ?_⟩
    obtain rfl := List.mem_singleton.mp here
    exact fun same => fresh (same ▸ inside)
  case entered =>
    intro a
    rw [List.map_append, List.mem_append, tally.entered, entered_snoc]
    exact or_congr_right List.mem_singleton
  case cum =>
    intro f inside
    rw [charged_snoc]
    obtain inside | here := List.mem_append.mp inside
    · have other : ¬addr = f.addr := fun same => fresh (List.mem_map.mpr ⟨f, inside, same.symm⟩)
      rw [if_neg other, add_zero]
      exact tally.cum f inside
    · obtain rfl := List.mem_singleton.mp here
      rw [if_pos rfl, none]
      exact (zero_add time).symm
  case calls =>
    intro f inside
    rw [count_snoc]
    obtain inside | here := List.mem_append.mp inside
    · have other : ¬addr = f.addr := fun same => fresh (List.mem_map.mpr ⟨f, inside, same.symm⟩)
      rw [if_neg other, Nat.add_zero]
      exact tally.calls f inside
    · obtain rfl := List.mem_singleton.mp here
      rw [if_pos rfl, List.countP_eq_length_filter, none]
      rfl
  case total => rw [List.map_append, List.sum_append, tally.total, sum_snoc, List.map_singleton, List.sum_singleton]

/-- A function is charged when all that are charged fit into the table. -/
theorem Tally.charge (tally : Tally charged table) (addr : Word) (name : String) (time : Int) {functions : List Word}
    (fits : functions.length ≤ maxFuncs) (inside : ∀ a ∈ (charged ++ [(addr, time)]).map Prod.fst, a ∈ functions) :
    ∃ table', charge addr name time maxFuncs table = some table' ∧ Tally (charged ++ [(addr, time)]) table' := by
  by_cases known : addr ∈ table.map FuncStruct.addr
  · exact ⟨_, charge_known tally.once known, tally.known time known⟩
  · have subset : addr :: table.map FuncStruct.addr ⊆ functions := by
      intro a here
      refine inside a ((entered_snoc _ a).mpr ?_)
      obtain rfl | there := List.mem_cons.mp here
      · exact .inr rfl
      · exact .inl ((tally.entered a).mp there)
    have bound : table.length < maxFuncs := by
      have room := (List.subperm_of_subset (List.nodup_cons.mpr ⟨known, tally.once⟩) subset).length_le
      rw [List.length_cons, List.length_map] at room
      exact Nat.lt_of_succ_le (room.trans fits)
    exact ⟨_, charge_new known bound, tally.new name time known⟩

end

/-! ### The stack -/

/-- Frames against open calls: each is later than its start by the durations of the calls that were made there or further inside. -/
def Agree : Nat → List (OpenCall Word Word) → List StackStruct → Prop
  | _, [], [] => True
  | inner, c :: cs, f :: fs =>
    f.addr = c.function ∧ f.raddr = c.returnsTo ∧ f.cycles.toNat = c.start + (inner + total c.callees) ∧
      Agree (inner + total c.callees) cs fs
  | _, _, _ => False

theorem Agree.raddrs {inner : Nat} {cs : List (OpenCall Word Word)} {fs : List StackStruct} (agree : Agree inner cs fs) :
    fs.map StackStruct.raddr = cs.map OpenCall.returnsTo := by
  induction cs generalizing inner fs with
  | nil =>
    cases fs with
    | nil => rfl
    | cons => cases agree
  | cons c cs ih =>
    cases fs with
    | nil => cases agree
    | cons f fs =>
      obtain ⟨-, same, -, rest⟩ := agree
      rw [List.map_cons, List.map_cons, same, ih rest]

theorem toNat_add {time : Nat} {f : StackStruct} (small : f.cycles.toNat + time < 2 ^ 32) :
    (f.add time).cycles.toNat = f.cycles.toNat + time := by
  have later : (f.add time).cycles = f.cycles + BitVec.ofNat 32 time := congrArg (f.cycles + ·) (BitVec.ofInt_natCast 32 time)
  rw [later, BitVec.toNat_add, BitVec.toNat_ofNat, Nat.add_mod_mod, Nat.mod_eq_of_lt small]

/-- Adding a time to all frames. -/
theorem Agree.add {inner time bound : Nat} {cs : List (OpenCall Word Word)} {fs : List StackStruct} (agree : Agree inner cs fs)
    (fits : Fits bound cs) (small : bound + inner + time < 2 ^ 32) : Agree (inner + time) cs (fs.map (.add time)) := by
  induction cs generalizing inner bound fs with
  | nil =>
    cases fs with
    | nil => trivial
    | cons => cases agree
  | cons c cs ih =>
    cases fs with
    | nil => cases agree
    | cons f fs =>
      obtain ⟨addr, raddr, cycles, rest⟩ := agree
      obtain ⟨before, fits⟩ := fits
      have moved : (f.add time).cycles.toNat = c.start + (inner + time + total c.callees) := by
        rw [toNat_add (by omega), cycles]
        omega
      have others := ih rest fits (by omega)
      rw [add_right_comm] at others
      exact ⟨addr, raddr, moved, others⟩

/-- A call that has returned counts for the call that it returns to. -/
theorem Agree.record {call : Call Word} {cs : List (OpenCall Word Word)} {fs : List StackStruct} (agree : Agree call.duration cs fs) :
    Agree 0 (Calls.record call cs) fs := by
  cases cs with
  | nil =>
    cases fs with
    | nil => trivial
    | cons => cases agree
  | cons c cs =>
    cases fs with
    | nil => cases agree
    | cons f fs =>
      obtain ⟨addr, raddr, cycles, rest⟩ := agree
      have whole : 0 + total (c.callees ++ [call]) = call.duration + total c.callees := by
        rw [total_snoc, Nat.zero_add, Nat.add_comm]
      refine ⟨addr, raddr, ?_, ?_⟩
      · show f.cycles.toNat = c.start + (0 + total (c.callees ++ [call]))
        rw [whole]
        exact cycles
      · show Agree (0 + total (c.callees ++ [call])) cs fs
        rw [whole]
        exact rest

/-! ### A call ends -/

/-- The profile follows the calls: nothing was charged but own times, and none of them was negative. -/
structure Tracks (s : Calls Word Word) (p : Profile) : Prop where
  stack : Agree 0 s.opened p.stack
  charged : p.charged = s.closed.map fun c => (c.1.function, own c)
  nonneg : ∀ c ∈ s.closed, 0 ≤ own c
  tally : Tally p.charged p.profFunc
  warned : ∀ w ∈ p.warnings, ∀ name raddr, w ≠ .negativeTime name raddr

theorem Tracks.start {left : Statics} (stack : left.stack = []) (table : left.profFunc = []) : Tracks .none left.profile where
  stack := by
    show Agree 0 [] left.stack
    rw [stack]
    trivial
  charged := rfl
  nonneg _ inside := nomatch inside
  tally := by
    show Tally [] left.profFunc
    rw [table]
    exact Tally.empty
  warned _ inside := nomatch inside

section
variable {o : Options} {functions : List Word} {s : Calls Word Word} {p : Profile} {t : Nat}

/-- All functions that were called fit into the table. -/
structure Roomy (functions : List Word) (s : Calls Word Word) : Prop where
  fits : functions.length ≤ maxFuncs
  inside : ∀ c ∈ s.closed, c.1.function ∈ functions

theorem close_cons {c : OpenCall Word Word} {cs : List (OpenCall Word Word)} (opened : s.opened = c :: cs) :
    (s.close t).opened = Calls.record ⟨c.function, c.start, t⟩ cs ∧
    (s.close t).closed = s.closed ++ [(⟨c.function, c.start, t⟩, c.callees)] := by
  unfold Calls.close
  rw [opened]
  exact ⟨rfl, rfl⟩

/-- There is a frame for each open call. -/
theorem Tracks.ends (tracks : Tracks s p) : (s.opened = [] ∧ p.stack = []) ∨ ∃ c cs top rest, s.opened = c :: cs ∧
    p.stack = top :: rest := by
  have lengths := congrArg List.length tracks.stack.raddrs
  rw [List.length_map, List.length_map] at lengths
  match opened : s.opened, stack : p.stack with
  | [], [] => exact .inl ⟨rfl, rfl⟩
  | [], _ :: _ =>
    rw [opened, stack] at lengths
    cases lengths
  | _ :: _, [] =>
    rw [opened, stack] at lengths
    cases lengths
  | c :: cs, top :: rest => exact .inr ⟨c, cs, top, rest, rfl, rfl⟩

theorem close_nil (opened : s.opened = []) : s.close t = s := by
  unfold Calls.close
  rw [opened]

/-- The call at the top of the stack ends, and is charged its own time. -/
theorem popTop_tracks {c : OpenCall Word Word} {cs : List (OpenCall Word Word)} {top : StackStruct} {rest : List StackStruct}
    (flat : o.cumulative = false) (tracks : Tracks s p) (opened : s.opened = c :: cs) (stack : p.stack = top :: rest)
    (fits : Fits t s.opened) (small : t < 2 ^ 32) (roomy : Roomy functions (s.close t)) :
    ∃ p', popTop o top rest (t - top.cycles.toNat) p = some p' ∧ Tracks (s.close t) p' := by
  obtain ⟨opened', closed'⟩ := close_cons (t := t) opened
  have agree := tracks.stack
  rw [opened, stack] at agree
  obtain ⟨addr, -, cycles, agree⟩ := agree
  rw [Nat.zero_add] at cycles agree
  rw [opened] at fits
  have within := fits.1
  have callees := fits.own_le
  generalize is : t - c.start - total c.callees = time
  have charged : ((t : Int) - top.cycles.toNat) = time := by omega
  have mine : own (⟨c.function, c.start, t⟩, c.callees) = time := by
    show ((t - c.start : Nat) : Int) - total c.callees = time
    omega
  have whole : total c.callees + time = (⟨c.function, c.start, t⟩ : Call Word).duration := by
    show total c.callees + time = t - c.start
    omega
  have log : p.charged ++ [(top.addr, (time : Int))] = (s.close t).closed.map fun c => (c.1.function, own c) := by
    rw [closed', List.map_append, tracks.charged, addr, ← mine]
    rfl
  have inside : ∀ a ∈ (p.charged ++ [(top.addr, (time : Int))]).map Prod.fst, a ∈ functions := by
    rw [log, List.map_map]
    intro a here
    obtain ⟨e, ended, rfl⟩ := List.mem_map.mp here
    exact roomy.inside e ended
  obtain ⟨table, entered, tally⟩ := tracks.tally.charge top.addr top.name time roomy.fits inside
  have popped : popTop o top rest (t - top.cycles.toNat) p = some { p with
      stack := rest.map (.add time), profFunc := table, nfunccalls := p.nfunccalls + 1, charged :=
        p.charged ++ [(top.addr, (time : Int))] } := by
    rw [popTop, charged, entered, flat, if_neg Bool.false_ne_true]
    rfl
  refine ⟨_, popped, ?_, log, ?_, tally, tracks.warned⟩
  · rw [opened']
    have moved := agree.add fits.2 (show _ + _ + time < _ by omega)
    rw [whole] at moved
    exact moved.record
  · intro e ended
    rw [closed'] at ended
    obtain before | now := List.mem_append.mp ended
    · exact tracks.nonneg e before
    · rw [List.mem_singleton.mp now, mine]
      exact Int.natCast_nonneg time

/-- A warning of another kind. -/
theorem Tracks.warn (tracks : Tracks s p) {w : Warning} (other : ∀ name raddr, w ≠ .negativeTime name raddr) :
    Tracks s (o.warn w p) := by
  unfold Options.warn
  split
  · exact tracks
  · refine ⟨tracks.stack, tracks.charged, tracks.nonneg, tracks.tally, fun w' inside => ?_⟩
    obtain before | now := List.mem_append.mp inside
    · exact tracks.warned w' before
    · rw [List.mem_singleton.mp now]
      exact other

theorem warn_stack (w : Warning) : (o.warn w p).stack = p.stack := by
  unfold Options.warn
  split <;> rfl

theorem popReturn_tracks {cycles : Word} {found : StackStruct} {last : Bool} (flat : o.cumulative = false) (tracks : Tracks s p)
    (is : cycles.toNat = t) (fits : Fits t s.opened) (roomy : Roomy functions (s.close t)) :
    ∃ p', popReturn o cycles found last p = some p' ∧ Tracks (s.close t) p' := by
  obtain ⟨opened, stack⟩ | ⟨c, cs, top, rest, opened, stack⟩ := tracks.ends
  · rw [close_nil opened]
    exact ⟨p, by rw [popReturn, stack], tracks⟩
  · have agree := tracks.stack
    rw [opened, stack] at agree
    obtain ⟨-, -, start, -⟩ := agree
    have within : top.cycles.toNat ≤ t := by
      rw [opened] at fits
      have := fits.1
      omega
    -- The difference does not wrap around.
    have time : ((cycles - top.cycles).toNat : Int) = t - top.cycles.toNat := by
      rw [BitVec.toNat_sub_of_le (by rw [BitVec.le_def, is]; exact within), is, Nat.cast_sub within]
    have positive : (!o.quiet && decide (((cycles - top.cycles).toNat : Int) < 0)) = false := by
      rw [decide_eq_false (not_lt.mpr (Int.natCast_nonneg _)), Bool.and_false]
    generalize told : (if last then p else o.warn (.missalignedReturn top.name top.raddr found.name found.raddr) p) = p₁
    have tracks₁ : Tracks s p₁ ∧ p₁.stack = top :: rest := by
      subst told
      split
      · exact ⟨tracks, stack⟩
      · exact ⟨tracks.warn fun _ _ => Warning.noConfusion, (warn_stack _).trans stack⟩
    obtain ⟨p', popped, after⟩ := popTop_tracks flat tracks₁.1 opened tracks₁.2 fits (is ▸ cycles.isLt) roomy
    refine ⟨p', ?_, after⟩
    rw [popReturn, stack]
    dsimp only
    rw [positive, if_neg Bool.false_ne_true, if_neg Bool.false_ne_true, told, time]
    exact popped

/-! ### Whole traces -/

theorem Roomy.before {s' : Calls Word Word} (roomy : Roomy functions s') (earlier : s.closed ⊆ s'.closed) : Roomy functions s :=
  ⟨roomy.fits, fun c inside => roomy.inside c (earlier inside)⟩

theorem close_closed (t : Nat) (s : Calls Word Word) : s.closed ⊆ (s.close t).closed := by
  match opened : s.opened with
  | [] =>
    unfold Calls.close
    rw [opened]
    exact List.Subset.refl _
  | c :: cs =>
    rw [(close_cons opened).2]
    exact List.subset_append_left _ _

theorem closeMany_closed (t n : Nat) (s : Calls Word Word) : s.closed ⊆ (s.closeMany t n).closed := by
  induction n generalizing s with
  | zero => exact List.Subset.refl _
  | succ n ih => exact List.Subset.trans (close_closed t s) (ih _)

theorem follow_closed (line : Line) (s : Calls Word Word) : s.closed ⊆ (Line.follow s line).closed := by
  cases line with
  | call cycles raddr addr name => exact List.Subset.refl _
  | ret cycles raddr =>
    show s.closed ⊆ (s.leave raddr cycles.toNat).closed
    unfold Calls.leave
    split
    · exact List.Subset.refl _
    · exact closeMany_closed _ _ _

theorem foldl_closed (trace : List Line) (s : Calls Word Word) : s.closed ⊆ (trace.foldl Line.follow s).closed := by
  induction trace generalizing s with
  | nil => exact List.Subset.refl _
  | cons line trace ih => exact List.Subset.trans (follow_closed line s) (ih _)

theorem popReturns_tracks {cycles : Word} {found : StackStruct} {n : Nat} (flat : o.cumulative = false) (tracks : Tracks s p)
    (is : cycles.toNat = t) (fits : Fits t s.opened) (roomy : Roomy functions (s.closeMany t n)) :
    ∃ p', popReturns o cycles found n p = some p' ∧ Tracks (s.closeMany t n) p' := by
  induction n generalizing s p with
  | zero => exact ⟨p, rfl, tracks⟩
  | succ n ih =>
    obtain ⟨p₁, popped, tracks₁⟩ : ∃ p₁, popReturn o cycles found (n = 0) p = some p₁ ∧ Tracks (s.close t) p₁ :=
      popReturn_tracks flat tracks is fits (roomy.before (closeMany_closed t n (s.close t)))
    obtain ⟨p₂, all, tracks₂⟩ := ih tracks₁ fits.close roomy
    refine ⟨p₂, ?_, tracks₂⟩
    rw [popReturns, popped]
    exact all

theorem popRest_tracks {n : Nat} (flat : o.cumulative = false) (tracks : Tracks s p) (fits : Fits t s.opened) (small : t < 2 ^ 32)
    (roomy : Roomy functions (s.closeMany t n)) : ∃ p', popRest o t n p = some p' ∧ Tracks (s.closeMany t n) p' := by
  induction n generalizing s p with
  | zero => exact ⟨p, rfl, tracks⟩
  | succ n ih =>
    obtain ⟨opened, stack⟩ | ⟨c, cs, top, rest, opened, stack⟩ := tracks.ends
    · have none : s.closeMany t (n + 1) = s := by
        have idle : ∀ n, s.closeMany t n = s := fun n => by
          induction n with
          | zero => rfl
          | succ n ih => rw [Calls.closeMany, close_nil opened, ih]
        exact idle (n + 1)
      rw [none]
      exact ⟨p, by rw [popRest, stack], tracks⟩
    · obtain ⟨p₁, popped, tracks₁⟩ := popTop_tracks flat tracks opened stack fits small (roomy.before (closeMany_closed t n (s.close t)))
      obtain ⟨p₂, all, tracks₂⟩ := ih tracks₁ fits.close roomy
      refine ⟨p₂, ?_, tracks₂⟩
      rw [popRest, stack]
      dsimp only
      rw [popped]
      exact all

/-- The search in the stack finds the call that the return belongs to. -/
theorem Agree.findIdx {inner : Nat} {cs : List (OpenCall Word Word)} {fs : List StackStruct} (agree : Agree inner cs fs) (raddr : Word) :
    (fs.findIdx? fun f => f.raddr = raddr) = cs.findIdx? fun c => c.returnsTo = raddr := by
  have frames := List.findIdx?_map (p := fun r => decide (r = raddr)) (f := StackStruct.raddr) (l := fs)
  have calls := List.findIdx?_map (p := fun r => decide (r = raddr)) (f := OpenCall.returnsTo) (l := cs)
  rw [agree.raddrs, calls] at frames
  exact frames.symm

theorem acquireLine_tracks (flat : o.cumulative = false) (tracks : Tracks s p) {line : Line} (fits : Fits line.cycles s.opened)
    (short : line.name.length < nameSize) (room : (Line.follow s line).opened.length ≤ maxStack)
    (roomy : Roomy functions (Line.follow s line)) : ∃ p', acquireLine o p line = some p' ∧ Tracks (Line.follow s line) p' := by
  cases line with
  | call cycles raddr addr name =>
    have lengths := congrArg List.length tracks.stack.raddrs
    rw [List.length_map, List.length_map] at lengths
    have stack : p.stack.length < maxStack := by
      rw [lengths]
      exact room
    refine ⟨_, if_pos ⟨stack, short⟩, ?_, tracks.charged, tracks.nonneg, tracks.tally, tracks.warned⟩
    exact ⟨rfl, rfl, rfl, tracks.stack⟩
  | ret cycles raddr =>
    have search := tracks.stack.findIdx raddr
    have noted : Tracks s { p with profCycles := cycles } := ⟨tracks.stack, tracks.charged, tracks.nonneg, tracks.tally, tracks.warned⟩
    have left : Line.follow s (.ret cycles raddr) = s.leave raddr cycles.toNat := rfl
    rw [left, Calls.leave] at roomy ⊢
    cases index : s.opened.findIdx? fun c => c.returnsTo = raddr with
    | none =>
      rw [index] at search roomy
      refine ⟨o.warn (.noReturnCall raddr) { p with profCycles := cycles }, ?_, noted.warn fun _ _ => Warning.noConfusion⟩
      rw [acquireLine]
      dsimp only
      rw [search]
    | some i =>
      rw [index] at search roomy
      have there : (p.stack.find? fun f => f.raddr = raddr).isSome = true := by
        have any : (p.stack.findIdx? fun f => f.raddr = raddr).isSome = p.stack.any fun f => f.raddr = raddr := List.findIdx?_isSome
        rw [search, Option.isSome_some] at any
        exact List.find?_isSome.mpr (List.any_eq_true.mp any.symm)
      obtain ⟨found, there⟩ := Option.isSome_iff_exists.mp there
      obtain ⟨p', popped, after⟩ : ∃ p', popReturns o cycles found (i + 1) { p with profCycles := cycles } = some p' ∧ Tracks _ p' :=
        popReturns_tracks flat noted rfl fits roomy
      refine ⟨p', ?_, after⟩
      rw [acquireLine]
      dsimp only
      rw [search, there]
      exact popped

theorem Line.fits {line : Line} (fits : Fits line.cycles s.opened) : Fits line.cycles (Line.follow s line).opened := by
  cases line with
  | call cycles raddr addr name => exact fits.enter addr raddr
  | ret cycles raddr => exact fits.leave raddr

theorem acquire_tracks (flat : o.cumulative = false) {trace : List Line} (tracks : Tracks s p) (fits : Fits t s.opened)
    (ordered : (trace.map Line.cycles).Pairwise (· ≤ ·)) (later : ∀ line ∈ trace, t ≤ line.cycles)
    (names : ∀ line ∈ trace, line.name.length < nameSize)
    (room : ∀ before, before <+: trace → (before.foldl Line.follow s).opened.length ≤ maxStack)
    (roomy : Roomy functions (trace.foldl Line.follow s)) :
    ∃ p', trace.foldlM (acquireLine o) p = some p' ∧ Tracks (trace.foldl Line.follow s) p' := by
  induction trace generalizing s p t with
  | nil => exact ⟨p, rfl, tracks⟩
  | cons line trace ih =>
    obtain ⟨first, ordered⟩ := List.pairwise_cons.mp ordered
    have now := fits.later (later line List.mem_cons_self)
    obtain ⟨p₁, read, tracks₁⟩ := acquireLine_tracks flat tracks now (names line List.mem_cons_self)
      (room [line] ⟨trace, rfl⟩) (roomy.before (foldl_closed trace _))
    obtain ⟨p₂, rest, tracks₂⟩ := ih tracks₁ (Line.fits now) ordered (fun l inside => first _ (List.mem_map_of_mem inside))
      (fun l inside => names l (List.mem_cons_of_mem _ inside))
      (fun before ⟨after, split⟩ => room (line :: before) ⟨after, congrArg (line :: ·) split⟩) roomy
    refine ⟨p₂, ?_, tracks₂⟩
    rw [List.foldlM_cons, read]
    exact rest

theorem foldl_fits {trace : List Line} {s : Calls Word Word} {t : Nat} (fits : Fits t s.opened)
    (ordered : (trace.map Line.cycles).Pairwise (· ≤ ·)) (later : ∀ line ∈ trace, t ≤ line.cycles) {t' : Nat} (from_start : t ≤ t')
    (to_end : ∀ line ∈ trace, line.cycles ≤ t') : Fits t' (trace.foldl Line.follow s).opened := by
  induction trace generalizing s t with
  | nil => exact fits.later from_start
  | cons line trace ih =>
    obtain ⟨first, ordered⟩ := List.pairwise_cons.mp ordered
    exact ih (Line.fits (fits.later (later line List.mem_cons_self))) ordered (fun l inside => first _ (List.mem_map_of_mem inside))
      (to_end line List.mem_cons_self) fun l inside => to_end l (List.mem_cons_of_mem _ inside)

theorem Balanced.foldl {trace : List Line} {s : Calls Word Word} (balanced : Balanced s) : Balanced (trace.foldl Line.follow s) := by
  induction trace generalizing s with
  | nil => exact balanced
  | cons line trace ih =>
    refine ih ?_
    cases line with
    | call cycles raddr addr name => exact Balanced.enter balanced addr raddr _
    | ret cycles raddr => exact Balanced.leave balanced raddr _

theorem callsOf_balanced (reopened : Option Nat) (trace : List Line) : Balanced (callsOf reopened trace) := by
  have followed : Balanced (follow trace) := Balanced.foldl (s := .none) rfl
  cases reopened with
  | none => exact followed
  | some cycles => exact followed.closeMany

/-- Each call that has ended was charged its duration without those of the calls that it made, which is never negative, each function has
the sum of its calls, and when no call is open all functions together have the time of the outermost calls. -/
structure Conserved (s : Calls Word Word) (p : Profile) : Prop where
  charged : p.charged = s.closed.map fun c => (c.1.function, (c.1.duration : Int) - total c.2)
  nonneg : ∀ e ∈ p.charged, 0 ≤ e.2
  warned : ∀ w ∈ p.warnings, ∀ name raddr, w ≠ .negativeTime name raddr
  once : (p.profFunc.map FuncStruct.addr).Nodup
  entered : ∀ addr, addr ∈ p.profFunc.map FuncStruct.addr ↔ ∃ c ∈ s.closed, c.1.function = addr
  cum : ∀ f ∈ p.profFunc, f.cumCycles = ((s.closed.filter fun c => c.1.function = f.addr).map own).sum
  calls : ∀ f ∈ p.profFunc, f.calls = s.closed.countP fun c => c.1.function = f.addr
  total : s.opened = [] → (p.profFunc.map FuncStruct.cumCycles).sum = total s.outermost

theorem charged_to (closed : List (Call Word × List (Call Word))) (addr : Word) :
    (((closed.map fun c => (c.1.function, own c)).filter fun e => e.1 = addr).map Prod.snd) =
    (closed.filter fun c => c.1.function = addr).map own := by
  rw [List.filter_map, List.map_map]
  rfl

theorem Tracks.conserved (tracks : Tracks s p) (balanced : Balanced s) : Conserved s p where
  charged := tracks.charged
  nonneg e inside := by
    rw [tracks.charged] at inside
    obtain ⟨c, ended, rfl⟩ := List.mem_map.mp inside
    exact tracks.nonneg c ended
  warned := tracks.warned
  once := tracks.tally.once
  entered addr := by
    rw [tracks.tally.entered, tracks.charged, List.map_map]
    exact List.mem_map
  cum f inside := by rw [tracks.tally.cum f inside, tracks.charged, charged_to]
  calls f inside := by
    rw [tracks.tally.calls f inside, tracks.charged, List.countP_map]
    rfl
  total none := by
    have own : (p.charged.map Prod.snd) = s.closed.map own := by
      rw [tracks.charged, List.map_map]
      rfl
    have whole : (s.closed.map Nesting.own).sum = (Nesting.total s.outermost : Int) + called s.opened := balanced
    rw [tracks.tally.total, own, whole, none]
    exact add_zero _

/-- `prof_acquire` comes to the end of a trace, and has conserved its cycles. -/
def Conserves (o : Options) (reopened : Option Nat) (trace : List Line) (left : Statics) : Prop :=
  ∃ p, profAcquire o reopened trace left = some p ∧ Conserved (callsOf reopened trace) p

/-- It does when it begins with an empty stack and an empty table. -/
theorem conserves_of_empty {reopened : Option Nat} {trace : List Line} {left : Statics} (flat : o.cumulative = false)
    (regular : Regular reopened trace) (stack : left.stack = []) (table : left.profFunc = []) : Conserves o reopened trace left := by
  obtain ⟨ordered, small, names, open_le, functions_le⟩ := regular
  obtain ⟨sorted, -, last⟩ := List.pairwise_append.mp ordered
  have start : Fits 0 (Calls.none : Calls Word Word).opened := trivial
  have roomy : Roomy ((callsOf reopened trace).closed.map fun c => c.1.function).dedup (callsOf reopened trace) :=
    ⟨functions_le, fun c inside => List.mem_dedup.mpr (List.mem_map_of_mem inside)⟩
  have within : (follow trace).closed ⊆ (callsOf reopened trace).closed := by
    cases reopened with
    | none => exact List.Subset.refl _
    | some cycles => exact closeMany_closed _ _ _
  obtain ⟨p, read, tracks⟩ :=
    acquire_tracks flat (Tracks.start stack table) start sorted (fun _ _ => Nat.zero_le _) names open_le (roomy.before within)
  have balanced := callsOf_balanced reopened trace
  cases reopened with
  | none =>
    refine ⟨p, ?_, tracks.conserved balanced⟩
    rw [profAcquire, read]
    rfl
  | some cycles =>
    have fits : Fits cycles (follow trace).opened :=
      foldl_fits start sorted (fun _ _ => Nat.zero_le _) (Nat.zero_le _) fun line inside =>
      last _ (List.mem_map_of_mem inside) cycles (List.mem_singleton_self _)
    have noted : Tracks (follow trace) { p with profCycles := BitVec.ofNat 32 cycles } :=
      ⟨tracks.stack, tracks.charged, tracks.nonneg, tracks.tally, tracks.warned⟩
    obtain ⟨p', rest, ended⟩ := popRest_tracks (n := (follow trace).opened.length) flat noted fits (small cycles rfl) roomy
    refine ⟨p', ?_, ended.conserved balanced⟩
    have lengths := congrArg List.length tracks.stack.raddrs
    rw [List.length_map, List.length_map] at lengths
    rw [profAcquire, read]
    show popRest o cycles p.stack.length _ = _
    rw [lengths]
    exact rest

end

end Or1ksim.Profiler
