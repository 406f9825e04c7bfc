import Or1ksim.Profiler.Conserved

/-!
# A profile that is read again

`prof_acquire` clears neither its stack nor its table of functions, and the commands `profile` and `cuc` call it any number of times. So
the calls of an earlier profile are in the table of a later one as well.
-/

namespace Or1ksim.Profiler

open Nesting

variable {o : Options} {s : Calls Word Word} {p p' : Profile}

/-! ### Calls are counted -/

/-- The calls of all functions. -/
def counted (table : List FuncStruct) : Int := (table.map FuncStruct.calls).sum

theorem charge_counted {addr : Word} {name : String} {time : Int} {room : Nat} {table table' : List FuncStruct}
    (entered : charge addr name time room table = some table') : counted table' = counted table + 1 := by
  induction table generalizing room table' with
  | nil =>
    rw [charge] at entered
    split at entered
    · cases entered
    · cases entered
      rfl
  | cons f rest ih =>
    rw [charge] at entered
    split at entered
    · cases entered
      exact add_right_comm _ _ _
    · obtain ⟨rest', others, same⟩ := Option.map_eq_some_iff.mp entered
      subst same
      show f.calls + counted rest' = f.calls + counted rest + 1
      rw [ih others, add_assoc]

/-- Each function of a table was called. -/
def Called (table : List FuncStruct) : Prop := ∀ f ∈ table, 0 < f.calls

theorem charge_called {addr : Word} {name : String} {time : Int} {room : Nat} {table table' : List FuncStruct} (called : Called table)
    (entered : charge addr name time room table = some table') : Called table' := by
  induction table generalizing room table' with
  | nil =>
    rw [charge] at entered
    split at entered
    · cases entered
    · cases entered
      exact List.forall_mem_singleton.mpr Int.one_pos
  | cons f rest ih =>
    obtain ⟨first, others⟩ := List.forall_mem_cons.mp called
    rw [charge] at entered
    split at entered
    · cases entered
      exact List.forall_mem_cons.mpr ⟨Int.lt_add_one_of_le first.le, others⟩
    · obtain ⟨rest', charged, same⟩ := Option.map_eq_some_iff.mp entered
      subst same
      exact List.forall_mem_cons.mpr ⟨first, ih others charged⟩

/-- Calls have ended: what was charged is off the stack, and was counted. -/
structure Ends (p p' : Profile) : Prop where
  frames : p'.stack.length + p'.charged.length = p.stack.length + p.charged.length
  counts : counted p'.profFunc + p.charged.length = counted p.profFunc + p'.charged.length
  called : Called p.profFunc → Called p'.profFunc

theorem Ends.refl (p : Profile) : Ends p p := ⟨rfl, rfl, id⟩

theorem Ends.trans {p'' : Profile} (first : Ends p p') (second : Ends p' p'') : Ends p p'' := by
  obtain ⟨frames, counts, called⟩ := first
  obtain ⟨frames', counts', called'⟩ := second
  exact ⟨frames'.trans frames, by omega, called' ∘ called⟩

theorem Ends.warn (w : Warning) (p : Profile) : Ends p (o.warn w p) := by
  unfold Options.warn
  split <;> exact ⟨rfl, rfl, id⟩

theorem popTop_ends {top : StackStruct} {rest : List StackStruct} {time : Int} (stack : p.stack = top :: rest)
    (popped : popTop o top rest time p = some p') : Ends p p' ∧ p'.stack.length = rest.length := by
  obtain ⟨table, entered, rfl⟩ := Option.map_eq_some_iff.mp popped
  have fewer : (if o.cumulative then rest else rest.map (.add time)).length = rest.length := by
    split
    · rfl
    · exact List.length_map _
  refine ⟨⟨?_, ?_, fun called => charge_called called entered⟩, fewer⟩
  · show (if o.cumulative then rest else rest.map (.add time)).length + (p.charged ++ [(top.addr, time)]).length = _
    rw [fewer, stack, List.length_append, List.length_singleton, List.length_cons]
    omega
  · show counted table + p.charged.length = counted p.profFunc + (p.charged ++ [(top.addr, time)]).length
    rw [charge_counted entered, List.length_append, List.length_singleton]
    omega

theorem popReturn_ends {cycles : Word} {found : StackStruct} {last : Bool} (popped : popReturn o cycles found last p = some p') :
    Ends p p' := by
  rw [popReturn] at popped
  cases stack : p.stack with
  | nil =>
    rw [stack] at popped
    obtain rfl := Option.some.inj popped
    exact .refl p
  | cons top rest =>
    rw [stack] at popped
    dsimp only at popped
    have warned {q : Profile} (w : Warning) (ends : Ends p q ∧ q.stack = top :: rest) :
        Ends p (o.warn w q) ∧ (o.warn w q).stack = top :: rest :=
      ⟨ends.1.trans (.warn w q), (warn_stack w).trans ends.2⟩
    generalize negative : (if !o.quiet && decide (((cycles - top.cycles).toNat : Int) < 0) then
      o.warn (.negativeTime found.name found.raddr) p else p) = q at popped
    have first : Ends p q ∧ q.stack = top :: rest := by
      subst negative
      split
      · exact warned _ ⟨.refl p, stack⟩
      · exact ⟨.refl p, stack⟩
    generalize missaligned : (if last then q else o.warn (.missalignedReturn top.name top.raddr found.name found.raddr) q) = r at popped
    have second : Ends p r ∧ r.stack = top :: rest := by
      subst missaligned
      split
      · exact first
      · exact warned _ first
    exact second.1.trans (popTop_ends second.2 popped).1

theorem popReturns_ends {cycles : Word} {found : StackStruct} {n : Nat} (popped : popReturns o cycles found n p = some p') :
    Ends p p' := by
  induction n generalizing p with
  | zero =>
    obtain rfl := Option.some.inj popped
    exact .refl p
  | succ n ih =>
    rw [popReturns] at popped
    obtain ⟨q, first, rest⟩ := Option.bind_eq_some_iff.mp popped
    exact (popReturn_ends first).trans (ih rest)

/-- All calls that are open end with the simulation. -/
theorem popRest_ends {cycles n : Nat} (all : p.stack.length ≤ n) (popped : popRest o cycles n p = some p') :
    Ends p p' ∧ p'.stack = [] := by
  induction n generalizing p with
  | zero =>
    obtain rfl := Option.some.inj popped
    exact ⟨.refl p, List.eq_nil_of_length_eq_zero (Nat.le_zero.mp all)⟩
  | succ n ih =>
    rw [popRest] at popped
    cases stack : p.stack with
    | nil =>
      rw [stack] at popped
      obtain rfl := Option.some.inj popped
      exact ⟨.refl p, stack⟩
    | cons top rest =>
      rw [stack] at popped all
      obtain ⟨q, first, others⟩ := Option.bind_eq_some_iff.mp popped
      obtain ⟨ends, fewer⟩ := popTop_ends stack first
      obtain ⟨ends', none⟩ := ih (fewer ▸ Nat.le_of_succ_le_succ all) others
      exact ⟨ends.trans ends', none⟩

/-! ### Calls of the trace, and calls that were left -/

theorem close_length (t : Nat) (s : Calls Word Word) :
    (s.close t).opened.length + (s.close t).closed.length = s.opened.length + s.closed.length := by
  have recorded (call : Call Word) (cs : List (OpenCall Word Word)) : (Calls.record call cs).length = cs.length := by
    cases cs <;> rfl
  match opened : s.opened with
  | [] => rw [close_nil opened, opened]
  | c :: cs =>
    obtain ⟨opened', closed'⟩ := close_cons (t := t) opened
    rw [opened', closed', recorded, List.length_append, List.length_singleton, List.length_cons]
    omega

theorem closeMany_length (t n : Nat) (s : Calls Word Word) :
    (s.closeMany t n).opened.length + (s.closeMany t n).closed.length = s.opened.length + s.closed.length := by
  induction n generalizing s with
  | zero => rfl
  | succ n ih => exact (ih _).trans (close_length t s)

theorem closeMany_opened (t : Nat) {n : Nat} (s : Calls Word Word) (all : s.opened.length ≤ n) : (s.closeMany t n).opened = [] := by
  induction n generalizing s with
  | zero => exact List.eq_nil_of_length_eq_zero (Nat.le_zero.mp all)
  | succ n ih =>
    refine ih (s.close t) ?_
    match opened : s.opened with
    | [] =>
      rw [close_nil opened, opened]
      exact Nat.zero_le n
    | c :: cs =>
      rw [opened] at all
      obtain ⟨opened', -⟩ := close_cons (t := t) opened
      rw [opened']
      cases cs <;> exact Nat.le_of_succ_le_succ all

theorem leave_length (raddr : Word) (t : Nat) (s : Calls Word Word) :
    (s.leave raddr t).opened.length + (s.leave raddr t).closed.length = s.opened.length + s.closed.length := by
  unfold Calls.leave
  split
  · rfl
  · exact closeMany_length _ _ _

/-- The calls that a profile has charged and those on its stack are those of the trace and those that were left, and the table counts
those that were charged on top of those that it counted before. -/
structure Accounts (left : Statics) (s : Calls Word Word) (p : Profile) : Prop where
  frames : p.stack.length + p.charged.length = left.stack.length + (s.opened.length + s.closed.length)
  counts : counted p.profFunc = counted left.profFunc + p.charged.length
  called : Called left.profFunc → Called p.profFunc

theorem Accounts.start (left : Statics) : Accounts left .none left.profile := ⟨rfl, (add_zero _).symm, id⟩

theorem Accounts.ends {left : Statics} {s' : Calls Word Word} (accounts : Accounts left s p) (ends : Ends p p')
    (same : s'.opened.length + s'.closed.length = s.opened.length + s.closed.length) : Accounts left s' p' := by
  obtain ⟨frames, counts, called⟩ := accounts
  obtain ⟨frames', counts', called'⟩ := ends
  exact ⟨by rw [frames', same, frames], by omega, called' ∘ called⟩

theorem Accounts.line {left : Statics} (accounts : Accounts left s p) {line : Line} (read : acquireLine o p line = some p') :
    Accounts left (Line.follow s line) p' := by
  cases line with
  | call cycles raddr addr name =>
    rw [acquireLine] at read
    split at read
    · obtain rfl := Option.some.inj read
      refine ⟨?_, accounts.counts, accounts.called⟩
      have frames := accounts.frames
      show p.stack.length + 1 + p.charged.length = left.stack.length + (s.opened.length + 1 + s.closed.length)
      omega
    · cases read
  | ret cycles raddr =>
    refine accounts.ends ?_ (leave_length raddr cycles.toNat s)
    have noted : Ends p { p with profCycles := cycles } := ⟨rfl, rfl, id⟩
    rw [acquireLine] at read
    dsimp only at read
    split at read
    · exact noted.trans (popReturns_ends read)
    · obtain rfl := Option.some.inj read
      exact noted.trans (.warn _ _)

theorem Accounts.trace {left : Statics} {trace : List Line} (accounts : Accounts left s p)
    (read : trace.foldlM (acquireLine o) p = some p') :
    Accounts left (trace.foldl Line.follow s) p' := by
  induction trace generalizing s p with
  | nil =>
    obtain rfl := Option.some.inj read
    exact accounts
  | cons line trace ih =>
    rw [List.foldlM_cons] at read
    obtain ⟨q, first, rest⟩ := Option.bind_eq_some_iff.mp read
    exact ih (accounts.line first) rest

/-- A profile that was read is accounted for, and has an empty stack when the simulation ends all calls. -/
theorem profAcquire_accounts {left : Statics} {reopened : Option Nat} {trace : List Line}
    (read : profAcquire o reopened trace left = some p) :
    Accounts left (callsOf reopened trace) p ∧ (reopened.isSome → p.stack = [] ∧ (callsOf reopened trace).opened = []) := by
  rw [profAcquire] at read
  obtain ⟨q, lines, rest⟩ := Option.bind_eq_some_iff.mp read
  have accounts : Accounts left (follow trace) q := (Accounts.start left).trace lines
  cases reopened with
  | none =>
    obtain rfl := Option.some.inj rest
    exact ⟨accounts, fun isSome => absurd isSome Bool.false_ne_true⟩
  | some cycles =>
    have noted : Accounts left (follow trace) { q with profCycles := BitVec.ofNat 32 cycles } :=
      ⟨accounts.frames, accounts.counts, accounts.called⟩
    obtain ⟨ends, none⟩ := popRest_ends (p := { q with profCycles := BitVec.ofNat 32 cycles }) le_rfl rest
    exact ⟨noted.ends ends (closeMany_length _ _ _), fun _ => ⟨none, closeMany_opened _ _ le_rfl⟩⟩

/-! ### What is left of a profile -/

theorem Left.called {left : Statics} (reached : Left left) : Called left.profFunc := by
  induction reached with
  | initial => exact List.forall_mem_nil _
  | acquired _ read ih => exact (profAcquire_accounts read).1.called ih
  | @shown left table _ same ih =>
    intro f inside
    have there : (f.addr, f.calls) ∈ left.profFunc.map fun f => (f.addr, f.calls) := same ▸ List.mem_map_of_mem inside
    obtain ⟨g, before, equal⟩ := List.mem_map.mp there
    have calls : g.calls = f.calls := congrArg Prod.snd equal
    exact calls ▸ ih g before

theorem eq_nil_of_counted {table : List FuncStruct} (called : Called table) (none : counted table = 0) : table = [] := by
  cases table with
  | nil => rfl
  | cons f rest =>
    obtain ⟨first, others⟩ := List.forall_mem_cons.mp called
    have rest_nonneg : 0 ≤ counted rest := List.sum_nonneg fun n inside => by
      obtain ⟨g, there, rfl⟩ := List.mem_map.mp inside
      exact (others g there).le
    have whole : f.calls + counted rest = 0 := none
    omega

/-- The table of a profile that is right counts the calls of the trace, and no others. -/
theorem Conserved.counted (conserved : Conserved s p) : counted p.profFunc = p.charged.length := by
  have functions : (p.profFunc.map FuncStruct.addr).Perm (s.closed.map fun c => c.1.function).dedup := by
    refine (List.perm_ext_iff_of_nodup conserved.once (List.nodup_dedup _)).mpr fun addr => ?_
    rw [conserved.entered, List.mem_dedup]
    exact List.mem_map.symm
  have calls : p.profFunc.map FuncStruct.calls = (p.profFunc.map FuncStruct.addr).map fun a =>
      (((s.closed.map fun c => c.1.function).count a : Nat) : Int) := by
    rw [List.map_map]
    refine List.map_congr_left fun f inside => ?_
    rw [conserved.calls f inside, Function.comp, List.count, List.countP_map]
    rfl
  have total : ((s.closed.map fun c => c.1.function).dedup.map fun a => (s.closed.map fun c => c.1.function).count a).sum =
      s.closed.length := by
    rw [List.sum_map_count_dedup_eq_length, List.length_map]
  rw [Profiler.counted, calls, (functions.map _).sum_eq, conserved.charged, List.length_map, ← total, Nat.cast_list_sum, List.map_map]
  rfl

section
variable {left : Statics} {reopened : Option Nat} {trace : List Line}

/-- No trace comes out right on top of a table. -/
theorem Conserves.table (reached : Left left) (conserves : Conserves o reopened trace left) : left.profFunc = [] := by
  obtain ⟨p, read, conserved⟩ := conserves
  obtain ⟨-, counts, -⟩ := (profAcquire_accounts read).1
  have all := conserved.counted
  exact eq_nil_of_counted reached.called (by omega)

/-- The calls that an earlier trace has left open end with the simulation. -/
theorem Conserves.stack (running : reopened.isSome) (conserves : Conserves o reopened trace left) : left.stack = [] := by
  obtain ⟨p, read, conserved⟩ := conserves
  obtain ⟨⟨frames, -, -⟩, ended⟩ := profAcquire_accounts read
  obtain ⟨none, closed⟩ := ended running
  rw [none, closed, conserved.charged, List.length_map, List.length_nil, List.length_nil] at frames
  exact List.eq_nil_of_length_eq_zero (by omega)

end

theorem regular_nil : Regular (some 0) [] where
  ordered := List.pairwise_singleton _ _
  small cycles inside := by
    cases inside
    decide
  names _ inside := nomatch inside
  open_le before inside := by
    rw [List.prefix_nil.mp inside]
    exact Nat.zero_le _
  functions_le := Nat.zero_le _

/-- `prof_acquire` conserves the cycles of every trace just when nothing is left of an earlier call. A trace that the
simulation ends, or that is read with an empty stack, comes out right under no other condition. -/
theorem prof_acquire_conserves_iff {left : Statics} (flat : o.cumulative = false) (reached : Left left) :
    ((∀ reopened trace, Regular reopened trace → Conserves o reopened trace left) ↔ left.stack = [] ∧ left.profFunc = []) ∧
      ∀ reopened trace, Regular reopened trace → left.stack = [] ∨ reopened.isSome →
        (Conserves o reopened trace left ↔ left.stack = [] ∧ left.profFunc = []) := by
  have each (reopened : Option Nat) (trace : List Line) (regular : Regular reopened trace) (level : left.stack = [] ∨ reopened.isSome) :
      Conserves o reopened trace left ↔ left.stack = [] ∧ left.profFunc = [] :=
    ⟨fun conserves => ⟨level.elim id fun running => conserves.stack running, conserves.table reached⟩,
      fun empty => conserves_of_empty flat regular empty.1 empty.2⟩
  refine ⟨⟨fun all => ?_, fun empty reopened trace regular => ?_⟩, each⟩
  · exact (each _ _ regular_nil (.inr rfl)).mp (all _ _ regular_nil)
  · exact conserves_of_empty flat regular empty.1 empty.2

/-! ### A trace that is read twice -/

/-- A function calls itself and another, and returns from both calls at once; a return then belongs to no call. -/
def recursion : List Line :=
  [.call 0 0xffffffff 0xffffffff "[outside_functions]", .call 10 0x2008 0x3000 "f", .call 14 0x3010 0x3000 "f",
    .call 20 0x3020 0x4000 "g",
    .ret 25 0x3010, .ret 26 0x5000, .ret 40 0x2008]

theorem recursion_regular : Regular (some 50) recursion where
  ordered := by decide
  small cycles inside := by
    cases inside
    decide
  names := by decide
  open_le before inside := by
    have all : ∀ before ∈ recursion.inits, (follow before).opened.length ≤ maxStack := by decide +kernel
    exact all before ((List.mem_inits _ _).mpr inside)
  functions_le := by decide +kernel

/-- The address, the cycles and the calls of each function. -/
def shown (p : Profile) : List (Word × Int × Int) := p.profFunc.map fun f => (f.addr, f.cumCycles, f.calls)

/-- What the first call leaves. -/
theorem recursion_acquired : ∃ p, profAcquire ⟨false, false⟩ (some 50) recursion .initial = some p ∧
    shown p = [(0x4000, 5, 1), (0x3000, 25, 2), (0xffffffff, 20, 1)] := by
  have seen : (profAcquire ⟨false, false⟩ (some 50) recursion .initial).map shown =
      some [(0x4000, 5, 1), (0x3000, 25, 2), (0xffffffff, 20, 1)] := by decide +kernel
  exact Option.map_eq_some_iff.mp seen

theorem recursion_conserved : Conserves ⟨false, false⟩ (some 50) recursion .initial ∧
    ∃ p, profAcquire ⟨false, false⟩ (some 50) recursion .initial = some p ∧ Left p.toStatics ∧
      ¬ Conserves ⟨false, false⟩ (some 50) recursion p.toStatics := by
  obtain ⟨p, read, table⟩ := recursion_acquired
  have reached : Left p.toStatics := .acquired .initial read
  have first := (prof_acquire_conserves_iff (o := ⟨false, false⟩) rfl .initial).1.mpr ⟨rfl, rfl⟩
  have second := (prof_acquire_conserves_iff (o := ⟨false, false⟩) rfl reached).2 (some 50) recursion recursion_regular (.inr rfl)
  refine ⟨first _ _ recursion_regular, p, read, reached, fun conserves => ?_⟩
  rw [shown, (second.mp conserves).2] at table
  cases table

/-- The same trace read twice: each function has twice its calls and twice its cycles. -/
theorem recursion_doubled : ∃ p q, profAcquire ⟨false, false⟩ (some 50) recursion .initial = some p ∧
    profAcquire ⟨false, false⟩ (some 50) recursion p.toStatics = some q ∧ Regular (some 50) recursion ∧
    shown q = [(0x4000, 10, 2), (0x3000, 50, 4), (0xffffffff, 40, 2)] ∧ ¬ Conserved (callsOf (some 50) recursion) q := by
  have seen : (profAcquire ⟨false, false⟩ (some 50) recursion .initial >>= fun p =>
      profAcquire ⟨false, false⟩ (some 50) recursion p.toStatics).map shown =
        some [(0x4000, 10, 2), (0x3000, 50, 4), (0xffffffff, 40, 2)] := by decide +kernel
  obtain ⟨q, twice, table⟩ := Option.map_eq_some_iff.mp seen
  obtain ⟨p, read, again⟩ := Option.bind_eq_some_iff.mp twice
  refine ⟨p, q, read, again, recursion_regular, table, fun conserved => ?_⟩
  have total := conserved.total (by decide +kernel)
  have cycles : q.profFunc.map FuncStruct.cumCycles = [10, 50, 40] := by
    have := congrArg (List.map fun e : Word × Int × Int => e.2.1) table
    rw [shown, List.map_map] at this
    exact this
  rw [cycles] at total
  revert total
  decide +kernel

end Or1ksim.Profiler
