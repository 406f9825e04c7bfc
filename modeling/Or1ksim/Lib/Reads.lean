import Mathlib

/-!
# Programs that read a file

A program reads a finite list one entry at a time, and a read behind the last entry finds the end, as often as it is
tried. It runs with a number of reads that it may make: it terminates if some number is enough, and it hangs if none is.
The rules say what a program makes of the list, whatever the number.
-/

namespace Reads

inductive Stop where
  | exit | outOfReads
  deriving DecidableEq, Repr

/-- What is left of the list, whether the last read found its end, the reads that are still allowed, and the notes. -/
structure Feed (α κ : Type) where
  left : List α
  eof : Bool
  reads : Nat
  told : List κ

abbrev Reader (α κ : Type) := EStateM Stop (Feed α κ)

variable {α κ β γ σ : Type}

def fgetc : Reader α κ (Option α) := fun s =>
  match s.reads, s.left with
  | 0, _ => .error .outOfReads s
  | n + 1, [] => .ok none { s with eof := true, reads := n }
  | n + 1, c :: left => .ok (some c) { s with left := left, eof := false, reads := n }

/-- The end of the file is not put back. -/
def ungetc : Option α → Reader α κ Unit
  | none => pure ()
  | some c => fun s => .ok () { s with left := c :: s.left, eof := false }

def feof : Reader α κ Bool := fun s => .ok s.eof s

def exit : Reader α κ β := fun s => .error .exit s

/-- A part that never returns: no number of reads is enough. -/
def hang : Reader α κ β := fun s => .error .outOfReads s

def tell (note : κ) : Reader α κ Unit := fun s => .ok () { s with told := s.told ++ [note] }

/-- At most `n` rounds of a loop: a round goes on with an `inl`. -/
def rounds (body : σ → Reader α κ (σ ⊕ β)) : Nat → σ → Reader α κ β
  | 0, _ => fun s => .error .outOfReads s
  | n + 1, x => body x >>= Sum.elim (rounds body n) pure

/-- A loop whose rounds read, so that it has no more of them than it has reads. -/
def loop (body : σ → Reader α κ (σ ⊕ β)) (x : σ) : Reader α κ β := fun s => rounds body (s.reads + 1) x s

theorem bind_apply (p : Reader α κ β) (q : β → Reader α κ γ) (s : Feed α κ) :
    (p >>= q) s = match p s with
      | .ok b t => q b t
      | .error e t => .error e t := by
  show EStateM.bind p q s = _
  rw [EStateM.bind]
  cases p s <;> rfl

theorem bind_ok {p : Reader α κ β} {q : β → Reader α κ γ} {s t : Feed α κ} {b : β} (h : p s = .ok b t) :
    (p >>= q) s = q b t := by
  rw [bind_apply, h]

theorem bind_error {p : Reader α κ β} {q : β → Reader α κ γ} {s t : Feed α κ} {e : Stop} (h : p s = .error e t) :
    (p >>= q) s = .error e t := by
  rw [bind_apply, h]

/-- Behind a read, `feof` says whether that read found the end. -/
theorem fgetc_feof (k : Option α → Bool → Reader α κ β) :
    (fgetc >>= fun c => feof >>= k c) = fgetc >>= fun c => k c c.isNone := by
  funext ⟨left, eof, reads, told⟩
  cases reads with
  | zero => rfl
  | succ n => cases left <;> rfl

/-! ### Reads that are used -/

/-- A program that returns has no more reads than before. -/
def Uses (p : Reader α κ β) : Prop := ∀ s b t, p s = .ok b t → t.reads ≤ s.reads

/-- A program that returns has made a read. -/
def Spends (p : Reader α κ β) : Prop := ∀ s b t, p s = .ok b t → t.reads < s.reads

/-- A round that goes on has made a read. -/
def Pays (p : Reader α κ (σ ⊕ β)) : Prop := ∀ s r t, p s = .ok r t → t.reads ≤ s.reads ∧ (r.isLeft → t.reads < s.reads)

theorem Spends.uses {p : Reader α κ β} (h : Spends p) : Uses p := fun s b t ran => (h s b t ran).le

theorem Spends.pays {p : Reader α κ (σ ⊕ β)} (h : Spends p) : Pays p :=
  fun s r t ran => ⟨(h s r t ran).le, fun _ => h s r t ran⟩

theorem Pays.uses {p : Reader α κ (σ ⊕ β)} (h : Pays p) : Uses p := fun s r t ran => (h s r t ran).1

theorem Pays.on {p : Reader α κ (σ ⊕ β)} {s t : Feed α κ} {y : σ} (h : Pays p) (ran : p s = .ok (.inl y) t) : t.reads < s.reads :=
  (h s (.inl y) t ran).2 rfl

theorem bind_returned {p : Reader α κ β} {q : β → Reader α κ γ} {s t : Feed α κ} {c : γ} (h : (p >>= q) s = .ok c t) :
    ∃ b u, p s = .ok b u ∧ q b u = .ok c t := by
  rw [bind_apply] at h
  cases first : p s with
  | ok b u =>
    rw [first] at h
    exact ⟨b, u, rfl, h⟩
  | error e u =>
    rw [first] at h
    cases h

theorem uses_pure (b : β) : Uses (pure b : Reader α κ β) := by
  intro s c t ran
  cases ran
  exact le_rfl

theorem uses_exit : Uses (exit : Reader α κ β) := by
  intro s c t ran
  cases ran

theorem uses_hang : Uses (hang : Reader α κ β) := by
  intro s c t ran
  cases ran

theorem uses_tell (note : κ) : Uses (tell note : Reader α κ Unit) := by
  intro s c t ran
  cases ran
  exact le_rfl

theorem uses_ungetc (c : Option α) : Uses (ungetc c : Reader α κ Unit) := by
  cases c with
  | none => exact uses_pure ()
  | some c =>
    intro s b t ran
    cases ran
    exact le_rfl

theorem spends_fgetc : Spends (fgetc : Reader α κ (Option α)) := by
  rintro ⟨left, eof, reads, told⟩ c t ran
  cases reads with
  | zero => cases ran
  | succ n =>
    cases left <;> cases ran <;> exact Nat.lt_succ_self n

theorem Uses.bind {p : Reader α κ β} {q : β → Reader α κ γ} (first : Uses p) (rest : ∀ b, Uses (q b)) : Uses (p >>= q) := by
  intro s c t ran
  obtain ⟨b, u, left, right⟩ := bind_returned ran
  exact (rest b u c t right).trans (first s b u left)

theorem Spends.bind {p : Reader α κ β} {q : β → Reader α κ γ} (first : Spends p) (rest : ∀ b, Uses (q b)) :
    Spends (p >>= q) := by
  intro s c t ran
  obtain ⟨b, u, left, right⟩ := bind_returned ran
  exact (rest b u c t right).trans_lt (first s b u left)

theorem Uses.bind_spends {p : Reader α κ β} {q : β → Reader α κ γ} (first : Uses p) (rest : ∀ b, Spends (q b)) :
    Spends (p >>= q) := by
  intro s c t ran
  obtain ⟨b, u, left, right⟩ := bind_returned ran
  exact (rest b u c t right).trans_le (first s b u left)

/-- The last round of a loop need not read. -/
theorem pays_last (b : β) : Pays (pure (.inr b) : Reader α κ (σ ⊕ β)) := by
  intro s r t ran
  cases ran
  exact ⟨le_rfl, nofun⟩

theorem pays_exit : Pays (exit : Reader α κ (σ ⊕ β)) := by
  intro s r t ran
  cases ran

/-! ### The rounds of a loop -/

section Loop
variable {body : σ → Reader α κ (σ ⊕ β)}

theorem rounds_eq (pays : ∀ x, Pays (body x)) {n m : Nat} {x : σ} {s : Feed α κ} (hn : s.reads < n) (hm : s.reads < m) :
    rounds body n x s = rounds body m x s := by
  induction n generalizing m x s with
  | zero => omega
  | succ n ih =>
    cases m with
    | zero => omega
    | succ m =>
      rw [rounds, rounds, bind_apply, bind_apply]
      cases ran : body x s with
      | error e t => rfl
      | ok r t =>
        cases r with
        | inl y =>
          have := (pays x).on ran
          exact ih (by omega) (by omega)
        | inr b => rfl

theorem uses_rounds (pays : ∀ x, Pays (body x)) (n : Nat) (x : σ) : Uses (rounds body n x) := by
  induction n generalizing x with
  | zero =>
    intro s c t ran
    cases ran
  | succ n ih =>
    refine (pays x).uses.bind fun r => ?_
    cases r with
    | inl y => exact ih y
    | inr b => exact uses_pure b

theorem uses_loop (pays : ∀ x, Pays (body x)) (x : σ) : Uses (loop body x) :=
  fun s b t ran => uses_rounds pays _ x s b t ran

/-- A loop takes its rounds one after the other, for as long as they go on. -/
theorem loop_eq (pays : ∀ x, Pays (body x)) (x : σ) : loop body x = body x >>= Sum.elim (loop body) pure := by
  funext s
  rw [loop, rounds, bind_apply, bind_apply]
  cases ran : body x s with
  | error e t => rfl
  | ok r t =>
    cases r with
    | inl y =>
      exact rounds_eq pays ((pays x).on ran) (Nat.lt_succ_self _)
    | inr b => rfl

/-- A loop reads if each of its rounds does. -/
theorem spends_loop (spends : ∀ x, Spends (body x)) (x : σ) : Spends (loop body x) := by
  rw [loop_eq (fun x => (spends x).pays)]
  refine (spends x).bind fun r => ?_
  cases r with
  | inl y => exact uses_loop (fun x => (spends x).pays) y
  | inr b => exact uses_pure b

end Loop

/-! ### What a program comes to -/

inductive Outcome (α β : Type) where
  | returns (b : β) (left : List α)
  | exits
  | hangs

/-- The reads were used up, and the beginning of `notes` was told. -/
def RunsOut (r : EStateM.Result Stop (Feed α κ) β) (told notes : List κ) : Prop :=
  ∃ s first, r = .error .outOfReads s ∧ first <+: notes ∧ s.told = told ++ first

/-- An end of a program, with `n` reads left. -/
def Ends (r : EStateM.Result Stop (Feed α κ) β) (told : List κ) (n : Nat) : Outcome α β → Prop
  | .returns b l => ∃ eof, r = .ok b ⟨l, eof, n, told⟩
  | .exits => ∃ s, r = .error .exit s ∧ s.told = told
  | .hangs => ∃ s, r = .error .outOfReads s ∧ s.told = told

/-- At `l` the program tells `notes` and comes to this outcome, as soon as it has the reads that this takes. -/
def Comes (p : Reader α κ β) (l : List α) (notes : List κ) (o : Outcome α β) : Prop :=
  ∃ cost, ∀ eof told n, (n < cost → RunsOut (p ⟨l, eof, n, told⟩) told notes) ∧
    Ends (p ⟨l, eof, cost + n, told⟩) (told ++ notes) n o

/-- Some number of reads is enough. -/
def Terminates (p : Reader α κ β) (l : List α) : Prop := ∃ n, ∀ s, p ⟨l, false, n, []⟩ ≠ .error .outOfReads s

theorem Comes.terminates {p : Reader α κ β} {l l' : List α} {notes : List κ} {b : β} (h : Comes p l notes (.returns b l')) :
    Terminates p l := by
  obtain ⟨cost, h⟩ := h
  obtain ⟨_, _, ran⟩ := h false [] 0
  refine ⟨cost + 0, fun s stopped => ?_⟩
  rw [ran] at stopped
  cases stopped

theorem Comes.exit_terminates {p : Reader α κ β} {l : List α} {notes : List κ} (h : Comes p l notes .exits) : Terminates p l := by
  obtain ⟨cost, h⟩ := h
  obtain ⟨_, _, ran, _⟩ := h false [] 0
  refine ⟨cost + 0, fun s stopped => ?_⟩
  rw [ran] at stopped
  cases stopped

theorem Comes.not_terminates {p : Reader α κ β} {l : List α} {notes : List κ} (h : Comes p l notes .hangs) : ¬ Terminates p l := by
  rintro ⟨n, enough⟩
  obtain ⟨cost, h⟩ := h
  obtain ⟨short, _⟩ := h false [] n
  by_cases few : n < cost
  · obtain ⟨s, _, ran, _⟩ := short few
    exact enough s ran
  · obtain ⟨m, rfl⟩ := Nat.exists_eq_add_of_le (not_lt.mp few)
    obtain ⟨_, s, ran, _⟩ := h false [] m
    exact enough s ran

/-! ### One program after another -/

section Bind
variable {p : Reader α κ β} {q : β → Reader α κ γ} {l l' : List α} {notes more : List κ} {b : β}

theorem RunsOut.bind {s : Feed α κ} {told : List κ} (h : RunsOut (p s) told notes) : RunsOut ((p >>= q) s) told (notes ++ more) := by
  obtain ⟨t, first, ran, begins, rest⟩ := h
  exact ⟨t, first, bind_error ran, begins.trans (List.prefix_append notes more), rest⟩

theorem RunsOut.after {s t : Feed α κ} {told : List κ} (ran : p s = .ok b t) (h : RunsOut (q b t) (told ++ notes) more) :
    RunsOut ((p >>= q) s) told (notes ++ more) := by
  obtain ⟨u, first, stopped, begins, rest⟩ := h
  refine ⟨u, notes ++ first, ?_, (List.prefix_append_right_inj notes).mpr begins, ?_⟩
  · rw [bind_ok ran, stopped]
  · rw [rest, List.append_assoc]

theorem Comes.bind {o : Outcome α γ} (first : Comes p l notes (.returns b l')) (rest : Comes (q b) l' more o) :
    Comes (p >>= q) l (notes ++ more) o := by
  obtain ⟨c, first⟩ := first
  obtain ⟨d, rest⟩ := rest
  refine ⟨c + d, fun eof told n => ⟨fun few => ?_, ?_⟩⟩
  · by_cases fewer : n < c
    · exact ((first eof told n).1 fewer).bind
    · obtain ⟨m, rfl⟩ := Nat.exists_eq_add_of_le (not_lt.mp fewer)
      obtain ⟨_, eof', ran⟩ := first eof told m
      exact RunsOut.after ran ((rest eof' (told ++ notes) m).1 (by omega))
  · obtain ⟨_, eof', ran⟩ := first eof told (d + n)
    obtain ⟨_, ends⟩ := rest eof' (told ++ notes) n
    rw [Nat.add_assoc, bind_ok ran, ← List.append_assoc]
    exact ends

theorem Comes.bind_exits (first : Comes p l notes .exits) : Comes (p >>= q) l notes .exits := by
  obtain ⟨c, first⟩ := first
  refine ⟨c, fun eof told n => ⟨fun few => ?_, ?_⟩⟩
  · have out : RunsOut ((p >>= q) ⟨l, eof, n, told⟩) told (notes ++ []) := ((first eof told n).1 few).bind
    rwa [List.append_nil] at out
  · obtain ⟨_, s, ran, rest⟩ := first eof told n
    exact ⟨s, bind_error ran, rest⟩

theorem Comes.bind_hangs (first : Comes p l notes .hangs) : Comes (p >>= q) l notes .hangs := by
  obtain ⟨c, first⟩ := first
  refine ⟨c, fun eof told n => ⟨fun few => ?_, ?_⟩⟩
  · have out : RunsOut ((p >>= q) ⟨l, eof, n, told⟩) told (notes ++ []) := ((first eof told n).1 few).bind
    rwa [List.append_nil] at out
  · obtain ⟨_, s, ran, rest⟩ := first eof told n
    exact ⟨s, bind_error ran, rest⟩

/-- A step that tells nothing. -/
theorem Comes.step {o : Outcome α γ} (first : Comes p l [] (.returns b l')) (rest : Comes (q b) l' notes o) :
    Comes (p >>= q) l notes o := Comes.bind first rest

end Bind

/-! ### The operations -/

/-- An operation that makes no read. -/
theorem comes_free {p : Reader α κ β} {l : List α} {notes : List κ} {o : Outcome α β}
    (h : ∀ eof told n, Ends (p ⟨l, eof, n, told⟩) (told ++ notes) n o) : Comes p l notes o := by
  refine ⟨0, fun eof told n => ⟨fun few => absurd few (Nat.not_lt_zero n), ?_⟩⟩
  rw [Nat.zero_add]
  exact h eof told n

theorem comes_pure (b : β) (l : List α) : Comes (pure b : Reader α κ β) l [] (.returns b l) :=
  comes_free fun eof _ _ => ⟨eof, by rw [List.append_nil]; rfl⟩

theorem comes_exit (l : List α) : Comes (exit : Reader α κ β) l [] .exits :=
  comes_free fun _ told _ => ⟨_, rfl, (List.append_nil told).symm⟩

theorem comes_hang (l : List α) : Comes (hang : Reader α κ β) l [] .hangs :=
  comes_free fun _ told _ => ⟨_, rfl, (List.append_nil told).symm⟩

theorem comes_tell (note : κ) (l : List α) : Comes (tell note) l [note] (.returns () l) :=
  comes_free fun eof _ _ => ⟨eof, rfl⟩

theorem comes_unget (c : α) (l : List α) : Comes (ungetc (some c) : Reader α κ Unit) l [] (.returns () (c :: l)) :=
  comes_free fun _ _ _ => ⟨false, by rw [List.append_nil]; rfl⟩

/-- An operation that makes one read. -/
theorem comes_read {p : Reader α κ β} {l : List α} {o : Outcome α β}
    (out : ∀ eof told, p ⟨l, eof, 0, told⟩ = .error .outOfReads ⟨l, eof, 0, told⟩)
    (h : ∀ eof told n, Ends (p ⟨l, eof, n + 1, told⟩) told n o) : Comes p l [] o := by
  refine ⟨1, fun eof told n => ⟨fun few => ?_, ?_⟩⟩
  · obtain rfl : n = 0 := by omega
    exact ⟨_, [], out eof told, List.nil_prefix, (List.append_nil told).symm⟩
  · rw [Nat.add_comm, List.append_nil]
    exact h eof told n

theorem comes_fgetc (c : α) (l : List α) : Comes (fgetc : Reader α κ (Option α)) (c :: l) [] (.returns (some c) l) :=
  comes_read (fun _ _ => rfl) fun _ _ _ => ⟨false, rfl⟩

theorem comes_fgetc_end : Comes (fgetc : Reader α κ (Option α)) [] [] (.returns none []) :=
  comes_read (fun _ _ => rfl) fun _ _ _ => ⟨true, rfl⟩

/-- A read takes the head of what is left, if there is one. -/
theorem comes_fgetc_head (l : List α) : Comes (fgetc : Reader α κ (Option α)) l [] (.returns l.head? l.tail) := by
  cases l with
  | nil => exact comes_fgetc_end
  | cons c l => exact comes_fgetc c l

theorem comes_unget_head (l : List α) : Comes (ungetc l.head? : Reader α κ Unit) l.tail [] (.returns () l) := by
  cases l with
  | nil => exact comes_pure () []
  | cons c l => exact comes_unget c l

/-! ### Loops -/

section Loop
variable {body : σ → Reader α κ (σ ⊕ β)} {l l' : List α} {notes more : List κ} {x y : σ} {b : β}

theorem Comes.loop_on {o : Outcome α β} (pays : ∀ x, Pays (body x)) (first : Comes (body x) l notes (.returns (.inl y) l'))
    (rest : Comes (loop body y) l' more o) : Comes (loop body x) l (notes ++ more) o := by
  rw [loop_eq pays]
  exact first.bind rest

theorem Comes.loop_step {o : Outcome α β} (pays : ∀ x, Pays (body x)) (first : Comes (body x) l [] (.returns (.inl y) l'))
    (rest : Comes (loop body y) l' notes o) : Comes (loop body x) l notes o := Comes.loop_on pays first rest

theorem Comes.loop_returns (pays : ∀ x, Pays (body x)) (last : Comes (body x) l notes (.returns (.inr b) l')) :
    Comes (loop body x) l notes (.returns b l') := by
  rw [loop_eq pays, ← List.append_nil notes]
  exact last.bind (comes_pure b l')

theorem Comes.loop_exits (pays : ∀ x, Pays (body x)) (last : Comes (body x) l notes .exits) :
    Comes (loop body x) l notes .exits := by
  rw [loop_eq pays]
  exact last.bind_exits

theorem Comes.loop_hangs (pays : ∀ x, Pays (body x)) (last : Comes (body x) l notes .hangs) :
    Comes (loop body x) l notes .hangs := by
  rw [loop_eq pays]
  exact last.bind_hangs

/-- A round that leaves everything as it was is taken for ever. -/
theorem Comes.loop_forever (pays : ∀ x, Pays (body x)) (same : Comes (body x) l [] (.returns (.inl x) l)) :
    Comes (loop body x) l [] .hangs := by
  obtain ⟨c, same⟩ := same
  refine comes_free fun eof told n => ?_
  rw [List.append_nil]
  induction n using Nat.strong_induction_on generalizing eof with
  | _ n ih =>
    rw [loop_eq pays]
    by_cases few : n < c
    · obtain ⟨s, first, ran, begins, rest⟩ := (same eof told n).1 few
      refine ⟨s, bind_error ran, ?_⟩
      rw [rest, List.prefix_nil.mp begins, List.append_nil]
    · obtain ⟨m, rfl⟩ := Nat.exists_eq_add_of_le (not_lt.mp few)
      obtain ⟨_, eof', ran⟩ := same eof told m
      rw [List.append_nil] at ran
      rw [bind_ok ran]
      exact ih m ((pays x).on ran) eof'

end Loop

end Reads
