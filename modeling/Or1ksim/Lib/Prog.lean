import Mathlib

/-!
# Programs over a set of operations

A program is a tree of operations, each followed by a continuation for every response. It runs
against a semantics of its operations as a partial state transformer. What every operation keeps,
every program keeps, so a property of a large family of programs is proved once for each operation.
-/

namespace Programs

inductive Prog (Op : Type) (Resp : Op → Type) (α : Type) : Type where
  | done (a : α)
  | call (o : Op) (next : Resp o → Prog Op Resp α)

variable {Op : Type} {Resp : Op → Type} {α β : Type}

def Prog.bind : Prog Op Resp α → (α → Prog Op Resp β) → Prog Op Resp β
  | .done a, f => f a
  | .call o next, f => .call o fun r => (next r).bind f

instance : Monad (Prog Op Resp) where
  pure := .done
  bind := Prog.bind

def perform (o : Op) : Prog Op Resp (Resp o) := .call o .done

@[simp] theorem pure_bind (a : α) (f : α → Prog Op Resp β) : (pure a : Prog Op Resp α) >>= f = f a := rfl

@[simp] theorem done_bind (a : α) (f : α → Prog Op Resp β) : (Prog.done a : Prog Op Resp α) >>= f = f a := rfl

@[simp] theorem call_bind (o : Op) (next : Resp o → Prog Op Resp α) (f : α → Prog Op Resp β) :
    Prog.call o next >>= f = .call o fun r => next r >>= f := rfl

@[simp] theorem perform_bind (o : Op) (f : Resp o → Prog Op Resp β) :
    perform o >>= f = .call o f := rfl

/-! ### Running -/

/-- State transformers that may stop with an `ε`. -/
abbrev Sim (σ ε : Type) := StateT σ (Except ε)

variable {σ ε : Type}

def Prog.run (sem : (o : Op) → Sim σ ε (Resp o)) : Prog Op Resp α → Sim σ ε α
  | .done a => pure a
  | .call o next => sem o >>= fun r => (next r).run sem

variable {sem : (o : Op) → Sim σ ε (Resp o)}

@[simp] theorem run_pure (a : α) : (pure a : Prog Op Resp α).run sem = pure a := rfl

@[simp] theorem run_done (a : α) : (Prog.done a : Prog Op Resp α).run sem = pure a := rfl

@[simp] theorem run_call (o : Op) (next : Resp o → Prog Op Resp α) :
    (Prog.call o next).run sem = sem o >>= fun r => (next r).run sem := rfl

@[simp] theorem run_perform (o : Op) : (perform o : Prog Op Resp (Resp o)).run sem = sem o := by
  funext s
  show (sem o s >>= fun r => Except.ok (r.1, r.2)) = sem o s
  cases sem o s <;> rfl

@[simp] theorem run_bind (p : Prog Op Resp α) (f : α → Prog Op Resp β) :
    (p >>= f).run sem = p.run sem >>= fun a => (f a).run sem := by
  induction p with
  | done a => simp
  | call o next ih => simp [ih]

/-- A computation that ends in a state moves along `R`. -/
def Keeps (R : σ → σ → Prop) (m : Sim σ ε α) : Prop := ∀ s a s', m s = .ok (a, s') → R s s'

/-- A sequence that ends passed through the state in its middle. -/
theorem bind_ok {m : Sim σ ε α} {f : α → Sim σ ε β} {s s' : σ} {b : β} (ran : (m >>= f) s = .ok (b, s')) :
    ∃ a mid, m s = .ok (a, mid) ∧ f a mid = .ok (b, s') := by
  cases first : m s with
  | error e =>
    have : (m >>= f) s = .error e := by
      show (m s >>= fun r => f r.1 r.2) = _
      rw [first]
      rfl
    rw [this] at ran
    cases ran
  | ok r =>
    refine ⟨r.1, r.2, rfl, ?_⟩
    rw [← ran]
    show f r.1 r.2 = (m s >>= fun r => f r.1 r.2)
    rw [first]
    rfl

theorem bind_of_ok {m : Sim σ ε α} {f : α → Sim σ ε β} {s mid : σ} {a : α} (first : m s = .ok (a, mid)) :
    (m >>= f) s = f a mid := by
  show (m s >>= fun r => f r.1 r.2) = _
  rw [first]
  rfl

theorem bind_of_error {m : Sim σ ε α} {f : α → Sim σ ε β} {s : σ} {e : ε} (first : m s = .error e) : (m >>= f) s = .error e := by
  show (m s >>= fun r => f r.1 r.2) = _
  rw [first]
  rfl

@[simp] theorem pure_apply (a : α) (s : σ) : (pure a : Sim σ ε α) s = .ok (a, s) := rfl

@[simp] theorem pure_bind_apply (a : α) (k : α → Sim σ ε β) (s : σ) : ((pure a : Sim σ ε α) >>= k) s = k a s := rfl

@[simp] theorem modify_apply (f : σ → σ) (s : σ) : (modify f : Sim σ ε PUnit) s = .ok (⟨⟩, f s) := rfl

@[simp] theorem modify_bind (f : σ → σ) (k : PUnit → Sim σ ε β) (s : σ) :
    ((modify f : Sim σ ε PUnit) >>= k) s = k ⟨⟩ (f s) := rfl

@[simp] theorem get_bind (k : σ → Sim σ ε β) (s : σ) : ((get : Sim σ ε σ) >>= k) s = k s s := rfl

@[simp] theorem set_apply (t s : σ) : (set t : Sim σ ε PUnit) s = .ok (⟨⟩, t) := rfl

@[simp] theorem set_bind (t : σ) (k : PUnit → Sim σ ε β) (s : σ) : ((set t : Sim σ ε PUnit) >>= k) s = k ⟨⟩ t := rfl

section Keeps
variable {R : σ → σ → Prop}

theorem Keeps.modify {f : σ → σ} (step : ∀ s, R s (f s)) : Keeps R (modify f : Sim σ ε PUnit) := by
  intro s a s' ran
  cases ran
  exact step s

theorem Keeps.pure (refl : ∀ s, R s s) (a : α) : Keeps R (pure a : Sim σ ε α) := by
  intro s b s' ran
  cases ran
  exact refl s

theorem Keeps.bind (trans : ∀ s t u, R s t → R t u → R s u) {m : Sim σ ε α} {f : α → Sim σ ε β}
    (first : Keeps R m) (rest : ∀ a, Keeps R (f a)) : Keeps R (m >>= f) := by
  intro s b s' ran
  obtain ⟨a, mid, left, right⟩ := bind_ok ran
  exact trans _ _ _ (first _ _ _ left) (rest a _ _ _ right)

theorem Keeps.run (refl : ∀ s, R s s) (trans : ∀ s t u, R s t → R t u → R s u)
    (ops : ∀ o, Keeps R (sem o)) (p : Prog Op Resp α) : Keeps R (p.run sem) := by
  induction p with
  | done a => exact Keeps.pure refl a
  | call o next ih => exact Keeps.bind trans (ops o) ih

end Keeps

/-! ### Programs that use only some operations -/

def Prog.Uses (allowed : Op → Prop) : Prog Op Resp α → Prop
  | .done _ => True
  | .call o next => allowed o ∧ ∀ r, (next r).Uses allowed

section Uses
variable {allowed : Op → Prop} {R : σ → σ → Prop}

theorem Uses.bind {p : Prog Op Resp α} {f : α → Prog Op Resp β} (first : p.Uses allowed)
    (rest : ∀ a, (f a).Uses allowed) : (p >>= f).Uses allowed := by
  induction p with
  | done a => exact rest a
  | call o next ih => exact ⟨first.1, fun r => ih r (first.2 r)⟩

theorem Uses.mono {more : Op → Prop} (weaker : ∀ o, allowed o → more o) {p : Prog Op Resp α} (uses : p.Uses allowed) : p.Uses more := by
  induction p with
  | done a => trivial
  | call o next ih => exact ⟨weaker o uses.1, fun r => ih r (uses.2 r)⟩

theorem Uses.perform {o : Op} (permitted : allowed o) : (perform o : Prog Op Resp (Resp o)).Uses allowed :=
  ⟨permitted, fun _ => trivial⟩

theorem Uses.run (refl : ∀ s, R s s) (trans : ∀ s t u, R s t → R t u → R s u)
    (ops : ∀ o, allowed o → Keeps R (sem o)) {p : Prog Op Resp α} (uses : p.Uses allowed) :
    Keeps R (p.run sem) := by
  induction p with
  | done a => exact Keeps.pure refl a
  | call o next ih => exact Keeps.bind trans (ops o uses.1) fun r => ih r (uses.2 r)

end Uses

/-! ### Notes -/

section
variable {κ : Type}

/-- The semantics that also notes down the operations. -/
def noting (note : Op → List κ) (sem : (o : Op) → Sim σ ε (Resp o)) (o : Op) : Sim (σ × List κ) ε (Resp o) :=
  fun s => (sem o s.1).map fun r => (r.1, r.2, s.2 ++ note o)

theorem run_noting (note : Op → List κ) {p : Prog Op Resp α} {s s' : σ} {log log' : List κ} {a : α}
    (ran : p.run (noting note sem) (s, log) = .ok (a, s', log')) : p.run sem s = .ok (a, s') := by
  induction p generalizing s log with
  | done b =>
    cases ran
    rfl
  | call o next ih =>
    obtain ⟨r, ⟨mid, _⟩, first, rest⟩ := bind_ok ran
    cases answered : sem o s with
    | error stop =>
      have failed : noting note sem o (s, log) = .error stop := congrArg (Except.map _) answered
      rw [failed] at first
      cases first
    | ok answer =>
      have noted : noting note sem o (s, log) = .ok (answer.1, answer.2, log ++ note o) := congrArg (Except.map _) answered
      rw [noted] at first
      cases first
      exact (bind_of_ok answered).trans (ih _ rest)

end

end Programs
