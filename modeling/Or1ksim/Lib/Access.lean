import Or1ksim.Lib.Prog
import Or1ksim.Lib.Serial

/-!
# Computations that record where they touch a buffer

A computation reads and writes a buffer only at positions that it names, next to a state of its own. It
is run either for its result or for the positions touched until it ends.
-/

namespace Serial

open Programs (Sim)

variable {σ ε α β : Type}

/-- The positions touched, and the result with the buffer. -/
def Access (σ ε α : Type) := Buffer → σ → List Nat × Except ε ((α × Buffer) × σ)

namespace Access

def run (p : Access σ ε α) (b : Buffer) : Sim σ ε (α × Buffer) := fun s => (p b s).2

def touched (p : Access σ ε α) (b : Buffer) (s : σ) : List Nat := (p b s).1

def bind (p : Access σ ε α) (f : α → Access σ ε β) : Access σ ε β := fun b s =>
  match p b s with
  | (ks, .error e) => (ks, .error e)
  | (ks, .ok ((a, b'), s')) => (ks ++ (f a b' s').1, (f a b' s').2)

instance : Monad (Access σ ε) where
  pure a := fun b s => ([], .ok ((a, b), s))
  bind := bind

/-- What a buffer has at some positions, with zeros elsewhere. -/
def only (ks : List Nat) (b : Buffer) : Buffer := fun k => if k ∈ ks then b k else 0

def view (ks : List Nat) (f : Buffer → α) : Access σ ε α := fun b s => (ks, .ok ((f (only ks b), b), s))

def edit (ks : List Nat) (f : Buffer → Buffer) : Access σ ε Unit := fun b s =>
  (ks, .ok (((), fun k => if k ∈ ks then f (only ks b) k else b k), s))

/-- A value and an edit at once. -/
def act (ks : List Nat) (f : Buffer → α × Buffer) : Access σ ε α := fun b s =>
  (ks, .ok (((f (only ks b)).1, fun k => if k ∈ ks then (f (only ks b)).2 k else b k), s))

/-- A step that does not touch the buffer. -/
def lift (m : Sim σ ε α) : Access σ ε α := fun b s => ([], (m >>= fun a => pure (a, b)) s)

/-! ### Running -/

@[simp] theorem run_pure (a : α) (b : Buffer) : (pure a : Access σ ε α).run b = pure (a, b) := rfl

@[simp] theorem run_lift (m : Sim σ ε α) (b : Buffer) : (lift m).run b = m >>= fun a => pure (a, b) := rfl

@[simp] theorem run_bind (p : Access σ ε α) (f : α → Access σ ε β) (b : Buffer) :
    (p >>= f).run b = p.run b >>= fun r => (f r.1).run r.2 := by
  funext s
  show (bind p f b s).2 = ((p b s).2 >>= fun r => (f r.1.1 r.1.2 r.2).2)
  unfold bind
  rcases p b s with ⟨ks, _ | ⟨⟨a, b'⟩, s'⟩⟩ <;> rfl

theorem mem_bind {p : Access σ ε α} {f : α → Access σ ε β} {b : Buffer} {s : σ} {k : Nat} :
    k ∈ (p >>= f).touched b s ↔
      k ∈ p.touched b s ∨ ∃ a b' s', p.run b s = .ok ((a, b'), s') ∧ k ∈ (f a).touched b' s' := by
  show k ∈ (bind p f b s).1 ↔ k ∈ (p b s).1 ∨ ∃ a b' s', (p b s).2 = .ok ((a, b'), s') ∧ k ∈ (f a b' s').1
  unfold bind
  rcases p b s with ⟨ks, _ | ⟨⟨a, b'⟩, s'⟩⟩
  · simp
  · simp

@[simp] theorem touched_pure (a : α) (b : Buffer) (s : σ) : (pure a : Access σ ε α).touched b s = [] := rfl

@[simp] theorem touched_lift (m : Sim σ ε α) (b : Buffer) (s : σ) : (lift m).touched b s = [] := rfl

@[simp] theorem touched_view (ks : List Nat) (f : Buffer → α) (b : Buffer) (s : σ) :
    (view ks f : Access σ ε α).touched b s = ks := rfl

@[simp] theorem touched_edit (ks : List Nat) (f : Buffer → Buffer) (b : Buffer) (s : σ) :
    (edit ks f : Access σ ε Unit).touched b s = ks := rfl

@[simp] theorem touched_act (ks : List Nat) (f : Buffer → α × Buffer) (b : Buffer) (s : σ) :
    (act ks f : Access σ ε α).touched b s = ks := rfl

/-- Nothing is touched from a position on. -/
def Below (len : Nat) (p : Access σ ε α) : Prop := ∀ b s, ∀ k ∈ p.touched b s, k < len

theorem Below.pure (len : Nat) (a : α) : Below len (pure a : Access σ ε α) := fun _ _ _ none => absurd none List.not_mem_nil

theorem Below.lift (len : Nat) (m : Sim σ ε α) : Below len (lift m) := fun _ _ _ none => absurd none List.not_mem_nil

theorem Below.bind {len : Nat} {p : Access σ ε α} {f : α → Access σ ε β} (first : Below len p) (rest : ∀ a, Below len (f a)) :
    Below len (p >>= f) := by
  intro b s k touched
  rcases mem_bind.mp touched with here | ⟨a, b', s', _, later⟩
  · exact first b s k here
  · exact rest a b' s' k later

/-! ### Functions that keep to some positions -/

def Agree (ks : List Nat) (b b' : Buffer) : Prop := ∀ k ∈ ks, b k = b' k

def ReadsOnly (ks : List Nat) (f : Buffer → α) : Prop := ∀ b b', Agree ks b b' → f b = f b'

structure KeepsTo (ks : List Nat) (f : Buffer → Buffer) : Prop where
  elsewhere : ∀ b, ∀ k ∉ ks, f b k = b k
  reads : ∀ b b', Agree ks b b' → Agree ks (f b) (f b')

variable {ks : List Nat}

theorem agree_only (ks : List Nat) (b : Buffer) : Agree ks (only ks b) b := fun _ inside => if_pos inside

theorem run_view {f : Buffer → α} (reads : ReadsOnly ks f) (b : Buffer) : (view ks f : Access σ ε α).run b = pure (f b, b) := by
  have same : f (only ks b) = f b := reads _ _ (agree_only ks b)
  show (fun s => Except.ok ((f (only ks b), b), s)) = _
  rw [same]
  rfl

theorem KeepsTo.only {f : Buffer → Buffer} (keeps : KeepsTo ks f) (b : Buffer) :
    (fun k => if k ∈ ks then f (Access.only ks b) k else b k) = f b := by
  funext k
  split
  · next inside => exact keeps.reads _ _ (agree_only ks b) k inside
  · next outside => exact (keeps.elsewhere b k outside).symm

theorem run_edit {f : Buffer → Buffer} (keeps : KeepsTo ks f) (b : Buffer) : (edit ks f : Access σ ε Unit).run b = pure ((), f b) := by
  show (fun s => Except.ok (((), fun k => if k ∈ ks then f (Access.only ks b) k else b k), s)) = _
  rw [keeps.only]
  rfl

theorem run_act {f : Buffer → α × Buffer} (reads : ReadsOnly ks fun b => (f b).1) (keeps : KeepsTo ks fun b => (f b).2) (b : Buffer) :
    (act ks f : Access σ ε α).run b = pure (f b) := by
  have same : (f (Access.only ks b)).1 = (f b).1 := reads _ _ (agree_only ks b)
  show (fun s => Except.ok (((f (Access.only ks b)).1, fun k => if k ∈ ks then (f (Access.only ks b)).2 k else b k), s)) = _
  rw [same, keeps.only]
  rfl

theorem mem_view_bind {f : Buffer → α} (reads : ReadsOnly ks f) {g : α → Access σ ε β} {b : Buffer} {s : σ} {k : Nat} :
    k ∈ (view ks f >>= g).touched b s ↔ k ∈ ks ∨ k ∈ (g (f b)).touched b s := by
  rw [mem_bind, run_view reads]
  refine or_congr_right ⟨?_, fun later => ⟨_, _, _, rfl, later⟩⟩
  rintro ⟨a, b', s', ran, later⟩
  cases ran
  exact later

theorem Agree.mono {ks' : List Nat} {b b' : Buffer} (agree : Agree ks' b b') (sub : ∀ k ∈ ks, k ∈ ks') : Agree ks b b' :=
  fun k inside => agree k (sub k inside)

theorem ReadsOnly.mono {ks' : List Nat} {f : Buffer → α} (reads : ReadsOnly ks f) (sub : ∀ k ∈ ks, k ∈ ks') : ReadsOnly ks' f :=
  fun b b' agree => reads b b' (agree.mono sub)

theorem ReadsOnly.map {f : Buffer → α} (reads : ReadsOnly ks f) (g : α → β) : ReadsOnly ks fun b => g (f b) :=
  fun b b' agree => congrArg g (reads b b' agree)

theorem KeepsTo.id (ks : List Nat) : KeepsTo ks fun b => b := ⟨fun _ _ _ => rfl, fun _ _ agree => agree⟩

theorem KeepsTo.comp {f g : Buffer → Buffer} (keepsG : KeepsTo ks g) (keepsF : KeepsTo ks f) : KeepsTo ks fun b => g (f b) where
  elsewhere b k outside := (keepsG.elsewhere _ k outside).trans (keepsF.elsewhere b k outside)
  reads b b' agree := keepsG.reads _ _ (keepsF.reads b b' agree)

theorem KeepsTo.mono {ks' : List Nat} {f : Buffer → Buffer} (keeps : KeepsTo ks f) (sub : ∀ k ∈ ks, k ∈ ks') : KeepsTo ks' f where
  elsewhere b k outside := keeps.elsewhere b k fun inside => outside (sub k inside)
  reads b b' agree := by
    intro k inside
    by_cases here : k ∈ ks
    · exact keeps.reads b b' (agree.mono sub) k here
    · rw [keeps.elsewhere b k here, keeps.elsewhere b' k here]
      exact agree k inside

/-- A byte is replaced by a function of itself, behind another function. -/
theorem KeepsTo.update {f : Buffer → Buffer} (keeps : KeepsTo ks f) {i : Nat} (inside : i ∈ ks) (g : BitVec 8 → BitVec 8) :
    KeepsTo ks fun b => (f b).put i (g (f b i)) where
  elsewhere b k outside := by
    have other : k ≠ i := by
      rintro rfl
      exact outside inside
    rw [Buffer.put_other _ _ other]
    exact keeps.elsewhere b k outside
  reads b b' agree := by
    have before := keeps.reads b b' agree
    intro k here
    show (if k = i then _ else _) = if k = i then _ else _
    rw [before i inside, before k here]

theorem KeepsTo.put {f : Buffer → Buffer} (keeps : KeepsTo ks f) {i : Nat} (inside : i ∈ ks) (value : BitVec 8) :
    KeepsTo ks fun b => (f b).put i value := keeps.update inside fun _ => value

end Access

end Serial
