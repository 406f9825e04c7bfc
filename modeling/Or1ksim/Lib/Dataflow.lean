import Mathlib.Order.WellFounded

/-!
# Systems of equations

The values of a dataflow graph solve a system with one equation for each node. Without cycles there is one solution,
and a change of an equation is seen only where its node is read.
-/

namespace Dataflow

/-- An equation for each node, and which nodes it reads. -/
structure System (ν α : Type) where
  eqn : ν → (ν → α) → α
  Reads : ν → ν → Prop
  reads_eq : ∀ n v w, (∀ m, Reads n m → v m = w m) → eqn n v = eqn n w

section
variable {ν α : Type} {s s' : System ν α} {P Q : ν → Prop} {v w : ν → α} {n m : ν}

/-- The equations of these nodes hold. -/
def System.Solves (s : System ν α) (P : ν → Prop) (v : ν → α) : Prop := ∀ n, P n → v n = s.eqn n v

def System.Acyclic (s : System ν α) : Prop := WellFounded fun m n => s.Reads n m

/-- The nodes read only one another. -/
def System.Closed (s : System ν α) (P : ν → Prop) : Prop := ∀ n m, P n → s.Reads n m → P m

theorem acyclic_of_rank (rank : ν → Nat) (lower : ∀ n m, s.Reads n m → rank m < rank n) : s.Acyclic :=
  Subrelation.wf (fun {m n} reads => lower n m reads) (InvImage.wf rank Nat.lt_wfRel.wf)

theorem Solves.mono (solves : s.Solves P v) (sub : ∀ n, Q n → P n) : s.Solves Q v := fun n inside => solves n (sub n inside)

/-- Two solutions agree on nodes that read only one another. -/
theorem solutions_agree (acyclic : s.Acyclic) (closed : s.Closed P) (solves : s.Solves P v) (solves' : s.Solves P w) :
    ∀ n, P n → v n = w n := by
  intro n
  induction n using acyclic.induction with
  | h n ih =>
    intro inside
    rw [solves n inside, solves' n inside]
    exact s.reads_eq n v w fun m reads => ih m reads (closed n m inside reads)

theorem exists_solution (acyclic : s.Acyclic) (a : α) : ∃ v, ∀ n, v n = s.eqn n v := by
  classical
  let step : ∀ n, (∀ m, s.Reads n m → α) → α := fun n below => s.eqn n fun m => if reads : s.Reads n m then below m reads else a
  refine ⟨acyclic.fix step, fun n => ?_⟩
  rw [acyclic.fix_eq]
  exact s.reads_eq n _ _ fun m reads => dif_pos reads

/-- Where no other node reads `n`, the other nodes read only one another. -/
theorem closed_ne (alone : ∀ m, P m → ¬s.Reads m n) (closed : s.Closed P) : s.Closed fun m => P m ∧ m ≠ n := by
  rintro m k ⟨inside, -⟩ reads
  exact ⟨closed m k inside reads, fun same => alone m inside (same ▸ reads)⟩

end

end Dataflow
