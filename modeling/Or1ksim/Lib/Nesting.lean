import Mathlib

/-!
# Nested calls

Calls are entered and returned from, and a return may close several calls at once. The own time of a call is its duration without the
durations of the calls that it made itself, and own times add up to the durations of the outermost calls.
-/

namespace Or1ksim.Nesting

variable {φ ρ : Type}

/-- A call that has returned. -/
structure Call (φ : Type) where
  function : φ
  start : Nat
  finish : Nat
  deriving DecidableEq, Repr

def Call.duration (c : Call φ) : Nat := c.finish - c.start

def total (cs : List (Call φ)) : Nat := (cs.map Call.duration).sum

/-- A call that is open: where it returns to, and the calls that it has made and that have returned. -/
structure OpenCall (φ ρ : Type) where
  function : φ
  returnsTo : ρ
  start : Nat
  callees : List (Call φ)

/-- The open calls from the innermost on, the closed ones in the order of their returns, each with the calls that it made itself, and
those among them that were made by no other. -/
structure Calls (φ ρ : Type) where
  opened : List (OpenCall φ ρ)
  closed : List (Call φ × List (Call φ))
  outermost : List (Call φ)

namespace Calls

def none : Calls φ ρ := ⟨[], [], []⟩

def enter (f : φ) (r : ρ) (t : Nat) (s : Calls φ ρ) : Calls φ ρ := { s with opened := ⟨f, r, t, []⟩ :: s.opened }

/-- The innermost call is told that a call has returned to it. -/
def record (call : Call φ) : List (OpenCall φ ρ) → List (OpenCall φ ρ)
  | [] => []
  | caller :: rest => { caller with callees := caller.callees ++ [call] } :: rest

def close (t : Nat) (s : Calls φ ρ) : Calls φ ρ :=
  match s.opened with
  | [] => s
  | c :: rest =>
    let call : Call φ := ⟨c.function, c.start, t⟩
    { opened := record call rest
      closed := s.closed ++ [(call, c.callees)]
      outermost := if rest.isEmpty then s.outermost ++ [call] else s.outermost }

def closeMany (t : Nat) : Nat → Calls φ ρ → Calls φ ρ
  | 0, s => s
  | n + 1, s => closeMany t n (s.close t)

/-- A return closes the innermost call that returns there, and all calls inside it. A return that no call waits for is ignored. -/
def leave [DecidableEq ρ] (r : ρ) (t : Nat) (s : Calls φ ρ) : Calls φ ρ :=
  match s.opened.findIdx? fun c => c.returnsTo = r with
  | .none => s
  | some i => s.closeMany t (i + 1)

end Calls

/-- The time of a call without the calls that it made. -/
def own (c : Call φ × List (Call φ)) : Int := c.1.duration - total c.2

@[simp] theorem total_nil : total ([] : List (Call φ)) = 0 := rfl

@[simp] theorem total_snoc (cs : List (Call φ)) (c : Call φ) : total (cs ++ [c]) = total cs + c.duration := by
  unfold total
  rw [List.map_append, List.sum_append]
  rfl

/-! ### Calls follow each other -/

/-- The calls that an open call has made are over before what it is doing now. -/
def Fits : Nat → List (OpenCall φ ρ) → Prop
  | _, [] => True
  | now, c :: rest => c.start + total c.callees ≤ now ∧ Fits c.start rest

theorem Fits.later {now then' : Nat} {cs : List (OpenCall φ ρ)} (fits : Fits now cs) (le : now ≤ then') : Fits then' cs := by
  cases cs with
  | nil => trivial
  | cons c rest => exact ⟨fits.1.trans le, fits.2⟩

theorem Fits.enter {now : Nat} {s : Calls φ ρ} (fits : Fits now s.opened) (f : φ) (r : ρ) : Fits now (s.enter f r now).opened :=
  ⟨le_refl now, fits⟩

theorem Fits.record {t : Nat} {f : φ} {start : Nat} {cs : List (OpenCall φ ρ)} (fits : Fits start cs) (le : start ≤ t) :
    Fits t (Calls.record ⟨f, start, t⟩ cs) := by
  cases cs with
  | nil => trivial
  | cons caller rest =>
    obtain ⟨before, inner⟩ := fits
    refine ⟨?_, inner⟩
    have whole : total (caller.callees ++ [⟨f, start, t⟩]) = total caller.callees + (t - start) := total_snoc _ _
    show caller.start + total (caller.callees ++ [⟨f, start, t⟩]) ≤ t
    omega

theorem Fits.close {t : Nat} {s : Calls φ ρ} (fits : Fits t s.opened) : Fits t (s.close t).opened := by
  obtain ⟨opened, closed, outermost⟩ := s
  cases opened with
  | nil => exact fits
  | cons c rest => exact fits.2.record (le_of_add_le_left fits.1)

theorem Fits.closeMany {t n : Nat} {s : Calls φ ρ} (fits : Fits t s.opened) : Fits t (s.closeMany t n).opened := by
  induction n generalizing s with
  | zero => exact fits
  | succ n ih => exact ih fits.close

theorem Fits.leave [DecidableEq ρ] {t : Nat} {s : Calls φ ρ} (fits : Fits t s.opened) (r : ρ) : Fits t (s.leave r t).opened := by
  unfold Calls.leave
  split
  · exact fits
  · exact fits.closeMany

/-- A call that ends now has taken at least as long as the calls that it made. -/
theorem Fits.own_le {t : Nat} {c : OpenCall φ ρ} {rest : List (OpenCall φ ρ)} (fits : Fits t (c :: rest)) :
    total c.callees ≤ t - c.start :=
  Nat.le_sub_of_add_le' fits.1

/-! ### Own times add up -/

/-- The time of the calls that open calls have made. -/
def called (cs : List (OpenCall φ ρ)) : Nat := (cs.map fun c => total c.callees).sum

theorem called_cons (c : OpenCall φ ρ) (cs : List (OpenCall φ ρ)) : called (c :: cs) = total c.callees + called cs := List.sum_cons

/-- What is charged is what the outermost calls took, and what was called by those that are open. -/
def Balanced (s : Calls φ ρ) : Prop := (s.closed.map own).sum = (total s.outermost : Int) + called s.opened

theorem Balanced.enter {s : Calls φ ρ} (balanced : Balanced s) (f : φ) (r : ρ) (t : Nat) : Balanced (s.enter f r t) := by
  unfold Balanced Calls.enter
  rw [called_cons, total_nil, Nat.zero_add]
  exact balanced

theorem own_snoc (closed : List (Call φ × List (Call φ))) (call : Call φ) (callees : List (Call φ)) :
    ((closed ++ [(call, callees)]).map own).sum = (closed.map own).sum + (call.duration - total callees) := by
  rw [List.map_append, List.sum_append, List.map_singleton, List.sum_singleton, own]

theorem Balanced.close {t : Nat} {s : Calls φ ρ} (balanced : Balanced s) : Balanced (s.close t) := by
  obtain ⟨opened, closed, outermost⟩ := s
  cases opened with
  | nil => exact balanced
  | cons c rest =>
    have balanced : (closed.map own).sum = (total outermost : Int) + called (c :: rest) := balanced
    rw [called_cons] at balanced
    show ((closed ++ [_]).map own).sum = _
    rw [own_snoc, balanced]
    cases rest with
    | nil =>
      show _ = (total (outermost ++ [⟨c.function, c.start, t⟩]) : Int) + called []
      rw [total_snoc]
      omega
    | cons caller rest =>
      show _ = (total outermost : Int) + called ({ caller with callees := caller.callees ++ [⟨c.function, c.start, t⟩] } :: rest)
      rw [called_cons, called_cons, total_snoc]
      omega

theorem Balanced.closeMany {t n : Nat} {s : Calls φ ρ} (balanced : Balanced s) : Balanced (s.closeMany t n) := by
  induction n generalizing s with
  | zero => exact balanced
  | succ n ih => exact ih balanced.close

theorem Balanced.leave [DecidableEq ρ] {s : Calls φ ρ} (balanced : Balanced s) (r : ρ) (t : Nat) : Balanced (s.leave r t) := by
  unfold Calls.leave
  split
  · exact balanced
  · exact balanced.closeMany

end Or1ksim.Nesting
