import Mathlib

/-!
# Commands that take several writes

A command is a list of tests, one for each of its writes. A write that does not go on with the command
under way aborts it.
-/

namespace Commands

variable {W : Type}

abbrev Command (W : Type) := List (W → Bool)

/-- Some writes are the first ones of a command. -/
def begins : Command W → List W → Bool
  | _, [] => true
  | [], _ :: _ => false
  | test :: tests, w :: ws => test w && begins tests ws

/-- Some writes are a command. -/
def whole (c : Command W) (ws : List W) : Bool := ws.length = c.length && begins c ws

/-- Some writes are the first ones of a command, which needs more. -/
def started (cs : List (Command W)) (ws : List W) : Bool := cs.any fun c => ws.length < c.length && begins c ws

/-- The writes of the command under way, after one more. It starts anew when the command is complete or aborted. -/
def follow (cs : List (Command W)) (under : List W) (w : W) : List W := if started cs (under ++ [w]) then under ++ [w] else []

def pending (cs : List (Command W)) (ws : List W) : List W := ws.foldl (follow cs) []

@[simp] theorem pending_snoc (cs : List (Command W)) (ws : List W) (w : W) :
    pending cs (ws ++ [w]) = follow cs (pending cs ws) w := List.foldl_append

theorem pending_suffix (cs : List (Command W)) (ws : List W) : pending cs ws <:+ ws := by
  induction ws using List.reverseRecOn with
  | nil => exact List.suffix_refl []
  | append_singleton ws w ih =>
    rw [pending_snoc, follow]
    split
    · obtain ⟨before, is⟩ := ih
      exact ⟨before, by rw [← List.append_assoc, is]⟩
    · exact List.nil_suffix

/-- What completes a command has its writes without anything between them. -/
theorem whole_suffix (cs : List (Command W)) {ws : List W} {w : W} {c : Command W} (done : whole c (pending cs ws ++ [w]) = true) :
    ∃ p, p <:+ ws ++ [w] ∧ whole c p = true := by
  obtain ⟨before, is⟩ := pending_suffix cs ws
  exact ⟨pending cs ws ++ [w], ⟨before, by rw [← List.append_assoc, is]⟩, done⟩

end Commands
