import Mathlib

/-!
# Ring buffers

A buffer of `len` places with the place of the oldest item, the number of items, and the place for the next one. What it
holds is a list: a push adds to its end, and a pop takes its head.
-/

namespace RingBuffer

variable {α : Type*}

/-- The items, from the oldest on. -/
def contents (buf : Nat → α) (len tail full : Nat) : List α := (List.range full).map fun i => buf ((tail + i) % len)

/-- The next item goes behind the last one. -/
structure Valid (len head tail full : Nat) : Prop where
  tail_lt : tail < len
  full_le : full ≤ len
  head_eq : head = (tail + full) % len

variable {buf : Nat → α} {len head tail full : Nat}

@[simp] theorem length_contents : (contents buf len tail full).length = full := by
  unfold contents
  rw [List.length_map, List.length_range]

@[simp] theorem contents_empty : contents buf len tail 0 = [] := rfl

theorem Valid.empty (positive : 0 < len) : Valid len 0 0 0 := ⟨positive, Nat.zero_le _, (Nat.zero_mod _).symm⟩

theorem Valid.positive (valid : Valid len head tail full) : 0 < len := Nat.lt_of_le_of_lt (Nat.zero_le _) valid.tail_lt

/-- Places less than a revolution apart are different. -/
theorem place_ne (tail : Nat) {i j : Nat} (before : i < j) (within : j < i + len) : (tail + i) % len ≠ (tail + j) % len := by
  intro same
  have divides : (tail + j - (tail + i)) % len = 0 := Nat.sub_mod_eq_zero_of_mod_eq same.symm
  rw [show tail + j - (tail + i) = j - i by omega, Nat.mod_eq_of_lt (by omega)] at divides
  omega

/-- A write at the head of a buffer that is not full is not seen. -/
theorem contents_update (valid : Valid len head tail full) (room : full < len) (a : α) :
    contents (Function.update buf head a) len tail full = contents buf len tail full := by
  refine List.map_congr_left fun i inside => ?_
  rw [List.mem_range] at inside
  refine Function.update_of_ne ?_ ..
  rw [valid.head_eq]
  exact place_ne tail inside (by omega)

theorem contents_push (valid : Valid len head tail full) (room : full < len) (a : α) :
    contents (Function.update buf head a) len tail (full + 1) = contents buf len tail full ++ [a] := by
  have last : Function.update buf head a ((tail + full) % len) = a := by
    rw [← valid.head_eq, Function.update_self]
  rw [← contents_update valid room a]
  unfold contents
  rw [List.range_succ, List.map_append, List.map_singleton, last]

theorem Valid.push (valid : Valid len head tail full) (room : full < len) : Valid len ((head + 1) % len) tail (full + 1) :=
  ⟨valid.tail_lt, room, by rw [valid.head_eq, Nat.mod_add_mod, Nat.add_assoc]⟩

theorem contents_pop (below : tail < len) (full : Nat) :
    contents buf len tail (full + 1) = buf tail :: contents buf len ((tail + 1) % len) full := by
  unfold contents
  rw [List.range_succ_eq_map, List.map_cons, List.map_map, Nat.add_zero, Nat.mod_eq_of_lt below]
  refine congrArg _ (List.map_congr_left fun i _ => ?_)
  show buf ((tail + (i + 1)) % len) = buf (((tail + 1) % len + i) % len)
  rw [Nat.mod_add_mod, Nat.add_assoc, Nat.add_comm 1 i]

/-- A write at the tail changes the oldest item. -/
theorem contents_update_tail (below : tail < len) (within : full + 1 ≤ len) (a : α) :
    contents (Function.update buf tail a) len tail (full + 1) = a :: contents buf len ((tail + 1) % len) full := by
  rw [contents_pop below, Function.update_self]
  refine congrArg _ (List.map_congr_left fun i inside => Function.update_of_ne ?_ ..)
  rw [List.mem_range] at inside
  have other : (tail + 0) % len ≠ (tail + (i + 1)) % len := place_ne tail (Nat.succ_pos i) (by omega)
  rw [Nat.add_zero, Nat.mod_eq_of_lt below] at other
  rw [Nat.mod_add_mod, Nat.add_assoc, Nat.add_comm 1 i]
  exact other.symm

theorem Valid.pop (valid : Valid len head tail (full + 1)) : Valid len head ((tail + 1) % len) full :=
  ⟨Nat.mod_lt _ valid.positive, Nat.le_of_succ_le valid.full_le,
    by rw [valid.head_eq, Nat.mod_add_mod, Nat.add_assoc, Nat.add_comm 1 full]⟩

theorem Valid.head_eq_tail (valid : Valid len head tail len) : head = tail := by
  rw [valid.head_eq, Nat.add_mod_right, Nat.mod_eq_of_lt valid.tail_lt]

/-- A write at the head of a full buffer replaces the oldest item. -/
theorem contents_overwrite (valid : Valid len head tail len) (a : α) :
    contents (Function.update buf head a) len tail len = a :: (contents buf len tail len).tail := by
  obtain ⟨full, rfl⟩ := Nat.exists_eq_succ_of_ne_zero valid.positive.ne'
  have popped : Valid (full + 1) head ((tail + 1) % (full + 1)) full := valid.pop
  have first : Function.update buf head a tail = a := by
    rw [valid.head_eq_tail, Function.update_self]
  rw [contents_pop valid.tail_lt, contents_pop valid.tail_lt, contents_update popped (Nat.lt_succ_self full), first, List.tail_cons]

end RingBuffer
