import Mathlib

/-!
# Serial registers

A shift register in a buffer of bytes: the byte at offset zero and the least significant bit of a byte
are shifted first, and a value is shifted with its most significant bit first. Cyclic redundancy
checks run over the bits in the order in which they are shifted.
-/

namespace Serial

/-! ### Buffers -/

abbrev Buffer := Nat → BitVec 8

namespace Buffer

/-- The bit that is shifted after `k` others. -/
def bit (b : Buffer) (k : Nat) : Bool := (b (k / 8)).getLsbD (k % 8)

def put (b : Buffer) (i : Nat) (value : BitVec 8) : Buffer := fun k => if k = i then value else b k

@[simp] theorem put_self (b : Buffer) (i : Nat) (value : BitVec 8) : b.put i value i = value := if_pos rfl

@[simp] theorem put_other (b : Buffer) {i k : Nat} (value : BitVec 8) (other : k ≠ i) : b.put i value k = b k := if_neg other

theorem bit_put (b : Buffer) (i : Nat) (value : BitVec 8) (k : Nat) :
    (b.put i value).bit k = if k / 8 = i then value.getLsbD (k % 8) else b.bit k := by
  unfold bit put
  split <;> rfl

/-- The bits of a field, in the order in which they are shifted. -/
def bits (b : Buffer) (off n : Nat) : List Bool := (List.range n).map fun k => b.bit (off + k)

@[simp] theorem bits_length (b : Buffer) (off n : Nat) : (b.bits off n).length = n := by
  unfold bits
  rw [List.length_map, List.length_range]

theorem bits_add (b : Buffer) (off n m : Nat) : b.bits off (n + m) = b.bits off n ++ b.bits (off + n) m := by
  unfold bits
  rw [List.range_add, List.map_append, List.map_map]
  congr 1
  apply List.map_congr_left
  intro k _
  show b.bit (off + (n + k)) = b.bit (off + n + k)
  rw [Nat.add_assoc]

theorem bits_congr {b b' : Buffer} {off off' n : Nat} (same : ∀ k < n, b'.bit (off' + k) = b.bit (off + k)) :
    b'.bits off' n = b.bits off n :=
  List.map_congr_left fun k inside => same k (List.mem_range.mp inside)

theorem getD_bits (b : Buffer) (off : Nat) {n k : Nat} (inside : k < n) : (b.bits off n).getD k false = b.bit (off + k) := by
  rw [List.getD_eq_getElem _ _ (by rw [bits_length]; exact inside)]
  unfold bits
  rw [List.getElem_map, List.getElem_range]

theorem bits_eq_iff (b : Buffer) (off : Nat) (l : List Bool) :
    b.bits off l.length = l ↔ ∀ k < l.length, b.bit (off + k) = l.getD k false := by
  constructor
  · intro same k inside
    have here := b.getD_bits off inside
    rw [same] at here
    exact here.symm
  · intro same
    apply List.ext_getElem (bits_length _ _ _)
    intro k _ inside
    have here := same k inside
    rw [← b.getD_bits off inside, List.getD_eq_getElem _ _ (by rwa [bits_length]), List.getD_eq_getElem _ _ inside] at here
    exact here

theorem ext_bit {b b' : Buffer} (same : ∀ k, b.bit k = b'.bit k) : b = b' := by
  funext i
  apply BitVec.eq_of_getLsbD_eq
  intro j inside
  have here := same (8 * i + j)
  unfold bit at here
  rwa [show (8 * i + j) / 8 = i by omega, show (8 * i + j) % 8 = j by omega] at here

def tabulate (f : Nat → Bool) : Buffer := fun i => BitVec.ofFnLE fun j : Fin 8 => f (8 * i + j)

@[simp] theorem bit_tabulate (f : Nat → Bool) (k : Nat) : (tabulate f).bit k = f k := by
  unfold bit tabulate
  rw [BitVec.getLsbD_eq_getElem (Nat.mod_lt k (by decide)), BitVec.getElem_ofFnLE _ _ (Nat.mod_lt k (by decide))]
  congr 1
  exact Nat.div_add_mod k 8

/-- The buffer that begins with some bits, with zeros behind them. -/
def ofBits (bits : List Bool) : Buffer := tabulate fun k => bits.getD k false

/-- Some bits replace a field. -/
def overlay (b : Buffer) (off : Nat) (bits : List Bool) : Buffer :=
  tabulate fun k => if off ≤ k ∧ k < off + bits.length then bits.getD (k - off) false else b.bit k

/-- Some bits are OR-ed into a field. -/
def merge (b : Buffer) (off : Nat) (bits : List Bool) : Buffer :=
  tabulate fun k => b.bit k || (decide (off ≤ k) && bits.getD (k - off) false)

theorem bit_overlay (b : Buffer) (off : Nat) (bits : List Bool) (k : Nat) :
    (b.overlay off bits).bit k = if off ≤ k ∧ k < off + bits.length then bits.getD (k - off) false else b.bit k := bit_tabulate _ k

theorem bit_merge (b : Buffer) (off : Nat) (bits : List Bool) (k : Nat) :
    (b.merge off bits).bit k = (b.bit k || (decide (off ≤ k) && bits.getD (k - off) false)) := bit_tabulate _ k

@[simp] theorem overlay_nil (b : Buffer) (off : Nat) : b.overlay off [] = b := by
  apply ext_bit
  intro k
  rw [bit_overlay, List.length_nil, if_neg (by omega)]

theorem overlay_append (b : Buffer) (off : Nat) (bits bits' : List Bool) :
    (b.overlay off bits).overlay (off + bits.length) bits' = b.overlay off (bits ++ bits') := by
  apply ext_bit
  intro k
  rw [bit_overlay, bit_overlay, bit_overlay, List.length_append]
  by_cases first : off ≤ k ∧ k < off + bits.length
  · rw [if_neg (by omega), if_pos first, if_pos (by omega), List.getD_append _ _ _ _ (by omega)]
  · by_cases second : off + bits.length ≤ k ∧ k < off + bits.length + bits'.length
    · rw [if_pos second, if_pos (by omega), List.getD_append_right _ _ _ _ (by omega),
        show k - (off + bits.length) = k - off - bits.length by omega]
    · rw [if_neg second, if_neg first, if_neg (by omega)]

end Buffer

/-! ### Values -/

/-- The low bits of a value, the most significant first. -/
def msbFirst (n : Nat) {w : Nat} (v : BitVec w) : List Bool := (List.range n).map fun k => v.getLsbD (n - 1 - k)

@[simp] theorem length_msbFirst (n : Nat) {w : Nat} (v : BitVec w) : (msbFirst n v).length = n := by
  unfold msbFirst
  rw [List.length_map, List.length_range]

theorem getD_msbFirst {n k w : Nat} (v : BitVec w) (inside : k < n) : (msbFirst n v).getD k false = v.getLsbD (n - 1 - k) := by
  rw [List.getD_eq_getElem _ _ (by rw [length_msbFirst]; exact inside)]
  unfold msbFirst
  rw [List.getElem_map, List.getElem_range]

/-- A field of a buffer shows the low bits of a value. -/
def Shows (b : Buffer) (off n : Nat) {w : Nat} (v : BitVec w) : Prop := ∀ k < n, b.bit (off + k) = v.getLsbD (n - 1 - k)

theorem Shows.bits {b : Buffer} {off n w : Nat} {v : BitVec w} (shows : Shows b off n v) : b.bits off n = msbFirst n v :=
  List.map_congr_left fun k inside => shows k (List.mem_range.mp inside)

theorem Shows.unique {b : Buffer} {off n : Nat} {v v' : BitVec n} (shows : Shows b off n v) (shows' : Shows b off n v') : v' = v := by
  apply BitVec.eq_of_getLsbD_eq
  intro i inside
  have here := (shows (n - 1 - i) (by omega)).symm.trans (shows' (n - 1 - i) (by omega))
  rw [show n - 1 - (n - 1 - i) = i by omega] at here
  exact here.symm

theorem Shows.setWidth {b : Buffer} {off n w : Nat} {v : BitVec w} (shows : Shows b off n v) {w' : Nat} (fits : n ≤ w') :
    Shows b off n (v.setWidth w') := by
  intro k inside
  rw [BitVec.getLsbD_setWidth, decide_eq_true (by omega), Bool.true_and]
  exact shows k inside

/-- The value that a field shows. -/
def Buffer.value (b : Buffer) (off n : Nat) : BitVec n := BitVec.ofFnLE fun i : Fin n => b.bit (off + (n - 1 - i))

theorem Buffer.getLsbD_value (b : Buffer) (off n : Nat) {i : Nat} (inside : i < n) :
    (b.value off n).getLsbD i = b.bit (off + (n - 1 - i)) := by
  unfold Buffer.value
  rw [BitVec.getLsbD_eq_getElem inside]
  exact BitVec.getElem_ofFnLE _ _ inside

theorem shows_value (b : Buffer) (off n : Nat) : Shows b off n (b.value off n) := by
  intro k inside
  rw [b.getLsbD_value off n (by omega), show n - 1 - (n - 1 - k) = k by omega]

theorem Shows.value {b : Buffer} {off n : Nat} {v : BitVec n} (shows : Shows b off n v) : b.value off n = v :=
  shows.unique (shows_value b off n)

/-! ### Cyclic redundancy checks -/

section Crc
variable {w : Nat} (poly : BitVec w)

def crcStep (crc : BitVec w) (d : Bool) : BitVec w := (crc <<< 1) ^^^ if d != crc.msb then poly else 0

def crc (seed : BitVec w) (bits : List Bool) : BitVec w := bits.foldl (crcStep poly) seed

@[simp] theorem crc_nil (seed : BitVec w) : crc poly seed [] = seed := rfl

theorem crc_append (seed : BitVec w) (bits bits' : List Bool) :
    crc poly seed (bits ++ bits') = crc poly (crc poly seed bits) bits' := List.foldl_append

variable {poly}

/-- A bit can be shifted back, because the polynomial has a constant term. -/
theorem crcStep_injective (odd : poly.getLsbD 0 = true) {d : Bool} {a b : BitVec w} (same : crcStep poly a d = crcStep poly b d) :
    a = b := by
  have low (x : BitVec w) : (crcStep poly x d).getLsbD 0 = (d != x.msb) := by
    unfold crcStep
    rw [BitVec.getLsbD_xor]
    cases d != x.msb <;> simp [odd]
  have tops : a.msb = b.msb := by
    have := congrArg (fun x => BitVec.getLsbD x 0) same
    rw [low, low] at this
    simpa using this
  have shifted : a <<< 1 = b <<< 1 := by
    unfold crcStep at same
    rw [tops] at same
    exact BitVec.xor_left_inj _ |>.mp same
  apply BitVec.eq_of_getLsbD_eq
  intro i inside
  by_cases last : i + 1 < w
  · have here := congrArg (fun x => BitVec.getLsbD x (i + 1)) shifted
    rw [BitVec.getLsbD_shiftLeft, BitVec.getLsbD_shiftLeft] at here
    simpa only [last, Nat.add_sub_cancel, decide_true, Bool.true_and, show ¬ i + 1 < 1 by omega, decide_false, Bool.not_false] using here
  · rw [BitVec.msb_eq_getLsbD_last, BitVec.msb_eq_getLsbD_last] at tops
    rw [show i = w - 1 by omega]
    exact tops

theorem crc_injective (odd : poly.getLsbD 0 = true) (bits : List Bool) {a b : BitVec w} (same : crc poly a bits = crc poly b bits) :
    a = b := by
  induction bits generalizing a b with
  | nil => exact same
  | cons d bits ih => exact crcStep_injective odd (ih same)

end Crc

end Serial
