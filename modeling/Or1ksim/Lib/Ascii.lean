import Mathlib

/-!
# Strings of ASCII

A string of ASCII has one character for each of its bytes. The bytes of a literal are cheap to
evaluate, its characters are not.
-/

namespace Ascii

def bytes (s : String) : List UInt8 := s.toByteArray.data.toList

/-- The bytes of a string as characters. -/
def chars (s : String) : List Char := (bytes s).map Char.ofUInt8

def IsAscii (s : String) : Prop := (bytes s).all (fun b => b.toNat.ble 127) = true

instance (s : String) : Decidable (IsAscii s) := inferInstanceAs (Decidable (_ = true))

theorem utf8EncodeChar_ofUInt8 {b : UInt8} (small : b.toNat < 128) : String.utf8EncodeChar (Char.ofUInt8 b) = [b] := by
  have size : (Char.ofUInt8 b).utf8Size = 1 := by
    rw [Char.utf8Size_eq_one_iff, UInt32.le_iff_toNat_le]
    exact Nat.le_of_lt_succ small
  rw [String.utf8EncodeChar_eq_singleton size]
  exact congrArg (· :: []) (UInt8.toUInt8_toUInt32 b)

theorem toList_eq_chars {s : String} (ascii : IsAscii s) : s.toList = chars s := by
  have encoded : ∀ l : List UInt8, (∀ b ∈ l, b.toNat < 128) → (l.map Char.ofUInt8).flatMap String.utf8EncodeChar = l := by
    intro l
    induction l with
    | nil => exact fun _ => rfl
    | cons b l ih =>
      intro small
      rw [List.map_cons, List.flatMap_cons, utf8EncodeChar_ofUInt8 (small b List.mem_cons_self),
        ih fun c member => small c (.tail _ member)]
      rfl
  have small : ∀ b ∈ bytes s, b.toNat < 128 := fun b member =>
    Nat.lt_succ_of_le (Nat.le_of_ble_eq_true (List.all_eq_true.mp ascii b member))
  have same : String.ofList (chars s) = s := by
    apply String.toByteArray_inj.mp
    apply ByteArray.ext
    rw [String.toByteArray_ofList, List.utf8Encode, chars, encoded _ small, List.data_toByteArray]
    rfl
  calc s.toList = (String.ofList (chars s)).toList := by rw [same]
    _ = chars s := String.toList_ofList

end Ascii
