import Or1ksim.Debug.RegisterBlock

/-!
# One register

The packets `p` and `P` of `debug/rsp-server.c`, which read and write one register. What `sscanf` finds in
them is given: the number of the register, and the digits.
-/

namespace Or1ksim.Debug

open Cpu (Word Machine setSpr sprPpc sprSr)

variable {δ : Type}

/-- `rsp_read_reg`: the data of its reply. -/
def rspReadReg (h : Host) (scanned : Option Word) (m : Machine δ) : List Byte :=
  match scanned with
  | none => e01
  | some regnum => if regnum.toNat < numRegs then (List.range 8).map (reg2hex h (gdbReg m regnum.toNat)) else e01

/-- `rsp_write_reg`, with the data of its reply. -/
def rspWriteReg (h : Host) (scanned : Option (Word × (Nat → Byte))) (m : Machine δ) : Machine δ × List Byte :=
  match scanned with
  | none => (m, e01)
  | some (regnum, valstr) =>
    let val := hex2reg h valstr
    if regnum.toNat < 32 then ({ m with reg := fun r => if r = regnum.toNat then val.setWidth 32 else m.reg r }, okReply)
    else if regnum.toNat = ppcRegnum then (setSpr sprPpc (val.setWidth 32) m, okReply)
    else if regnum.toNat = npcRegnum then (setNpc val m, okReply)
    else if regnum.toNat = srRegnum then (setSpr sprSr (val.setWidth 32) m, okReply)
    else (m, e01)

variable {h : Host} {m : Machine δ} {regnum : Word} {valstr : Nat → Byte}

theorem reg2hex_holds (h : Host) (val : Word) : Holds h (reg2hex h val) val := fun _ _ => rfl

theorem writeReg_own (inside : regnum.toNat < numRegs) (holds : Holds h valstr (gdbReg m regnum.toNat)) :
    (rspWriteReg h (some (regnum, valstr)) m).1 =
      if regnum.toNat = npcRegnum ∧ h.long64 ∧ m.pc.msb then { m with delayInsn := false, pcnext := m.pc + 4 } else m := by
  have value := setWidth_hex2reg holds
  have numbers : ppcRegnum = 32 ∧ npcRegnum = 33 ∧ srRegnum = 34 ∧ numRegs = 35 := by decide
  obtain ⟨ppc, npc, sr, all⟩ := numbers
  unfold rspWriteReg
  dsimp only
  rw [value]
  split
  · next gpr =>
    have same : gdbReg m regnum.toNat = m.reg ⟨regnum.toNat, gpr⟩ := gdbReg_gpr m ⟨regnum.toNat, gpr⟩
    have regs : (fun r : Fin 32 => if (r : Nat) = regnum.toNat then gdbReg m regnum.toNat else m.reg r) = m.reg := by
      funext r
      split
      · next eq => rw [same, show r = ⟨regnum.toNat, gpr⟩ from Fin.ext eq]
      · rfl
    rw [if_neg (by omega), regs]
  · split
    · next is => rw [if_neg (by omega), setSpr_own (by rw [is]; rfl)]
    · split
      · next is =>
        rw [is] at holds
        rw [setNpc_own holds]
        exact if_congr (and_iff_right is).symm rfl rfl
      · rw [if_pos (by omega), if_neg (by omega), setSpr_own (by rw [show regnum.toNat = srRegnum by omega]; rfl)]

/-- The packet `P` for the program counter. -/
def writeNpc (h : Host) (m : Machine δ) : Machine δ := (rspWriteReg h (some (BitVec.ofNat 32 npcRegnum, reg2hex h m.pc)) m).1

theorem writeNpc_eq (h : Host) (m : Machine δ) :
    writeNpc h m = if h.long64 ∧ m.pc.msb then { m with delayInsn := false, pcnext := m.pc + 4 } else m := by
  refine (writeReg_own (by decide) (reg2hex_holds h m.pc)).trans ?_
  exact if_congr (and_iff_right rfl) rfl rfl

theorem hex2reg_reg2hex_iff (h : Host) (v : Word) : hex2reg h (reg2hex h v) = v.setWidth 64 ↔ h.long64 = false ∨ v.msb = false := by
  rw [hex2reg_digits (reg2hex_holds h v)]
  cases h.long64 with
  | false => exact iff_of_true rfl (.inl rfl)
  | true =>
    have sign := not_congr (setWidth_ne_signExtend v)
    rw [not_not, Bool.not_eq_true] at sign
    rw [if_pos rfl, eq_comm, sign]
    exact ⟨.inr, fun either => either.resolve_left (by decide)⟩

theorem writeNpc_kept_iff (h : Host) (m : Machine δ) :
    Kept m (writeNpc h m) ↔ (h.long64 = false ∨ m.pc.msb = false) ∨ m.delayInsn = false ∧ m.pcnext = m.pc + 4 := by
  rw [writeNpc_eq]
  split
  · next moved =>
    rw [moved.1, moved.2]
    constructor
    · intro kept
      exact .inr ⟨kept.delayInsn.symm, kept.pcnext.symm⟩
    · intro either
      obtain ⟨delay, next⟩ := either.resolve_left (by decide)
      exact ⟨rfl, rfl, rfl, rfl, delay.symm, next.symm⟩
  · next still =>
    refine iff_of_true ⟨rfl, rfl, rfl, rfl, rfl, rfl⟩ (.inl ?_)
    cases long : h.long64 with
    | false => exact .inl rfl
    | true => exact .inr (Bool.eq_false_iff.mpr fun sign => still ⟨long, sign⟩)

/-- The value of a register is written back unchanged, and writing the program counter to itself does nothing. -/
structure OwnValue (h : Host) (v : Word) (m : Machine δ) : Prop where
  decoded : hex2reg h (reg2hex h v) = v.setWidth 64
  kept : Kept m (writeNpc h m)

/-- Where `long` has 64 bits, the digits of a value whose top bit is set stand for another value, and the
delay slot is lost; on other hosts and for other values nothing changes. -/
theorem own_value_iff (h : Host) (v : Word) (m : Machine δ) :
    OwnValue h v m ↔ (h.long64 = false ∨ v.msb = false) ∧
      ((h.long64 = false ∨ m.pc.msb = false) ∨ m.delayInsn = false ∧ m.pcnext = m.pc + 4) :=
  ⟨fun own => ⟨(hex2reg_reg2hex_iff h v).mp own.decoded, (writeNpc_kept_iff h m).mp own.kept⟩,
    fun both => ⟨(hex2reg_reg2hex_iff h v).mpr both.1, (writeNpc_kept_iff h m).mpr both.2⟩⟩

/-- In the delay slot of a jump at an address in the upper half. -/
theorem own_value_moved : ¬ ∀ (h : Host) (v : Word) (m : Machine Unit), OwnValue h v m := by
  intro claim
  have kept := (claim ⟨false, true⟩ 0 { Machine.bare () 0 0xc0000100 with delayInsn := true }).kept
  exact absurd ((writeNpc_kept_iff _ _).mp kept) (by decide +kernel)

end Or1ksim.Debug
