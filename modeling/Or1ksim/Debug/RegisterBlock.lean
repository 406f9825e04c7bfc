import Or1ksim.Cpu.FaultingAccess
import Or1ksim.Debug.Packets

/-!
# The register block

The packets `g` and `G` of `debug/rsp-server.c`, which read and write all registers at once.
-/

namespace Or1ksim.Debug

open Cpu (Word Machine setSpr sprPpc sprSr)

/-- Whether the host has `WORDS_BIGENDIAN`, and whether its `long` has 64 bits. -/
structure Host where
  wordsBigendian : Bool
  long64 : Bool
  deriving DecidableEq, Repr

def ppcRegnum : Nat := 32 + 0

def npcRegnum : Nat := 32 + 1

def srRegnum : Nat := 32 + 2

def nybShift (h : Host) (n : Nat) : Nat := if h.wordsBigendian then (n ^^^ 1) * 4 else 28 - n * 4

/-- The `n`-th character that `reg2hex` puts into its buffer. -/
def reg2hex (h : Host) (val : Word) (n : Nat) : Byte := hexchar (val.extractLsb' (nybShift h n) 4)

/-- The value of `hex` is an `int`, and it is shifted as one before it becomes an `unsigned long`. -/
def nybble (h : Host) (buf : Nat → Byte) (n : Nat) : BitVec 64 :=
  (BitVec.ofInt 32 (hex (buf n)) <<< nybShift h n).signExtend 64

def hex2reg (h : Host) (buf : Nat → Byte) : BitVec 64 :=
  let val := (List.range 8).foldl (fun val n => val ||| nybble h buf n) 0
  if h.long64 then val else (val.setWidth 32).setWidth 64

variable {δ : Type}

def setNpc (addr : BitVec 64) (m : Machine δ) : Machine δ :=
  if m.pc.setWidth 64 ≠ addr then { m with pc := addr.setWidth 32, delayInsn := false, pcnext := (addr + 4).setWidth 32 }
  else m

/-- The registers in the sequence of GDB. -/
def gdbReg (m : Machine δ) (r : Nat) : Word :=
  if r = ppcRegnum then m.sprs sprPpc
  else if r = npcRegnum then m.pc
  else if r = srRegnum then m.sprs sprSr
  else m.reg (Fin.ofNat 32 r)

/-- `rsp_read_all_regs`: the data of its reply. -/
def rspReadAllRegs (h : Host) (m : Machine δ) : List Byte :=
  List.ofFn fun i : Fin (numRegs * 8) => reg2hex h (gdbReg m (i / 8)) (i % 8)

/-- `rsp_write_all_regs`: the buffer is read from its start, and the reply is always the same. -/
def rspWriteAllRegs (h : Host) (buf : Nat → Byte) (m : Machine δ) : Machine δ × List Byte :=
  let word r := (hex2reg h fun n => buf (r * 8 + n)).setWidth 32
  let m := { m with reg := fun r => word r }
  let m := setSpr sprSr (word srRegnum) (setSpr sprPpc (word ppcRegnum) m)
  (setNpc (hex2reg h fun n => buf (npcRegnum * 8 + n)) m, [char 'O', char 'K'])

/-! ### One register -/

theorem ofInt_hexchar (digit : BitVec 4) : BitVec.ofInt 32 (hex (hexchar digit)) = digit.setWidth 32 := by
  rw [hex_hexchar]
  apply BitVec.eq_of_toNat_eq
  have := digit.isLt
  rw [BitVec.toNat_setWidth, BitVec.toNat_ofInt]
  omega

/-- A word from digits of four bits, each at its own place. -/
def ofNybbles (w : Word) (shifts : List Nat) (val : Word) : Word :=
  shifts.foldl (fun val s => val ||| (w.extractLsb' s 4).setWidth 32 <<< s) val

theorem ofNybbles_all (h : Host) (w : Word) : ofNybbles w ((List.range 8).map (nybShift h)) 0 = w := by
  have shifts : (List.range 8).map (nybShift h) = if h.wordsBigendian then [4, 0, 12, 8, 20, 16, 28, 24]
      else [28, 24, 20, 16, 12, 8, 4, 0] := by
    unfold nybShift
    split <;> rfl
  rw [shifts]
  apply BitVec.eq_of_getLsbD_eq
  intro i inside
  split <;>
  · unfold ofNybbles
    simp only [List.foldl_cons, List.foldl_nil, BitVec.getLsbD_or, BitVec.getLsbD_shiftLeft, BitVec.getLsbD_setWidth,
      BitVec.getLsbD_extractLsb']
    grind

/-- The digits of a register. -/
def Holds (h : Host) (buf : Nat → Byte) (val : Word) : Prop := ∀ n < 8, buf n = reg2hex h val n

theorem foldl_nybble {h : Host} {buf : Nat → Byte} {w : Word} (ns : List Nat) (digits : ∀ n ∈ ns, buf n = reg2hex h w n) (val : Word) :
    ns.foldl (fun val n => val ||| nybble h buf n) (val.signExtend 64) = (ofNybbles w (ns.map (nybShift h)) val).signExtend 64 := by
  induction ns generalizing val with
  | nil => rfl
  | cons n ns ih =>
    have digit : nybble h buf n = ((w.extractLsb' (nybShift h n) 4).setWidth 32 <<< nybShift h n).signExtend 64 := by
      unfold nybble
      rw [digits n List.mem_cons_self, reg2hex, ofInt_hexchar]
    rw [List.foldl_cons, digit, ← BitVec.signExtend_or, ih fun n inside => digits n (List.mem_cons_of_mem _ inside)]
    rfl

theorem setWidth_signExtend (w : Word) : (w.signExtend 64).setWidth 32 = w := by
  apply BitVec.eq_of_getLsbD_eq
  intro i inside
  rw [BitVec.getLsbD_setWidth, BitVec.getLsbD_signExtend, if_pos inside, decide_eq_true inside, decide_eq_true (by omega)]
  rfl

/-- A register comes back with its sign in the upper half of an `unsigned long`. -/
theorem hex2reg_digits {h : Host} {buf : Nat → Byte} {val : Word} (holds : Holds h buf val) :
    hex2reg h buf = if h.long64 then val.signExtend 64 else val.setWidth 64 := by
  have sum := foldl_nybble (List.range 8) (fun n inside => holds n (List.mem_range.mp inside)) 0
  rw [ofNybbles_all, show (0 : Word).signExtend 64 = 0 from rfl] at sum
  unfold hex2reg
  rw [sum]
  split
  · rfl
  · dsimp only
    rw [setWidth_signExtend]

theorem setWidth_hex2reg {h : Host} {buf : Nat → Byte} {val : Word} (holds : Holds h buf val) :
    (hex2reg h buf).setWidth 32 = val := by
  rw [hex2reg_digits holds]
  split
  · exact setWidth_signExtend val
  · rw [BitVec.setWidth_setWidth_of_le _ (by decide), BitVec.setWidth_eq]

theorem setWidth_ne_signExtend (w : Word) : w.setWidth 64 ≠ w.signExtend 64 ↔ w.msb = true := by
  cases sign : w.msb with
  | false => simp only [BitVec.signExtend_eq_setWidth_of_msb_false sign, ne_eq, not_true, Bool.false_eq_true]
  | true =>
    refine iff_of_true (fun same => ?_) rfl
    have top := congrArg (BitVec.getLsbD · 63) same
    simp only [BitVec.getLsbD_setWidth, BitVec.getLsbD_signExtend] at top
    rw [sign] at top
    revert top
    simp

/-- An address that is the current one is taken for another if its sign reaches the upper half. -/
theorem setNpc_own {h : Host} {m : Machine δ} {valstr : Nat → Byte} (holds : Holds h valstr m.pc) :
    setNpc (hex2reg h valstr) m = if h.long64 ∧ m.pc.msb then { m with delayInsn := false, pcnext := m.pc + 4 } else m := by
  rw [hex2reg_digits holds]
  unfold setNpc
  cases h.long64 with
  | false => exact (if_neg fun differs => differs rfl).trans (if_neg fun signed => absurd signed.1 (by decide)).symm
  | true =>
    rw [if_pos rfl, setWidth_signExtend, BitVec.setWidth_add _ _ (by decide), setWidth_signExtend]
    exact if_congr ((setWidth_ne_signExtend m.pc).trans (and_iff_right rfl).symm) rfl rfl

/-! ### The block -/

/-- The buffer of a packet. What stands behind the data is left from packets before. -/
def Begins (buf : Nat → Byte) (data : List Byte) : Prop := ∀ (i : Nat) (inside : i < data.length), buf i = data[i]

theorem rspReadAllRegs_length (h : Host) (m : Machine δ) : (rspReadAllRegs h m).length = numRegs * 8 := List.length_ofFn

theorem rspReadAllRegs_holds {h : Host} {m : Machine δ} {buf : Nat → Byte} (begins : Begins buf (rspReadAllRegs h m)) {r : Nat}
    (inside : r < numRegs) : Holds h (fun n => buf (r * 8 + n)) (gdbReg m r) := by
  intro n small
  have place : r * 8 + n < (rspReadAllRegs h m).length := by
    rw [rspReadAllRegs_length]
    omega
  have digit : (rspReadAllRegs h m)[r * 8 + n] = reg2hex h (gdbReg m ((r * 8 + n) / 8)) ((r * 8 + n) % 8) := List.getElem_ofFn _
  dsimp only
  rw [begins _ place, digit, show (r * 8 + n) / 8 = r by omega, show (r * 8 + n) % 8 = n by omega]

theorem gdbReg_gpr (m : Machine δ) (r : Fin 32) : gdbReg m r = m.reg r := by
  have := r.isLt
  unfold gdbReg ppcRegnum npcRegnum srRegnum
  rw [if_neg (by omega), if_neg (by omega), if_neg (by omega)]
  exact congrArg m.reg (Fin.ofNat_val_eq_self r)

theorem setSpr_own {m : Machine δ} {r : Cpu.SprNo} {v : Word} (same : m.sprs r = v) : setSpr r v m = m := by
  rw [← same]
  exact Cpu.setSpr_self r m

/-- Read from the start of the reply, everything stays but for an address that its sign makes another. -/
theorem rspWriteAllRegs_reply {h : Host} {m : Machine δ} {buf : Nat → Byte} (begins : Begins buf (rspReadAllRegs h m)) :
    (rspWriteAllRegs h buf m).1 = if h.long64 ∧ m.pc.msb then { m with delayInsn := false, pcnext := m.pc + 4 } else m := by
  have reads {r : Nat} (inside : r < numRegs) : (hex2reg h fun n => buf (r * 8 + n)).setWidth 32 = gdbReg m r :=
    setWidth_hex2reg (rspReadAllRegs_holds begins inside)
  have gprs : (fun r : Fin 32 => (hex2reg h fun n => buf (r * 8 + n)).setWidth 32) = m.reg := by
    funext r
    rw [reads (Nat.lt_of_lt_of_le r.isLt (by decide)), gdbReg_gpr]
  have addr : Holds h (fun n => buf (npcRegnum * 8 + n)) m.pc := rspReadAllRegs_holds begins (r := npcRegnum) (by decide)
  unfold rspWriteAllRegs
  dsimp only
  rw [gprs, reads (r := ppcRegnum) (by decide), reads (r := srRegnum) (by decide)]
  change setNpc _ (setSpr sprSr (gdbReg m srRegnum) (setSpr sprPpc (gdbReg m ppcRegnum) m)) = _
  rw [setSpr_own (show m.sprs sprPpc = gdbReg m ppcRegnum from rfl), setSpr_own (show m.sprs sprSr = gdbReg m srRegnum from rfl)]
  exact setNpc_own addr

/-- What a `G` packet has to leave as it was. -/
structure Kept (m m' : Machine δ) : Prop where
  reg : m'.reg = m.reg
  ppc : m'.sprs sprPpc = m.sprs sprPpc
  npc : m'.pc = m.pc
  sr : m'.sprs sprSr = m.sprs sprSr
  delayInsn : m'.delayInsn = m.delayInsn
  pcnext : m'.pcnext = m.pcnext

/-- The packet `G` with what `g` answered is received, and changes nothing. -/
def BlockRoundTrip (h : Host) (m : Machine δ) : Prop :=
  (getPacket (putFrame (char 'G' :: rspReadAllRegs h m))).packet = some (char 'G' :: rspReadAllRegs h m) ∧
    ∀ buf, Begins buf (char 'G' :: rspReadAllRegs h m) → Kept m (rspWriteAllRegs h buf m).1

theorem setNpc_reg (addr : BitVec 64) (m : Machine δ) : (setNpc addr m).reg = m.reg := by
  unfold setNpc
  split <;> rfl

theorem foldl_or (f : Nat → BitVec 64) (ns : List Nat) (val : BitVec 64) (i : Nat) :
    (ns.foldl (fun val n => val ||| f n) val).getLsbD i = (val.getLsbD i || ns.any fun n => (f n).getLsbD i) := by
  induction ns generalizing val with
  | nil => exact (Bool.or_false _).symm
  | cons n ns ih => rw [List.foldl_cons, ih, BitVec.getLsbD_or, List.any_cons, Bool.or_assoc]

/-- `hex` of a letter behind `f` is -1, whose sign covers the digits of the register. -/
theorem hex2reg_letter {h : Host} {buf : Nat → Byte} (letter : hex (buf 0) = -1) : ((hex2reg h buf).setWidth 32).msb = true := by
  have first : (nybble h buf 0).getLsbD 31 = true := by
    unfold nybble nybShift
    rw [letter]
    cases h.wordsBigendian <;> decide
  have sign : ((List.range 8).foldl (fun val n => val ||| nybble h buf n) 0).getLsbD 31 = true := by
    rw [foldl_or]
    have anyOne : ((List.range 8).any fun n => (nybble h buf n).getLsbD 31) = true := List.any_eq_true.mpr ⟨0, by decide, first⟩
    rw [anyOne, Bool.or_true]
  rw [BitVec.msb_eq_getLsbD_last]
  unfold hex2reg
  dsimp only
  split
  · simpa only [BitVec.getLsbD_setWidth, Nat.reduceSub, Nat.reduceLT, decide_true, Bool.true_and] using sign
  · simpa only [BitVec.getLsbD_setWidth, Nat.reduceSub, Nat.reduceLT, decide_true, Bool.true_and] using sign

theorem getPacket_length {s data : List Byte} (received : (getPacket s).packet = some data) : data.length < gdbBufMax - 1 := by
  have whole : getPacket s = ⟨some data, (getPacket s).acks, (getPacket s).rest⟩ := by rw [← received]
  obtain ⟨-, -, -, -, fits, -⟩ := getPacket_accepted whole
  exact fits

/-- A `G` packet is one character longer than what is received, whatever the client sends. Were it handled, its letter would be read
as the first digit; read behind the letter, it would clear the delay slot of an address whose sign is set. -/
theorem register_block_lost (h : Host) (m : Machine δ) :
    ¬ BlockRoundTrip h m ∧
    (∀ s, (getPacket s).packet ≠ some (char 'G' :: rspReadAllRegs h m)) ∧
    (∀ buf, Begins buf (char 'G' :: rspReadAllRegs h m) → ((rspWriteAllRegs h buf m).1.reg 0).msb = true) ∧
    ∀ buf, Begins buf (rspReadAllRegs h m) →
      (rspWriteAllRegs h buf m).1 = if h.long64 ∧ m.pc.msb then { m with delayInsn := false, pcnext := m.pc + 4 } else m := by
  have lost (s : List Byte) : (getPacket s).packet ≠ some (char 'G' :: rspReadAllRegs h m) := by
    intro received
    have fits := getPacket_length received
    rw [List.length_cons, rspReadAllRegs_length] at fits
    exact absurd fits (by decide)
  refine ⟨fun roundTrip => lost _ roundTrip.1, lost, ?_, fun buf begins => rspWriteAllRegs_reply begins⟩
  intro buf begins
  have letter : buf 0 = char 'G' := begins 0 (Nat.succ_pos _)
  have kept : (rspWriteAllRegs h buf m).1.reg 0 = (hex2reg h buf).setWidth 32 := by
    refine (congrFun (setNpc_reg _ _) 0).trans (congrArg (fun buf => (hex2reg h buf).setWidth 32) (funext fun n => ?_))
    exact congrArg buf ((congrArg (· + n) (Nat.zero_mul 8)).trans (Nat.zero_add n))
  rw [kept]
  exact hex2reg_letter (by rw [letter]; decide)

/-- At the reset vector, with all registers zero. -/
theorem register_block_reset : ¬ ∀ (h : Host) (m : Machine Unit), BlockRoundTrip h m := by
  intro claim
  have fits := getPacket_length (claim ⟨false, true⟩ (Machine.bare () 0 0x100)).1
  rw [List.length_cons, rspReadAllRegs_length] at fits
  exact absurd fits (by decide)

end Or1ksim.Debug
