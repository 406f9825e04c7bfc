import Or1ksim.Debug.Positions

/-!
# Whether a call keeps to the register

A register of `numBits` bits has `(numBits + 7) / 8` bytes. The registers of a fixed length keep to
them. The length of the data of a GO_COMMAND is computed without a sign, so that one which is too
short for its other fields has almost as many bytes as there are addresses.
-/

namespace Or1ksim.Debug

open Serial (Buffer)
open Serial.Access
open Cpu (Word Machine Sim)
open Traced (Shift)

variable {δ : Type} {u : DebugConfig δ} {d : DebugState} {jreg : Buffer} {numBits : Nat}

/-- The bytes of the register that `jtag_shift_dr` reads or writes. -/
def positions (u : DebugConfig δ) (d : DebugState) (jreg : Buffer) (numBits : Nat) (m : Machine δ) : List Nat :=
  (Traced.jtagShiftDr u d numBits).touched jreg m

/-! ### How many bytes a GO_COMMAND has -/

theorem ulong_cases (u : DebugConfig δ) : u.ulong = 2 ^ 64 ∨ u.ulong = 2 ^ 32 := by
  unfold DebugConfig.ulong
  split <;> simp

theorem goBytes_long (d : DebugState) (long : 73 ≤ numBits) (int : numBits < 2 ^ 31) : (goBytes u d numBits).1 = (numBits - 73) / 8 := by
  have small := size_small d
  unfold goBytes
  dsimp only
  split
  · omega
  · rcases ulong_cases u with is | is <;> rw [is] <;> dsimp only <;> omega

theorem goBytes_short (d : DebugState) (short : numBits < 73) :
    (goBytes u d numBits).1 + (80 - numBits) / 8 = u.ulong / 8 ∧ (goBytes u d numBits).2 = jsOverUnderrun := by
  have small := size_small d
  unfold goBytes
  dsimp only
  rw [if_neg (by omega)]
  refine ⟨?_, rfl⟩
  rcases ulong_cases u with is | is <;> rw [is] <;> dsimp only <;> omega

namespace Traced

/-! ### A length that the other fields fit in -/

theorem wishboneReadLoop_below {len : Nat} (more i : Nat) (crcOut : Word) (status : Status) (fits : 4 + i + more < len) :
    Below len (wishboneReadLoop u d more i crcOut status) := by
  induction more generalizing i crcOut status with
  | zero => exact .pure _ _
  | succ more ih =>
    refine .bind (.lift _ _) fun got => .bind (fun _ _ k is => ?_) fun _ => ih (i + 1) _ _ (by omega)
    rcases List.mem_pair.mp is with rfl | rfl <;> omega

theorem moduleRead_below {len : Nat} (jregBytes : Nat) (status : Status) (fits : 4 + jregBytes < len) :
    Below len (moduleRead u d jregBytes status) := by
  unfold moduleRead
  split
  · exact .bind (wishboneReadLoop_below jregBytes 0 _ _ (by omega)) fun _ => .pure _ _
  · exact .bind (.lift _ _) fun _ => .bind (fun _ _ => dataBytes_below fits) fun _ => .pure _ _
  · exact .bind (fun _ _ => dataBytes_below fits) fun _ => .pure _ _

theorem goCommandRead_below (long : 73 ≤ numBits) (int : numBits < 2 ^ 31) : Below ((numBits + 7) / 8) (goCommandRead u d numBits) := by
  have bytes := goBytes_long (u := u) d long int
  unfold goCommandRead checkedRead
  dsimp only
  rw [bytes]
  refine .bind (.bind (commandCrc_below (by omega) _) fun good => ?_) fun got =>
    .bind (constructResponse_below _ _ ?_ ?_) fun _ => .pure _ _
  · split
    · exact moduleRead_below _ _ (by omega)
    · exact .pure _ _
  · omega
  · omega

theorem wishboneWriteLoop_below {len : Nat} (more i : Nat) (status : Status) (fits : i + more < len) :
    Below len (wishboneWriteLoop u d more i status) := by
  induction more generalizing i status with
  | zero => exact .pure _ _
  | succ more ih =>
    have rest (status : Status) := ih (i + 1) status (by omega)
    unfold wishboneWriteLoop
    split
    · refine .bind (.lift _ _) fun missing => ?_
      split
      · exact rest _
      · refine .bind (fun _ _ k is => ?_) fun byte => .bind (.lift _ _) fun _ => rest _
        rcases List.mem_pair.mp is with rfl | rfl <;> omega
    · exact rest _

theorem moduleWrite_below {len : Nat} (realSize : Nat) (status : Status) (fits : realSize < len) :
    Below len (moduleWrite u d realSize status) := by
  unfold moduleWrite
  split
  · exact .bind (wishboneWriteLoop_below realSize 0 _ (by omega)) fun _ => .pure _ _
  · exact .bind (fun _ _ => dataBytes_below (by omega)) fun _ => .bind (.lift _ _) fun _ => .pure _ _
  · exact .pure _ _

theorem goCommandWrite_below (long : 73 ≤ numBits) (int : numBits < 2 ^ 31) :
    Below ((numBits + 7) / 8) (goCommandWrite u d numBits) := by
  have bytes := goBytes_long (u := u) d long int
  unfold goCommandWrite checkedWrite
  dsimp only
  rw [bytes]
  refine .bind (.bind (fun _ _ => span_below (by omega)) fun crcIn =>
    .bind (fun _ _ => dataBytes_below (by omega)) fun crcComputed => ?_)
    fun got => .bind (constructResponse_below _ _ ?_ ?_) fun _ => .pure _ _
  · split
    · exact moduleWrite_below _ _ (by omega)
    · exact .pure _ _
  · omega
  · omega

/-! ### A length that they do not fit in -/

theorem goCommandWrite_outside (d : DebugState) (jreg : Buffer) (short : numBits < 73) (m : Machine δ) :
    ∃ k ∈ (goCommandWrite u d numBits).touched jreg m, (numBits + 7) / 8 ≤ k := by
  have bytes := (goBytes_short (u := u) d short).1
  refine ⟨(goBytes u d numBits).1, mem_bind.mpr (.inl (mem_bind.mpr (.inl (List.mem_range'_1.mpr (by omega))))), ?_⟩
  rcases ulong_cases u with is | is <;> omega

theorem mem_checkedRead (jregBytes : Nat) (status : Status) (m : Machine δ) (k : Nat) :
    k ∈ (checkedRead u d jregBytes status).touched jreg m ↔
      k < 5 ∨ crc32 jcmdGoCommand 4 (crc32 0 1 0xffffffff) = reverse32 (gather5 jreg 0) ∧
        k ∈ (moduleRead u d jregBytes status).touched jreg m := by
  unfold checkedRead
  rw [mem_bind, run_commandCrc]
  refine or_congr (List.mem_range'_1.trans (by omega)) ?_
  constructor
  · rintro ⟨good, b', s', ran, later⟩
    cases ran
    by_cases crc : crc32 jcmdGoCommand 4 (crc32 0 1 0xffffffff) = reverse32 (gather5 jreg 0)
    · rw [decide_eq_true crc] at later
      exact ⟨crc, later⟩
    · rw [decide_eq_false crc] at later
      exact absurd later List.not_mem_nil
  · rintro ⟨crc, later⟩
    refine ⟨_, _, _, rfl, ?_⟩
    rw [decide_eq_true crc]
    exact later

/-- With a CRC that does not match only the command and the response are left. -/
theorem goCommandRead_mismatch (short : numBits < 73) (bad : crc32 jcmdGoCommand 4 (crc32 0 1 0xffffffff) ≠ reverse32 (gather5 jreg 0))
    (m : Machine δ) : (∀ k ∈ (goCommandRead u d numBits).touched jreg m, k < (numBits + 7) / 8) ↔ 41 ≤ numBits := by
  have bytes := (goBytes_short (u := u) d short).1
  have touched (k : Nat) : k ∈ (goCommandRead u d numBits).touched jreg m ↔
      k < 5 ∨ k ∈ responseBytes (8 * (goBytes u d numBits).1 % 2 ^ 32) 37 := by
    unfold goCommandRead
    rw [mem_bind, mem_checkedRead, run_checkedRead]
    unfold Debug.checkedRead
    simp only [bad, false_and, or_false]
    refine or_congr_right ⟨?_, fun later => ⟨_, _, _, rfl, mem_bind.mpr (.inl later)⟩⟩
    rintro ⟨got, b', s', ran, later⟩
    cases ran
    rcases mem_bind.mp later with here | ⟨_, _, _, _, none⟩
    · exact here
    · exact absurd none List.not_mem_nil
  simp only [touched, mem_responseBytes]
  rcases ulong_cases u with is | is
  all_goals
    rw [is] at bytes
    constructor
    · intro inside
      have last := inside (((8 * (goBytes u d numBits).1 % 2 ^ 32 + 37) % 2 ^ 32 + 35) / 8) (by omega)
      omega
    · rintro enough k (small | small | inside) <;> omega

theorem mem_wishboneReadLoop {more i : Nat} {crcOut : Word} {status : Status} {m : Machine δ} {k : Nat} :
    k ∈ (wishboneReadLoop u d (more + 1) i crcOut status).touched jreg m ↔
      ∃ got m', wishboneByte u d i status m = .ok (got, m') ∧
        ((k = 4 + i ∨ k = 4 + i + 1) ∨
          k ∈ (wishboneReadLoop u d more (i + 1) (crc32 (got.1.setWidth 64) 8 crcOut) got.2).touched
            (storeByte jreg i (reverseByte got.1)) m') := by
  show k ∈ (lift (wishboneByte u d i status) >>= fun got =>
    edit [4 + i, 4 + i + 1] (fun jreg => storeByte jreg i (reverseByte got.1)) >>= fun _ =>
      wishboneReadLoop u d more (i + 1) (crc32 (got.1.setWidth 64) 8 crcOut) got.2).touched jreg m ↔ _
  rw [mem_bind, touched_lift, run_lift]
  constructor
  · rintro (none | ⟨got, b', m', ran, later⟩)
    · exact absurd none List.not_mem_nil
    · obtain ⟨got', mid, first, rest⟩ := Programs.bind_ok ran
      cases rest
      refine ⟨got, m', first, ?_⟩
      rw [mem_bind, run_edit (storeByte_keeps i _)] at later
      rcases later with here | ⟨_, _, _, stored, later⟩
      · exact .inl (List.mem_pair.mp here)
      · cases stored
        exact .inr later
  · rintro ⟨got, m', first, later⟩
    refine .inr ⟨got, jreg, m', Programs.bind_of_ok first, ?_⟩
    rw [mem_bind, run_edit (storeByte_keeps i _)]
    rcases later with here | later
    · exact .inl (List.mem_pair.mpr here)
    · exact .inr ⟨_, _, _, rfl, later⟩

/-- Where the reads end the simulator, nothing of the register behind the last one is touched. -/
theorem wishboneReadLoop_ends {more a i : Nat} {crcOut : Word} {status : Status} {jreg : Buffer} {m : Machine δ} {e : Cpu.Stop}
    (fits : a ≤ more) (ends : Debug.wishboneReadLoop u d a i jreg crcOut status m = .error e) :
    Debug.wishboneReadLoop u d more i jreg crcOut status m = .error e ∧
      ∀ k ∈ (wishboneReadLoop u d more i crcOut status).touched jreg m, k < 4 + i + a := by
  induction a generalizing more i crcOut status jreg m with
  | zero => cases ends
  | succ a ih =>
    obtain ⟨more, rfl⟩ : ∃ n, more = n + 1 := ⟨more - 1, by omega⟩
    cases first : wishboneByte u d i status m with
    | error e' =>
      have same := (Programs.bind_of_error first).symm.trans ends
      refine ⟨(Programs.bind_of_error first).trans same, fun k touched => ?_⟩
      obtain ⟨_, _, ran, _⟩ := mem_wishboneReadLoop.mp touched
      rw [first] at ran
      cases ran
    | ok r =>
      have rest := (Programs.bind_of_ok first).symm.trans ends
      have some : a ≠ 0 := by
        rintro rfl
        cases rest
      have shorter : a ≤ more := by omega
      obtain ⟨stops, inside⟩ := ih shorter rest
      refine ⟨(Programs.bind_of_ok first).trans stops, fun k touched => ?_⟩
      obtain ⟨got, m', ran, here | later⟩ := mem_wishboneReadLoop.mp touched
      · omega
      · rw [first] at ran
        cases ran
        have := inside k later
        omega

theorem wishboneReadLoop_reaches {more a i : Nat} {crcOut : Word} {status : Status} {jreg : Buffer} {m : Machine δ}
    (fits : a < more) (goes : ∀ e, Debug.wishboneReadLoop u d (a + 1) i jreg crcOut status m ≠ .error e) :
    4 + i + a + 1 ∈ (wishboneReadLoop u d more i crcOut status).touched jreg m := by
  induction a generalizing more i crcOut status jreg m with
  | zero =>
    obtain ⟨more, rfl⟩ : ∃ n, more = n + 1 := ⟨more - 1, by omega⟩
    cases first : wishboneByte u d i status m with
    | error e => exact absurd (Programs.bind_of_error first) (goes e)
    | ok r => exact mem_wishboneReadLoop.mpr ⟨r.1, r.2, first, .inl (.inr rfl)⟩
  | succ a ih =>
    obtain ⟨more, rfl⟩ : ∃ n, more = n + 1 := ⟨more - 1, by omega⟩
    cases first : wishboneByte u d i status m with
    | error e => exact absurd (Programs.bind_of_error first) (goes e)
    | ok r =>
      refine mem_wishboneReadLoop.mpr ⟨r.1, r.2, first, .inr ?_⟩
      rw [show 4 + i + (a + 1) + 1 = 4 + (i + 1) + a + 1 by omega]
      exact ih (by omega) fun e ends => goes e ((Programs.bind_of_ok first).trans ends)

/-- With a CRC that matches more data is read than there is, unless the simulator ends before. -/
theorem goCommandRead_match (short : numBits < 73) (good : crc32 jcmdGoCommand 4 (crc32 0 1 0xffffffff) = reverse32 (gather5 jreg 0))
    (m : Machine δ) : (∀ k ∈ (goCommandRead u d numBits).touched jreg m, k < (numBits + 7) / 8) ↔
      33 ≤ numBits ∧ d.modId = .wishbone ∧
        ∃ e, Debug.wishboneReadLoop u d ((numBits + 7) / 8 - 4) 0 jreg 0xffffffff jsOverUnderrun m = .error e := by
  have bytes := (goBytes_short (u := u) d short).1
  have under := (goBytes_short (u := u) d short).2
  have many : 2 ^ 29 ≤ (goBytes u d numBits).1 + 10 := by
    rcases ulong_cases u with is | is <;> omega
  have head (k : Nat) (small : k < 5) : k ∈ (goCommandRead u d numBits).touched jreg m :=
    mem_bind.mpr (.inl ((mem_checkedRead _ _ _ _).mpr (.inl small)))
  have data {k : Nat} (touched : k ∈ (moduleRead u d (goBytes u d numBits).1 jsOverUnderrun).touched jreg m) :
      k ∈ (goCommandRead u d numBits).touched jreg m := by
    rw [← under] at touched
    exact mem_bind.mpr (.inl ((mem_checkedRead _ _ _ _).mpr (.inr ⟨good, touched⟩)))
  constructor
  · intro inside
    have enough : 33 ≤ numBits := by
      have := inside 4 (head 4 (by decide))
      omega
    refine ⟨enough, ?_⟩
    have last : 4 + (goBytes u d numBits).1 ∈ dataBytes 4 (goBytes u d numBits).1 :=
      mem_dataBytes.mpr ⟨(goBytes u d numBits).1 - 1, by omega, by omega⟩
    cases module : d.modId with
    | wishbone =>
      refine ⟨rfl, ?_⟩
      by_contra goes
      have fits : (numBits + 7) / 8 - 5 < (goBytes u d numBits).1 := by omega
      have reached := wishboneReadLoop_reaches fits
        fun e ends => goes ⟨e, by rwa [show (numBits + 7) / 8 - 4 = (numBits + 7) / 8 - 5 + 1 by omega]⟩
      have := inside _ (data (by
        unfold moduleRead
        rw [module]
        exact mem_bind.mpr (.inl reached)))
      omega
    | cpu0 =>
      have := inside _ (data (by
        unfold moduleRead
        rw [module]
        exact mem_bind.mpr (.inr ⟨_, jreg, m, rfl, mem_bind.mpr (.inl last)⟩)))
      omega
    | cpu1 | undefined =>
      have := inside _ (data (by
        unfold moduleRead
        rw [module]
        exact mem_bind.mpr (.inl last)))
      omega
  · rintro ⟨enough, wishbone, e, ends⟩ k touched
    have fits : (numBits + 7) / 8 - 4 ≤ (goBytes u d numBits).1 := by omega
    obtain ⟨stops, small⟩ := wishboneReadLoop_ends fits ends
    have stopped : Debug.checkedRead u d jreg (goBytes u d numBits).1 jsOverUnderrun m = .error e := by
      unfold Debug.checkedRead Debug.moduleRead
      dsimp only
      rw [if_pos good, wishbone]
      exact Programs.bind_of_error stops
    rcases mem_bind.mp touched with here | ⟨_, _, _, ran, _⟩
    · rw [under] at here
      rcases (mem_checkedRead _ _ _ _).mp here with head | ⟨_, read⟩
      · omega
      · unfold moduleRead at read
        rw [wishbone] at read
        rcases mem_bind.mp read with here | ⟨_, _, _, _, none⟩
        · have := small k here
          omega
        · exact absurd none List.not_mem_nil
    · rw [under, run_checkedRead] at ran
      have := (Programs.bind_of_error stopped).symm.trans ran
      cases this

end Traced

/-! ### Every register -/

/-- A GO_COMMAND is long enough for its other fields, or ends before the data is reached. -/
def LengthOk (u : DebugConfig δ) (d : DebugState) (jreg : Buffer) (numBits : Nat) (m : Machine δ) : Prop :=
  if d.instr = some jiDebug ∧ format d jreg = some .goWrite then 73 ≤ numBits
  else if d.instr = some jiDebug ∧ format d jreg = some .goRead then
    73 ≤ numBits ∨
      if CrcOk jreg 5 then
        33 ≤ numBits ∧ d.modId = .wishbone ∧
          ∃ e, wishboneReadLoop u d ((numBits + 7) / 8 - 4) 0 jreg 0xffffffff jsOverUnderrun m = .error e
      else 41 ≤ numBits
  else True

theorem format_go (d : DebugState) (leads : jreg.bit 0 = false) (go : (code4 jreg).toNat = 0) :
    format d jreg = if d.writeDefinedP then some (if d.accType.isWrite then .goWrite else .goRead) else none := by
  rw [code4_value] at go
  unfold format
  rw [if_neg (by rw [leads]; exact Bool.false_ne_true), go]
  rfl

/-- The other registers have no data that a length could be computed for. -/
theorem lengthOk_of_other (m : Machine δ) (other : jreg.bit 0 = true ∨ (code4 jreg).toNat ≠ 0) : LengthOk u d jreg numBits m := by
  have differ {f : Format} (go : f = .goRead ∨ f = .goWrite) : ¬ (d.instr = some jiDebug ∧ format d jreg = some f) := by
    rintro ⟨_, is⟩
    have leads := format_leads is
    have command := format_command is
    rcases other with first | other
    · rw [leads] at first
      rcases go with rfl | rfl <;> cases first
    · rcases go with rfl | rfl <;> exact other (command (by decide))
  unfold LengthOk
  rw [if_neg (differ (.inr rfl)), if_neg (differ (.inl rfl))]
  trivial

theorem Traced.goCommand_eq (u : DebugConfig δ) (numBits : Nat) (defined : d.writeDefinedP = true) :
    Traced.goCommand u d numBits = if d.accType.isWrite then Traced.goCommandWrite u d numBits
      else Traced.goCommandRead u d numBits := by
  unfold Traced.goCommand
  rw [defined]
  cases d.accType <;> rfl

theorem goCommand_inside_iff (m : Machine δ) (int : numBits < 2 ^ 31) (debug : d.instr = some jiDebug) (leads : jreg.bit 0 = false)
    (go : (code4 jreg).toNat = 0) :
    (∀ k ∈ (Traced.goCommand u d numBits).touched jreg m, k < (numBits + 7) / 8) ↔ LengthOk u d jreg numBits m := by
  have crc := command_crc jcmdGoCommand leads go
  unfold LengthOk
  rw [format_go d leads go]
  by_cases defined : d.writeDefinedP = true
  · rw [Traced.goCommand_eq u numBits defined]
    simp only [defined, if_true, debug, true_and, Option.some.injEq]
    by_cases write : d.accType.isWrite = true
    · simp only [write, if_true]
      constructor
      · intro inside
        by_contra short
        obtain ⟨k, touched, outside⟩ := Traced.goCommandWrite_outside (u := u) d jreg (by omega : numBits < 73) m
        have := inside k touched
        omega
      · exact fun long => Traced.goCommandWrite_below long int jreg m
    · simp only [write, Bool.false_eq_true, if_false, reduceCtorEq, if_true]
      by_cases long : 73 ≤ numBits
      · exact iff_of_true (Traced.goCommandRead_below long int jreg m) (.inl long)
      · rw [or_iff_right long]
        by_cases good : CrcOk jreg 5
        · rw [if_pos good]
          exact Traced.goCommandRead_match (by omega) (crc.mpr good) m
        · rw [if_neg good]
          exact Traced.goCommandRead_mismatch (by omega) (mt crc.mp good) m
  · simp only [defined, if_false, reduceCtorEq, and_false, iff_true]
    unfold Traced.goCommand
    rw [if_pos (by simpa using defined)]
    have clears : Below ((numBits + 7) / 8) (edit (List.range' 0 ((numBits + 7) / 8)) (clearBytes ((numBits + 7) / 8)) : Shift δ Unit) :=
      fun _ _ => Traced.span_below (by omega)
    exact clears.bind (fun _ => Below.pure _ d) jreg m

/-- A call touches no byte behind the register exactly if a GO_COMMAND has a length that fits. -/
theorem positions_inside_iff (u : DebugConfig δ) (d : DebugState) (jreg : Buffer) (m : Machine δ) (atLeast : 5 ≤ numBits)
    (int : numBits < 2 ^ 31) :
    (∀ k ∈ positions u d jreg numBits m, k < (numBits + 7) / 8) ↔ LengthOk u d jreg numBits m := by
  unfold positions Traced.jtagShiftDr
  split
  · next other =>
    refine iff_of_true (Below.pure _ _ jreg m) ?_
    unfold LengthOk
    rw [if_neg (fun both => other both.1), if_neg (fun both => other both.1)]
    trivial
  · next debug =>
    rw [not_ne_iff] at debug
    have start {k : Nat} (is : k ∈ [0]) : k < (numBits + 7) / 8 := by
      rw [List.mem_singleton.mp is]
      omega
    simp only [mem_view_bind (Traced.byte_reads (List.mem_singleton_self 0)), or_imp, forall_and]
    rw [and_iff_right fun k is => start is]
    split
    · next first =>
        exact iff_of_true (Traced.selectModule_below d numBits jreg m) (lengthOk_of_other m (.inl ((bit_zero_eq jreg).mp first)))
    · next first =>
      simp only [mem_view_bind Traced.code4_reads, or_imp, forall_and]
      rw [and_iff_right fun k is => start is]
      have leads : jreg.bit 0 = false := by
        rw [bit_zero_eq] at first
        simpa using first
      have other (not : (code4 jreg).toNat ≠ 0) : LengthOk u d jreg numBits m := lengthOk_of_other m (.inr not)
      generalize is : (code4 jreg).toNat = command at other
      match command with
      | 0 => exact goCommand_inside_iff m int debug leads is
      | 1 => exact iff_of_true (Traced.readCommand_below d numBits jreg m) (other (by decide))
      | 2 => exact iff_of_true (Traced.writeCommand_below d numBits jreg m) (other (by decide))
      | 3 => exact iff_of_true (Traced.readControl_below d numBits jreg m) (other (by decide))
      | 4 => exact iff_of_true (Traced.writeControl_below u d numBits jreg m) (other (by decide))
      | _ + 5 => exact iff_of_true (Below.pure _ _ jreg m) (other (by omega))

/-- The WishBone module behind a WRITE_COMMAND of 125 bits for a read of a word. -/
def readDefined : DebugState :=
  (writeCommand { DebugState.start with instr := some jiDebug, modId := .wishbone }
    (request ([false, false, false, true, false] ++ Serial.msbFirst 4 AccType.read32.code ++ List.replicate 32 false ++
      Serial.msbFirst 16 (3 : BitVec 16)))
    125).1

/-- The GO_COMMAND has 73 bits and the word, and its bytes are taken to the last one. -/
theorem positions_inside_read :
    readDefined = ⟨some jiDebug, .wishbone, true, .read32, 0, 4⟩ ∧
      13 ∈ positions plainDebug readDefined (request (List.replicate 5 false)) 105 (Cpu.Machine.bare (fun _ => 0) 0 0x2000) ∧
      ∀ k ∈ positions plainDebug readDefined (request (List.replicate 5 false)) 105 (Cpu.Machine.bare (fun _ => 0) 0 0x2000),
        k < 14 := by
  have defined : readDefined = ⟨some jiDebug, .wishbone, true, .read32, 0, 4⟩ := by decide +kernel
  have read : format readDefined (request (List.replicate 5 false)) = some .goRead := by decide +kernel
  refine ⟨defined, by decide +kernel, (positions_inside_iff _ _ _ _ (by decide) (by decide)).mpr ?_⟩
  unfold LengthOk
  rw [if_neg (by rw [read]; exact fun both => nomatch both.2), if_pos ⟨by rw [defined], read⟩]
  exact .inl (by decide)

/-- A GO_COMMAND of 40 bits behind a WRITE_COMMAND for a read: the response is put before the register. -/
theorem short_go_command_outside :
    ¬ ∀ k ∈ positions plainDebug
        { instr := some jiDebug, modId := .cpu0, writeDefinedP := true, accType := .read32, addr := 0, size := 4 } (fun _ => 0) 40
        (Cpu.Machine.bare (fun _ => 0) 0 0x2000), k < (40 + 7) / 8 := by
  decide +kernel

end Or1ksim.Debug
