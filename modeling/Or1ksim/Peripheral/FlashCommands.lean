import Or1ksim.Lib.Commands
import Or1ksim.Lib.Runs
import Or1ksim.Peripheral.CfiFlash

/-!
# Which accesses change the flash

The array may change only at the end of a command, and a reset must lead back to its data. The machine
ignores a write that does not belong to the command under way, the reset among them.
-/

namespace Or1ksim.CfiFlash

open Commands (Command begins whole started follow pending)

/-- A write of 16 bits. -/
structure Write where
  addr : Nat
  data : Half
  deriving DecidableEq, Repr

/-- Reads, and writes of 16 bits. -/
inductive Access where
  | read8 (addr : Nat)
  | read16 (addr : Nat)
  | read32 (addr : Nat)
  | write16 (w : Write)
  deriving DecidableEq, Repr

def access (c : Config) : Access → Flash → Option Word × Flash
  | .read8 addr => stateMachineProcess c .read8 addr 0
  | .read16 addr => stateMachineProcess c .read16 addr 0
  | .read32 addr => stateMachineProcess c .read32 addr 0
  | .write16 w => stateMachineProcess c .write16 w.addr w.data

def write (c : Config) (w : Write) (f : Flash) : Flash := (access c (.write16 w) f).2

/-! ### The commands of the device -/

def writes (word : Nat) (data : Half) (w : Write) : Bool := w.addr / 2 = word && w.data = data

def unlock1 : Write → Bool := writes addrUnlock1 amdCmdUnlockStart
def unlock2 : Write → Bool := writes addrUnlock2 amdCmdUnlockAck

def program : Command Write := [unlock1, unlock2, writes addrUnlock1 amdCmdWrite, fun _ => true]

def erase (last : Write → Bool) : Command Write :=
  [unlock1, unlock2, writes addrUnlock1 amdCmdEraseStart, unlock1, unlock2, last]

def eraseChip : Command Write := erase (writes addrUnlock1 amdCmdEraseChip)

def eraseOneSector : Command Write := erase fun w => w.data = amdCmdEraseSector

def readId : Command Write := [unlock1, unlock2, writes addrUnlock1 flashCmdReadId]

def commands : List (Command Write) := [program, eraseChip, eraseOneSector, readId]

/-! ### Protection -/

/-- In the state every read returns the data of the array, whatever it holds. -/
def ReadsArray (c : Config) (s : CfiState) : Prop :=
  ∀ mem addr, (access c (.read8 addr) ⟨s, mem⟩).1 = some (arrayData c mem .read8 addr) ∧
    (access c (.read16 addr) ⟨s, mem⟩).1 = some (arrayData c mem .read16 addr) ∧
    (access c (.read32 addr) ⟨s, mem⟩).1 = some (arrayData c mem .read32 addr)

/-- After these writes only the last access of a command changes the array, and when no command is under way a reset
leads to a state in which reads return the array. -/
structure Protected (c : Config) (ws : List Write) (f : Flash) : Prop where
  array : ∀ a, (access c a f).2.mem ≠ f.mem → ∃ w, a = .write16 w ∧
    ∃ command, command ∈ [program, eraseChip, eraseOneSector] ∧ ∃ p, p <:+ ws ++ [w] ∧ whole command p = true
  reset : pending commands ws = [] → ∀ addr, ReadsArray c (write c ⟨addr, amdCmdReset⟩ f).state

/-- A write goes on with the command that the machine is in. A machine that has seen the first write of one may be told to
show its identification. -/
def Heeds (s : CfiState) (w : Write) : Prop :=
  match s with
  | .unlockStart => unlock2 w = true ∨ writes addrUnlock1 flashCmdReadId w = true
  | .getCommand => writes addrUnlock1 flashCmdReadId w = true ∨ writes addrUnlock1 amdCmdEraseStart w = true ∨
      writes addrUnlock1 amdCmdWrite w = true
  | .eraseStart => unlock1 w = true
  | .eraseAck => unlock2 w = true
  | .erase => writes addrUnlock1 amdCmdEraseChip w = true ∨ w.data = amdCmdEraseSector
  | _ => True

/-- What is under way, as the state tells it. -/
def Agrees (ws : List Write) (s : CfiState) : Prop :=
  match s with
  | .read => pending commands ws = []
  | .unlockStart => ∃ a, pending commands ws = [a] ∧ unlock1 a = true
  | .getCommand => ∃ a b, pending commands ws = [a, b] ∧ unlock1 a = true ∧ unlock2 b = true
  | .doWrite => ∃ a b d, pending commands ws = [a, b, d] ∧ unlock1 a = true ∧ unlock2 b = true ∧ writes addrUnlock1 amdCmdWrite d = true
  | .eraseStart => ∃ a b d, pending commands ws = [a, b, d] ∧ unlock1 a = true ∧ unlock2 b = true ∧
      writes addrUnlock1 amdCmdEraseStart d = true
  | .eraseAck => ∃ a b d e, pending commands ws = [a, b, d, e] ∧ unlock1 a = true ∧ unlock2 b = true ∧
      writes addrUnlock1 amdCmdEraseStart d = true ∧ unlock1 e = true
  | .erase => ∃ a b d e g, pending commands ws = [a, b, d, e, g] ∧ unlock1 a = true ∧ unlock2 b = true ∧
      writes addrUnlock1 amdCmdEraseStart d = true ∧ unlock1 e = true ∧ unlock2 g = true
  | .readId | .cfiQuery => True
  | .unknown => False

theorem writes_iff {word : Nat} {data : Half} {w : Write} : writes word data w = true ↔ w.addr / 2 = word ∧ w.data = data := by
  unfold writes
  rw [Bool.and_eq_true, decide_eq_true_iff, decide_eq_true_iff]

theorem readsArray_iff {c : Config} {s : CfiState} : ReadsArray c s ↔ s = .read := by
  constructor
  · intro reads
    have word := (reads (fun _ => 1) 0).2.2
    have one : arrayData c (fun _ => 1) .read32 0 ≠ 0 := by
      show memWord c (fun _ => 1) 0 ≠ 0
      unfold memWord memHalf hostHalf
      cases c.bigEndian <;> decide
    cases s with
    | read => rfl
    | _ => exact absurd (Option.some.inj word).symm one
  · rintro rfl mem addr
    exact ⟨rfl, rfl, rfl⟩

section
variable {c : Config} {f : Flash} {ws : List Write} {w : Write}

/-! ### The machine, write by write -/

theorem write_getCommand (state : f.state = .getCommand) : write c w f =
    if writes addrUnlock1 flashCmdReadId w then { f with state := .readId }
    else if writes addrUnlock1 amdCmdEraseStart w then { f with state := .eraseStart }
    else if writes addrUnlock1 amdCmdWrite w then { f with state := .doWrite }
    else f := by
  show (stateMachineProcess c .write16 w.addr w.data f).2 = _
  unfold stateMachineProcess
  rw [state]
  show getCommand .write16 w.addr w.data f = _
  unfold getCommand
  simp only [writes_iff]
  rfl

theorem write_unlockStart (state : f.state = .unlockStart) : write c w f =
    if unlock2 w then { f with state := .getCommand }
    else if writes addrUnlock1 flashCmdReadId w then { f with state := .readId }
    else if writes addrUnlock1 amdCmdEraseStart w then { f with state := .eraseStart }
    else if writes addrUnlock1 amdCmdWrite w then { f with state := .doWrite }
    else f := by
  show (stateMachineProcess c .write16 w.addr w.data f).2 = _
  unfold stateMachineProcess
  rw [state]
  simp only [unlock2, writes_iff, ne_eq, not_true_eq_false, if_false]
  split
  · rfl
  · show getCommand .write16 w.addr w.data f = _
    rfl

theorem write_read (state : f.state = .read) : write c w f =
    if writes flashOffsetCfi flashCmdCfi w then { f with state := .cfiQuery }
    else if unlock1 w then { f with state := .unlockStart }
    else f := by
  show (stateMachineProcess c .write16 w.addr w.data f).2 = _
  unfold stateMachineProcess
  rw [state]
  simp only [unlock1, writes_iff, true_and]
  split
  · rfl
  · split <;> rfl

theorem write_doWrite (state : f.state = .doWrite) :
    write c w f = { state := .read, mem := storeHalf c (halfIndex c w.addr) w.data f.mem } := by
  show (stateMachineProcess c .write16 w.addr w.data f).2 = _
  unfold stateMachineProcess
  rw [state]
  rfl

theorem write_eraseStart (state : f.state = .eraseStart) : write c w f = if unlock1 w then { f with state := .eraseAck } else f := by
  show (stateMachineProcess c .write16 w.addr w.data f).2 = _
  unfold stateMachineProcess
  rw [state]
  simp only [unlock1, writes_iff, true_and]

theorem write_eraseAck (state : f.state = .eraseAck) : write c w f = if unlock2 w then { f with state := .erase } else f := by
  show (stateMachineProcess c .write16 w.addr w.data f).2 = _
  unfold stateMachineProcess
  rw [state]
  simp only [unlock2, writes_iff, true_and]

theorem write_erase (state : f.state = .erase) : write c w f =
    if writes addrUnlock1 amdCmdEraseChip w then { f with state := .read }
    else if w.data = amdCmdEraseSector then { state := .read, mem := eraseSector (w.addr / 2) f.mem }
    else f := by
  show (stateMachineProcess c .write16 w.addr w.data f).2 = _
  unfold stateMachineProcess
  rw [state]
  simp only [writes_iff, ne_eq, not_true_eq_false, if_false]
  split
  · rfl
  · split <;> rfl

/-- The states that show a table, and the state before the first reset, wait for a reset. -/
theorem write_shown (state : f.state = .readId ∨ f.state = .cfiQuery ∨ f.state = .unknown) :
    write c w f = if w.data = amdCmdReset then { f with state := .read } else f := by
  show (stateMachineProcess c .write16 w.addr w.data f).2 = _
  unfold stateMachineProcess
  rcases state with is | is | is <;> rw [is] <;> simp only [true_and] <;> split <;> rfl

theorem read_same (a : Access) (reads : ∀ w, a ≠ .write16 w) : (access c a f).2 = f := by
  have same (xfer : Xfer) (addr : Nat) (other : xfer ≠ .write16) : (stateMachineProcess c xfer addr 0 f).2 = f := by
    unfold stateMachineProcess getCommand
    cases f.state <;> simp only [other, false_and, if_false, ne_eq, not_false_eq_true, if_true] <;> repeat' split
    all_goals rfl
  cases a with
  | read8 addr => exact same .read8 addr nofun
  | read16 addr => exact same .read16 addr nofun
  | read32 addr => exact same .read32 addr nofun
  | write16 w => exact absurd rfl (reads w)

/-! ### The command under way -/

theorem writes_apart {word word' : Nat} {data data' : Half} (differ : data ≠ data') (is : writes word data w = true) :
    writes word' data' w = false := by
  rw [Bool.eq_false_iff]
  intro other
  exact differ ((writes_iff.mp is).2.symm.trans (writes_iff.mp other).2)

theorem follow_nil (w : Write) : follow commands [] w = if unlock1 w then [w] else [] := by
  simp [follow, started, commands, program, eraseChip, eraseOneSector, erase, readId, begins]

theorem follow_one {a : Write} (first : unlock1 a = true) : follow commands [a] w = if unlock2 w then [a, w] else [] := by
  simp [follow, started, commands, program, eraseChip, eraseOneSector, erase, readId, begins, first]

theorem follow_two {a b : Write} (first : unlock1 a = true) (second : unlock2 b = true) : follow commands [a, b] w =
    if writes addrUnlock1 amdCmdWrite w || writes addrUnlock1 amdCmdEraseStart w then [a, b, w] else [] := by
  simp [follow, started, commands, program, eraseChip, eraseOneSector, erase, readId, begins, first, second]

theorem follow_program {a b d : Write} (third : writes addrUnlock1 amdCmdWrite d = true) : follow commands [a, b, d] w = [] := by
  have other : writes addrUnlock1 amdCmdEraseStart d = false := writes_apart (by decide) third
  simp [follow, started, commands, program, eraseChip, eraseOneSector, erase, readId, begins, other]

theorem follow_three {a b d : Write} (first : unlock1 a = true) (second : unlock2 b = true)
    (third : writes addrUnlock1 amdCmdEraseStart d = true) : follow commands [a, b, d] w = if unlock1 w then [a, b, d, w] else [] := by
  simp [follow, started, commands, program, eraseChip, eraseOneSector, erase, readId, begins, first, second, third]

theorem follow_four {a b d e : Write} (first : unlock1 a = true) (second : unlock2 b = true)
    (third : writes addrUnlock1 amdCmdEraseStart d = true) (fourth : unlock1 e = true) :
    follow commands [a, b, d, e] w = if unlock2 w then [a, b, d, e, w] else [] := by
  simp [follow, started, commands, program, eraseChip, eraseOneSector, erase, readId, begins, first, second, third, fourth]

theorem follow_five (a b d e g : Write) : follow commands [a, b, d, e, g] w = [] := by
  simp [follow, started, commands, program, eraseChip, eraseOneSector, erase, readId]

theorem follow_reset (p : List Write) (reset : w.data = amdCmdReset) : follow commands p w = [] := by
  have not (word : Nat) (data : Half) (differ : data ≠ amdCmdReset) : writes word data w = false := by
    rw [Bool.eq_false_iff]
    intro is
    exact differ ((writes_iff.mp is).2.symm.trans reset)
  have u1 : unlock1 w = false := not _ _ (by decide)
  have u2 : unlock2 w = false := not _ _ (by decide)
  have cw := not addrUnlock1 amdCmdWrite (by decide)
  have ce := not addrUnlock1 amdCmdEraseStart (by decide)
  rcases p with _ | ⟨a, _ | ⟨b, _ | ⟨d, _ | ⟨e, _ | ⟨g, p⟩⟩⟩⟩⟩ <;>
    simp [follow, started, commands, program, eraseChip, eraseOneSector, erase, readId, begins, u1, u2, cw, ce]

/-- A write that goes on with the command takes the machine along. -/
theorem Agrees.step (agrees : Agrees ws f.state) (heeds : Heeds f.state w) : Agrees (ws ++ [w]) (write c w f).state := by
  cases state : f.state with
  | unknown =>
    rw [state] at agrees
    cases agrees
  | read =>
    rw [state] at agrees
    have empty : pending commands ws = [] := agrees
    have next : pending commands (ws ++ [w]) = if unlock1 w then [w] else [] := by
      rw [Commands.pending_snoc, empty, follow_nil]
    rw [write_read state]
    split
    · trivial
    · split
      · next first => exact ⟨w, by rw [next, if_pos first], first⟩
      · next other =>
        rw [state]
        exact next.trans (if_neg other)
  | unlockStart =>
    rw [state] at agrees heeds
    obtain ⟨a, under, first⟩ := agrees
    have next : pending commands (ws ++ [w]) = if unlock2 w then [a, w] else [] := by
      rw [Commands.pending_snoc, under, follow_one first]
    rw [write_unlockStart state]
    split
    · next second => exact ⟨a, w, by rw [next, if_pos second], first, second⟩
    · next other =>
      rw [if_pos (heeds.resolve_left other)]
      trivial
  | getCommand =>
    rw [state] at agrees heeds
    obtain ⟨a, b, under, first, second⟩ := agrees
    have next : pending commands (ws ++ [w]) = if writes addrUnlock1 amdCmdWrite w || writes addrUnlock1 amdCmdEraseStart w
        then [a, b, w] else [] := by
      rw [Commands.pending_snoc, under, follow_two first second]
    rw [write_getCommand state]
    split
    · trivial
    · next notId =>
      split
      · next third => exact ⟨a, b, w, by rw [next, third, Bool.or_true, if_pos rfl], first, second, third⟩
      · next notErase =>
        have third := (heeds.resolve_left notId).resolve_left notErase
        rw [if_pos third]
        exact ⟨a, b, w, by rw [next, third, Bool.true_or, if_pos rfl], first, second, third⟩
  | doWrite =>
    rw [state] at agrees
    obtain ⟨a, b, d, under, -, -, third⟩ := agrees
    rw [write_doWrite state]
    show pending commands (ws ++ [w]) = []
    rw [Commands.pending_snoc, under, follow_program third]
  | eraseStart =>
    rw [state] at agrees heeds
    obtain ⟨a, b, d, under, first, second, third⟩ := agrees
    have fourth : unlock1 w = true := heeds
    rw [write_eraseStart state, if_pos fourth]
    exact ⟨a, b, d, w, by rw [Commands.pending_snoc, under, follow_three first second third, if_pos fourth], first, second, third,
      fourth⟩
  | eraseAck =>
    rw [state] at agrees heeds
    obtain ⟨a, b, d, e, under, first, second, third, fourth⟩ := agrees
    have fifth : unlock2 w = true := heeds
    rw [write_eraseAck state, if_pos fifth]
    exact ⟨a, b, d, e, w, by rw [Commands.pending_snoc, under, follow_four first second third fourth, if_pos fifth],
      first, second, third, fourth, fifth⟩
  | erase =>
    rw [state] at agrees heeds
    obtain ⟨a, b, d, e, g, under, -⟩ := agrees
    have next : pending commands (ws ++ [w]) = [] := by
      rw [Commands.pending_snoc, under, follow_five]
    rw [write_erase state]
    split
    · exact next
    · next other =>
      rw [if_pos (heeds.resolve_left other)]
      exact next
  | readId =>
    rw [write_shown (.inl state)]
    split
    · next reset =>
      show pending commands (ws ++ [w]) = []
      rw [Commands.pending_snoc, follow_reset _ reset]
    · rw [state]
      trivial
  | cfiQuery =>
    rw [write_shown (.inr (.inl state))]
    split
    · next reset =>
      show pending commands (ws ++ [w]) = []
      rw [Commands.pending_snoc, follow_reset _ reset]
    · rw [state]
      trivial

/-! ### Protection, and its loss -/

theorem reset_not {word : Nat} {data : Half} {addr : Nat} (differ : data ≠ amdCmdReset) :
    ¬ writes word data ⟨addr, amdCmdReset⟩ = true :=
  fun is => differ (writes_iff.mp is).2.symm

theorem unlock1_reset (addr : Nat) : ¬ unlock1 ⟨addr, amdCmdReset⟩ = true :=
  reset_not (show amdCmdUnlockStart ≠ amdCmdReset by decide)

theorem unlock2_reset (addr : Nat) : ¬ unlock2 ⟨addr, amdCmdReset⟩ = true :=
  reset_not (show amdCmdUnlockAck ≠ amdCmdReset by decide)

/-- The states in which a command is under way ignore a reset. -/
theorem reset_ignored (addr : Nat) (state : f.state = .unlockStart ∨ f.state = .getCommand ∨ f.state = .eraseStart ∨
    f.state = .eraseAck ∨
    f.state = .erase) : (write c ⟨addr, amdCmdReset⟩ f).state ≠ .read := by
  have stays : write c ⟨addr, amdCmdReset⟩ f = f := by
    rcases state with is | is | is | is | is
    · rw [write_unlockStart is, if_neg (unlock2_reset addr), if_neg (reset_not (by decide)), if_neg (reset_not (by decide)),
        if_neg (reset_not (by decide))]
    · rw [write_getCommand is, if_neg (reset_not (by decide)), if_neg (reset_not (by decide)), if_neg (reset_not (by decide))]
    · rw [write_eraseStart is, if_neg (unlock1_reset addr)]
    · rw [write_eraseAck is, if_neg (unlock2_reset addr)]
    · rw [write_erase is, if_neg (reset_not (by decide)), if_neg (by decide : ¬ amdCmdReset = amdCmdEraseSector)]
  rw [stays]
  rcases state with is | is | is | is | is <;> rw [is] <;> decide

theorem Agrees.protected (agrees : Agrees ws f.state) : Protected c ws f := by
  refine ⟨fun a changed => ?_, fun idle addr => ?_⟩
  · cases a with
    | read8 addr => exact absurd (congrArg Flash.mem (read_same (.read8 addr) nofun)) changed
    | read16 addr => exact absurd (congrArg Flash.mem (read_same (.read16 addr) nofun)) changed
    | read32 addr => exact absurd (congrArg Flash.mem (read_same (.read32 addr) nofun)) changed
    | write16 w =>
      refine ⟨w, rfl, ?_⟩
      change (write c w f).mem ≠ f.mem at changed
      cases state : f.state with
      | unknown =>
        rw [state] at agrees
        cases agrees
      | read =>
        rw [write_read state] at changed
        split at changed
        · exact absurd rfl changed
        · split at changed <;> exact absurd rfl changed
      | unlockStart =>
        rw [write_unlockStart state] at changed
        repeat' split at changed
        all_goals exact absurd rfl changed
      | getCommand =>
        rw [write_getCommand state] at changed
        repeat' split at changed
        all_goals exact absurd rfl changed
      | doWrite =>
        rw [state] at agrees
        obtain ⟨a, b, d, under, first, second, third⟩ := agrees
        refine ⟨program, List.mem_cons_self, Commands.whole_suffix commands ?_⟩
        rw [under]
        simp [whole, program, begins, first, second, third]
      | eraseStart =>
        rw [write_eraseStart state] at changed
        split at changed <;> exact absurd rfl changed
      | eraseAck =>
        rw [write_eraseAck state] at changed
        split at changed <;> exact absurd rfl changed
      | erase =>
        rw [state] at agrees
        obtain ⟨a, b, d, e, g, under, first, second, third, fourth, fifth⟩ := agrees
        rw [write_erase state] at changed
        split at changed
        · exact absurd rfl changed
        · split at changed
          · next sector =>
            refine ⟨eraseOneSector, by simp, Commands.whole_suffix commands ?_⟩
            rw [under]
            simp [whole, eraseOneSector, erase, begins, first, second, third, fourth, fifth, sector]
          · exact absurd rfl changed
      | readId =>
        rw [write_shown (.inl state)] at changed
        split at changed <;> exact absurd rfl changed
      | cfiQuery =>
        rw [write_shown (.inr (.inl state))] at changed
        split at changed <;> exact absurd rfl changed
  · rw [readsArray_iff]
    unfold Agrees at agrees
    cases state : f.state with
    | read =>
      rw [write_read state, if_neg (reset_not (by decide)), if_neg (unlock1_reset addr)]
      exact state
    | readId => rw [write_shown (.inl state), if_pos rfl]
    | cfiQuery => rw [write_shown (.inr (.inl state)), if_pos rfl]
    | _ =>
      rw [state] at agrees
      simp [idle] at agrees

theorem storeHalf_changes (c : Config) (i : Nat) (mem : Nat → Byte) : ∃ v, storeHalf c i v mem ≠ mem := by
  refine ⟨~~~mem (2 * i) ++ ~~~mem (2 * i), fun same => ?_⟩
  have byte := congrFun same (2 * i)
  have parts : (hostBytes c (~~~mem (2 * i) ++ ~~~mem (2 * i))).1 = ~~~mem (2 * i) := by
    unfold hostBytes
    split
    · exact BitVec.extractLsb'_append_eq_left
    · exact BitVec.extractLsb'_append_eq_right
  unfold storeHalf at byte
  rw [Function.update_of_ne (by omega : 2 * i ≠ 2 * i + 1), Function.update_self, parts] at byte
  have bit := congrArg (BitVec.getLsbD · 0) byte
  simp at bit

theorem short_program {a d v : Write} {command : Command Write} {p : List Write} (first : unlock1 a = true)
    (third : writes addrUnlock1 amdCmdWrite d = true)
    (known : command ∈ [program, eraseChip, eraseOneSector]) (last : p <:+ ws ++ [a, d, v]) (done : whole command p = true) : False := by
  have notAck (w : Write) (is : writes addrUnlock1 amdCmdWrite w = true) : unlock2 w = false :=
    writes_apart (show amdCmdWrite ≠ amdCmdUnlockAck by decide) is
  have notStart : unlock2 a = false := writes_apart (show amdCmdUnlockStart ≠ amdCmdUnlockAck by decide) first
  obtain ⟨before, is⟩ := last
  unfold whole at done
  obtain ⟨length, fits⟩ := Bool.and_eq_true_iff.mp done
  have length := of_decide_eq_true length
  have ends : before ++ p = ws ++ [a, d, v] := is
  rcases List.mem_cons.mp known with rfl | known
  · match p, length with
    | [p₀, p₁, p₂, p₃], _ =>
      have split : (before ++ [p₀]) ++ [p₁, p₂, p₃] = ws ++ [a, d, v] := by rw [List.append_assoc]; exact ends
      have same := (List.append_inj' split rfl).2
      simp only [List.cons.injEq, and_true] at same
      simp [program, begins, same.1, notStart] at fits
  · have six : p.length = 6 := by
      rcases List.mem_cons.mp known with rfl | known
      · exact length
      · rw [List.mem_singleton] at known
        rw [length, known]
        rfl
    match p, six with
    | [p₀, p₁, p₂, p₃, p₄, p₅], _ =>
      have split : (before ++ [p₀, p₁, p₂]) ++ [p₃, p₄, p₅] = ws ++ [a, d, v] := by rw [List.append_assoc]; exact ends
      have same := (List.append_inj' split rfl).2
      simp only [List.cons.injEq, and_true] at same
      have ack := notAck d third
      rcases List.mem_cons.mp known with rfl | known
      · simp [eraseChip, erase, begins, same.2.1, ack] at fits
      · obtain rfl := List.mem_singleton.mp known
        simp [eraseOneSector, erase, begins, same.2.1, ack] at fits

/-- A command under way is aborted, and the machine does not leave it. -/
theorem not_protected_of_stuck (idle : pending commands ws = [])
    (state : f.state = .unlockStart ∨ f.state = .getCommand ∨ f.state = .eraseStart ∨ f.state = .eraseAck ∨ f.state = .erase) :
    ¬ Protected c ws f :=
  fun protected' => reset_ignored 0 state (readsArray_iff.mp (protected'.reset idle 0))

theorem Agrees.not_protected (agrees : Agrees ws f.state) (unheeded : ¬ Heeds f.state w) : ¬ Protected c (ws ++ [w]) (write c w f) := by
  cases state : f.state with
  | unlockStart =>
    rw [state] at agrees unheeded
    obtain ⟨a, under, first⟩ := agrees
    obtain ⟨notAck, notId⟩ := not_or.mp unheeded
    have idle : pending commands (ws ++ [w]) = [] := by
      rw [Commands.pending_snoc, under, follow_one first, if_neg notAck]
    rw [write_unlockStart state, if_neg notAck, if_neg notId]
    split
    · exact not_protected_of_stuck idle (.inr (.inr (.inl rfl)))
    · split
      · next third =>
        intro protected'
        obtain ⟨v, changes⟩ := storeHalf_changes c (halfIndex c 0) f.mem
        obtain ⟨x, is, command, known, p, last, done⟩ := protected'.array (.write16 ⟨0, v⟩) (by
          show (write c ⟨0, v⟩ _).mem ≠ _
          rw [write_doWrite rfl]
          exact changes)
        cases is
        obtain ⟨before, whole'⟩ := Commands.pending_suffix commands ws
        rw [under] at whole'
        have ends : p <:+ before ++ [a, w, ⟨0, v⟩] := by
          rw [← whole', List.append_assoc, List.append_assoc] at last
          exact last
        exact short_program first third known ends done
      · exact not_protected_of_stuck idle (.inl state)
  | getCommand =>
    rw [state] at agrees unheeded
    obtain ⟨a, b, under, first, second⟩ := agrees
    obtain ⟨notId, others⟩ := not_or.mp unheeded
    obtain ⟨notErase, notWrite⟩ := not_or.mp others
    have idle : pending commands (ws ++ [w]) = [] := by
      rw [Commands.pending_snoc, under, follow_two first second, Bool.eq_false_iff.mpr notErase, Bool.eq_false_iff.mpr notWrite]
      rfl
    rw [write_getCommand state, if_neg notId, if_neg notErase, if_neg notWrite]
    exact not_protected_of_stuck idle (.inr (.inl state))
  | eraseStart =>
    rw [state] at agrees unheeded
    obtain ⟨a, b, d, under, first, second, third⟩ := agrees
    have not : ¬ unlock1 w = true := unheeded
    have idle : pending commands (ws ++ [w]) = [] := by
      rw [Commands.pending_snoc, under, follow_three first second third, if_neg not]
    rw [write_eraseStart state, if_neg not]
    exact not_protected_of_stuck idle (.inr (.inr (.inl state)))
  | eraseAck =>
    rw [state] at agrees unheeded
    obtain ⟨a, b, d, e, under, first, second, third, fourth⟩ := agrees
    have not : ¬ unlock2 w = true := unheeded
    have idle : pending commands (ws ++ [w]) = [] := by
      rw [Commands.pending_snoc, under, follow_four first second third fourth, if_neg not]
    rw [write_eraseAck state, if_neg not]
    exact not_protected_of_stuck idle (.inr (.inr (.inr (.inl state))))
  | erase =>
    rw [state] at agrees unheeded
    obtain ⟨a, b, d, e, g, under, -⟩ := agrees
    obtain ⟨notChip, notSector⟩ := not_or.mp unheeded
    have idle : pending commands (ws ++ [w]) = [] := by
      rw [Commands.pending_snoc, under, follow_five]
    rw [write_erase state, if_neg notChip, if_neg notSector]
    exact not_protected_of_stuck idle (.inr (.inr (.inr (.inr state))))
  | _ =>
    rw [state] at unheeded
    exact absurd trivial unheeded

/-! ### Runs -/

/-- The runs from a reset whose writes are allowed, with the writes that have been made. -/
inductive Run (allowed : CfiState → Write → Prop) (c : Config) (mem : Nat → Byte) : List Write → Flash → Prop where
  | reset : Run allowed c mem [] (memReset mem)
  | read {ws : List Write} {f : Flash} (a : Access) (reads : ∀ w, a ≠ .write16 w) (before : Run allowed c mem ws f) :
      Run allowed c mem ws (access c a f).2
  | write {ws : List Write} {f : Flash} (w : Write) (allows : allowed f.state w) (before : Run allowed c mem ws f) :
      Run allowed c mem (ws ++ [w]) (write c w f)

theorem Run.agrees {mem : Nat → Byte} (run : Run Heeds c mem ws f) : Agrees ws f.state := by
  induction run with
  | reset => rfl
  | read a reads before ih =>
    rw [read_same a reads]
    exact ih
  | write w heeds before ih => exact ih.step heeds

/-- In a run whose writes all go on with the command under way the flash is protected, and any other write ends that. -/
theorem protected_along {mem : Nat → Byte} (run : Run Heeds c mem ws f) :
    Protected c ws f ∧ ∀ w, Protected c (ws ++ [w]) (write c w f) ↔ Heeds f.state w := by
  refine ⟨run.agrees.protected, fun w => ⟨fun protected' => ?_, fun heeds => (run.agrees.step heeds).protected⟩⟩
  by_contra unheeded
  exact run.agrees.not_protected unheeded protected'

end

instance (s : CfiState) (w : Write) : Decidable (Heeds s w) := by
  unfold Heeds
  split <;> infer_instance

/-- An access, with the writes that have been made. -/
def noted (c : Config) (r : List Write × Flash) (a : Access) : Option (List Write × Flash) :=
  match a with
  | .write16 w => some (r.1 ++ [w], write c w r.2)
  | a => some (r.1, (access c a r.2).2)

/-- A write heeds the command under way, and a read does not have to. -/
def Noted (r : List Write × Flash) : Access → Prop
  | .write16 w => Heeds r.2.state w
  | _ => True

instance (r : List Write × Flash) : DecidablePred (Noted r)
  | .write16 w => inferInstanceAs (Decidable (Heeds r.2.state w))
  | .read8 _ | .read16 _ | .read32 _ => inferInstanceAs (Decidable True)

theorem Run.guarded {c : Config} {mem : Nat → Byte} {r r' : List Write × Flash} {as : List Access} (before : Run Heeds c mem r.1 r.2)
    (ran : Runs.guarded (noted c) Noted r as = some r') : Run Heeds c mem r'.1 r'.2 := by
  refine Runs.guarded_preserves (P := fun r => Run Heeds c mem r.1 r.2) (fun {r r' a} before heeds ran => ?_) before ran
  cases a with
  | write16 w =>
    cases ran
    exact before.write w heeds
  | read8 addr | read16 addr | read32 addr =>
    cases ran
    exact before.read _ nofun

/-- Half a word is programmed and read, a sector is erased, and the next command has begun. -/
theorem protected_along_start : ∃ ws f, Run Heeds ⟨false, [], []⟩ (fun _ => 0) ws f ∧
    (f.mem 0x102 = 0x34 ∧ f.mem 0x10000 = 0xff ∧ f.state = .unlockStart) ∧ Protected ⟨false, [], []⟩ ws f := by
  let as : List Access :=
    [.write16 ⟨0xaaa, 0xaa⟩, .write16 ⟨0x554, 0x55⟩, .write16 ⟨0xaaa, 0xa0⟩, .write16 ⟨0x100, 0x1234⟩, .read16 0x100,
      .write16 ⟨0xaaa, 0xaa⟩, .write16 ⟨0x554, 0x55⟩, .write16 ⟨0xaaa, 0x80⟩, .write16 ⟨0xaaa, 0xaa⟩, .write16 ⟨0x554, 0x55⟩,
      .write16 ⟨0x20000, 0x30⟩, .read32 0x20000, .write16 ⟨0xaaa, 0xaa⟩]
  have seen : (Runs.guarded (noted ⟨false, [], []⟩) Noted ([], memReset fun _ => 0) as).map
      (fun r => (r.2.mem 0x102, r.2.mem 0x10000, r.2.state)) = some (0x34, 0xff, .unlockStart) := by decide +kernel
  obtain ⟨r, ran, is⟩ := Option.map_eq_some_iff.mp seen
  have run : Run Heeds ⟨false, [], []⟩ (fun _ => 0) r.1 r.2 := Run.guarded (r := ([], memReset fun _ => 0)) .reset ran
  obtain ⟨byte, rest⟩ := Prod.mk.inj is
  exact ⟨r.1, r.2, run, ⟨byte, Prod.mk.inj rest⟩, (protected_along run).1⟩

/-- A program command without its second write. -/
theorem short_program_accepted : ∃ c mem ws f, Run (fun _ _ => True) c mem ws f ∧ ¬ Protected c ws f := by
  let c : Config := ⟨false, [], []⟩
  let first : Write := ⟨0xaaa, 0xaa⟩
  let third : Write := ⟨0xaaa, 0xa0⟩
  have started : Run Heeds c (fun _ => 0xff) [first] (write c first (memReset fun _ => 0xff)) :=
    .write (f := memReset fun _ => 0xff) first trivial .reset
  have state : (write c first (memReset fun _ => 0xff)).state = .unlockStart := by
    rw [write_read rfl, if_neg (by decide), if_pos (by decide)]
  refine ⟨c, fun _ => 0xff, [first] ++ [third], write c third (write c first (memReset fun _ => 0xff)), ?_, ?_⟩
  · exact .write third trivial (.write first trivial .reset)
  · refine started.agrees.not_protected ?_
    rw [state]
    exact show ¬ (unlock2 third = true ∨ writes addrUnlock1 flashCmdReadId third = true) by decide

end Or1ksim.CfiFlash
