import Or1ksim.Debug.Registers

/-!
# The stored fields

What a WRITE_COMMAND stores is checked for the module that is selected then. A later SELECT_MODULE
keeps it, and a transfer moves the address on.
-/

namespace Or1ksim.Debug

open Serial (Buffer)
open Cpu (Word Machine)

variable {δ : Type} {u : DebugConfig δ} {d d' : DebugState} {jreg : Buffer} {numBits : Nat}

/-! ### What a register does to the state -/

def ModId.ofCode : Nat → ModId
  | 0 => .wishbone
  | 1 => .cpu0
  | 2 => .cpu1
  | _ => .undefined

inductive Change (u : DebugConfig δ) (d : DebugState) (jreg : Buffer) (numBits : Nat) : DebugState → Prop where
  | same : Change u d jreg numBits d
  | forgotten : Change u d jreg numBits { d with writeDefinedP := false }
  | selected (is : format d jreg = some .selectModule) (expected : numBits = 73) (good : CrcOk jreg 5) :
      Change u d jreg numBits { d with modId := .ofCode (jreg.value 1 4).toNat }
  | defined (accType : Option AccType) (addr : Word) (len : BitVec 16) : Change u d jreg numBits (defineWrite d accType addr len)
  | advanced (wishbone : d.modId = .wishbone) : Change u d jreg numBits { d with addr := (d.addr + d.size) % u.ulong }
  | next (cpu0 : d.modId = .cpu0) (f : Format) (go : f = .goRead ∨ f = .goWrite) (is : format d jreg = some f)
      (expected : numBits = f.length d) (good : CrcOk jreg (f.covered d)) :
      Change u d jreg numBits { d with addr := (d.addr + 1) % u.ulong }

theorem selectModule_change (is : format d jreg = some .selectModule) : Change u d jreg numBits (selectModule d jreg numBits).1 := by
  unfold selectModule
  split
  · exact .same
  · next expected =>
    dsimp only
    split
    · next crc =>
      have good := (selectModule_crc (format_leads is)).mp crc
      have chosen := Change.selected (u := u) is (by omega : numBits = 73) good
      rw [← code4_value] at chosen
      generalize (code4 jreg).toNat = code at chosen ⊢
      match code with
      | 0 => exact chosen
      | 1 => exact chosen
      | 2 => exact chosen
      | _ + 3 => exact chosen
    · exact .same

theorem writeCommand_change : Change u d jreg numBits (writeCommand d jreg numBits).1 := by
  unfold writeCommand
  split
  · exact .forgotten
  · dsimp only
    split
    · exact .defined _ _ _
    · exact .forgotten

theorem readCommand_state (d : DebugState) (jreg : Buffer) (numBits : Nat) : (readCommand d jreg numBits).1 = d := by
  unfold readCommand
  dsimp only
  split
  · rfl
  · split <;> rfl

theorem readControl_state (d : DebugState) (jreg : Buffer) (numBits : Nat) (m : Machine δ) : (readControl d jreg numBits m).1 = d := by
  unfold readControl
  dsimp only
  split
  · rfl
  · split <;> rfl

theorem writeControl_state {m m' : Machine δ} {out : Buffer} (ran : writeControl u d jreg numBits m = .ok ((d', out), m')) : d' = d := by
  unfold writeControl at ran
  split at ran
  · cases ran
    rfl
  · dsimp only at ran
    split at ran
    · obtain ⟨_, m₁, _, rest⟩ := Programs.bind_ok ran
      cases rest
      rfl
    · cases ran
      rfl

theorem goBytes_ok (is : (goBytes u d numBits).2 = jsOk) :
    numBits = 36 + 8 * d.size.val + 32 + 4 + 1 ∧ (goBytes u d numBits).1 = d.size.val := by
  unfold goBytes at is ⊢
  dsimp only at is ⊢
  split at is
  · next same => exact ⟨same.symm, by rw [if_pos same]⟩
  · exact absurd is (show jsOverUnderrun ≠ jsOk by decide)

theorem goCommandRead_change {m m' : Machine δ} {out : Buffer} (is : format d jreg = some .goRead)
    (ran : goCommandRead u d jreg numBits m = .ok ((d', out), m')) : Change u d jreg numBits d' := by
  unfold goCommandRead at ran
  obtain ⟨⟨d₁, jreg₁, crcOut, status⟩, m₁, inner, rest⟩ := Programs.bind_ok ran
  cases rest
  unfold checkedRead at inner
  split at inner
  · next crc =>
    have good := (command_crc jcmdGoCommand (format_leads is) (format_command is (by decide))).mp crc
    cases module : d.modId with
    | wishbone =>
      simp only [moduleRead, module, wishboneRead] at inner
      obtain ⟨⟨_, _, status⟩, _, _, rest⟩ := Programs.bind_ok inner
      dsimp only at rest
      cases rest
      split
      · rw [← module]
        exact .advanced module
      · exact .same
    | cpu0 =>
      simp only [moduleRead, module, sprRead, Programs.get_bind] at inner
      cases inner
      split
      · next fine =>
        rw [← module]
        refine .next module .goRead (.inl rfl) is ((goBytes_ok fine).1.trans ?_) good
        show _ = 5 + 32 + 8 * d.size.val + 36
        omega
      · exact .same
    | cpu1 | undefined =>
      simp only [moduleRead, module] at inner
      cases inner
      exact .same
  · cases inner
    exact .same

theorem goCommandWrite_change {m m' : Machine δ} {out : Buffer} (is : format d jreg = some .goWrite)
    (ran : goCommandWrite u d jreg numBits m = .ok ((d', out), m')) : Change u d jreg numBits d' := by
  unfold goCommandWrite at ran
  obtain ⟨⟨d₁, status⟩, m₁, inner, rest⟩ := Programs.bind_ok ran
  cases rest
  unfold checkedWrite at inner
  split at inner
  · next crc =>
    cases module : d.modId with
    | wishbone =>
      simp only [moduleWrite, module, wishboneWrite] at inner
      obtain ⟨status, _, _, rest⟩ := Programs.bind_ok inner
      cases rest
      split
      · rw [← module]
        exact .advanced module
      · exact .same
    | cpu0 =>
      simp only [moduleWrite, module, sprWrite] at inner
      obtain ⟨_, _, _, rest⟩ := Programs.bind_ok inner
      cases rest
      split
      · next fine =>
        obtain ⟨expected, size⟩ := goBytes_ok fine
        rw [size] at crc
        have good := (goWrite_crc (format_leads is) (format_command is (by decide)) d.size.val).mp crc
        rw [← module]
        refine .next module .goWrite (.inr rfl) is (expected.trans ?_) good
        show _ = 5 + 8 * d.size.val + 32 + 0 + 36
        omega
      · exact .same
    | cpu1 | undefined =>
      simp only [moduleWrite, module] at inner
      cases inner
      exact .same
  · cases inner
    exact .same

/-- A register without a format is answered without effect. -/
theorem shiftDr_unknown {m m' : Machine δ} {out : Buffer} (none : format d jreg = none)
    (ran : jtagShiftDr u d jreg numBits m = .ok ((d', out), m')) : d' = d := by
  unfold format at none
  unfold jtagShiftDr at ran
  rw [if_congr (bit_zero_eq jreg) rfl rfl, code4_value] at ran
  split at ran
  · cases ran
    rfl
  · split at none
    · cases none
    · next other =>
      rw [if_neg other] at ran
      generalize (jreg.value 1 4).toNat = code at none ran
      match code with
      | 0 =>
        by_cases defined : d.writeDefinedP = true
        · exact absurd ((if_pos defined).symm.trans none) (fun is => nomatch is)
        · rw [Bool.not_eq_true] at defined
          unfold goCommand at ran
          rw [defined] at ran
          cases ran
          rfl
      | 1 | 2 | 3 | 4 => cases none
      | _ + 5 =>
        cases ran
        rfl

theorem shiftDr_change {m m' : Machine δ} {out : Buffer} (debug : d.instr = some jiDebug)
    (ran : jtagShiftDr u d jreg numBits m = .ok ((d', out), m')) : Change u d jreg numBits d' := by
  cases is : format d jreg with
  | none =>
    rw [shiftDr_unknown is ran]
    exact .same
  | some f =>
    rw [shiftDr_handler debug is] at ran
    have answered {a : DebugState × Buffer} (ran : (pure a : Cpu.Sim δ _) m = .ok ((d', out), m')) : a.1 = d' :=
      congrArg (fun r => r.1.1) (Except.ok.inj ran)
    cases f with
    | selectModule =>
      rw [← answered ran]
      exact selectModule_change is
    | goRead => exact goCommandRead_change is ran
    | goWrite => exact goCommandWrite_change is ran
    | readCommand =>
      rw [← answered ran, readCommand_state]
      exact .same
    | writeCommand =>
      rw [← answered ran]
      exact writeCommand_change
    | readControl =>
      have state := congrArg (fun r => r.1.1) (Except.ok.inj ran)
      dsimp only at state
      rw [← state, readControl_state]
      exact .same
    | writeControl =>
      rw [writeControl_state ran]
      exact .same

/-! ### Runs -/

inductive Call where
  | shiftIr (jreg : Buffer) (numBits : Nat)
  | shiftDr (jreg : Buffer) (numBits : Nat)
  | reset

/-- The machine runs between the calls, so that each finds any machine. -/
def Call.Leads (u : DebugConfig δ) (d : DebugState) (d' : DebugState) : Call → Prop
  | .shiftIr jreg numBits => d' = jtagShiftIr d jreg numBits
  | .shiftDr jreg numBits => ∃ m out m', jtagShiftDr u d jreg numBits m = .ok ((d', out), m')
  | .reset => d' = jtagReset d

def Step (u : DebugConfig δ) (d d' : DebugState) : Prop := ∃ call : Call, call.Leads u d d'

/-- The fields are those of an access that the module takes. -/
def FieldsFit (d : DebugState) : ModId → Prop
  | .wishbone => validateWbFields d.accType d.addr d.size = true
  | .cpu0 => validateSprFields d.accType d.size = true ∧ d.addr < maxSprs
  | .cpu1 | .undefined => True

def StoredValid (d : DebugState) : Prop := d.writeDefinedP = true → FieldsFit d d.modId

/-- No module is selected that the stored fields do not fit, and no transfer of the last register
moves the address on. -/
def CarefulDr (d : DebugState) (jreg : Buffer) (numBits : Nat) : Prop :=
  match format d jreg with
  | some .selectModule => numBits = 73 → CrcOk jreg 5 → d.writeDefinedP = true → FieldsFit d (.ofCode (jreg.value 1 4).toNat)
  | some .goRead => numBits = Format.goRead.length d → CrcOk jreg 5 → d.modId = .cpu0 → d.addr ≠ 0xffff
  | some .goWrite => numBits = Format.goWrite.length d → CrcOk jreg (5 + 8 * d.size.val) → d.modId = .cpu0 → d.addr ≠ 0xffff
  | _ => True

def Call.Careful (d : DebugState) : Call → Prop
  | .shiftDr jreg numBits => d.instr = some jiDebug → CarefulDr d jreg numBits
  | .shiftIr _ _ | .reset => True

def CarefulStep (u : DebugConfig δ) (d d' : DebugState) : Prop := ∃ call : Call, call.Careful d ∧ call.Leads u d d'

theorem validateWbFields_advance {accType : AccType} {addr size : Nat} (valid : validateWbFields accType addr size = true) :
    validateWbFields accType ((addr + size) % u.ulong) size = true := by
  have divides : accType.accessBytes ∣ u.ulong := by
    unfold DebugConfig.ulong
    cases accType <;> cases u.cpu.long64 <;> decide
  unfold validateWbFields at valid ⊢
  simp only [decide_eq_true_eq] at valid ⊢
  refine ⟨?_, valid.2⟩
  rw [Nat.mod_mod_of_dvd _ divides, Nat.add_mod, valid.1, valid.2]
  simp

theorem defineWrite_valid (d : DebugState) (accType : Option AccType) (addr : Word) (len : BitVec 16) :
    StoredValid (defineWrite d accType addr len) := by
  unfold defineWrite
  dsimp only
  split
  · next wishbone =>
    split
    · next valid =>
      intro _
      show FieldsFit _ d.modId
      rw [wishbone]
      exact valid
    · intro defined
      cases defined
  · next cpu0 =>
    split
    · next valid =>
      intro _
      show FieldsFit _ d.modId
      rw [cpu0]
      exact ⟨valid, Nat.mod_lt _ (by decide)⟩
    · intro defined
      cases defined
  · intro defined
    cases defined

theorem change_valid (valid : StoredValid d) (careful : CarefulDr d jreg numBits) (change : Change u d jreg numBits d') :
    StoredValid d' := by
  cases change with
  | same => exact valid
  | forgotten =>
    intro defined
    cases defined
  | selected is expected good =>
    unfold CarefulDr at careful
    rw [is] at careful
    exact fun defined => careful expected good defined
  | defined accType addr len => exact defineWrite_valid d accType addr len
  | advanced wishbone =>
    intro defined
    have fit := valid defined
    show FieldsFit _ d.modId
    rw [wishbone] at fit ⊢
    exact validateWbFields_advance fit
  | next cpu0 f go is expected good =>
    intro defined
    have fit := valid defined
    show FieldsFit _ d.modId
    rw [cpu0] at fit ⊢
    have before : d.addr ≠ 0xffff := by
      unfold CarefulDr at careful
      rw [is] at careful
      rcases go with rfl | rfl
      · exact careful expected good cpu0
      · exact careful expected good cpu0
    refine ⟨fit.1, Nat.lt_of_le_of_lt (Nat.mod_le _ _) ?_⟩
    have below : d.addr < 0x10000 := fit.2
    show d.addr + 1 < 0x10000
    omega

theorem careful_step_valid (valid : StoredValid d) (step : CarefulStep u d d') : StoredValid d' := by
  obtain ⟨call, careful, leads⟩ := step
  cases call with
  | shiftIr jreg numBits =>
    cases leads
    unfold jtagShiftIr
    split
    · exact valid
    · exact valid
  | shiftDr jreg numBits =>
    obtain ⟨_, _, _, ran⟩ := leads
    by_cases debug : d.instr = some jiDebug
    · exact change_valid valid (careful debug) (shiftDr_change debug ran)
    · unfold jtagShiftDr at ran
      rw [if_pos debug] at ran
      cases ran
      exact valid
  | reset =>
    cases leads
    exact valid

/-- What is stored for a GO_COMMAND is valid for the module in every state of a careful run. -/
theorem stored_fields_valid (run : Relation.ReflTransGen (CarefulStep u) .start d) : StoredValid d := by
  induction run with
  | refl =>
    intro defined
    cases defined
  | tail _ step ih => exact careful_step_valid ih step

theorem Call.leads_select {jreg : Buffer} (debug : d.instr = some jiDebug) (is : format d jreg = some .selectModule)
    (m : Machine δ) (selects : (selectModule d jreg numBits).1 = d') : (Call.shiftDr jreg numBits).Leads u d d' := by
  subst selects
  exact ⟨m, _, m, by rw [shiftDr_handler debug is]; rfl⟩

theorem Call.leads_write {jreg : Buffer} (debug : d.instr = some jiDebug) (is : format d jreg = some .writeCommand)
    (m : Machine δ) (writes : (writeCommand d jreg numBits).1 = d') : (Call.shiftDr jreg numBits).Leads u d d' := by
  subst writes
  exact ⟨m, _, m, by rw [shiftDr_handler debug is]; rfl⟩

def selectWishbone : Buffer := request [true, false, false, false, false]
def selectCpu0 : Buffer := request [true, false, false, false, true]
def writeByte : Buffer := request ([false, false, false, true, false] ++ List.replicate 52 false)

/-- The DEBUG instruction, the WishBone module and a write of a byte. -/
def wroteByte : DebugState := ⟨some jiDebug, .wishbone, true, .write8, 0, 1⟩

theorem wroteByte_run : Relation.ReflTransGen (CarefulStep plainDebug) .start wroteByte := by
  let debug : DebugState := ⟨some jiDebug, .undefined, false, .write8, 0, 0⟩
  let selected : DebugState := ⟨some jiDebug, .wishbone, false, .write8, 0, 0⟩
  have m := Cpu.Machine.bare (fun _ : Word => (0 : Word)) 0 0x2000
  have first : CarefulStep plainDebug .start debug :=
    ⟨.shiftIr (Buffer.ofBits [true, false, false, false]) 4, trivial, show debug = jtagShiftIr _ _ _ by decide +kernel⟩
  have second : CarefulStep plainDebug debug selected := by
    refine ⟨.shiftDr selectWishbone 73, fun _ => ?_, Call.leads_select rfl (by decide +kernel) m (by decide +kernel)⟩
    unfold CarefulDr
    rw [show format debug selectWishbone = some .selectModule by decide +kernel]
    intro _ _ defined
    cases defined
  have third : CarefulStep plainDebug selected wroteByte := by
    refine ⟨.shiftDr writeByte 125, fun _ => ?_, Call.leads_write rfl (by decide +kernel) m (by decide +kernel)⟩
    unfold CarefulDr
    rw [show format selected writeByte = some .writeCommand by decide +kernel]
    trivial
  exact ((Relation.ReflTransGen.single first).tail second).tail third

theorem stored_fields_valid_wishbone : StoredValid wroteByte := stored_fields_valid wroteByte_run

/-- The write of a byte is kept for the registers of the processor. -/
theorem select_keeps_stored_fields : ¬ ∀ (u : DebugConfig (Word → Word)) (d : DebugState),
    Relation.ReflTransGen (Step u) .start d → StoredValid d := by
  intro claim
  have m := Cpu.Machine.bare (fun _ : Word => (0 : Word)) 0 0x2000
  have before : Relation.ReflTransGen (Step plainDebug) .start wroteByte :=
    Relation.ReflTransGen.mono (fun _ _ step => ⟨step.choose, step.choose_spec.2⟩) _ _ wroteByte_run
  have last : Step plainDebug wroteByte { wroteByte with modId := .cpu0 } :=
    ⟨.shiftDr selectCpu0 73, Call.leads_select rfl (by decide +kernel) m (by decide +kernel)⟩
  have fit := claim plainDebug _ (before.tail last) rfl
  exact absurd fit.1 (by decide)

end Or1ksim.Debug
