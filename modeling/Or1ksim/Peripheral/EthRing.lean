import Or1ksim.Peripheral.EthLine

/-!
# The ring of buffer descriptors

The descriptors for transmission come first in `bd_ram`, those for reception after them. `TX_BD_NUM` takes any value, and
the receiver's index wraps two words too late.
-/

namespace Or1ksim.Eth

open Peripheral (Bus ULong testFlag setFlag clearFlag clearFlags setField testFlag_clearFlag testFlag_setField)

/-- The indices are those of descriptors inside `bd_ram`, each in its own part. -/
structure Ring (d : Dev) : Prop where
  txEven : d.txBdIndex.toNat % 2 = 0
  txBelow : d.txBdIndex.toNat < 2 * d.txBdNum.toNat
  rxEven : d.rxBdIndex.toNat % 2 = 0
  rxFrom : 2 * d.txBdNum.toNat ≤ d.rxBdIndex.toNat
  rxBelow : d.rxBdIndex.toNat < bdCount

theorem toNat_next {index : ULong} (below : index.toNat < bdCount) (n : Nat) (small : n ≤ 2) :
    (index + BitVec.ofNat 64 n).toNat = index.toNat + n := by
  unfold bdCount at below
  rw [BitVec.toNat_add, BitVec.toNat_ofNat, Nat.mod_eq_of_lt (by omega), Nat.mod_eq_of_lt (by omega)]

theorem toNat_double {n : ULong} (small : n.toNat < bdCount) : (n * 2).toNat = 2 * n.toNat := by
  unfold bdCount at small
  rw [BitVec.toNat_mul, show (2 : ULong).toNat = 2 from rfl, Nat.mod_eq_of_lt (by omega), Nat.mul_comm]

section
variable {c : Config} {o : Outside} {d d' : Dev} {value : Word}

theorem Ring.txInside (ring : Ring d) : d.txBdIndex.toNat + 1 < 2 * d.txBdNum.toNat ∧ 2 * d.txBdNum.toNat < bdCount := by
  have := ring.txEven
  have := ring.txBelow
  exact ⟨by omega, Nat.lt_of_le_of_lt ring.rxFrom ring.rxBelow⟩

theorem Ring.apart (ring : Ring d) : d.txBdIndex.toNat + 1 < d.rxBdIndex.toNat :=
  Nat.lt_of_lt_of_le ring.txInside.1 ring.rxFrom

theorem Ring.small (ring : Ring d) : d.txBdNum.toNat < bdCount := by
  have := ring.txInside.2
  omega

/-- Everything that the ring depends on is as before. -/
structure SameRing (d d' : Dev) : Prop where
  txBdNum : d'.txBdNum = d.txBdNum
  txBdIndex : d'.txBdIndex = d.txBdIndex
  rxBdIndex : d'.rxBdIndex = d.rxBdIndex

theorem Ring.of_same (ring : Ring d) (same : SameRing d d') : Ring d' := by
  obtain ⟨txEven, txBelow, rxEven, rxFrom, rxBelow⟩ := ring
  rw [← same.txBdIndex] at txEven txBelow
  rw [← same.rxBdIndex] at rxEven rxFrom rxBelow
  rw [← same.txBdNum] at txBelow rxFrom
  exact ⟨txEven, txBelow, rxEven, rxFrom, rxBelow⟩

theorem same_ring_iff (same : SameRing d d') : Ring d' ↔ Ring d :=
  ⟨fun ring => ring.of_same ⟨same.txBdNum.symm, same.txBdIndex.symm, same.rxBdIndex.symm⟩, fun ring => ring.of_same same⟩

theorem raiseInterrupt_ring (d : Dev) : SameRing d (raiseInterrupt d) := by
  unfold raiseInterrupt
  split <;> exact ⟨rfl, rfl, rfl⟩

theorem raiseWhen_ring (go : Bool) (d : Dev) : SameRing d (if go then raiseInterrupt d else d) := by
  split
  · exact raiseInterrupt_ring d
  · exact ⟨rfl, rfl, rfl⟩

theorem Read.ring {error asserted : Bool} (read : Read c error asserted d d') : SameRing d d' := by
  rw [read.same]
  exact ⟨rfl, rfl, rfl⟩

/-- The receiver's part begins where the transmitter's ends. -/
theorem Ring.rxStart (ring : Ring d) : Ring { d with rxBdIndex := d.txBdNum * 2 } := by
  have start := toNat_double ring.small
  exact ⟨ring.txEven, ring.txBelow, start ▸ Nat.mul_mod_right 2 _, start ▸ Nat.le_refl _, start ▸ ring.txInside.2⟩

theorem Ring.txStart (ring : Ring d) : Ring { d with txBdIndex := 0 } :=
  ⟨rfl, Nat.lt_of_le_of_lt (Nat.zero_le _) ring.txBelow, ring.rxEven, ring.rxFrom, ring.rxBelow⟩

/-! ### Writes of registers -/

theorem Ring.switchRx (c : Config) (value : Word) (ring : Ring d) : Ring (switchRx c value d) := by
  unfold Eth.switchRx
  dsimp only
  split
  · split
    · have empties : Ring (ignoreTapPackets c d).2 := ring.of_same (ignoreTapPackets_read c false d).ring
      exact empties.rxStart.of_same ⟨rfl, rfl, rfl⟩
    · exact ring.rxStart.of_same ⟨rfl, rfl, rfl⟩
  · split
    · exact ring.of_same ⟨rfl, rfl, rfl⟩
    · exact ring

theorem Ring.switchTx (value : Word) (ring : Ring d) : Ring (switchTx value d) := by
  unfold Eth.switchTx
  split
  · exact ring.txStart.of_same ⟨rfl, rfl, rfl⟩
  · split
    · exact ring.of_same ⟨rfl, rfl, rfl⟩
    · exact ring

theorem reset_ring (base : c.baseaddr ≠ 0) (d : Dev) : Ring (reset c d) := by
  unfold reset
  rw [if_neg base]
  constructor <;> dsimp only <;> decide

theorem Ring.writeModer (base : c.baseaddr ≠ 0) (value : Word) (ring : Ring d) : Ring (writeModer c value d) := by
  unfold Eth.writeModer
  dsimp only
  split
  · exact (reset_ring base _).of_same ⟨rfl, rfl, rfl⟩
  · exact ((ring.switchRx c value).switchTx value).of_same ⟨rfl, rfl, rfl⟩

/-- The new part for transmission holds the index that is in use, and leaves a descriptor for reception. -/
def RingKeeps (addr : Nat) (value : Word) (d : Dev) : Prop :=
  addr = txBdNum → d.txBdIndex.toNat < 2 * (value &&& 0xff).toNat ∧ 2 * (value &&& 0xff).toNat < bdCount

instance (addr : Nat) (value : Word) (d : Dev) : Decidable (RingKeeps addr value d) := by
  unfold RingKeeps
  infer_instance

theorem writeTxBdNum_ring_iff (value : Word) (ring : Ring d) : Ring (writeTxBdNum value d) ↔ RingKeeps txBdNum value d := by
  have byte : (value &&& 0xff).toNat < bdCount := by
    rw [BitVec.toNat_and]
    exact Nat.and_lt_two_pow _ (by decide : (0xff : Word).toNat < 2 ^ 8)
  have num : ((value &&& 0xff).setWidth 64 : ULong).toNat = (value &&& 0xff).toNat := by
    rw [BitVec.toNat_setWidth]
    unfold bdCount at byte
    exact Nat.mod_eq_of_lt (by omega)
  have start : (((value &&& 0xff).setWidth 64 : ULong) * 2).toNat = 2 * (value &&& 0xff).toNat := by
    rw [toNat_double (num ▸ byte), num]
  constructor
  · intro after _
    have txBelow := after.txBelow
    have rxBelow := after.rxBelow
    unfold writeTxBdNum at txBelow rxBelow
    dsimp only at txBelow rxBelow
    rw [num] at txBelow
    rw [start] at rxBelow
    exact ⟨txBelow, rxBelow⟩
  · intro keeps
    obtain ⟨txBelow, rxBelow⟩ := keeps rfl
    exact ⟨ring.txEven, num.symm ▸ txBelow, start.symm ▸ Nat.mul_mod_right 2 _, Nat.le_of_eq (num.symm ▸ start.symm),
      start.symm ▸ rxBelow⟩

theorem miimTrans_ring (c : Config) (d : Dev) : SameRing d (miimTrans c d) := by
  unfold miimTrans
  split
  · split <;> exact ⟨rfl, rfl, rfl⟩
  · exact ⟨rfl, rfl, rfl⟩

theorem write32_ring (c : Config) (addr : Nat) (value : Word) (d : Dev) (moder : addr ≠ 0x00) (num : addr ≠ 0x20) :
    SameRing d (write32 c addr value d) := by
  unfold write32
  split
  · exact absurd rfl moder
  · unfold writeIntSource clearLine
    dsimp only
    split <;> exact ⟨rfl, rfl, rfl⟩
  · unfold writeIntMask clearLine
    dsimp only
    split
    · exact ⟨rfl, rfl, rfl⟩
    · split <;> exact ⟨rfl, rfl, rfl⟩
  all_goals first
    | exact absurd rfl num
    | exact ⟨rfl, rfl, rfl⟩
    | exact ⟨(miimTrans_ring c _).txBdNum, (miimTrans_ring c _).txBdIndex, (miimTrans_ring c _).rxBdIndex⟩
    | (split <;> exact ⟨rfl, rfl, rfl⟩)

/-- A write of a register keeps the ring exactly under the condition. -/
theorem write32_ring_iff (base : c.baseaddr ≠ 0) (addr : Nat) (value : Word) (ring : Ring d) :
    Ring (write32 c addr value d) ↔ RingKeeps addr value d := by
  by_cases moder : addr = 0x00
  · subst moder
    exact iff_of_true (ring.writeModer base value) fun is => absurd is (by decide)
  by_cases num : addr = 0x20
  · subst num
    exact writeTxBdNum_ring_iff value ring
  exact iff_of_true (ring.of_same (write32_ring c addr value d moder num)) fun is => absurd is num

/-! ### Jobs -/

theorem Ring.advanceTx (info : ULong) (ring : Ring d) : Ring (advanceTx info d) := by
  have below := ring.txBelow
  have := ring.small
  unfold bdCount at this
  unfold Eth.advanceTx
  split
  · exact ring.txStart
  · next stays =>
    have last : ((d.txBdNum - 1) * 2).toNat = 2 * (d.txBdNum.toNat - 1) := by
      have one : (d.txBdNum - 1).toNat = d.txBdNum.toNat - 1 := BitVec.toNat_sub_of_le (show (1 : ULong).toNat ≤ _ by
        show 1 ≤ _
        omega)
      rw [toNat_double (one ▸ by unfold bdCount; omega), one]
    have before : d.txBdIndex.toNat < 2 * (d.txBdNum.toNat - 1) := by
      rw [Bool.or_eq_true, decide_eq_true_eq, not_or, ge_iff_le, BitVec.le_def, last] at stays
      exact Nat.lt_of_not_le stays.2
    have next : (d.txBdIndex + 2).toNat = d.txBdIndex.toNat + 2 :=
      toNat_next (Nat.lt_trans ring.txInside.1 ring.txInside.2 |> Nat.lt_of_succ_lt) 2 (by decide)
    refine ⟨?_, ?_, ring.rxEven, ring.rxFrom, ring.rxBelow⟩
    · show (d.txBdIndex + 2).toNat % 2 = 0
      rw [next, Nat.add_mod_right]
      exact ring.txEven
    · show (d.txBdIndex + 2).toNat < 2 * d.txBdNum.toNat
      rw [next]
      omega

/-- The last descriptor of `bd_ram` is one that wraps. -/
theorem advanceRx_ring_iff (info : ULong) (ring : Ring d) :
    Ring (advanceRx info d) ↔ (d.rxBdIndex.toNat = bdCount - 2 → testFlag info bdWrap = true) := by
  have below := ring.rxBelow
  have even := ring.rxEven
  have next : (d.rxBdIndex + 2).toNat = d.rxBdIndex.toNat + 2 := toNat_next below 2 (by decide)
  unfold Eth.advanceRx
  by_cases wrap : testFlag info bdWrap = true
  · rw [wrap, Bool.true_or, if_pos rfl]
    exact iff_of_true ring.rxStart fun _ => rfl
  · rw [Bool.eq_false_of_not_eq_true wrap, Bool.false_or, decide_eq_false (Nat.not_le.mpr below), if_neg Bool.false_ne_true]
    constructor
    · intro after last
      have rxBelow : (d.rxBdIndex + 2).toNat < bdCount := after.rxBelow
      rw [next, last] at rxBelow
      exact absurd rxBelow (by decide)
    · intro keeps
      have other : d.rxBdIndex.toNat ≠ bdCount - 2 := fun last => Bool.false_ne_true (keeps last)
      unfold bdCount at below other
      refine ⟨ring.txEven, ring.txBelow, ?_, ?_, ?_⟩
      · show (d.rxBdIndex + 2).toNat % 2 = 0
        rw [next, Nat.add_mod_right]
        exact even
      · show _ ≤ (d.rxBdIndex + 2).toNat
        rw [next]
        exact Nat.le_add_right_of_le ring.rxFrom
      · show (d.rxBdIndex + 2).toNat < bdCount
        rw [next]
        unfold bdCount
        omega

theorem flushBd_ring (ring : Ring d) (ran : flushBd c o d = some d') : Ring d' := by
  obtain ⟨info, -, ran⟩ := Option.bind_eq_some_iff.mp ran
  obtain ⟨addr, -, ran⟩ := Option.bind_eq_some_iff.mp ran
  obtain ⟨v, set, ran⟩ := Option.bind_eq_some_iff.mp ran
  cases ran
  refine Ring.advanceTx _ ?_
  have marked : Ring v := by
    rw [(setBd_some set).1]
    exact ring.of_same ⟨rfl, rfl, rfl⟩
  exact marked.of_same (raiseWhen_ring _ v)

theorem filled_ring_iff {info : ULong} (ring : Ring d) (ran : filled info d = some d') :
    Ring d' ↔ (d.rxBdIndex.toNat = bdCount - 2 → testFlag info bdWrap = true) := by
  obtain ⟨v, set, ran⟩ := Option.bind_eq_some_iff.mp ran
  cases ran
  obtain ⟨is, -⟩ := setBd_some set
  have marked : Ring v := is ▸ ring.of_same ⟨rfl, rfl, rfl⟩
  have index : v.rxBdIndex = d.rxBdIndex := by rw [is]
  rw [← index, ← advanceRx_ring_iff info marked]
  exact same_ring_iff (raiseWhen_ring _ _)

theorem filledInfo_wrap (c : Config) (info : ULong) (length : Nat) :
    testFlag (filledInfo c info length) bdWrap = testFlag info bdWrap := by
  unfold filledInfo clearFlags
  rw [testFlag_clearFlag, testFlag_setField _ _ _ _ (by decide)]
  simp only [List.foldl_cons, List.foldl_nil, testFlag_clearFlag]
  simp [bdWrap, bdReady, rxBdMiss, rxBdInvalid, rxBdDribble, rxBdUverrun, rxBdCollision, rxBdToobig, rxBdTooshort]

theorem ignoreBusy_ring (c : Config) (d : Dev) : SameRing d (ignoreBusy c d) := by
  obtain ⟨num, tx, rx⟩ := (ignoreTapPackets_read c false d).ring
  unfold ignoreBusy
  dsimp only
  split
  · split
    · let v : Dev := { (ignoreTapPackets c d).2 with intSource := setFlag (ignoreTapPackets c d).2.intSource intBusy }
      have raised := raiseWhen_ring (testFlag v.intMask intBusy) v
      exact ⟨raised.txBdNum.trans num, raised.txBdIndex.trans tx, raised.rxBdIndex.trans rx⟩
    · exact ⟨num, tx, rx⟩
  · exact ⟨rfl, rfl, rfl⟩

/-- The condition on the packet that the receiver takes, when it takes one: its words keep the ring where they reach the
registers of the controller, and it does not go to the last descriptor of `bd_ram`, unless that one wraps. -/
def FillsRing (c : Config) (o : Outside) (d : Dev) : Prop :=
  FillKeeps RingKeeps c o d ∧
    ∀ bdInfo bdAddr bytes, d.intLineStat = false → bd d d.rxBdIndex = some bdInfo → testFlag bdInfo bdReady = true →
      bd d (d.rxBdIndex + 1) = some bdAddr → c.rtxType ≠ .unknown → o.read = .packet bytes → forUs d bytes = true →
      (transfer c bdAddr bytes d).rxBdIndex.toNat = bdCount - 2 → testFlag bdInfo bdWrap = true

theorem fillBd_ring {info : ULong} (base : c.baseaddr ≠ 0) (ring : Ring d) (idle : d.intLineStat = false)
    (first : bd d d.rxBdIndex = some info)
    (ready : testFlag info bdReady = true) (fills : FillsRing c o d) (ran : fillBd c o d = some d') : Ring d' := by
  rcases fillBd_cases ran with rfl | ⟨other, addr, bytes, same, second, type, read, us, filled⟩
  · exact ring.of_same (readPacket_read c o.read false d).ring
  · cases first.symm.trans same
    have moved : Ring (transfer c addr bytes d) :=
      transfer_kept (P := Ring) (fun d place before => before.of_same ⟨rfl, rfl, rfl⟩)
        (fun offset value d before keeps => (write32_ring_iff base offset value before).mpr keeps) ring
        (fills.1 info addr bytes idle first ready second type read us)
    refine (filled_ring_iff moved filled).mpr fun last => ?_
    rw [filledInfo_wrap]
    exact fills.2 info addr bytes idle first ready second type read us last

/-- The condition on the jobs of the controller. -/
def RingJob (c : Config) (o : Outside) (d : Dev) : Job → Prop
  | .rxClock => FillsRing c o d
  | _ => True

instance (c : Config) (o : Outside) (d : Dev) : Decidable (FillsRing c o d) :=
  have := decidable_of_iff _ (ofTaken_iff (c := c) (o := o) (d := d) (P := fun bdInfo bdAddr bytes =>
    (transfer c bdAddr bytes d).rxBdIndex.toNat = bdCount - 2 → testFlag bdInfo bdWrap = true))
  inferInstanceAs (Decidable (FillKeeps RingKeeps c o d ∧ _))

instance (c : Config) (o : Outside) (d : Dev) : DecidablePred (RingJob c o d)
  | .rxClock => inferInstanceAs (Decidable (FillsRing c o d))
  | .txClock | .other _ => inferInstanceAs (Decidable True)

theorem runJob_ring {job : Job} (base : c.baseaddr ≠ 0) (ring : Ring d) (keeps : RingJob c o d job) (ran : runJob c o job d = some d') :
    Ring d' := by
  cases job with
  | txClock =>
    obtain ⟨v, rfl, rfl | ⟨-, flush⟩⟩ := txClock_cases ran
    · exact ring.of_same ⟨rfl, rfl, rfl⟩
    · exact (flushBd_ring ring flush).of_same ⟨rfl, rfl, rfl⟩
  | rxClock =>
    obtain ⟨v, rfl, rfl | ⟨idle, ⟨info, first, ready, fill⟩ | rfl⟩⟩ := rxClock_cases ran
    · exact ring.of_same ⟨rfl, rfl, rfl⟩
    · exact (fillBd_ring base ring idle first ready keeps fill).of_same ⟨rfl, rfl, rfl⟩
    · exact (ring.of_same (ignoreBusy_ring c d)).of_same ⟨rfl, rfl, rfl⟩
  | other n =>
    cases ran
    exact ring

end

/-! ### Runs -/

section
variable {c : Config} {s s' : System}

theorem entered_ring (polls : List (List Poll)) (d : Dev) : SameRing d (d.entered polls) := ⟨rfl, rfl, rfl⟩

theorem step_ring {act : Act} (base : c.baseaddr ≠ 0) (ring : Ring s.dev) (allows : Allows RingKeeps (RingJob c) s act)
    (ran : step c s act = some s') : Ring s'.dev := by
  cases act with
  | write addr value polls =>
    rw [← (step_write ran).1]
    exact (write32_ring_iff base addr value (ring.of_same (entered_ring polls s.dev))).mpr allows
  | advance n =>
    cases ran
    exact ring
  | job o =>
    rcases Peripheral.runDue_cases (f := fun job d => runJob c o job (d.entered o.polls)) ran with ⟨rfl, -⟩ | ⟨job, scheduler, due, ran⟩
    · exact ring
    · exact runJob_ring base (ring.of_same (entered_ring o.polls s.dev)) (allows job scheduler due) (Peripheral.serve_some ran).1
  | other n time =>
    rw [(Peripheral.add_some ran).1]
    exact ring

theorem Run.ring (base : c.baseaddr ≠ 0) (run : Run (Allows RingKeeps (RingJob c)) c s) : Ring s.dev := by
  induction run with
  | reset fresh ran =>
    have is := (Peripheral.serve_some ran).1
    rw [← Option.some.inj is]
    exact reset_ring base _
  | step act _ allows ran ih => exact step_ring base ih allows ran

/-- In a run that meets the condition both indices stay inside their parts of `bd_ram`. A write of a register breaks that
exactly when it does not meet the condition, and so does a packet for the last descriptor. -/
theorem ring_along (base : c.baseaddr ≠ 0) (run : Run (Allows RingKeeps (RingJob c)) c s) :
    Ring s.dev ∧
      (∀ addr value polls s', step c s (.write addr value polls) = some s' → (Ring s'.dev ↔ RingKeeps addr value s.dev)) ∧
      ∀ info d', filled info s.dev = some d' → (Ring d' ↔ (s.dev.rxBdIndex.toNat = bdCount - 2 → testFlag info bdWrap = true)) := by
  have ring := run.ring base
  refine ⟨ring, fun addr value polls s' ran => ?_, fun info d' ran => filled_ring_iff ring ran⟩
  rw [← (step_write ran).1]
  exact write32_ring_iff base addr value (ring.of_same (entered_ring polls s.dev))

/-- A broadcast comes in. -/
def receiving : Outside := ⟨.packet (List.replicate 14 0xff), true, fun _ => 0, []⟩

/-- `TX_BD_NUM` leaves 0x10 descriptors for transmission. A packet goes out, one comes in to memory, and another one goes to the
registers from `IPGT` to `PACKETLEN`, where the descriptor has its buffer. -/
theorem ring_along_start : ∃ s, Run (Allows RingKeeps (RingJob fileMac)) fileMac s ∧
    (s.dev.txBdIndex = 2 ∧ s.dev.rxBdIndex = 36 ∧ s.dev.packetlen = 0xffff0000) ∧ Ring s.dev := by
  let acts : List Act :=
    [.write txBdNum 0x10 [], .write bdBase 0x8000 [], .write (bdBase + 4 * 32) 0x8000 [], .write (bdBase + 4 * 33) 0x1000 [],
      .write (bdBase + 4 * 34) 0x8000 [], .write (bdBase + 4 * 35) 0x9200000c [], .write moder 3 [], .advance 1, .job receiving,
      .job receiving, .advance 2000, .job receiving, .job receiving]
  have seen : ((poweredOn fileMac).bind fun s => Runs.guarded (step fileMac) (Allows RingKeeps (RingJob fileMac)) s acts).map
      (fun s => (s.dev.txBdIndex, s.dev.rxBdIndex, s.dev.packetlen)) = some (2, 36, 0xffff0000) := by decide +kernel
  obtain ⟨s, ran, is⟩ := Option.map_eq_some_iff.mp seen
  obtain ⟨on, started, ran⟩ := Option.bind_eq_some_iff.mp ran
  have run : Run (Allows RingKeeps (RingJob fileMac)) fileMac s := (poweredOn_run started _).guarded ran
  obtain ⟨tx, rest⟩ := Prod.mk.inj is
  exact ⟨s, run, ⟨tx, Prod.mk.inj rest⟩, (ring_along (show fileMac.baseaddr ≠ 0 by decide) run).1⟩

/-- The receiver has one descriptor, at the end of `bd_ram`, and it does not wrap: the next one is outside. -/
theorem index_outside : ∃ s, Run (fun _ _ => True) fileMac s ∧ ¬ Ring s.dev ∧ bd s.dev s.dev.rxBdIndex = none := by
  let acts : List Act := [.write txBdNum 0x7f [], .write (bdBase + 4 * 254) 0x8000 [], .write moder 1 [], .advance 1, .job receiving]
  have seen : ((poweredOn fileMac).bind fun s => steps fileMac s acts).map (fun s => s.dev.rxBdIndex) = some 256 := by decide +kernel
  obtain ⟨s, ran, is⟩ := Option.map_eq_some_iff.mp seen
  obtain ⟨on, started, ran⟩ := Option.bind_eq_some_iff.mp ran
  refine ⟨s, (poweredOn_run started _).steps ran, fun ring => ?_, ?_⟩
  · have below := ring.rxBelow
    rw [is] at below
    exact absurd below (by decide)
  · unfold bd
    rw [is]
    rfl

end

end Or1ksim.Eth
