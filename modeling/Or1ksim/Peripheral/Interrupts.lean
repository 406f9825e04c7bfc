import Or1ksim.Lib.Pending
import Or1ksim.Peripheral.Uart

/-!
# Which interrupt the UART identifies

Five sources share the identification register. What the functions that raise and clear an interrupt do
to it is what a register of the highest waiting source does.
-/

namespace Or1ksim.Uart

open Peripheral (Effect Bus lineAfter)
open Flags (has)
open Pending (Register)

/-! ### Sources -/

/-- The sources of the interrupt, from the lowest priority to the highest. -/
inductive Source where
  | msi | thri | cti | rdi | rlsi
  deriving Repr

namespace Source

def rank : Source → Nat
  | .msi => 0
  | .thri => 1
  | .cti => 2
  | .rdi => 3
  | .rlsi => 4

theorem rank_injective : Function.Injective rank := by
  intro s t same
  cases s <;> cases t <;> first | rfl | cases same

instance : LinearOrder Source := LinearOrder.lift' rank rank_injective

instance : Fintype Source := ⟨{.msi, .thri, .cti, .rdi, .rlsi}, fun s => by cases s <;> decide⟩

/-- The value of `IIR`. -/
def id : Source → Byte
  | .msi => iirMsi
  | .thri => iirThri
  | .cti => iirCti
  | .rdi => iirRdi
  | .rlsi => iirRlsi

/-- The bit of `IER`: the timeout is enabled together with the received data. -/
def enable : Source → Byte
  | .msi => ierMsi
  | .thri => ierThri
  | .cti => ierRdi
  | .rdi => ierRdi
  | .rlsi => ierRlsi

/-- Which identifications make way for a source. -/
def yields : Source → Byte → Bool
  | .msi => fun iir => has iir iirNoInt || iir = iirMsi
  | .thri => fun iir => has iir iirNoInt || iir = iirMsi || iir = iirThri
  | .cti => fun iir => iir ≠ iirRlsi && iir ≠ iirRdi
  | .rdi => fun iir => iir ≠ iirRlsi
  | .rlsi => fun _ => true

def raise (s : Source) : Dev → Dev := intRaise s.id s.enable s.yields

end Source

def iirOf : WithBot Source → Byte
  | ⊥ => iirNoInt
  | (s : Source) => s.id

/-- A source is pending and enabled. -/
def waits (u : Dev) (s : Source) : Bool := has u.ints (intBit s.id) && has u.ier s.enable

def waiting (u : Dev) : Finset Source := Finset.univ.filter fun s => waits u s

/-- `IIR` identifies the highest of the sources that are pending and enabled. -/
def Identified (u : Dev) : Prop := u.iir = iirOf (waiting u).max

theorem mem_waiting {u : Dev} {s : Source} : s ∈ waiting u ↔ waits u s = true := by
  unfold waiting
  rw [Finset.mem_filter]
  exact and_iff_right (Finset.mem_univ s)

theorem iirOf_injective : Function.Injective iirOf := by decide

theorem id_ne_noInt (s : Source) : s.id ≠ iirNoInt := by
  revert s
  decide

theorem yields_iff (s : Source) (shown : WithBot Source) : s.yields (iirOf shown) = true ↔ shown ≤ s := by
  revert s shown
  decide

theorem has_intBit (s t : Source) : has (intBit s.id) (intBit t.id) = decide (s = t) := by
  revert s t
  decide

theorem clear_intBit {s t : Source} (differ : s ≠ t) : ~~~intBit s.id &&& intBit t.id = intBit t.id := by
  revert s t
  decide

theorem clear_intBit_self (s : Source) : ~~~intBit s.id &&& intBit s.id = 0#32 := by
  revert s
  decide

/-! ### The register and the line -/

/-- The UART shows `p`, and asserts its interrupt when it shows a source. -/
structure Shows (asserted : Bool) (u : Dev) (p : Register Source) : Prop where
  waiting : waiting u = p.waiting
  iir : u.iir = iirOf p.shown
  line : lineAfter asserted u.effects = true ↔ u.iir ≠ iirNoInt

section
variable {asserted : Bool} {u v : Dev} {p : Register Source}

theorem Shows.identified_iff (shows' : Shows asserted u p) : Identified u ↔ p.Exact := by
  unfold Identified Register.Exact
  rw [shows'.iir, shows'.waiting]
  exact iirOf_injective.eq_iff

theorem Shows.shown_iff (shows' : Shows asserted u p) {s : Source} : u.iir = s.id ↔ p.shown = s := by
  rw [shows'.iir]
  exact iirOf_injective.eq_iff (b := (s : WithBot Source))

theorem Shows.of_same (shows' : Shows asserted u p) (ints : v.ints = u.ints) (ier : v.ier = u.ier) (iir : v.iir = u.iir)
    (line : lineAfter asserted v.effects = lineAfter asserted u.effects) : Shows asserted v p := by
  have same : Uart.waiting v = Uart.waiting u := by
    unfold Uart.waiting waits
    rw [ints, ier]
  exact ⟨same.trans shows'.waiting, iir.trans shows'.iir, by rw [line, iir]; exact shows'.line⟩

theorem Shows.schedAdd (shows' : Shows asserted u p) (job : Job) (time : Int) : Shows asserted (u.emit (.schedAdd job time)) p :=
  shows'.of_same rfl rfl rfl (Peripheral.lineAfter_snoc _ _ _)

theorem Shows.schedFindRemove (shows' : Shows asserted u p) (job : Job) : Shows asserted (u.emit (.schedFindRemove job)) p :=
  shows'.of_same rfl rfl rfl (Peripheral.lineAfter_snoc _ _ _)

/-- A source raised under a condition. -/
def raiseIf (go : Bool) (s : Source) (p : Register Source) : Register Source := if go then p.raise s else p

theorem waits_pending (u : Dev) (s t : Source) :
    waits { u with ints := u.ints ||| intBit s.id } t = (waits u t || (decide (s = t) && has u.ier t.enable)) := by
  unfold waits
  rw [Flags.has_or, has_intBit, Bool.and_or_distrib_right]

theorem Shows.raise (shows' : Shows asserted u p) (s : Source) :
    Shows asserted (s.raise u) (raiseIf (has u.ier s.enable) s p) := by
  unfold Source.raise intRaise raiseIf
  dsimp only
  cases enabled : has u.ier s.enable with
  | false =>
    rw [if_pos (Bool.not_false), if_neg Bool.false_ne_true]
    refine ⟨?_, shows'.iir, shows'.line⟩
    rw [← shows'.waiting]
    ext t
    rw [mem_waiting, mem_waiting, waits_pending, Bool.or_eq_true]
    refine or_iff_left fun both => ?_
    obtain ⟨rfl, on⟩ : s = t ∧ has u.ier t.enable = true := by simpa using both
    rw [on] at enabled
    cases enabled
  | true =>
    rw [if_neg (by decide), if_pos rfl]
    have waiting' : Uart.waiting { u with ints := u.ints ||| intBit s.id } = insert s p.waiting := by
      rw [← shows'.waiting]
      ext t
      rw [mem_waiting, waits_pending, Finset.mem_insert, mem_waiting, Bool.or_eq_true, or_comm]
      refine or_congr_left ?_
      constructor
      · intro both
        exact (of_decide_eq_true (Bool.and_eq_true_iff.mp both).1).symm
      · rintro rfl
        rw [enabled]
        simp
    cases way : s.yields u.iir with
    | true =>
      rw [if_pos rfl]
      have below : p.shown ≤ s := (yields_iff s p.shown).mp (shows'.iir ▸ way)
      refine ⟨waiting', ?_, ?_⟩
      · show s.id = iirOf (max p.shown s)
        rw [max_eq_right below]
        rfl
      · show lineAfter asserted (u.effects ++ [.reportInterrupt]) = true ↔ s.id ≠ iirNoInt
        rw [Peripheral.lineAfter_snoc]
        exact iff_of_true rfl (id_ne_noInt s)
    | false =>
      rw [if_neg Bool.false_ne_true]
      have above : s < p.shown := by
        refine lt_of_not_ge fun below => ?_
        have := (yields_iff s p.shown).mpr below
        rw [← shows'.iir, way] at this
        cases this
      refine ⟨waiting', ?_, shows'.line⟩
      show u.iir = iirOf (max p.shown s)
      rw [max_eq_left (le_of_lt above)]
      exact shows'.iir

theorem max_waiting {s : Source} (inside : s ∈ waiting u) (top : ∀ t, s < t → waits u t = false) : (waiting u).max = s := by
  refine le_antisymm (Finset.max_le fun t other => WithBot.coe_le_coe.mpr (le_of_not_gt fun above => ?_)) (Finset.le_max inside)
  have := mem_waiting.mp other
  rw [top t above] at this
  cases this

theorem Shows.raiseTop (shows' : Shows asserted u p) {s : Source} (up : waits u s = true) (top : ∀ t, s < t → waits u t = false) :
    Shows asserted (s.raise u) p.next := by
  have inside : s ∈ Uart.waiting u := mem_waiting.mpr up
  have enabled : has u.ier s.enable = true := (Bool.and_eq_true_iff.mp up).2
  have raised := shows'.raise s
  rw [enabled] at raised
  have isMax := max_waiting inside top
  rw [shows'.waiting] at inside isMax
  have same : p.next = raiseIf true s p := by
    have some : p.waiting ≠ ∅ := Finset.ne_empty_of_mem inside
    unfold Register.next raiseIf Register.raise
    rw [if_neg some, if_pos rfl, isMax, Finset.insert_eq_self.mpr inside]
  rw [same]
  exact raised

theorem nextInt_eq (u : Dev) : nextInt u =
    if waits u .rlsi then Source.rlsi.raise u
    else if waits u .rdi then Source.rdi.raise u
    else if waits u .cti then Source.cti.raise u
    else if waits u .thri then Source.thri.raise u
    else if waits u .msi then Source.msi.raise u
    else { u.emit .clearInterrupt with iir := iirNoInt } := rfl

theorem Shows.next (shows' : Shows asserted u p) : Shows asserted (nextInt u) p.next := by
  rw [nextInt_eq]
  by_cases rlsi : waits u .rlsi = true
  · rw [if_pos rlsi]
    refine shows'.raiseTop rlsi fun t above => ?_
    cases t <;> exact absurd above (by decide)
  rw [if_neg rlsi]
  by_cases rdi : waits u .rdi = true
  · rw [if_pos rdi]
    refine shows'.raiseTop rdi fun t above => ?_
    cases t <;> first | exact Bool.eq_false_iff.mpr rlsi | exact absurd above (by decide)
  rw [if_neg rdi]
  by_cases cti : waits u .cti = true
  · rw [if_pos cti]
    refine shows'.raiseTop cti fun t above => ?_
    cases t <;> first | exact Bool.eq_false_iff.mpr rlsi | exact Bool.eq_false_iff.mpr rdi | exact absurd above (by decide)
  rw [if_neg cti]
  by_cases thri : waits u .thri = true
  · rw [if_pos thri]
    refine shows'.raiseTop thri fun t above => ?_
    cases t <;> first
      | exact Bool.eq_false_iff.mpr rlsi | exact Bool.eq_false_iff.mpr rdi | exact Bool.eq_false_iff.mpr cti
      | exact absurd above (by decide)
  rw [if_neg thri]
  by_cases msi : waits u .msi = true
  · rw [if_pos msi]
    refine shows'.raiseTop msi fun t above => ?_
    cases t <;> first
      | exact Bool.eq_false_iff.mpr rlsi | exact Bool.eq_false_iff.mpr rdi | exact Bool.eq_false_iff.mpr cti
      | exact Bool.eq_false_iff.mpr thri | exact absurd above (by decide)
  rw [if_neg msi]
  have none : p.waiting = ∅ := by
    rw [← shows'.waiting]
    refine Finset.eq_empty_of_forall_notMem fun t inside => ?_
    have up := mem_waiting.mp inside
    cases t <;> contradiction
  unfold Register.next
  rw [if_pos none]
  refine ⟨shows'.waiting, rfl, ?_⟩
  show lineAfter asserted (u.effects ++ [.clearInterrupt]) = true ↔ iirNoInt ≠ iirNoInt
  rw [Peripheral.lineAfter_snoc]
  exact iff_of_false Bool.false_ne_true fun not => not rfl

theorem Shows.clear (shows' : Shows asserted u p) (s : Source) : Shows asserted (clearInt s.id u) (p.clear s) := by
  have gone : Shows asserted { u with ints := u.ints &&& ~~~intBit s.id } ⟨p.waiting.erase s, p.shown⟩ := by
    refine ⟨?_, shows'.iir, shows'.line⟩
    rw [← shows'.waiting]
    ext t
    rw [Finset.mem_erase, mem_waiting, mem_waiting]
    unfold waits
    by_cases same : t = s
    · subst same
      rw [Flags.has_cleared (clear_intBit_self t)]
      exact iff_of_false Bool.false_ne_true fun both => both.1 rfl
    · rw [Flags.has_clear (clear_intBit (Ne.symm same))]
      exact (and_iff_right same).symm
  have removed : Shows asserted (withdraw s.id u) ⟨p.waiting.erase s, p.shown⟩ := by
    unfold withdraw
    dsimp only
    split
    · exact gone.schedFindRemove _
    · exact gone
  unfold clearInt Register.clear
  dsimp only
  by_cases same : p.shown = s
  · rw [if_pos same, if_neg fun other => other (removed.shown_iff.mpr same).symm]
    exact removed.next
  · rw [if_neg same, if_pos fun other => same (removed.shown_iff.mp other.symm)]
    exact removed

end

/-! ### What the interrupt leaves alone -/

/-- Only the interrupt has changed. -/
def OnlyInt (u v : Dev) : Prop := v = { u with ints := v.ints, iir := v.iir, effects := v.effects }

namespace OnlyInt

variable {u v w : Dev}

theorem refl (u : Dev) : OnlyInt u u := rfl

theorem trans (first : OnlyInt u v) (second : OnlyInt v w) : OnlyInt u w := by
  unfold OnlyInt at second ⊢
  rw [second, show v = _ from first]

theorem intRaise (intr enable : Byte) (yields : Byte → Bool) (u : Dev) : OnlyInt u (intRaise intr enable yields u) := by
  unfold Uart.intRaise
  dsimp only
  split
  · rfl
  · split <;> rfl

theorem raise (s : Source) (u : Dev) : OnlyInt u (s.raise u) := intRaise s.id s.enable s.yields u

theorem emit (e : Effect Job) (u : Dev) : OnlyInt u (u.emit e) := rfl

theorem next (u : Dev) : OnlyInt u (nextInt u) := by
  rw [nextInt_eq]
  repeat' split
  any_goals exact raise _ u
  rfl

theorem withdraw (intr : Byte) (u : Dev) : OnlyInt u (withdraw intr u) := by
  unfold Uart.withdraw
  dsimp only
  split <;> rfl

theorem clear (intr : Byte) (u : Dev) : OnlyInt u (clearInt intr u) := by
  unfold clearInt
  dsimp only
  split
  · exact withdraw intr u
  · exact (withdraw intr u).trans (next _)

theorem checkRlsi (u : Dev) : OnlyInt u (checkRlsi u) := by
  unfold Uart.checkRlsi
  split
  · exact raise .rlsi u
  · rfl

theorem checkRdi (u : Dev) : OnlyInt u (checkRdi u) := by
  unfold Uart.checkRdi
  split
  · exact raise .rdi u
  · rfl

end OnlyInt

end Or1ksim.Uart
