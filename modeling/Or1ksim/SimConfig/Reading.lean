import Or1ksim.SimConfig.Grammar

/-!
# Reading what the grammar describes

Each part of a file is read at its own words, and what is left is the rest of the file: for the parts that the reader
can read.
-/

namespace Or1ksim.SimConfig

/-! ### Nothing is read twice -/

theorem length_dropWhile_le (p : Char → Bool) (f : Text) : (f.dropWhile p).length ≤ f.length :=
  (List.dropWhile_suffix p).length_le

theorem nextWord_le {f g : Text} {o : Option Text} (h : nextWord f = some (o, g)) : g.length ≤ f.length := by
  have hd := length_dropWhile_le isspace f
  unfold nextWord at h
  split at h
  · rename_i s hs
    rw [hs] at hd
    dsimp only at h
    split at h
    · cases h
    · rename_i c t ht
      have hq := length_dropWhile_le (· ≠ '"') s
      rw [ht] at hq
      split at h
      · cases h
        simp only [List.length_cons] at hd hq
        rw [List.length_tail]
        omega
      · cases h
  · dsimp only at h
    split at h
    · cases h
      exact (length_dropWhile_le _ _).trans hd
    · cases h

theorem length_dropWhile_add (p : Char → Bool) (f : Text) : (f.takeWhile p).length + (f.dropWhile p).length = f.length := by
  rw [← List.length_append, List.takeWhile_append_dropWhile]

theorem nextWord_lt {f g : Text} {w : Text} (h : nextWord f = some (some w, g)) : g.length < f.length := by
  have hd := length_dropWhile_le isspace f
  unfold nextWord at h
  split at h
  · rename_i s hs
    rw [hs] at hd
    dsimp only at h
    split at h
    · cases h
    · rename_i c t ht
      have hq := length_dropWhile_le (· ≠ '"') s
      rw [ht] at hq
      split at h
      · obtain ⟨-, rfl⟩ := Prod.mk.inj (Option.some.inj h)
        simp only [List.length_cons] at hd hq
        rw [List.length_tail]
        omega
      · cases h
  · dsimp only at h
    split at h
    · obtain ⟨hw, rfl⟩ := Prod.mk.inj (Option.some.inj h)
      have ht := length_dropWhile_add (!isspace ·) (f.dropWhile isspace)
      have hne : (f.dropWhile isspace).takeWhile (!isspace ·) ≠ [] := fun he => by simp [scanned, he] at hw
      have := List.length_pos_of_ne_nil hne
      omega
    · cases h

theorem skipComment_le {c0 c1 : Char} {f g : Text} (h : skipComment c0 c1 f = some g) : g.length ≤ f.length := by
  induction f generalizing c0 c1 with
  | nil =>
    unfold skipComment at h
    split at h
    · cases h
      exact le_rfl
    · cases h
  | cons c f ih =>
    unfold skipComment at h
    split at h
    · cases h
      exact le_rfl
    · exact (ih h).trans (Nat.le_succ _)

theorem lexemeFrom_le {n : Nat} {f g : Text} {o : Option Text} (h : lexemeFrom n f = some (o, g)) :
    g.length ≤ f.length ∧ (o.isSome → g.length < f.length) := by
  induction n generalizing f with
  | zero => cases h
  | succ n ih =>
    unfold lexemeFrom at h
    split at h
    · cases h
    · rename_i f' hf
      cases h
      exact ⟨nextWord_le hf, by simp⟩
    · rename_i w f' hf
      have hlt := nextWord_lt hf
      split at h
      · obtain ⟨s, hs, h⟩ := Option.bind_eq_some_iff.mp h
        have hle := skipComment_le hs
        have := (ih h).1
        exact ⟨by omega, fun _ => by omega⟩
      · cases h
        exact ⟨hlt.le, fun _ => hlt⟩

/-- A word takes a character, so that the count does not matter. -/
theorem lexemeFrom_eq {n : Nat} {f : Text} (h : f.length < n) : lexemeFrom n f = nextLexeme f := by
  suffices hs : ∀ k m : Nat, ∀ f : Text, f.length < k → f.length < m → lexemeFrom k f = lexemeFrom m f from
    hs n _ f h (Nat.lt_succ_self _)
  intro k
  induction k with
  | zero => intro m f hk; omega
  | succ k ih =>
    intro m f hk hm
    cases m with
    | zero => omega
    | succ m =>
      unfold lexemeFrom
      split <;> try rfl
      rename_i w g hf
      have hlt := nextWord_lt hf
      split
      · cases hs : skipComment '\x00' '\x00' g with
        | none => rfl
        | some s =>
          have hle := skipComment_le hs
          exact ih m s (by omega) (by omega)
      · rfl

theorem nextLexeme_le {f g : Text} {o : Option Text} (h : nextLexeme f = some (o, g)) : g.length ≤ f.length :=
  (lexemeFrom_le h).1

theorem nextLexeme_lt {f g w : Text} (h : nextLexeme f = some (some w, g)) : g.length < f.length := (lexemeFrom_le h).2 rfl

theorem nextLexeme_cases (f : Text) :
    nextLexeme f =
      match nextWord f with
      | none => none
      | some (none, f) => some (none, f)
      | some (some lexeme, f) =>
        if startsComment lexeme then (skipComment '\x00' '\x00' f).bind nextLexeme else some (some lexeme, f) := by
  rw [nextLexeme, lexemeFrom]
  rcases hf : nextWord f with _ | ⟨_ | w, g⟩
  · rfl
  · rfl
  · have hlt := nextWord_lt hf
    have hb : (skipComment '\x00' '\x00' g).bind (lexemeFrom f.length) = (skipComment '\x00' '\x00' g).bind nextLexeme := by
      cases hs : skipComment '\x00' '\x00' g with
      | none => rfl
      | some s =>
        have hle := skipComment_le hs
        exact lexemeFrom_eq (by omega)
    simp only [hb]

theorem skipLine_lt {f g : Text} (h : skipLine f = some g) : g.length < f.length := by
  induction f with
  | nil => cases h
  | cons c f ih =>
    unfold skipLine at h
    split at h
    · cases h
      exact Nat.lt_succ_self _
    · exact (ih h).trans (Nat.lt_succ_self _)

theorem afterLine_le {cur next : Option ConfigSection} {f g : Text} (h : afterLine cur f = .go next g) : g.length ≤ f.length := by
  unfold afterLine at h
  split at h
  · cases h
  · rename_i hs
    cases h
    exact (skipLine_lt hs).le

theorem skipSection_le {n : Nat} {next : Option ConfigSection} {f g : Text} (h : skipSection n f = .go next g) :
    g.length ≤ f.length := by
  induction n generalizing f with
  | zero => cases h
  | succ n ih =>
    unfold skipSection at h
    split at h
    · cases h
    · rename_i hf
      cases h
      exact nextLexeme_le hf
    · rename_i hf
      have hle := nextLexeme_le hf
      split at h
      · cases h
        exact hle
      · exact (ih h).trans hle

theorem readValue_le {f g : Text} {o : Option Text} (h : readValue f = some (o, g)) : g.length ≤ f.length := by
  unfold readValue at h
  split at h
  · rename_i hf
    exact (nextLexeme_le h).trans (nextLexeme_le hf)
  · exact nextLexeme_le h

theorem startSection_le {secs : List ConfigSection} {f g : Text} {calls : List Call} {next : Option ConfigSection}
    (h : startSection secs f = (calls, .go next g)) : g.length ≤ f.length := by
  unfold startSection at h
  split at h
  · cases h
  · cases h
  · rename_i name s hf
    have hle := nextLexeme_le hf
    split at h
    · cases h
      exact hle
    · exact (skipSection_le (Prod.mk.inj h).2).trans hle

theorem readParam_le {sec : ConfigSection} {name f g : Text} {calls : List Call} {next : Option ConfigSection}
    (h : readParam sec name f = (calls, .go next g)) : g.length ≤ f.length := by
  unfold readParam at h
  split at h
  · exact afterLine_le (Prod.mk.inj h).2
  · split at h
    · cases h
      exact le_rfl
    · split at h
      · cases h
      · rename_i hv
        exact (afterLine_le (Prod.mk.inj h).2).trans (readValue_le hv)
      · rename_i hv
        cases h
        exact readValue_le hv

/-- An iteration that goes on leaves less of the file. -/
theorem readStep_lt {secs : List ConfigSection} {cur next : Option ConfigSection} {f g : Text} {calls : List Call}
    (h : readStep secs cur f = (calls, .go next g)) : g.length < f.length := by
  unfold readStep at h
  split at h
  · cases h
  · cases h
  · rename_i lexeme s hf
    have hlt := nextLexeme_lt hf
    split at h
    · split at h
      · exact (startSection_le h).trans_lt hlt
      · exact (afterLine_le (Prod.mk.inj h).2).trans_lt hlt
    · split at h
      · cases h
        exact hlt
      · exact (readParam_le h).trans_lt hlt

/-- The loop from a place of the file. -/
def readOn (secs : List ConfigSection) (cur : Option ConfigSection) (f : Text) : List Call × Ending :=
  readFrom secs (f.length + 1) cur f

theorem readFrom_eq {secs : List ConfigSection} {n : Nat} {cur : Option ConfigSection} {f : Text} (h : f.length < n) :
    readFrom secs n cur f = readOn secs cur f := by
  suffices hs : ∀ k m : Nat, ∀ cur f, f.length < k → f.length < m → readFrom secs k cur f = readFrom secs m cur f from
    hs n _ cur f h (Nat.lt_succ_self _)
  intro k
  induction k with
  | zero => intro m cur f hk; omega
  | succ k ih =>
    intro m cur f hk hm
    cases m with
    | zero => omega
    | succ m =>
      unfold readFrom
      split
      · rfl
      · rename_i calls next g hr
        have hlt := readStep_lt hr
        rw [ih m next g (by omega) (by omega)]

/-- The loop takes its iterations one after the other. -/
theorem readOn_cases (secs : List ConfigSection) (cur : Option ConfigSection) (f : Text) :
    readOn secs cur f =
      match readStep secs cur f with
      | (calls, .ended e) => (calls, e)
      | (calls, .go next g) => (calls ++ (readOn secs next g).1, (readOn secs next g).2) := by
  rw [readOn, readFrom]
  rcases hr : readStep secs cur f with ⟨calls, next | e⟩
  · rename_i g
    have hlt := readStep_lt hr
    simp only [readFrom_eq hlt]
  · rfl

theorem readOn_go {secs : List ConfigSection} {cur next : Option ConfigSection} {f g : Text} {calls more : List Call} {e : Ending}
    (hs : readStep secs cur f = (calls, .go next g)) (hr : readOn secs next g = (more, e)) : readOn secs cur f = (calls ++ more, e) := by
  rw [readOn_cases, hs]
  dsimp only
  rw [hr]

end Or1ksim.SimConfig
