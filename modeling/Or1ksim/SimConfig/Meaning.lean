import Or1ksim.SimConfig.Reading

/-!
# What is read is what is written

Each part of a file that the reader can read is taken at its own words, and what is left is the rest of the file.
-/

namespace Or1ksim.SimConfig

/-! ### Words -/

/-- What follows ends a word. -/
def Stops (f : Text) : Prop := ∀ c, f.head? = some c → isspace c = true

theorem nextWord_space {c : Char} (h : isspace c = true) (f : Text) : nextWord (c :: f) = nextWord f := by
  unfold nextWord
  rw [List.dropWhile_cons_of_pos h]

theorem cut_of_stops {w f : Text} (hw : ∀ c ∈ w, isspace c = false) (hf : Stops f) :
    (w ++ f).takeWhile (!isspace ·) = w ∧ (w ++ f).dropWhile (!isspace ·) = f := by
  have hp : ∀ c ∈ w, (!isspace c) = true := fun c hc => by rw [hw c hc]; rfl
  rw [List.takeWhile_append_of_pos hp, List.dropWhile_append_of_pos hp]
  cases f with
  | nil => simp
  | cons c f =>
    have hc : isspace c = true := hf c rfl
    simp [hc]

theorem nextWord_solid {w f : Text} (hne : w ≠ []) (hw : ∀ c ∈ w, isspace c = false) (hq : w.head? ≠ some '"')
    (hs : w.length < strSize - 1) (hf : Stops f) : nextWord (w ++ f) = some (some (cstr w), f) := by
  obtain ⟨ht, hd⟩ := cut_of_stops hw hf
  obtain ⟨c, v, rfl⟩ := List.exists_cons_of_ne_nil hne
  have hc : ¬ isspace c = true := by simp [hw c (List.mem_cons_self ..)]
  have hc' : c ≠ '"' := fun h => hq (by rw [h]; rfl)
  unfold nextWord
  rw [List.cons_append] at ht hd ⊢
  rw [List.dropWhile_cons_of_neg hc]
  split
  · rename_i h
    exact absurd (List.cons.inj h).1 hc'
  · dsimp only
    rw [ht, hd, if_pos hs, scanned, if_neg hne]

theorem cstr_eq {w : Text} (h : ∀ c ∈ w, c ≠ '\x00') : cstr w = w := by
  rw [cstr, List.takeWhile_eq_self_iff]
  simpa using h

theorem nextWord_word (w : Word) {f : Text} (hf : Stops f) : nextWord (w.text ++ f) = some (some w.text, f) := by
  rw [nextWord_solid w.nonempty (fun c hc => (w.solid c hc).1) w.unquoted w.short hf, cstr_eq fun c hc => (w.solid c hc).2]

theorem nextWord_quote (f : Text) :
    nextWord ('"' :: f) =
      match f.dropWhile (· ≠ '"') with
      | [] => none
      | _ :: g =>
        if (f.takeWhile (· ≠ '"')).length < strSize - 1 then some (scanned (f.takeWhile (· ≠ '"')), g.tail) else none := by
  unfold nextWord
  rw [List.dropWhile_cons_of_neg (by decide)]
  rfl

theorem nextWord_quoted (q : Quoted) (f : Text) : nextWord ('"' :: q.text ++ '"' :: f) = some (scanned q.text, f.tail) := by
  have hp : ∀ c ∈ q.text, (decide (c ≠ '"')) = true := fun c hc => decide_eq_true (q.closed c hc).1
  rw [List.cons_append, nextWord_quote, List.dropWhile_append_of_pos hp, List.takeWhile_append_of_pos hp,
    List.dropWhile_cons_of_neg (by decide), List.takeWhile_cons_of_neg (by decide), List.append_nil]
  dsimp only
  rw [if_pos q.short]

/-! ### Gaps -/

theorem skipComment_closes {c0 c1 : Char} {l : Text} (f : Text) (h : ¬ (c0 = '*' ∧ c1 = '/')) (hl : closes c1 l = false) :
    skipComment c0 c1 (l ++ '*' :: '/' :: f) = some f := by
  have hc : ¬ ((decide (c0 = '*') && decide (c1 = '/')) = true) := by simpa using h
  induction l generalizing c0 c1 with
  | nil =>
    rw [List.nil_append, skipComment, if_neg hc, skipComment, if_neg (by simp), skipComment.eq_def, if_pos (by decide)]
  | cons d l ih =>
    rw [closes, Bool.or_eq_false_iff] at hl
    rw [List.cons_append, skipComment, if_neg hc]
    have hd : ¬ (c1 = '*' ∧ d = '/') := by simpa using hl.1
    exact ih hd hl.2 (by simpa using hd)

theorem closes_suffix {c : Char} {a b : Text} (h : closes c (a ++ b) = false) : closes '\x00' b = false := by
  induction a generalizing c with
  | nil =>
    cases b with
    | nil => rfl
    | cons d b =>
      rw [List.nil_append, closes, Bool.or_eq_false_iff] at h
      simp [closes, h.2]
  | cons d a ih =>
    rw [List.cons_append, closes, Bool.or_eq_false_iff] at h
    exact ih h.2

theorem nextLexeme_word (w : Word) {f : Text} (hf : Stops f) : nextLexeme (w.text ++ f) = some (some w.text, f) := by
  rw [nextLexeme_cases, nextWord_word w hf]
  dsimp only
  rw [if_neg (by simp [w.noComment])]

theorem nextLexeme_quoted (q : Quoted) (hne : q.text ≠ []) (hc : startsComment q.text = false) (f : Text) :
    nextLexeme ('"' :: q.text ++ '"' :: f) = some (some q.text, f.tail) := by
  rw [nextLexeme_cases, nextWord_quoted, scanned, if_neg hne, cstr_eq fun c hm => (q.closed c hm).2]
  dsimp only
  rw [if_neg (by simp [hc])]

/-- The first word of a comment, and what follows it. -/
theorem Comment.cut (k : Comment) (h : k.Readable) (f : Text) :
    ∃ first rest : Text, k.body = first ++ rest ∧ (∀ c ∈ first, isspace c = false) ∧ first.length + 2 < strSize - 1 ∧
      Stops (rest ++ f) := by
  refine ⟨k.body.takeWhile (!isspace ·), k.body.dropWhile (!isspace ·), List.takeWhile_append_dropWhile.symm, ?_, h.2, ?_⟩
  · intro c hc
    simpa using List.mem_takeWhile_imp hc
  · intro c hc
    obtain ⟨d, hd, hs⟩ := List.any_eq_true.mp h.1
    have hne : k.body.dropWhile (!isspace ·) ≠ [] := by
      intro he
      have := List.dropWhile_eq_nil_iff.mp he d hd
      simp [hs] at this
    have hh := List.head_dropWhile_not (!isspace ·) hne
    rw [List.head?_append_of_ne_nil _ hne, List.head?_eq_some_head hne] at hc
    rw [← Option.some.inj hc]
    simpa using hh

theorem nextLexeme_comment (k : Comment) (h : k.Readable) (f : Text) :
    nextLexeme ('/' :: '*' :: k.body ++ ['*', '/'] ++ f) = nextLexeme f := by
  obtain ⟨first, rest, hb, hf, hlen, hs⟩ := k.cut h ('*' :: '/' :: f)
  have hsolid : ∀ c ∈ '/' :: '*' :: first, isspace c = false := by
    intro c hc
    rcases List.mem_cons.mp hc with rfl | hc
    · decide
    · rcases List.mem_cons.mp hc with rfl | hc
      · decide
      · exact hf c hc
  have ht : '/' :: '*' :: k.body ++ ['*', '/'] ++ f = ('/' :: '*' :: first) ++ (rest ++ '*' :: '/' :: f) := by simp [hb]
  have hw := nextWord_solid (List.cons_ne_nil _ _) hsolid (by simp) (by simpa using hlen) hs
  have hsc : startsComment (cstr ('/' :: '*' :: first)) = true := by
    rw [cstr, List.takeWhile_cons_of_pos (by decide), List.takeWhile_cons_of_pos (by decide)]
    rfl
  have hcl : closes '\x00' rest = false := closes_suffix (hb ▸ k.open_)
  rw [ht, nextLexeme_cases, hw]
  dsimp only
  rw [if_pos hsc, skipComment_closes f (by simp) hcl, Option.bind_some]

theorem nextLexeme_gap {g : Gap} (h : g.Readable) (f : Text) : nextLexeme (g.render ++ f) = nextLexeme f := by
  induction g with
  | nil => rfl
  | cons piece g ih =>
    have ih := ih fun p hp => h p (List.mem_cons_of_mem _ hp)
    have hp := h piece (List.mem_cons_self ..)
    have hr : Gap.render (piece :: g) ++ f = piece.render ++ (Gap.render g ++ f) := by simp [Gap.render]
    rw [hr, ← ih]
    cases piece with
    | space c is =>
      show nextLexeme (c :: (Gap.render g ++ f)) = _
      rw [nextLexeme_cases, nextWord_space is, ← nextLexeme_cases]
    | comment k => exact nextLexeme_comment k hp _

theorem Gap.Spaced.stops {g : Gap} (h : g.Spaced) (f : Text) : Stops (g.render ++ f) := by
  intro d hd
  match g, h with
  | .space c is :: g, _ =>
    rw [← Option.some.inj (show some c = some d from hd)]
    exact is

/-! ### Lines -/

theorem skipLine_append {a : Text} (f : Text) (h : '\n' ∉ a) : skipLine (a ++ '\n' :: f) = some f := by
  induction a with
  | nil => simp [skipLine]
  | cons c a ih =>
    obtain ⟨hc, ha⟩ := not_or.mp (mt List.mem_cons.mpr h)
    rw [List.cons_append, skipLine, if_neg (Ne.symm hc), ih ha]

theorem Gap.nextLine_render {g rest : Gap} (h : g.nextLine = some rest) :
    ∃ a : Text, '\n' ∉ a ∧ g.render = a ++ '\n' :: rest.render := by
  induction g with
  | nil => cases h
  | cons piece g ih =>
    have hr : Gap.render (piece :: g) = piece.render ++ Gap.render g := by simp [Gap.render]
    cases piece with
    | space c is =>
      rw [Gap.nextLine] at h
      split at h
      · rename_i hc
        subst hc
        cases h
        exact ⟨[], by simp, hr⟩
      · rename_i hc
        obtain ⟨a, ha, hg⟩ := ih h
        exact ⟨c :: a, by simp [Ne.symm hc, ha], by rw [hr, hg]; rfl⟩
    | comment k =>
      rw [Gap.nextLine] at h
      split at h
      · cases h
      · rename_i hk
        obtain ⟨a, ha, hg⟩ := ih h
        refine ⟨(Piece.comment k).render ++ a, ?_, by rw [hr, hg, List.append_assoc]⟩
        simp [Piece.render, hk, ha]

/-- The rest of a line is skipped, up to its end in a gap. -/
theorem afterLine_go (cur : Option ConfigSection) {a : Text} {g : Gap} (ha : '\n' ∉ a) (hg : g.Ends) (f : Text) :
    ∃ rest : Gap, rest.Readable ∧ afterLine cur (a ++ (g.render ++ f)) = .go cur (rest.render ++ f) := by
  obtain ⟨rest, hn, hr⟩ := hg
  obtain ⟨b, hb, hg⟩ := Gap.nextLine_render hn
  refine ⟨rest, hr, ?_⟩
  have ht : a ++ (g.render ++ f) = (a ++ b) ++ '\n' :: (rest.render ++ f) := by simp [hg]
  rw [afterLine, ht, skipLine_append _ (by simp [ha, hb])]

/-! ### Gaps make no difference -/

section
variable {secs : List ConfigSection}

theorem readStep_gap {g : Gap} (h : g.Readable) (cur : Option ConfigSection) (f : Text) :
    readStep secs cur (g.render ++ f) = readStep secs cur f := by
  rw [readStep, nextLexeme_gap h, ← readStep]

theorem readOn_gap {g : Gap} (h : g.Readable) (cur : Option ConfigSection) (f : Text) :
    readOn secs cur (g.render ++ f) = readOn secs cur f := by
  rw [readOn_cases, readStep_gap h, ← readOn_cases]

/-! ### Parameters -/

theorem nextLexeme_value {v : Value} {after : Gap} (he : v.Ends after) (ha : after.Readable)
    (hq : ∀ q, v = .quoted q → q.Readable after) (f : Text) :
    ∃ g : Gap, g.Readable ∧ nextLexeme (v.render ++ (after.render ++ f)) = some (some v.text, g.render ++ f) := by
  cases v with
  | plain w => exact ⟨after, ha, nextLexeme_word w (he.stops f)⟩
  | quoted q =>
    obtain ⟨hne, hc, c, is, rest, rfl⟩ := hq q rfl
    refine ⟨rest, fun p hp => ha p (List.mem_cons_of_mem _ hp), ?_⟩
    have ht : (Value.quoted q).render ++ (Gap.render (.space c is :: rest) ++ f) =
        '"' :: q.text ++ '"' :: c :: (Gap.render rest ++ f) := by
      simp [Value.render, Gap.render, Piece.render]
    rw [ht, nextLexeme_quoted q hne hc]
    rfl

def signWord : Word where
  text := ['=']
  nonempty := by decide
  solid := by simp only [List.mem_singleton, forall_eq]; decide
  unquoted := by decide
  noComment := rfl
  short := by decide

theorem readValue_param {p : Param} {param : ConfigParam} (h : p.Readable param) (f : Text) :
    ∃ g : Gap, g.Readable ∧ readValue (p.render ++ f) = some (some p.value.text, g.render ++ f) := by
  obtain ⟨g, hg, hv⟩ := nextLexeme_value p.ends h.after h.value f
  refine ⟨g, hg, ?_⟩
  have ht : p.render ++ f = p.before.render ++ (p.renderSign ++ (p.value.render ++ (p.after.render ++ f))) := by simp [Param.render]
  have hs := h.sign
  unfold Param.signReadable at hs
  rw [ht, readValue, nextLexeme_gap h.before, Param.renderSign]
  cases hp : p.sign with
  | none =>
    rw [hp] at hs
    dsimp only at hs ⊢
    rw [List.nil_append, hv]
    split
    · rename_i he
      exact absurd (Option.some.inj (Prod.mk.inj (Option.some.inj he)).1) hs
    · rfl
  | some s =>
    rw [hp] at hs
    dsimp only at hs ⊢
    have hw : nextLexeme ('=' :: s.val.render ++ (p.value.render ++ (p.after.render ++ f))) =
        some (some ['='], s.val.render ++ (p.value.render ++ (p.after.render ++ f))) :=
      nextLexeme_word signWord (s.property.stops _)
    rw [hw]
    exact (nextLexeme_gap hs _).trans hv

/-- A parameter of a known section: what it asks for is done, and what is left is what follows it. -/
theorem readParam_fits {sec : ConfigSection} {p : Param} (h : p.Fits sec) (f : Text) :
    ∃ g : Gap, g.Readable ∧ readParam sec p.name.text (p.render ++ f) = (p.calls sec, .go (some sec) (g.render ++ f)) := by
  unfold Param.Fits at h
  unfold readParam Param.calls
  cases hl : lookupParam sec p.name.text with
  | none =>
    rw [hl] at h
    have hline : '\n' ∉ p.before.render ++ (p.renderSign ++ p.value.render) := by simp [h.before, h.sign, h.value]
    obtain ⟨g, hg, ha⟩ := afterLine_go (some sec) hline h.after f
    refine ⟨g, hg, ?_⟩
    have ht : p.render ++ f = p.before.render ++ (p.renderSign ++ p.value.render) ++ (p.after.render ++ f) := by simp [Param.render]
    rw [ht]
    exact Prod.ext rfl ha
  | some param =>
    rw [hl] at h
    obtain ⟨g, hg, hv⟩ := readValue_param h f
    refine ⟨g, hg, ?_⟩
    dsimp only
    rw [if_neg h.type, hv]

theorem readOn_param {sec : ConfigSection} {p : Param} (h : p.Fits sec) {f : Text} {more : List Call} {e : Ending}
    (hr : readOn secs (some sec) f = (more, e)) : readOn secs (some sec) (p.name.text ++ (p.render ++ f)) =
    (p.calls sec ++ more, e) := by
  obtain ⟨g, hg, hp⟩ := readParam_fits h f
  have hst : Stops (p.render ++ f) := by
    rw [Param.render, List.append_assoc]
    exact p.beforeSpaced.stops _
  refine readOn_go (g := g.render ++ f) (?_ : readStep secs _ _ = (_, .go (some sec) _)) (by rw [readOn_gap hg, hr])
  rw [readStep, nextLexeme_word p.name hst]
  dsimp only
  rw [if_neg p.notEnd, hp]

theorem readOn_params {sec : ConfigSection} {ps : List Param} (h : ∀ p ∈ ps, p.Fits sec) {f : Text} {more : List Call} {e : Ending}
    (hr : readOn secs (some sec) f = (more, e)) :
    readOn secs (some sec) (renderParams ps ++ f) = (ps.flatMap (Param.calls sec) ++ more, e) := by
  induction ps with
  | nil => exact hr
  | cons p ps ih =>
    have hps := ih fun q hq => h q (List.mem_cons_of_mem _ hq)
    have ht : renderParams (p :: ps) ++ f = p.name.text ++ (p.render ++ (renderParams ps ++ f)) := by simp [renderParams]
    rw [ht, readOn_param (h p (List.mem_cons_self ..)) hps, List.flatMap_cons, List.append_assoc]

/-! ### Sections -/

def sectionWord : Word where
  text := wordSection
  nonempty := by decide
  solid := by simp [wordSection, isspace]
  unquoted := by decide
  noComment := rfl
  short := by decide

def endWord : Word where
  text := wordEnd
  nonempty := by decide
  solid := by simp [wordEnd, isspace]
  unquoted := by decide
  noComment := rfl
  short := by decide

theorem nextLexeme_section {f : Text} (hf : Stops f) : nextLexeme (wordSection ++ f) = some (some wordSection, f) :=
  nextLexeme_word sectionWord hf

theorem nextLexeme_end {f : Text} (hf : Stops f) : nextLexeme (wordEnd ++ f) = some (some wordEnd, f) := nextLexeme_word endWord hf

theorem readOn_known {s : Section} {sec : ConfigSection} (hl : lookupSection secs s.name.text = some sec) (h : s.Readable secs)
    {f : Text} (hf : Stops f) {more : List Call} {e : Ending} (hr : readOn secs none f = (more, e)) :
    readOn secs none (s.render ++ f) = (s.calls secs ++ more, e) := by
  have hps : ∀ p ∈ s.params, p.Fits sec := by
    have := h.params
    rw [hl] at this
    exact this
  have hend : readStep secs (some sec) (wordEnd ++ f) = (if sec.secEnd then [.secEnd sec.name] else [], .go none f) := by
    rw [readStep, nextLexeme_end hf]
    rfl
  have hparams := readOn_params hps (readOn_go hend hr)
  have hstart : readStep secs none (s.render ++ f) =
      (if sec.secStart then [.secStart sec.name] else [],
        .go (some sec) (s.before.render ++ (renderParams s.params ++ (wordEnd ++ f)))) := by
    have ht : s.render ++ f =
        wordSection ++ (s.gap.render ++ (s.name.text ++ (s.before.render ++ (renderParams s.params ++ (wordEnd ++ f))))) := by
      simp [Section.render]
    rw [ht, readStep, nextLexeme_section (s.gapSpaced.stops _)]
    dsimp only
    rw [if_pos rfl, startSection, nextLexeme_gap h.gap, nextLexeme_word s.name (s.beforeSpaced.stops _)]
    dsimp only
    rw [hl]
  rw [readOn_go hstart ((readOn_gap h.before _ _).trans hparams), Section.calls, hl]
  simp only [List.append_assoc]

/-! ### Sections that are not known -/

theorem readOn_line {f g : Text} {rest : Gap} (hr : rest.Readable) (hs : readStep secs none f = ([], .go none (rest.render ++ g))) :
    readOn secs none f = readOn secs none g :=
  (readOn_go hs (readOn_gap hr none g)).trans rfl

/-- A word that starts no section is skipped with its line. -/
theorem readOn_skip {w : Text} (hw : w ≠ wordSection) {f g a : Text} (hn : nextLexeme f = some (some w, a)) {rest : Gap}
    (hr : rest.Readable) (ha : afterLine none a = .go none (rest.render ++ g)) : readOn secs none f = readOn secs none g := by
  refine readOn_line hr ?_
  rw [readStep, hn]
  dsimp only
  rw [if_neg hw, ha]

theorem Param.stops (p : Param) (f : Text) : Stops (p.render ++ f) := by
  rw [Param.render, List.append_assoc]
  exact p.beforeSpaced.stops _

theorem readOn_skippable {p : Param} (hn : p.name.text ≠ wordSection) (h : p.Skippable) (f : Text) :
    readOn secs none (p.name.text ++ (p.render ++ f)) = readOn secs none f := by
  have hline : '\n' ∉ p.before.render ++ (p.renderSign ++ p.value.render) := by simp [h.before, h.sign, h.value]
  obtain ⟨rest, hr, ha⟩ := afterLine_go none hline h.after f
  have ht : p.render ++ f = p.before.render ++ (p.renderSign ++ p.value.render) ++ (p.after.render ++ f) := by simp [Param.render]
  refine readOn_skip hn (nextLexeme_word p.name (p.stops f)) hr ?_
  rw [ht, ha]

theorem readOn_skippables {ps : List Param} (h : ∀ q ∈ ps, q.name.text ≠ wordSection ∧ q.Skippable) (f : Text) :
    readOn secs none (renderParams ps ++ f) = readOn secs none f := by
  induction ps with
  | nil => rfl
  | cons p ps ih =>
    obtain ⟨hn, hp⟩ := h p (List.mem_cons_self ..)
    have ht : renderParams (p :: ps) ++ f = p.name.text ++ (p.render ++ (renderParams ps ++ f)) := by simp [renderParams]
    rw [ht, readOn_skippable hn hp, ih fun q hq => h q (List.mem_cons_of_mem _ hq)]

/-- Behind its name the first parameter is skipped from its sign, or from its value. -/
theorem readOn_first {p : Param} (h : p.SkippableFirst) (f : Text) : readOn secs none (p.render ++ f) = readOn secs none f := by
  have ht : p.render ++ f = p.before.render ++ (p.renderSign ++ (p.value.render ++ (p.after.render ++ f))) := by simp [Param.render]
  have hs := h.sign
  rw [ht, readOn_gap h.before, Param.renderSign]
  cases hp : p.sign with
  | some g =>
    rw [hp] at hs
    dsimp only at hs ⊢
    obtain ⟨rest, hr, ha⟩ := afterLine_go none (show '\n' ∉ Gap.render g.val ++ p.value.render by simp [hs, h.value]) h.after f
    rw [List.append_assoc] at ha
    exact readOn_skip (by decide) (nextLexeme_word signWord (g.property.stops _)) hr ha
  | none =>
    rw [hp] at hs
    dsimp only at hs ⊢
    obtain ⟨hv, hq⟩ := hs
    have he := p.ends
    cases hpv : p.value with
    | plain w =>
      rw [hpv] at hv he
      obtain ⟨rest, hr, ha⟩ := afterLine_go none (List.not_mem_nil (a := '\n')) h.after f
      exact readOn_skip hv (nextLexeme_word w (Gap.Spaced.stops he _)) hr ha
    | quoted q =>
      rw [hpv] at hv
      obtain ⟨hne, hc, hh⟩ := hq q hpv
      obtain ⟨rest, hn, hr⟩ := h.after
      obtain ⟨a, ha, hg⟩ := Gap.nextLine_render hn
      cases a with
      | nil => exact absurd (by rw [hg]; rfl) hh
      | cons c a =>
        have hq' : nextLexeme ((Value.quoted q).render ++ (p.after.render ++ f)) =
            some (some q.text, a ++ '\n' :: (rest.render ++ f)) := by
          have ht : (Value.quoted q).render ++ (p.after.render ++ f) =
              '"' :: q.text ++ '"' :: c :: (a ++ '\n' :: (rest.render ++ f)) := by
            simp [Value.render, hg]
          rw [ht, nextLexeme_quoted q hne hc]
          rfl
        refine readOn_skip hv hq' hr ?_
        rw [afterLine, skipLine_append _ fun hm => ha (List.mem_cons_of_mem _ hm)]

theorem readOn_unknown {s : Section} (hl : lookupSection secs s.name.text = none) (h : s.Readable secs) {g : Gap} (hg : g.Spaced)
    (he : g.Ends) (f : Text) : readOn secs none (s.render ++ (g.render ++ f)) = readOn secs none f := by
  have hps : skipped s.params := by
    have := h.params
    rw [hl] at this
    exact this
  obtain ⟨rest, hr, ha⟩ := afterLine_go none (List.not_mem_nil (a := '\n')) he f
  have hend : readOn secs none (wordEnd ++ (g.render ++ f)) = readOn secs none f :=
    readOn_skip (by decide) (nextLexeme_end (hg.stops f)) hr ha
  cases hs : s.params with
  | nil => rw [hs] at hps; exact hps.elim
  | cons p ps =>
    rw [hs] at hps
    have ht : s.render ++ (g.render ++ f) = wordSection ++ (s.gap.render ++ (s.name.text ++
        (s.before.render ++ (p.name.text ++ (p.render ++ (renderParams ps ++ (wordEnd ++ (g.render ++ f)))))))) := by
      simp [Section.render, renderParams, hs]
    have hstart : readStep secs none (s.render ++ (g.render ++ f)) =
        ([], .go none (p.render ++ (renderParams ps ++ (wordEnd ++ (g.render ++ f))))) := by
      rw [ht, readStep, nextLexeme_section (s.gapSpaced.stops _)]
      dsimp only
      rw [if_pos rfl, startSection, nextLexeme_gap h.gap, nextLexeme_word s.name (s.beforeSpaced.stops _)]
      dsimp only
      rw [hl]
      dsimp only
      rw [skipSection, nextLexeme_gap h.before, nextLexeme_word p.name (p.stops _)]
      dsimp only
      rw [if_pos p.notEnd]
    have hgo : readOn secs none (s.render ++ (g.render ++ f)) =
        readOn secs none (p.render ++ (renderParams ps ++ (wordEnd ++ (g.render ++ f)))) :=
      readOn_line (fun _ hm => (List.not_mem_nil hm).elim : Gap.Readable []) hstart
    rw [hgo, readOn_first hps.1, readOn_skippables hps.2, hend]

/-! ### Files -/

theorem readOn_sections {ss : Sections} (h : ss.Readable secs) : readOn secs none ss.render = (ss.calls secs, .done) := by
  have hnil : readOn secs none [] = ([], .done) := rfl
  induction ss with
  | nil => exact hnil
  | last s =>
    obtain ⟨sec, hl⟩ := Option.isSome_iff_exists.mp h.2
    have := readOn_known hl h.1 (f := []) (fun c hc => by cases hc) hnil
    rwa [List.append_nil, List.append_nil] at this
  | cons s gap spaced rest ih =>
    obtain ⟨hs, hg, hr⟩ := h
    have ih := ih hr
    cases hl : lookupSection secs s.name.text with
    | none =>
      rw [hl] at hg
      rw [Sections.render, readOn_unknown hl hs spaced hg, ih, Sections.calls, Section.calls, hl, List.nil_append]
    | some sec =>
      rw [hl] at hg
      exact readOn_known hl hs (spaced.stops _) ((readOn_gap hg none _).trans ih)

end

/-- A file that the reader can read means what it says. -/
theorem file_read {secs : List ConfigSection} {f : File} (h : f.Readable secs) : readScriptFile secs f.render = (f.calls secs, .done) :=
  (readOn_gap h.gap none _).trans (readOn_sections h.sections)

/-! ### A file -/

def letter (c : Char) (h : (!isspace c && c != '\x00' && c != '"') = true) : Word where
  text := [c]
  nonempty := List.cons_ne_nil _ _
  solid := by simp_all
  unquoted := by simp_all
  noComment := by unfold startsComment; split <;> simp_all
  short := by simp [strSize]

def blank : Gap := [.space ' ' rfl]

def newline : Gap := [.space '\n' rfl]

/-- `m = 1`, on a line of its own. -/
def plainParam : Param where
  name := letter 'm' rfl
  notEnd := by decide
  before := blank
  beforeSpaced := trivial
  sign := some ⟨blank, trivial⟩
  value := .plain (letter '1' rfl)
  notSign := nofun
  after := newline
  ends := trivial

/-- `n "u v"`. -/
def quotedParam : Param where
  name := letter 'n' rfl
  notEnd := by decide
  before := blank
  beforeSpaced := trivial
  sign := none
  value := .quoted ⟨['u', ' ', 'v'], by simp, by simp [strSize]⟩
  notSign := nofun
  after := newline
  ends := trivial

/-- `u 2`. -/
def otherParam : Param where
  name := letter 'u' rfl
  notEnd := by decide
  before := blank
  beforeSpaced := trivial
  sign := none
  value := .plain (letter '2' rfl)
  notSign := by rintro - w ⟨⟩; decide
  after := newline
  ends := trivial

/-- `section x u 2` with `n "u v"` and `end` on lines of their own, which is not known. -/
def unknownSection : Section where
  gap := blank
  gapSpaced := trivial
  name := letter 'x' rfl
  before := blank
  beforeSpaced := trivial
  params := [otherParam, quotedParam]

/-- `section a /* c */ m = 1`, with `n "u v"`, `u 2` and `end` on lines of their own. -/
def knownSection : Section where
  gap := blank
  gapSpaced := trivial
  name := letter 'a' rfl
  before := .space ' ' rfl :: .comment ⟨[' ', 'c', ' '], by decide⟩ :: blank
  beforeSpaced := trivial
  params := [plainParam, quotedParam, otherParam]

def plainFile : File where
  gap := []
  sections := .cons unknownSection newline trivial (.last knownSection)

/-- Section `a` with a number `m` and a string `n`. -/
def sectionA : ConfigSection := ⟨['a'], true, true, [⟨['m'], .int⟩, ⟨['n'], .str⟩]⟩

theorem newline_ends : newline.Ends := ⟨[], rfl, nofun⟩

theorem blank_readable : blank.Readable := by simp [blank, Gap.Readable, Piece.Readable]

theorem newline_readable : newline.Readable := by simp [newline, Gap.Readable, Piece.Readable]

theorem unknownSection_readable : unknownSection.Readable [sectionA] := by
  refine ⟨blank_readable, blank_readable, ⟨blank_readable, by decide, newline_ends, by decide, nofun⟩, ?_⟩
  intro q hq
  rw [List.mem_singleton.mp hq]
  exact ⟨by decide, by decide, by decide, by decide, newline_ends⟩

theorem knownSection_readable : knownSection.Readable [sectionA] := by
  refine ⟨blank_readable, ?_, ?_⟩
  · intro piece hp
    simp only [knownSection, List.mem_cons, blank, List.not_mem_nil, or_false] at hp
    obtain rfl | rfl | rfl := hp
    · trivial
    · exact ⟨by decide, by decide⟩
    · trivial
  · show ∀ p ∈ _, Param.Fits sectionA p
    intro p hp
    simp only [knownSection, List.mem_cons, List.not_mem_nil, or_false] at hp
    obtain rfl | rfl | rfl := hp
    · exact (⟨by decide, blank_readable, blank_readable, nofun, newline_readable⟩ : plainParam.Readable ⟨['m'], .int⟩)
    · have notSign : quotedParam.value.text ≠ ['='] := by decide
      refine (⟨by decide, blank_readable, notSign, ?_, newline_readable⟩ : quotedParam.Readable ⟨['n'], .str⟩)
      rintro q ⟨⟩
      exact ⟨by decide, by decide, '\n', rfl, [], rfl⟩
    · exact (⟨by decide, by decide, by decide, newline_ends⟩ : otherParam.Skippable)

theorem file_read_plain :
    readScriptFile [sectionA] plainFile.render =
      ([.secStart ['a'], .set ['a'] ['m'] .int (some ['1']), .set ['a'] ['n'] .str (some ['u', ' ', 'v']), .secEnd ['a']], .done) :=
  file_read ⟨nofun, unknownSection_readable, newline_ends, knownSection_readable, rfl⟩

/-- `section a n ""`, and the end of the section on the next line: the parameter is not set. -/
def emptyString : File where
  gap := []
  sections := .last {
    gap := blank
    gapSpaced := trivial
    name := letter 'a' rfl
    before := blank
    beforeSpaced := trivial
    params := [{ quotedParam with value := .quoted ⟨[], nofun, by decide⟩, notSign := nofun, ends := trivial }] }

theorem empty_string_unset : ¬ ∀ (secs : List ConfigSection) (f : File), readScriptFile secs f.render = (f.calls secs, .done) :=
  fun h => absurd (h [sectionA] emptyString) (by decide +kernel)

end Or1ksim.SimConfig
