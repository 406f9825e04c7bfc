import Or1ksim.SimConfig.Characters

/-!
# Which configuration files are read to an end

At every text the reader of characters comes to what the reader of texts says, as far as the functions that it calls return. It reads on
for ever exactly where it skips the rest of a line that has no end: at the end of the file `fgetc` does not find a newline, as often as
it is called.
-/

namespace Or1ksim.SimConfig.Stdio

open Reads

/-! ### What the lexemes come to -/

theorem comment_comes (c0 c1 : Char) (f : Text) :
    Comes (loop commentRound (c0, c1)) f [] (outcome ((skipComment c0 c1 f).map fun g => ((), g))) := by
  induction f generalizing c0 c1 with
  | nil =>
    unfold skipComment
    by_cases closed : (c0 = '*' && c1 = '/') = true
    · rw [if_pos closed]
      refine Comes.loop_returns pays_comment ?_
      rw [commentRound_eq, if_pos closed]
      exact comes_pure _ _
    · rw [if_neg closed]
      refine Comes.loop_exits pays_comment ?_
      rw [commentRound_eq, if_neg closed]
      exact comes_fgetc_end.step (comes_exit _)
  | cons c f ih =>
    unfold skipComment
    by_cases closed : (c0 = '*' && c1 = '/') = true
    · rw [if_pos closed]
      refine Comes.loop_returns pays_comment ?_
      rw [commentRound_eq, if_pos closed]
      exact comes_pure _ _
    · rw [if_neg closed]
      refine Comes.loop_step pays_comment ?_ (ih c1 c)
      rw [commentRound_eq, if_neg closed]
      exact (comes_fgetc c f).step (comes_pure _ _)

/-- What the loop over comments makes of a lexeme. -/
def afterLexeme (lexeme f : Text) : Option (Option Text × Text) :=
  if startsComment lexeme then (skipComment '\x00' '\x00' f).bind SimConfig.nextLexeme else some (some lexeme, f)

theorem nextLexeme_eq (f : Text) : SimConfig.nextLexeme f =
    (SimConfig.nextWord f).bind fun r => r.1.elim (some (none, r.2)) fun lexeme => afterLexeme lexeme r.2 := by
  rw [nextLexeme_cases]
  rcases SimConfig.nextWord f with _ | ⟨_ | lexeme, g⟩ <;> rfl

theorem lexeme_comes (lexeme f : Text) : Comes (loop lexemeRound lexeme) f [] (outcome (afterLexeme lexeme f)) := by
  induction len : f.length using Nat.strong_induction_on generalizing lexeme f with
  | _ n ih =>
    by_cases comment : startsComment lexeme = true
    · have skipped := comment_comes '\x00' '\x00' f
      rw [afterLexeme, if_pos comment]
      cases closed : skipComment '\x00' '\x00' f with
      | none =>
        rw [closed] at skipped
        refine Comes.loop_exits pays_lexeme ?_
        rw [lexemeRound, if_pos comment]
        exact skipped.bind_exits
      | some g =>
        rw [closed] at skipped
        have word := nextWord_comes g
        rw [Option.bind_some, nextLexeme_eq]
        rcases next : SimConfig.nextWord g with _ | ⟨_ | more, k⟩
        · rw [next] at word
          refine Comes.loop_exits pays_lexeme ?_
          rw [lexemeRound, if_pos comment]
          exact skipped.step word.bind_exits
        · rw [next] at word
          refine Comes.loop_returns pays_lexeme ?_
          rw [lexemeRound, if_pos comment]
          exact skipped.step (word.step (comes_pure _ _))
        · rw [next] at word
          have shorter : k.length < n := by
            rw [← len]
            exact (nextWord_lt next).trans_le (skipComment_le closed)
          refine Comes.loop_step pays_lexeme ?_ (ih k.length shorter more k rfl)
          rw [lexemeRound, if_pos comment]
          exact skipped.step (word.step (comes_pure _ _))
    · rw [afterLexeme, if_neg comment]
      refine Comes.loop_returns pays_lexeme ?_
      rw [lexemeRound, if_neg comment]
      exact comes_pure _ _

theorem nextLexeme_comes (f : Text) : Comes nextLexeme f [] (outcome (SimConfig.nextLexeme f)) := by
  have word := nextWord_comes f
  rw [nextLexeme_eq]
  rcases next : SimConfig.nextWord f with _ | ⟨_ | lexeme, g⟩
  · rw [next] at word
    exact word.bind_exits
  · rw [next] at word
    exact word.step (comes_pure _ _)
  · rw [next] at word
    exact word.step (lexeme_comes lexeme g)

/-! ### What an iteration comes to -/

/-- At the end of the file every round of the loop is like the one before. -/
theorem skipLine_comes (f : Text) :
    Comes skipLine f [] ((SimConfig.skipLine f).elim .hangs fun g => .returns () g) := by
  have pays (x : Unit) : Pays (lineRound x) := (spends_line x).pays
  induction f with
  | nil =>
    refine Comes.loop_forever pays ?_
    rw [lineRound_eq]
    exact comes_fgetc_end.step (comes_pure _ _)
  | cons c f ih =>
    unfold SimConfig.skipLine
    by_cases newline : c = '\n'
    · rw [if_pos newline]
      refine Comes.loop_returns pays ?_
      rw [lineRound_eq, newline]
      exact (comes_fgetc '\n' f).step (comes_pure _ _)
    · rw [if_neg newline]
      refine Comes.loop_step pays ?_ ih
      rw [lineRound_eq]
      refine (comes_fgetc c f).step ?_
      rw [if_pos (by simp [newline])]
      exact comes_pure _ _

/-- The functions are called one after the other. -/
def performAll {ω : Type} (registered : Registered ω) : List Call → ω → Act ω
  | [], world => .returns world
  | call :: more, world =>
    match registered call world with
    | .returns world => performAll registered more world
    | .exits => .exits
    | .never => .never

/-- What follows an iteration with the functions that it calls. -/
inductive Following (ω : Type) where
  | go (curSection : Option ConfigSection) (world : ω) (f : Text)
  | ended (e : Ending)

section
variable {ω : Type} (registered : Registered ω)

def follow (world : ω) (r : List Call × Next) : List Call × Following ω :=
  (r.1, match performAll registered r.1 world with
    | .exits => .ended .exits
    | .never => .ended .hangs
    | .returns world =>
      match r.2 with
      | .go cur f => .go cur world f
      | .ended e => .ended e)

/-- An iteration of the loop over the file. -/
def step (secs : List ConfigSection) (cur : Option ConfigSection) (world : ω) (f : Text) : List Call × Following ω :=
  follow registered world (readStep secs cur f)

end

section
variable {ω : Type} {registered : Registered ω} {world : ω}

/-- A round of `read_script_file` comes to what an iteration says. -/
def Meets (p : Read (Option ConfigSection × ω ⊕ Unit)) (f : Text) (r : List Call × Following ω) : Prop :=
  match r.2 with
  | .go cur world g => Comes p f r.1 (.returns (.inl (cur, world)) g)
  | .ended .done => ∃ g, Comes p f r.1 (.returns (.inr ()) g)
  | .ended .exits => Comes p f r.1 .exits
  | .ended .hangs => Comes p f r.1 .hangs

theorem Meets.step {β : Type} {p : Read β} {q : β → Read (Option ConfigSection × ω ⊕ Unit)} {f g : Text} {b : β}
    {r : List Call × Following ω} (first : Comes p f [] (.returns b g)) (rest : Meets (q b) g r) : Meets (p >>= q) f r := by
  rcases r with ⟨calls, ⟨cur, world, k⟩ | _ | _ | _⟩
  · exact first.step rest
  · obtain ⟨k, rest⟩ := rest
    exact ⟨k, first.step rest⟩
  · exact first.step rest
  · exact first.step rest

theorem line_meets (cur : Option ConfigSection) (f : Text) :
    Meets (ignored world >>= fun w => pure (.inl (cur, w))) f (follow registered world ([], afterLine cur f)) := by
  have line := skipLine_comes f
  rw [ignored, bind_assoc, afterLine]
  cases rest : SimConfig.skipLine f with
  | none =>
    rw [rest] at line
    exact line.bind_hangs
  | some g =>
    rw [rest] at line
    exact line.step (comes_pure _ _)

theorem call_meets (call : Call) (cur : Option ConfigSection) (f : Text) :
    Meets (perform registered call world >>= fun w => pure (.inl (cur, w))) f (follow registered world ([call], .go cur f)) := by
  rw [perform, bind_assoc, follow, performAll]
  have told := comes_tell call f
  cases registered call world with
  | returns world => exact told.bind (comes_pure _ _)
  | exits => exact told.bind (comes_exit f).bind_exits
  | never => exact told.bind (comes_hang f).bind_hangs

theorem callIf_meets (has : Bool) (call : Call) (cur : Option ConfigSection) (f : Text) :
    Meets (performIf registered has call world >>= fun w => pure (.inl (cur, w))) f
      (follow registered world (if has then [call] else [], .go cur f)) := by
  cases has with
  | true => exact call_meets call cur f
  | false => exact (comes_pure world f).step (comes_pure _ _)

theorem unknown_meets {n : Nat} {f : Text} (enough : f.length < n) :
    Meets (loop unknownRound () >>= fun _ => pure (.inl (none, world))) f (follow registered world ([], skipSection n f)) := by
  have pays (x : Unit) : Pays (unknownRound x) := (spends_unknown x).pays
  suffices hs : (skipSection n f = .ended .exits ∧ Comes (loop unknownRound ()) f [] .exits) ∨
      ∃ g, skipSection n f = .go none g ∧ Comes (loop unknownRound ()) f [] (.returns () g) by
    rcases hs with ⟨ends, comes⟩ | ⟨g, goes, comes⟩
    · rw [ends]
      exact comes.bind_exits
    · rw [goes]
      exact comes.step (comes_pure _ _)
  induction n generalizing f with
  | zero => omega
  | succ n ih =>
    have lexeme := nextLexeme_comes f
    rw [skipSection]
    rcases next : SimConfig.nextLexeme f with _ | ⟨_ | word, g⟩
    · rw [next] at lexeme
      exact .inl ⟨rfl, Comes.loop_exits pays lexeme.bind_exits⟩
    · rw [next] at lexeme
      exact .inr ⟨g, rfl, Comes.loop_returns pays (lexeme.step (comes_pure _ _))⟩
    · rw [next] at lexeme
      dsimp only
      by_cases last : word ≠ wordEnd
      · rw [if_pos last]
        refine .inr ⟨g, rfl, Comes.loop_returns pays (lexeme.step ?_)⟩
        dsimp only
        rw [if_pos last]
        exact comes_pure _ _
      · rw [if_neg last]
        have shorter := nextLexeme_lt next
        have again : Comes (unknownRound ()) f [] (.returns (.inl ()) g) := by
          refine lexeme.step ?_
          dsimp only
          rw [if_neg last]
          exact comes_pure _ _
        rcases ih (f := g) (by omega) with ⟨ends, comes⟩ | ⟨k, goes, comes⟩
        · exact .inl ⟨ends, Comes.loop_step pays again comes⟩
        · exact .inr ⟨k, goes, Comes.loop_step pays again comes⟩

theorem startSection_meets (secs : List ConfigSection) (f : Text) :
    Meets (startSection registered secs world >>= fun r => pure (.inl r)) f
      (follow registered world (SimConfig.startSection secs f)) := by
  have lexeme := nextLexeme_comes f
  rw [startSection, SimConfig.startSection, bind_assoc]
  rcases next : SimConfig.nextLexeme f with _ | ⟨_ | name, g⟩
  · rw [next] at lexeme
    exact lexeme.bind_exits
  · rw [next] at lexeme
    exact lexeme.step (comes_exit g).bind_exits
  · rw [next] at lexeme
    refine Meets.step lexeme ?_
    dsimp only
    cases lookupSection secs name with
    | some sec =>
      dsimp only
      rw [bind_assoc]
      exact callIf_meets sec.secStart (.secStart sec.name) (some sec) g
    | none =>
      dsimp only
      rw [bind_assoc]
      exact unknown_meets (Nat.lt_succ_self g.length)

theorem readValue_sign {f g : Text} (next : SimConfig.nextLexeme f = some (some ['='], g)) :
    readValue f = SimConfig.nextLexeme g := by
  rw [readValue, next]
  rfl

theorem readValue_plain {f g word : Text} (next : SimConfig.nextLexeme f = some (some word, g)) (plain : word ≠ ['=']) :
    readValue f = some (some word, g) := by
  rw [readValue, next]
  split
  · rename_i sign
    cases sign
    exact absurd rfl plain
  · rfl

theorem readParam_meets (sec : ConfigSection) (name f : Text) :
    Meets (readParam registered sec name world >>= fun w => pure (.inl (some sec, w))) f
      (follow registered world (SimConfig.readParam sec name f)) := by
  rw [readParam, SimConfig.readParam]
  cases lookupParam sec name with
  | none => exact line_meets (some sec) f
  | some param =>
    dsimp only
    by_cases plain : param.type = .none
    · rw [if_pos plain, if_pos plain]
      exact call_meets _ (some sec) f
    · rw [if_neg plain, if_neg plain, bind_assoc]
      have lexeme := nextLexeme_comes f
      rcases next : SimConfig.nextLexeme f with _ | ⟨_ | word, g⟩
      · rw [next] at lexeme
        rw [readValue, next]
        exact lexeme.bind_exits
      · rw [next] at lexeme
        rw [readValue, next]
        exact Meets.step lexeme (line_meets (some sec) g)
      · rw [next] at lexeme
        refine Meets.step lexeme ?_
        dsimp only
        by_cases sign : word = ['=']
        · subst sign
          have value := nextLexeme_comes g
          rw [if_pos rfl, bind_assoc, readValue_sign next]
          rcases second : SimConfig.nextLexeme g with _ | ⟨_ | text, k⟩
          · rw [second] at value
            exact value.bind_exits
          · rw [second] at value
            exact Meets.step value (line_meets (some sec) k)
          · rw [second] at value
            exact Meets.step value (call_meets _ (some sec) k)
        · rw [if_neg sign, readValue_plain next sign]
          exact call_meets _ (some sec) g

theorem fileRound_meets (secs : List ConfigSection) (cur : Option ConfigSection) (f : Text) :
    Meets (fileRound registered secs (cur, world)) f (step registered secs cur world f) := by
  have lexeme := nextLexeme_comes f
  rw [fileRound, Stdio.step, readStep]
  rcases next : SimConfig.nextLexeme f with _ | ⟨_ | word, g⟩
  · rw [next] at lexeme
    exact lexeme.bind_exits
  · rw [next] at lexeme
    exact ⟨g, lexeme.step (comes_pure _ _)⟩
  · rw [next] at lexeme
    refine Meets.step lexeme ?_
    dsimp only
    cases cur with
    | none =>
      dsimp only
      by_cases start : word = wordSection
      · rw [if_pos start, if_pos start]
        exact startSection_meets secs g
      · rw [if_neg start, if_neg start]
        exact line_meets none g
    | some sec =>
      dsimp only
      by_cases last : word = wordEnd
      · rw [if_pos last, if_pos last]
        exact callIf_meets sec.secEnd (.secEnd sec.name) none g
      · rw [if_neg last, if_neg last]
        exact readParam_meets sec word g

/-- An iteration that goes on leaves less of the file. -/
theorem step_lt {secs : List ConfigSection} {cur next : Option ConfigSection} {world' : ω} {f g : Text} {calls : List Call}
    (went : step registered secs cur world f = (calls, .go next world' g)) : g.length < f.length := by
  rw [Stdio.step, follow] at went
  rcases plain : readStep secs cur f with ⟨told, ⟨next', k⟩ | e⟩
  · rw [plain] at went
    dsimp only at went
    have same : k = g := by
      split at went
      · cases went
      · cases went
      · cases went
        rfl
    exact same ▸ readStep_lt plain
  · rw [plain] at went
    dsimp only at went
    split at went <;> cases went

end

section
variable {ω : Type} (registered : Registered ω) (secs : List ConfigSection)

/-- What the loop over the file comes to, in at most `n` iterations. -/
def endFrom : Nat → Option ConfigSection → ω → Text → List Call × Ending
  | 0, _, _, _ => ([], .hangs)
  | n + 1, cur, world, f =>
    match step registered secs cur world f with
    | (calls, .ended e) => (calls, e)
    | (calls, .go cur world f) =>
      let (more, e) := endFrom n cur world f
      (calls ++ more, e)

/-- An iteration reads, so that there are no more of them than characters. -/
def endOn (cur : Option ConfigSection) (world : ω) (f : Text) : List Call × Ending := endFrom registered secs (f.length + 1) cur world f

variable {registered secs}

theorem endFrom_eq {n : Nat} {cur : Option ConfigSection} {world : ω} {f : Text} (enough : f.length < n) :
    endFrom registered secs n cur world f = endOn registered secs cur world f := by
  suffices any : ∀ k m : Nat, ∀ cur (world : ω) (f : Text), f.length < k → f.length < m →
      endFrom registered secs k cur world f = endFrom registered secs m cur world f from
    any n _ cur world f enough (Nat.lt_succ_self _)
  intro k
  induction k with
  | zero => intro m cur world f few; omega
  | succ k ih =>
    intro m cur world f few fewer
    cases m with
    | zero => omega
    | succ m =>
      rw [endFrom, endFrom]
      rcases went : step registered secs cur world f with ⟨calls, ⟨next, world', g⟩ | e⟩
      · have less := step_lt went
        dsimp only
        rw [ih m next world' g (by omega) (by omega)]
      · rfl

theorem endOn_cases (cur : Option ConfigSection) (world : ω) (f : Text) :
    endOn registered secs cur world f =
      match step registered secs cur world f with
      | (calls, .ended e) => (calls, e)
      | (calls, .go next world g) => (calls ++ (endOn registered secs next world g).1, (endOn registered secs next world g).2) := by
  rw [endOn, endFrom]
  rcases went : step registered secs cur world f with ⟨calls, ⟨next, world', g⟩ | e⟩
  · have less := step_lt went
    dsimp only
    rw [endFrom_eq less]
  · rfl

/-- What the loop over the file comes to. -/
def FileMeets (p : Read Unit) (f : Text) (r : List Call × Ending) : Prop :=
  match r.2 with
  | .done => ∃ g, Comes p f r.1 (.returns () g)
  | .exits => Comes p f r.1 .exits
  | .hangs => Comes p f r.1 .hangs

theorem file_meets (cur : Option ConfigSection) (world : ω) (f : Text) :
    FileMeets (loop (fileRound registered secs) (cur, world)) f (endOn registered secs cur world f) := by
  have pays (r : Option ConfigSection × ω) : Pays (fileRound registered secs r) := (spends_file secs r).pays
  induction len : f.length using Nat.strong_induction_on generalizing cur world f with
  | _ n ih =>
    have round : Meets (fileRound registered secs (cur, world)) f (step registered secs cur world f) := fileRound_meets secs cur f
    rw [endOn_cases]
    rcases went : step registered secs cur world f with ⟨calls, ⟨next, world', g⟩ | _ | _ | _⟩
    · rw [went] at round
      have rest := ih g.length (by rw [← len]; exact step_lt went) next world' g rfl
      dsimp only
      rcases more : endOn registered secs next world' g with ⟨told, _ | _ | _⟩
      · rw [more] at rest
        obtain ⟨k, rest⟩ := rest
        exact ⟨k, Comes.loop_on pays round rest⟩
      · rw [more] at rest
        exact Comes.loop_on pays round rest
      · rw [more] at rest
        exact Comes.loop_on pays round rest
    · rw [went] at round
      obtain ⟨k, round⟩ := round
      exact ⟨k, Comes.loop_returns pays round⟩
    · rw [went] at round
      exact Comes.loop_exits pays round
    · rw [went] at round
      exact Comes.loop_hangs pays round

/-! ### Functions that return -/

theorem performAll_returns {make : Call → ω → ω} (returns : ∀ call world, registered call world = .returns (make call world))
    (calls : List Call) (world : ω) : performAll registered calls world = .returns (calls.foldl (fun w c => make c w) world) := by
  induction calls generalizing world with
  | nil => rfl
  | cons call more ih =>
    rw [performAll, returns]
    exact ih _

theorem endOn_returns {make : Call → ω → ω} (returns : ∀ call world, registered call world = .returns (make call world))
    (cur : Option ConfigSection) (world : ω) (f : Text) : endOn registered secs cur world f = readOn secs cur f := by
  induction len : f.length using Nat.strong_induction_on generalizing cur world f with
  | _ n ih =>
    rw [endOn_cases, readOn_cases, step, follow, performAll_returns returns]
    rcases plain : readStep secs cur f with ⟨calls, ⟨next, g⟩ | e⟩
    · dsimp only
      rw [ih g.length (by rw [← len]; exact readStep_lt plain) next _ g rfl]
    · rfl

/-- When all functions return, a file that is read a character at a time comes to what the reader of texts makes of it. -/
theorem readScriptFile_meets {make : Call → ω → ω}
    (returns : ∀ call world, registered call world = .returns (make call world)) (world : ω) (f : Text) : FileMeets (readScriptFile registered secs world) f (SimConfig.readScriptFile secs f) := by
  have meets : FileMeets (readScriptFile registered secs world) f (endOn registered secs none world f) := file_meets none world f
  rwa [endOn_returns returns] at meets

end

/-! ### Files that are read to an end -/

/-- What is left where an iteration skips the rest of a line: behind a text outside of a section, behind a parameter that
is not known, or behind one that has no value. -/
def lineSkipped (cur : Option ConfigSection) (f : Text) : Option Text :=
  match SimConfig.nextLexeme f with
  | some (some lexeme, f) =>
    match cur with
    | none => if lexeme = wordSection then none else some f
    | some sec =>
      if lexeme = wordEnd then none
      else
        match lookupParam sec lexeme with
        | none => some f
        | some param =>
          if param.type = .none then none
          else
            match readValue f with
            | some (none, f) => some f
            | _ => none
  | _ => none

section
variable {ω : Type} (registered : Registered ω) (secs : List ConfigSection) (initial : ω) (file : Text)

/-- The iterations over a file that are come to, with the simulator and what is left at each. -/
inductive Iterates : Option ConfigSection → ω → Text → Prop where
  | start : Iterates none initial file
  | next {cur next : Option ConfigSection} {world world' : ω} {f g : Text} {calls : List Call} (before : Iterates cur world f)
      (went : step registered secs cur world f = (calls, .go next world' g)) : Iterates next world' g

/-- Where an iteration skips a line, the line has an end. -/
def LinesEnd : Prop :=
  ∀ cur world f rest, Iterates registered secs initial file cur world f → lineSkipped cur f = some rest → '\n' ∈ rest

/-- The functions that an iteration calls return or exit. -/
def CallsEnd : Prop :=
  ∀ cur world f, Iterates registered secs initial file cur world f → performAll registered (readStep secs cur f).1 world ≠ .never

end

theorem skipLine_none {f : Text} : SimConfig.skipLine f = none ↔ '\n' ∉ f := by
  induction f with
  | nil => exact iff_of_true rfl List.not_mem_nil
  | cons c f ih =>
    unfold SimConfig.skipLine
    by_cases newline : c = '\n'
    · subst newline
      exact iff_of_false (Option.some_ne_none f) fun absent => absent List.mem_cons_self
    · rw [if_neg newline, ih, List.mem_cons, not_or]
      exact ⟨fun absent => ⟨Ne.symm newline, absent⟩, And.right⟩

theorem afterLine_hangs {cur : Option ConfigSection} {f : Text} : afterLine cur f = .ended .hangs ↔ '\n' ∉ f := by
  rw [← skipLine_none, afterLine]
  cases SimConfig.skipLine f with
  | none => exact iff_of_true rfl rfl
  | some g => exact iff_of_false nofun nofun

theorem skipSection_ends {n : Nat} {f : Text} (enough : f.length < n) : skipSection n f ≠ .ended .hangs := by
  induction n generalizing f with
  | zero => omega
  | succ n ih =>
    rw [skipSection]
    rcases next : SimConfig.nextLexeme f with _ | ⟨_ | word, g⟩
    · nofun
    · nofun
    · have shorter := nextLexeme_lt next
      dsimp only
      split
      · nofun
      · exact ih (by omega)

theorem startSection_ends (secs : List ConfigSection) (f : Text) : (SimConfig.startSection secs f).2 ≠ .ended .hangs := by
  rw [SimConfig.startSection]
  rcases SimConfig.nextLexeme f with _ | ⟨_ | name, g⟩
  · nofun
  · nofun
  · dsimp only
    cases lookupSection secs name with
    | some sec => nofun
    | none => exact skipSection_ends (Nat.lt_succ_self g.length)

theorem hangs_there {cur : Option ConfigSection} {f : Text} :
    afterLine cur f = .ended .hangs ↔ ∃ rest, some f = some rest ∧ '\n' ∉ rest := by
  rw [afterLine_hangs]
  constructor
  · exact fun absent => ⟨f, rfl, absent⟩
  · rintro ⟨rest, same, absent⟩
    cases same
    exact absent

theorem hangs_nowhere {n : Next} (ends : n ≠ .ended .hangs) :
    n = .ended .hangs ↔ ∃ rest, (none : Option Text) = some rest ∧ '\n' ∉ rest := by
  refine iff_of_false ends ?_
  rintro ⟨rest, none, -⟩
  cases none

/-- An iteration hangs exactly in a line without an end. -/
theorem readStep_hangs (secs : List ConfigSection) (cur : Option ConfigSection) (f : Text) :
    (readStep secs cur f).2 = .ended .hangs ↔ ∃ rest, lineSkipped cur f = some rest ∧ '\n' ∉ rest := by
  rw [readStep, lineSkipped]
  rcases SimConfig.nextLexeme f with _ | ⟨_ | word, g⟩
  · exact hangs_nowhere nofun
  · exact hangs_nowhere nofun
  · cases cur with
    | none =>
      dsimp only
      by_cases start : word = wordSection
      · rw [if_pos start, if_pos start]
        exact hangs_nowhere (startSection_ends secs g)
      · rw [if_neg start, if_neg start]
        exact hangs_there
    | some sec =>
      dsimp only
      by_cases last : word = wordEnd
      · rw [if_pos last, if_pos last]
        exact hangs_nowhere nofun
      · rw [if_neg last, if_neg last, SimConfig.readParam]
        cases lookupParam sec word with
        | none => exact hangs_there
        | some param =>
          dsimp only
          by_cases plain : param.type = .none
          · rw [if_pos plain, if_pos plain]
            exact hangs_nowhere nofun
          · rw [if_neg plain, if_neg plain]
            rcases readValue g with _ | ⟨_ | value, k⟩
            · exact hangs_nowhere nofun
            · exact hangs_there
            · exact hangs_nowhere nofun

/-- An iteration that is the last one calls nothing. -/
theorem readStep_last {secs : List ConfigSection} {cur : Option ConfigSection} {f : Text} {e : Ending}
    (last : (readStep secs cur f).2 = .ended e) : (readStep secs cur f).1 = [] := by
  have silent {r : List Call × Next} (nothing : r.1 = [] ∨ ∃ cur g, r.2 = .go cur g) (ended : r.2 = .ended e) : r.1 = [] :=
    nothing.elim id fun ⟨cur, g, goes⟩ => by
      rw [goes] at ended
      cases ended
  refine silent ?_ last
  rw [readStep]
  rcases SimConfig.nextLexeme f with _ | ⟨_ | word, g⟩
  · exact .inl rfl
  · exact .inl rfl
  · cases cur with
    | none =>
      dsimp only
      split
      · rw [SimConfig.startSection]
        rcases SimConfig.nextLexeme g with _ | ⟨_ | name, k⟩
        · exact .inl rfl
        · exact .inl rfl
        · dsimp only
          cases lookupSection secs name with
          | some sec => exact .inr ⟨some sec, k, rfl⟩
          | none => exact .inl rfl
      · exact .inl rfl
    | some sec =>
      dsimp only
      split
      · exact .inr ⟨none, g, rfl⟩
      · rw [SimConfig.readParam]
        cases lookupParam sec word with
        | none => exact .inl rfl
        | some param =>
          dsimp only
          split
          · exact .inr ⟨some sec, g, rfl⟩
          · rcases readValue g with _ | ⟨_ | value, k⟩
            · exact .inl rfl
            · exact .inl rfl
            · exact .inr ⟨some sec, k, rfl⟩

section
variable {ω : Type} {registered : Registered ω} {secs : List ConfigSection} {initial world : ω} {file f : Text}
    {cur : Option ConfigSection}

/-- An iteration hangs in a line without an end, or in a function that it calls. -/
theorem step_hangs : (step registered secs cur world f).2 = .ended .hangs ↔
    (∃ rest, lineSkipped cur f = some rest ∧ '\n' ∉ rest) ∨ performAll registered (readStep secs cur f).1 world = .never := by
  rw [← readStep_hangs secs, step, follow]
  constructor
  · intro hangs
    dsimp only at hangs
    split at hangs
    · cases hangs
    · rename_i never
      exact .inr never
    · split at hangs
      · cases hangs
      · rename_i next ended
        cases hangs
        exact .inl ended
  · rintro (line | never)
    · rw [readStep_last line, line]
      rfl
    · dsimp only
      rw [never]

/-- What becomes of a file is what becomes of it from any iteration on. -/
theorem Iterates.ending (there : Iterates registered secs initial file cur world f) :
    (endOn registered secs none initial file).2 = (endOn registered secs cur world f).2 := by
  induction there with
  | start => rfl
  | next before went ih => rw [ih, endOn_cases, went]

theorem Iterates.hangs (there : Iterates registered secs initial file cur world f)
    (hangs : (endOn registered secs cur world f).2 = .hangs) :
    ∃ cur world g, Iterates registered secs initial file cur world g ∧ (step registered secs cur world g).2 = .ended .hangs := by
  induction len : f.length using Nat.strong_induction_on generalizing cur world f with
  | _ n ih =>
    rw [endOn_cases] at hangs
    rcases went : step registered secs cur world f with ⟨calls, ⟨next, world', g⟩ | e⟩
    · rw [went] at hangs
      exact ih g.length (by rw [← len]; exact step_lt went) (there.next went) hangs rfl
    · rw [went] at hangs
      exact ⟨cur, world, f, there, by rw [went]; exact congrArg Following.ended hangs⟩

theorem Iterates.all_hang (there : Iterates registered secs initial file cur world f)
    (hangs : (step registered secs cur world f).2 = .ended .hangs) : (endOn registered secs none initial file).2 = .hangs := by
  rw [there.ending, endOn_cases]
  rcases went : step registered secs cur world f with ⟨calls, ⟨next, world', g⟩ | e⟩
  · rw [went] at hangs
    cases hangs
  · rw [went] at hangs
    cases hangs
    rfl

theorem endOn_hangs : (endOn registered secs none initial file).2 = .hangs ↔
    ¬ (LinesEnd registered secs initial file ∧ CallsEnd registered secs initial file) := by
  constructor
  · rintro hangs ⟨lines, calls⟩
    obtain ⟨cur, world, f, there, stuck⟩ := Iterates.start.hangs hangs
    obtain ⟨rest, skips, absent⟩ | never := step_hangs.mp stuck
    · exact absent (lines cur world f rest there skips)
    · exact calls cur world f there never
  · intro unended
    by_contra ends
    refine unended ⟨fun cur world f rest there skips => ?_, fun cur world f there never => ?_⟩
    · by_contra absent
      exact ends (there.all_hang (step_hangs.mpr (.inl ⟨rest, skips, absent⟩)))
    · exact ends (there.all_hang (step_hangs.mpr (.inr never)))

theorem FileMeets.terminates_iff {p : Read Unit} {f : Text} {r : List Call × Ending} (meets : FileMeets p f r) :
    Terminates p f ↔ r.2 ≠ .hangs := by
  rcases r with ⟨calls, _ | _ | _⟩
  · obtain ⟨g, comes⟩ := meets
    exact iff_of_true comes.terminates nofun
  · exact iff_of_true (Comes.exit_terminates meets) nofun
  · exact iff_of_false (Comes.not_terminates meets) fun other => other rfl

/-- With enough reads `read_script_file` returns or exits, exactly if each line that it comes to skip has an end and the functions that
it calls return or exit. -/
theorem terminates_iff_lines_end (registered : Registered ω) (secs : List ConfigSection) (initial : ω) (file : Text) :
    Terminates (readScriptFile registered secs initial) file ↔ LinesEnd registered secs initial file ∧
      CallsEnd registered secs initial file := by
  have meets : FileMeets (readScriptFile registered secs initial) file (endOn registered secs none initial file) :=
    file_meets none initial file
  rw [meets.terminates_iff, Ne, endOn_hangs, not_not]

end

/-- A parameter without a value, at the end of a file that ends with a newline. -/
theorem missing_value_hangs :
    ¬ Terminates (readScriptFile (fun _ => .returns) [⟨['s', 'i', 'm'], false, false, [⟨['d', 'e', 'b', 'u', 'g'], .int⟩]⟩] ())
      "section sim\n  debug\n".toList := by
  rw [(readScriptFile_meets (fun _ _ => rfl) _ _).terminates_iff]
  decide +kernel

end Or1ksim.SimConfig.Stdio
