import Or1ksim.Lib.Reads
import Or1ksim.SimConfig.Reading

/-!
# The reader of configuration files, a character at a time

The loops of `next_word`, `next_lexeme` and `read_script_file` as they call `fgetc`. At every text they come to what the
functions on texts say of it.
-/

namespace Or1ksim.SimConfig.Stdio

open Reads

abbrev Read := Reader Char Call

/-! ### Words -/

def spaceRound (_ : Unit) : Read (Unit ⊕ Option Char) := do
  let c ← fgetc
  pure (if c.any isspace then .inl () else .inr c)

/-- A round of the loop over a string, with its characters so far and the next one. -/
def stringRound (r : Text × Option Char) : Read (Text × Option Char ⊕ Text × Option Char) :=
  if r.1.length < strSize - 1 then
    if r.2 = some '"' then do
      let c ← fgetc
      pure (.inr (r.1, c))
    else
      match r.2 with
      | none => exit
      | some c => do
        let next ← fgetc
        pure (.inl (r.1 ++ [c], next))
  else pure (.inr r)

def wordRound (r : Text × Option Char) : Read (Text × Option Char ⊕ Text × Option Char) :=
  if r.1.length < strSize - 1 then
    match r.2 with
    | none => pure (.inr r)
    | some c =>
      if isspace c then pure (.inr r)
      else do
        let next ← fgetc
        pure (.inl (r.1 ++ [c], next))
  else pure (.inr r)

/-- The characters of a word that begins with `c`, and the character that is put back. -/
def scanWord (c : Option Char) : Read (Text × Option Char) :=
  if c = some '"' then do
    let c ← fgetc
    let r ← loop stringRound ([], c)
    let c ← fgetc
    pure (r.1, c)
  else loop wordRound ([], c)

/-- `next_word`; `none` is the null pointer. -/
def nextWord : Read (Option Text) := do
  let c ← loop spaceRound ()
  let r ← scanWord c
  if r.1.length = strSize - 1 then exit
  else do
    ungetc r.2
    pure (scanned r.1)

/-! ### Lexemes -/

/-- A round of the search for the end of a comment, with `c0` and `c1`. The end of the file is a `char` there. -/
def commentRound (c : Char × Char) : Read (Char × Char ⊕ Unit) :=
  if c.1 = '*' && c.2 = '/' then pure (.inr ())
  else do
    let c1 ← fgetc
    if ← feof then exit
    else pure (.inl (c.2, c1.getD '\xff'))

def lexemeRound (lexeme : Text) : Read (Text ⊕ Option Text) :=
  if startsComment lexeme then do
    loop commentRound ('\x00', '\x00')
    match ← nextWord with
    | none => pure (.inr none)
    | some lexeme => pure (.inl lexeme)
  else pure (.inr (some lexeme))

def nextLexeme : Read (Option Text) := do
  match ← nextWord with
  | none => pure none
  | some lexeme => loop lexemeRound lexeme

/-! ### The file -/

/-- `while (( '\n' != fgetc (f)) || feof (f))` -/
def lineRound (_ : Unit) : Read (Unit ⊕ Unit) := do
  let c ← fgetc
  let ended ← feof
  pure (if c ≠ some '\n' || ended then .inl () else .inr ())

def skipLine : Read Unit := loop lineRound ()

/-- A round of the loop over a section that is not known. -/
def unknownRound (_ : Unit) : Read (Unit ⊕ Unit) := do
  match ← nextLexeme with
  | none => pure (.inr ())
  | some lexeme => pure (if lexeme ≠ wordEnd then .inr () else .inl ())

/-- What becomes of a registered function that is called: it returns what it has made of the simulator, it exits, or it never returns. -/
inductive Act (ω : Type) where
  | returns (world : ω)
  | exits
  | never

/-- The functions that are registered for the sections and parameters. -/
abbrev Registered (ω : Type) := Call → ω → Act ω

section
variable {ω : Type} (registered : Registered ω)

def perform (call : Call) (world : ω) : Read ω := do
  tell call
  match registered call world with
  | .returns world => pure world
  | .exits => exit
  | .never => hang

def performIf (has : Bool) (call : Call) (world : ω) : Read ω := if has then perform registered call world else pure world

def startSection (secs : List ConfigSection) (world : ω) : Read (Option ConfigSection × ω) := do
  match ← nextLexeme with
  | none => exit
  | some name =>
    match lookupSection secs name with
    | some sec => do
      let world ← performIf registered sec.secStart (.secStart sec.name) world
      pure (some sec, world)
    | none => do
      loop unknownRound ()
      pure (none, world)

/-- The rest of the line is skipped, and nothing is set. -/
def ignored (world : ω) : Read ω := do
  skipLine
  pure world

def readParam (sec : ConfigSection) (name : Text) (world : ω) : Read ω :=
  match lookupParam sec name with
  | none => ignored world
  | some param =>
    if param.type = .none then perform registered (.set sec.name param.name param.type none) world
    else do
      match ← nextLexeme with
      | none => ignored world
      | some lexeme =>
        if lexeme = ['='] then do
          match ← nextLexeme with
          | none => ignored world
          | some value => perform registered (.set sec.name param.name param.type (some value)) world
        else perform registered (.set sec.name param.name param.type (some lexeme)) world

/-- A round of the loop of `read_script_file`, in a section or not. -/
def fileRound (secs : List ConfigSection) (r : Option ConfigSection × ω) : Read (Option ConfigSection × ω ⊕ Unit) := do
  match ← nextLexeme with
  | none => pure (.inr ())
  | some lexeme =>
    match r.1 with
    | none =>
      if lexeme = wordSection then do
        let started ← startSection registered secs r.2
        pure (.inl started)
      else do
        let world ← ignored r.2
        pure (.inl (none, world))
    | some sec =>
      if lexeme = wordEnd then do
        let world ← performIf registered sec.secEnd (.secEnd sec.name) r.2
        pure (.inl (none, world))
      else do
        let world ← readParam registered sec lexeme r.2
        pure (.inl (some sec, world))

def readScriptFile (secs : List ConfigSection) (world : ω) : Read Unit := loop (fileRound registered secs) (none, world)

end

/-! ### Every round reads -/

theorem spends_space (x : Unit) : Spends (spaceRound x) := spends_fgetc.bind fun _ => uses_pure _

theorem pays_space (x : Unit) : Pays (spaceRound x) := (spends_space x).pays

theorem pays_string (r : Text × Option Char) : Pays (stringRound r) := by
  unfold stringRound
  split
  · split
    · exact (spends_fgetc.bind fun _ => uses_pure _).pays
    · split
      · exact pays_exit
      · exact (spends_fgetc.bind fun _ => uses_pure _).pays
  · exact pays_last r

theorem pays_word (r : Text × Option Char) : Pays (wordRound r) := by
  unfold wordRound
  split
  · split
    · exact pays_last r
    · split
      · exact pays_last r
      · exact (spends_fgetc.bind fun _ => uses_pure _).pays
  · exact pays_last r

theorem uses_scanWord (c : Option Char) : Uses (scanWord c) := by
  unfold scanWord
  split
  · exact spends_fgetc.uses.bind fun _ => (uses_loop pays_string _).bind fun _ => spends_fgetc.uses.bind fun _ => uses_pure _
  · exact uses_loop pays_word _

theorem spends_nextWord : Spends nextWord := by
  refine (spends_loop spends_space ()).bind fun c => (uses_scanWord c).bind fun r => ?_
  split
  · exact uses_exit
  · exact (uses_ungetc _).bind fun _ => uses_pure _

theorem commentRound_eq (c0 c1 : Char) : commentRound (c0, c1) =
    if c0 = '*' && c1 = '/' then pure (.inr ())
    else fgetc >>= fun c => if c.isNone then exit else pure (.inl (c1, c.getD '\xff')) := by
  rw [commentRound]
  congr 1
  exact fgetc_feof fun c ended => if ended then exit else pure (Sum.inl (c1, c.getD '\xff'))

theorem pays_comment (c : Char × Char) : Pays (commentRound c) := by
  rw [commentRound_eq]
  split
  · exact pays_last ()
  · refine (spends_fgetc.bind fun c => ?_).pays
    split
    · exact uses_exit
    · exact uses_pure _

theorem pays_lexeme (lexeme : Text) : Pays (lexemeRound lexeme) := by
  unfold lexemeRound
  split
  · refine ((uses_loop pays_comment _).bind_spends fun _ => spends_nextWord.bind fun w => ?_).pays
    cases w with
    | none => exact uses_pure _
    | some w => exact uses_pure _
  · exact pays_last _

theorem spends_nextLexeme : Spends nextLexeme := by
  refine spends_nextWord.bind fun w => ?_
  cases w with
  | none => exact uses_pure _
  | some w => exact uses_loop pays_lexeme w

theorem lineRound_eq (x : Unit) : lineRound x =
    fgetc >>= fun c => pure (if c ≠ some '\n' || c.isNone then .inl () else .inr ()) :=
  fgetc_feof fun c ended => pure (if c ≠ some '\n' || ended then Sum.inl () else Sum.inr ())

theorem spends_line (x : Unit) : Spends (lineRound x) := by
  rw [lineRound_eq]
  exact spends_fgetc.bind fun _ => uses_pure _

theorem spends_unknown (x : Unit) : Spends (unknownRound x) := by
  refine spends_nextLexeme.bind fun w => ?_
  cases w with
  | none => exact uses_pure _
  | some w => exact uses_pure _

theorem uses_skipLine : Uses skipLine := uses_loop (fun x => (spends_line x).pays) ()

section
variable {ω : Type} {registered : Registered ω} {world : ω}

theorem uses_perform (call : Call) : Uses (perform registered call world) := by
  refine (uses_tell call).bind fun _ => ?_
  cases registered call world with
  | returns world => exact uses_pure world
  | exits => exact uses_exit
  | never => exact uses_hang

theorem uses_performIf (has : Bool) (call : Call) : Uses (performIf registered has call world) := by
  unfold performIf
  split
  · exact uses_perform call
  · exact uses_pure world

theorem uses_startSection (secs : List ConfigSection) : Uses (startSection registered secs world) := by
  refine spends_nextLexeme.uses.bind fun w => ?_
  cases w with
  | none => exact uses_exit
  | some name =>
    dsimp only
    split
    · exact (uses_performIf _ _).bind fun _ => uses_pure _
    · exact (uses_loop (fun x => (spends_unknown x).pays) ()).bind fun _ => uses_pure _

theorem uses_ignored : Uses (ignored world) := uses_skipLine.bind fun _ => uses_pure world

theorem uses_readParam (sec : ConfigSection) (name : Text) : Uses (readParam registered sec name world) := by
  unfold readParam
  split
  · exact uses_ignored
  · split
    · exact uses_perform _
    · refine spends_nextLexeme.uses.bind fun w => ?_
      cases w with
      | none => exact uses_ignored
      | some lexeme =>
        dsimp only
        split
        · refine spends_nextLexeme.uses.bind fun w => ?_
          cases w with
          | none => exact uses_ignored
          | some value => exact uses_perform _
        · exact uses_perform _

theorem spends_file (secs : List ConfigSection) (r : Option ConfigSection × ω) : Spends (fileRound registered secs r) := by
  obtain ⟨cur, world⟩ := r
  refine spends_nextLexeme.bind fun w => ?_
  cases w with
  | none => exact uses_pure _
  | some lexeme =>
    cases cur with
    | none =>
      dsimp only
      split
      · exact (uses_startSection secs).bind fun _ => uses_pure _
      · exact uses_ignored.bind fun _ => uses_pure _
    | some sec =>
      dsimp only
      split
      · exact (uses_performIf _ _).bind fun _ => uses_pure _
      · exact (uses_readParam sec lexeme).bind fun _ => uses_pure _

end

/-! ### What the words come to -/

theorem spaces_come (f : Text) :
    Comes (loop spaceRound ()) f [] (.returns (f.dropWhile isspace).head? (f.dropWhile isspace).tail) := by
  induction f with
  | nil => exact Comes.loop_returns pays_space (comes_fgetc_end.step (comes_pure _ _))
  | cons c f ih =>
    by_cases blank : isspace c
    · rw [List.dropWhile_cons_of_pos blank]
      refine Comes.loop_step pays_space ((comes_fgetc c f).step ?_) ih
      rw [Option.any_some, if_pos blank]
      exact comes_pure _ _
    · rw [List.dropWhile_cons_of_neg blank]
      refine Comes.loop_returns pays_space ((comes_fgetc c f).step ?_)
      rw [Option.any_some, if_neg blank]
      exact comes_pure _ _

/-- A loop that takes characters up to one that ends the word, while there is room. -/
structure Takes (stop : Char → Bool) (body : Text × Option Char → Read (Text × Option Char ⊕ Text × Option Char)) : Prop where
  pays : ∀ r, Pays (body r)
  takes : ∀ word c, word.length < strSize - 1 → stop c = false →
    body (word, some c) = fgetc >>= fun next => pure (.inl (word ++ [c], next))
  full : ∀ r, ¬ r.1.length < strSize - 1 → body r = pure (.inr r)

theorem takes_word : Takes isspace wordRound where
  pays := pays_word
  takes := fun word c room free => by
    rw [wordRound, if_pos room]
    show (if isspace c then _ else _) = _
    rw [if_neg (by simp [free])]
  full := fun r full => by rw [wordRound, if_neg full]

theorem takes_string : Takes (· = '"') stringRound where
  pays := pays_string
  takes := fun word c room free => by
    rw [stringRound, if_pos room, if_neg fun quote => of_decide_eq_false free (Option.some.inj quote)]
  full := fun r full => by rw [stringRound, if_neg full]

section Takes
variable {stop : Char → Bool} {body : Text × Option Char → Read (Text × Option Char ⊕ Text × Option Char)}

theorem Takes.come (loops : Takes stop body) {word taken rest : Text} {o : Outcome Char (Text × Option Char)}
    (free : ∀ c ∈ taken, stop c = false) (short : word.length + taken.length ≤ strSize - 1)
    (after : Comes (loop body (word ++ taken, rest.head?)) rest.tail [] o) :
    Comes (loop body (word, (taken ++ rest).head?)) (taken ++ rest).tail [] o := by
  induction taken generalizing word with
  | nil => rwa [List.append_nil] at after
  | cons c taken ih =>
    rw [List.length_cons] at short
    rw [List.append_cons] at after
    have onward := ih (fun d inside => free d (List.mem_cons_of_mem c inside))
      (by rw [List.length_append, List.length_singleton]; omega) after
    refine Comes.loop_step loops.pays ?_ onward
    rw [List.cons_append, List.head?_cons, loops.takes word c (by omega) (free c List.mem_cons_self)]
    exact (comes_fgetc_head (taken ++ rest)).step (comes_pure _ _)

/-- A word that does not fit fills the buffer. -/
theorem Takes.fill (loops : Takes stop body) {f : Text} (long : strSize - 1 ≤ (f.takeWhile (!stop ·)).length) :
    ∃ r g, Comes (loop body ([], f.head?)) f.tail [] (.returns r g) ∧ r.1.length = strSize - 1 := by
  have split : (f.takeWhile (!stop ·)).take (strSize - 1) ++
      ((f.takeWhile (!stop ·)).drop (strSize - 1) ++ f.dropWhile (!stop ·)) = f := by
    rw [← List.append_assoc, List.take_append_drop, List.takeWhile_append_dropWhile]
  have fits : ((f.takeWhile (!stop ·)).take (strSize - 1)).length = strSize - 1 := List.length_take_of_le long
  generalize (f.takeWhile (!stop ·)).drop (strSize - 1) ++ f.dropWhile (!stop ·) = rest at split
  have free : ∀ c ∈ (f.takeWhile (!stop ·)).take (strSize - 1), stop c = false := fun c inside => by
    simpa using List.mem_takeWhile_imp (List.mem_of_mem_take inside)
  generalize (f.takeWhile (!stop ·)).take (strSize - 1) = taken at split fits free
  subst split
  refine ⟨(taken, rest.head?), rest.tail, loops.come free ?_ (Comes.loop_returns loops.pays ?_), fits⟩
  · rw [List.length_nil, Nat.zero_add, fits]
  · rw [loops.full _ (by rw [List.nil_append, fits]; exact lt_irrefl _)]
    exact comes_pure _ _

/-- A word that fits is taken as a whole, and then the round behind it is taken. -/
theorem Takes.whole (loops : Takes stop body) {f : Text} {o : Outcome Char (Text × Option Char)}
    (short : (f.takeWhile (!stop ·)).length < strSize - 1)
    (after : Comes (loop body (f.takeWhile (!stop ·), (f.dropWhile (!stop ·)).head?)) (f.dropWhile (!stop ·)).tail [] o) :
    Comes (loop body ([], f.head?)) f.tail [] o := by
  have free : ∀ c ∈ f.takeWhile (!stop ·), stop c = false := fun c inside => by simpa using List.mem_takeWhile_imp inside
  have room : ([] : Text).length + (f.takeWhile (!stop ·)).length ≤ strSize - 1 := by
    rw [List.length_nil]
    omega
  have come := loops.come free room after
  rwa [List.takeWhile_append_dropWhile] at come

end Takes

theorem word_comes {f : Text} (short : (f.takeWhile (!isspace ·)).length < strSize - 1) :
    Comes (loop wordRound ([], f.head?)) f.tail []
      (.returns (f.takeWhile (!isspace ·), (f.dropWhile (!isspace ·)).head?) (f.dropWhile (!isspace ·)).tail) := by
  refine takes_word.whole short (Comes.loop_returns pays_word ?_)
  rw [wordRound, if_pos short]
  cases rest : f.dropWhile (!isspace ·) with
  | nil => exact comes_pure _ _
  | cons c g =>
    have blank : isspace c := by
      have := List.head?_dropWhile_not (!isspace ·) f
      rw [rest] at this
      simpa using this
    show Comes (if isspace c then _ else _) _ _ _
    rw [if_pos blank]
    exact comes_pure _ _

theorem not_quote : (fun c : Char => !decide (c = '"')) = fun c => decide (c ≠ '"') := by
  funext c
  rw [decide_not]

/-- Behind the closing quote of a string a character is read. -/
theorem string_comes {f g : Text} {q : Char} (short : (f.takeWhile (· ≠ '"')).length < strSize - 1)
    (closed : f.dropWhile (· ≠ '"') = q :: g) :
    Comes (loop stringRound ([], f.head?)) f.tail [] (.returns (f.takeWhile (· ≠ '"'), g.head?) g.tail) := by
  have quote : q = '"' := by
    have := List.head?_dropWhile_not (· ≠ '"') f
    rw [closed] at this
    simpa using this
  rw [← not_quote] at short closed ⊢
  refine takes_string.whole short (Comes.loop_returns pays_string ?_)
  rw [closed, quote, List.head?_cons, stringRound, if_pos short, if_pos rfl]
  exact (comes_fgetc_head g).step (comes_pure _ _)

theorem open_string_comes {f : Text} (short : (f.takeWhile (· ≠ '"')).length < strSize - 1)
    (opened : f.dropWhile (· ≠ '"') = []) : Comes (loop stringRound ([], f.head?)) f.tail [] .exits := by
  rw [← not_quote] at short opened
  refine takes_string.whole short (Comes.loop_exits pays_string ?_)
  rw [opened, stringRound, if_pos short, if_neg nofun]
  exact comes_exit _

theorem long_string_comes {f : Text} (long : strSize - 1 ≤ (f.takeWhile (· ≠ '"')).length) :
    ∃ r g, Comes (loop stringRound ([], f.head?)) f.tail [] (.returns r g) ∧ r.1.length = strSize - 1 := by
  rw [← not_quote] at long
  exact takes_string.fill long

/-- The outcome of a part that returns or exits. -/
def outcome {β : Type} : Option (β × Text) → Outcome Char β
  | none => .exits
  | some (b, f) => .returns b f

/-- The end of `next_word`: the last character is put back, if the word did not fill the buffer. -/
def finish (r : Text × Option Char) : Read (Option Text) :=
  if r.1.length = strSize - 1 then exit
  else do
    ungetc r.2
    pure (scanned r.1)

theorem finish_full {r : Text × Option Char} (full : r.1.length = strSize - 1) (f : Text) : Comes (finish r) f [] .exits := by
  rw [finish, if_pos full]
  exact comes_exit f

theorem finish_short {word : Text} (short : word.length < strSize - 1) (f : Text) :
    Comes (finish (word, f.head?)) f.tail [] (.returns (scanned word) f) := by
  rw [finish, if_neg (Nat.ne_of_lt short)]
  exact (comes_unget_head f).step (comes_pure _ _)

theorem word_finishes (f : Text) : Comes (loop wordRound ([], f.head?) >>= finish) f.tail []
    (outcome (if (f.takeWhile (!isspace ·)).length < strSize - 1 then
      some (scanned (f.takeWhile (!isspace ·)), f.dropWhile (!isspace ·)) else none)) := by
  split
  · rename_i short
    exact (word_comes short).step (finish_short short _)
  · rename_i long
    obtain ⟨r, g, comes, full⟩ := takes_word.fill (not_lt.mp long)
    exact comes.step (finish_full full g)

theorem string_finishes (f : Text) : Comes (loop stringRound ([], f.head?) >>= fun r => fgetc >>= fun c => finish (r.1, c)) f.tail []
    (outcome (match f.dropWhile (· ≠ '"') with
      | [] => none
      | _ :: g => if (f.takeWhile (· ≠ '"')).length < strSize - 1 then some (scanned (f.takeWhile (· ≠ '"')), g.tail) else none)) := by
  by_cases short : (f.takeWhile (· ≠ '"')).length < strSize - 1
  · cases rest : f.dropWhile (· ≠ '"') with
    | nil => exact (open_string_comes short rest).bind_exits
    | cons q g =>
      dsimp only
      rw [if_pos short]
      exact (string_comes short rest).step ((comes_fgetc_head g.tail).step (finish_short short g.tail))
  · obtain ⟨r, g, comes, full⟩ := long_string_comes (not_lt.mp short)
    have exits : Comes (loop stringRound ([], f.head?) >>= fun r => fgetc >>= fun c => finish (r.1, c)) f.tail [] .exits :=
      comes.step ((comes_fgetc_head g).step (finish_full (r := (r.1, g.head?)) full g.tail))
    cases f.dropWhile (· ≠ '"') with
    | nil => exact exits
    | cons q g =>
      dsimp only
      rw [if_neg short]
      exact exits

theorem scan_quote : (scanWord (some '"') >>= finish) =
    fgetc >>= fun c => loop stringRound ([], c) >>= fun r => fgetc >>= fun c => finish (r.1, c) := by
  rw [scanWord, if_pos rfl]
  simp only [bind_assoc, pure_bind]

theorem scan_word {c : Option Char} (word : c ≠ some '"') : scanWord c = loop wordRound ([], c) := by
  rw [scanWord, if_neg word]

theorem nextWord_comes (f : Text) : Comes nextWord f [] (outcome (SimConfig.nextWord f)) := by
  refine (spaces_come f).step ?_
  rw [SimConfig.nextWord]
  generalize f.dropWhile isspace = t
  show Comes (scanWord t.head? >>= finish) t.tail [] _
  split
  · rename_i t
    rw [List.head?_cons, scan_quote]
    exact (comes_fgetc_head t).step (string_finishes t)
  · rename_i word
    rw [scan_word]
    · exact word_finishes t
    · intro quote
      cases t with
      | nil => cases quote
      | cons c t =>
        cases quote
        exact word t rfl

end Or1ksim.SimConfig.Stdio
