import Or1ksim.SimConfig.Script

/-!
# What a configuration file means

A file is a list of sections, with words, white space and comments; its meaning is the list of calls that it asks for.
-/

namespace Or1ksim.SimConfig

/-! ### Words and the gaps between them -/

/-- A word of the grammar: it is not a string, and does not start a comment. -/
structure Word where
  text : Text
  nonempty : text ≠ []
  solid : ∀ c ∈ text, isspace c = false ∧ c ≠ '\x00'
  unquoted : text.head? ≠ some '"'
  noComment : startsComment text = false
  short : text.length < strSize - 1

/-- The text of a string in quotes. -/
structure Quoted where
  text : Text
  closed : ∀ c ∈ text, c ≠ '"' ∧ c ≠ '\x00'
  short : text.length < strSize - 1

/-- Whether a comment ends inside a text that follows `c`. -/
def closes : Char → Text → Bool
  | _, [] => false
  | c, d :: l => (c = '*' && d = '/') || closes d l

structure Comment where
  body : Text
  open_ : closes '\x00' body = false

inductive Piece where
  | space (c : Char) (is : isspace c = true)
  | comment (comment : Comment)

abbrev Gap := List Piece

def Piece.render : Piece → Text
  | .space c _ => [c]
  | .comment k => '/' :: '*' :: k.body ++ ['*', '/']

def Gap.render (g : Gap) : Text := g.flatMap Piece.render

/-- A gap that ends a word. -/
def Gap.Spaced : Gap → Prop
  | .space _ _ :: _ => True
  | _ => False

/-! ### Sections -/

inductive Value where
  | plain (word : Word)
  | quoted (quoted : Quoted)

def Value.text : Value → Text
  | .plain w => w.text
  | .quoted q => q.text

def Value.render : Value → Text
  | .plain w => w.text
  | .quoted q => '"' :: q.text ++ ['"']

/-- A word ends at white space, and a string at its quote. -/
def Value.Ends : Value → Gap → Prop
  | .plain _, g => g.Spaced
  | .quoted _, _ => True

/-- `name [=] value`, with the gap behind it. A plain value is not the sign itself, unless it stands behind one. -/
structure Param where
  name : Word
  notEnd : name.text ≠ wordEnd
  before : Gap
  beforeSpaced : before.Spaced
  sign : Option { g : Gap // g.Spaced }
  value : Value
  notSign : sign = none → ∀ w, value = .plain w → w.text ≠ ['=']
  after : Gap
  ends : value.Ends after

def Param.renderSign (p : Param) : Text :=
  match p.sign with
  | none => []
  | some g => '=' :: g.val.render

/-- What follows the name. -/
def Param.render (p : Param) : Text := p.before.render ++ (p.renderSign ++ (p.value.render ++ p.after.render))

structure Section where
  gap : Gap
  gapSpaced : gap.Spaced
  name : Word
  before : Gap
  beforeSpaced : before.Spaced
  params : List Param

def renderParams (ps : List Param) : Text := ps.flatMap fun p => p.name.text ++ p.render

def Section.render (s : Section) : Text :=
  wordSection ++ (s.gap.render ++ (s.name.text ++ (s.before.render ++ (renderParams s.params ++ wordEnd))))

/-- Sections with white space between them. Behind the last one nothing need follow. -/
inductive Sections where
  | nil
  | last (s : Section)
  | cons (s : Section) (gap : Gap) (spaced : gap.Spaced) (rest : Sections)

def Sections.render : Sections → Text
  | .nil => []
  | .last s => s.render
  | .cons s gap _ rest => s.render ++ (gap.render ++ rest.render)

structure File where
  gap : Gap
  sections : Sections

def File.render (f : File) : Text := f.gap.render ++ f.sections.render

/-! ### The meaning -/

section
variable (secs : List ConfigSection)

def Param.calls (sec : ConfigSection) (p : Param) : List Call :=
  match lookupParam sec p.name.text with
  | none => []
  | some param => [.set sec.name param.name param.type (some p.value.text)]

def Section.calls (s : Section) : List Call :=
  match lookupSection secs s.name.text with
  | none => []
  | some sec =>
    (if sec.secStart then [.secStart sec.name] else []) ++ s.params.flatMap (Param.calls sec) ++ if sec.secEnd
      then [.secEnd sec.name] else []

def Sections.calls : Sections → List Call
  | .nil => []
  | .last s => s.calls secs
  | .cons s _ _ rest => s.calls secs ++ rest.calls

def File.calls (f : File) : List Call := f.sections.calls secs

end

/-! ### What the reader can read -/

/-- The first word of a comment ends before the comment does, and fits the buffer. -/
def Comment.Readable (c : Comment) : Prop := c.body.any isspace = true ∧ (c.body.takeWhile (!isspace ·)).length + 2 < strSize - 1

def Piece.Readable : Piece → Prop
  | .space _ _ => True
  | .comment k => k.Readable

def Gap.Readable (g : Gap) : Prop := ∀ piece ∈ g, piece.Readable

/-- What is left of a gap behind the end of its first line, when no comment goes over it. -/
def Gap.nextLine : Gap → Option Gap
  | [] => none
  | .space c _ :: g => if c = '\n' then some g else nextLine g
  | .comment k :: g => if '\n' ∈ k.body then none else nextLine g

/-- The line ends in the gap, and what is left can be read. -/
def Gap.Ends (g : Gap) : Prop := ∃ rest, g.nextLine = some rest ∧ rest.Readable

/-- A string that is read as a value: it is not empty, does not look like a comment, and white space follows, of which a
character is lost. -/
def Quoted.Readable (q : Quoted) (after : Gap) : Prop :=
  q.text ≠ [] ∧ startsComment q.text = false ∧ ∃ c is rest, after = .space c is :: rest

def Param.signReadable (p : Param) : Prop :=
  match p.sign with
  | none => p.value.text ≠ ['=']
  | some g => Gap.Readable g.val

/-- A parameter of a known section that is registered, with a type that has a value. -/
structure Param.Readable (p : Param) (param : ConfigParam) : Prop where
  type : param.type ≠ .none
  before : p.before.Readable
  sign : p.signReadable
  value : ∀ q, p.value = .quoted q → q.Readable p.after
  after : p.after.Readable

/-- A parameter that is skipped: nothing goes over the end of its line. -/
structure Param.Skippable (p : Param) : Prop where
  before : '\n' ∉ p.before.render
  sign : '\n' ∉ p.renderSign
  value : '\n' ∉ p.value.render
  after : p.after.Ends

/-- The first parameter of a section that is not known: its name is read, and what follows is skipped with the line. -/
structure Param.SkippableFirst (p : Param) : Prop where
  before : p.before.Readable
  value : '\n' ∉ p.value.render
  after : p.after.Ends
  sign : match p.sign with
    | some g => '\n' ∉ Gap.render g.val
    | none => p.value.text ≠ wordSection ∧ ∀ q, p.value = .quoted q → q.text ≠ [] ∧ startsComment q.text = false ∧
        p.after.render.head? ≠ some '\n'

def Param.Fits (sec : ConfigSection) (p : Param) : Prop :=
  match lookupParam sec p.name.text with
  | none => p.Skippable
  | some param => p.Readable param

/-- A section that is not known has a parameter, and its lines do not start another section. -/
def skipped : List Param → Prop
  | [] => False
  | p :: ps => p.SkippableFirst ∧ ∀ q ∈ ps, q.name.text ≠ wordSection ∧ q.Skippable

structure Section.Readable (secs : List ConfigSection) (s : Section) : Prop where
  gap : s.gap.Readable
  before : s.before.Readable
  params : match lookupSection secs s.name.text with
    | none => skipped s.params
    | some sec => ∀ p ∈ s.params, p.Fits sec

/-- Behind a section that is not known the line ends. -/
def Sections.Readable (secs : List ConfigSection) : Sections → Prop
  | .nil => True
  | .last s => s.Readable secs ∧ (lookupSection secs s.name.text).isSome = true
  | .cons s gap _ rest =>
    s.Readable secs ∧ (match lookupSection secs s.name.text with
      | none => gap.Ends
      | some _ => gap.Readable) ∧ rest.Readable secs

structure File.Readable (secs : List ConfigSection) (f : File) : Prop where
  gap : f.gap.Readable
  sections : f.sections.Readable secs

end Or1ksim.SimConfig
