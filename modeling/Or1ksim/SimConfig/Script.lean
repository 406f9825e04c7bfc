import Mathlib

/-!
# The reader of configuration files

`read_script_file` takes a file apart into words, and calls the functions that are registered for its sections and
parameters. What it prints is left out, and with it the line numbers.
-/

namespace Or1ksim.SimConfig

abbrev Text := List Char

def strSize : Nat := 256

/-- The white space of the C locale. -/
def isspace (c : Char) : Bool := c = ' ' || c = '\t' || c = '\n' || c = '\x0b' || c = '\x0c' || c = '\r'

/-- A string of C ends at its first null character. -/
def cstr (word : Text) : Text := word.takeWhile (· ≠ '\x00')

/-! ### Sections -/

inductive ParamType where
  | none | int | longlong | addr | word | str
  deriving DecidableEq, Repr

structure ConfigParam where
  name : Text
  type : ParamType
  deriving DecidableEq, Repr

/-- A section, with whether it has a `sec_start` and a `sec_end`. -/
structure ConfigSection where
  name : Text
  secStart : Bool
  secEnd : Bool
  params : List ConfigParam
  deriving DecidableEq, Repr

/-- The functions that are called: with the text of the value, where the parameter has one. -/
inductive Call where
  | secStart (sec : Text)
  | set (sec param : Text) (type : ParamType) (value : Option Text)
  | secEnd (sec : Text)
  deriving DecidableEq, Repr

def lookupSection (secs : List ConfigSection) (name : Text) : Option ConfigSection := secs.find? fun cur => cur.name = name

def lookupParam (sec : ConfigSection) (name : Text) : Option ConfigParam := sec.params.find? fun param => param.name = name

/-! ### Words -/

/-- The text of a word that was scanned; an empty one is the null pointer. -/
def scanned (word : Text) : Option Text := if word = [] then none else some (cstr word)

/-- `next_word`, with what is left of the file; `none` is `exit`. Behind the closing quote of a string a character is read
twice, and only the second is put back. -/
def nextWord (f : Text) : Option (Option Text × Text) :=
  match f.dropWhile isspace with
  | '"' :: f =>
    let word := f.takeWhile (· ≠ '"')
    match f.dropWhile (· ≠ '"') with
    | [] => none
    | _ :: f => if word.length < strSize - 1 then some (scanned word, f.tail) else none
  | f =>
    let word := f.takeWhile (!isspace ·)
    if word.length < strSize - 1 then some (scanned word, f.dropWhile (!isspace ·)) else none

/-- The search for the end of a comment, after `c0` and `c1`. -/
def skipComment (c0 c1 : Char) (f : Text) : Option Text :=
  if c0 = '*' && c1 = '/' then some f
  else
    match f with
    | [] => none
    | c :: f => skipComment c1 c f

def startsComment : Text → Bool
  | '/' :: '*' :: _ => true
  | _ => false

/-- `next_lexeme`, for at most `n` words. -/
def lexemeFrom : Nat → Text → Option (Option Text × Text)
  | 0, _ => none
  | n + 1, f =>
    match nextWord f with
    | none => none
    | some (none, f) => some (none, f)
    | some (some lexeme, f) => if startsComment lexeme then (skipComment '\x00' '\x00' f).bind (lexemeFrom n) else some (some lexeme, f)

/-- Every word takes a character at least. -/
def nextLexeme (f : Text) : Option (Option Text × Text) := lexemeFrom (f.length + 1) f

/-- The rest of a line is skipped. At the end of the file this never ends. -/
def skipLine : Text → Option Text
  | [] => none
  | c :: f => if c = '\n' then some f else skipLine f

/-! ### The file -/

def wordSection : Text := ['s', 'e', 'c', 't', 'i', 'o', 'n']

def wordEnd : Text := ['e', 'n', 'd']

inductive Ending where
  | done | exits | hangs
  deriving DecidableEq, Repr

/-- What follows an iteration: another one, in a section or not, or the end. -/
inductive Next where
  | go (curSection : Option ConfigSection) (f : Text)
  | ended (e : Ending)
  deriving DecidableEq, Repr

def afterLine (curSection : Option ConfigSection) (f : Text) : Next :=
  match skipLine f with
  | none => .ended .hangs
  | some f => .go curSection f

/-- The loop over a section that is not known: it goes on as long as it reads `end`. -/
def skipSection : Nat → Text → Next
  | 0, _ => .ended .hangs
  | n + 1, f =>
    match nextLexeme f with
    | none => .ended .exits
    | some (none, f) => .go none f
    | some (some lexeme, f) => if lexeme ≠ wordEnd then .go none f else skipSection n f

def startSection (secs : List ConfigSection) (f : Text) : List Call × Next :=
  match nextLexeme f with
  | none => ([], .ended .exits)
  | some (none, _) => ([], .ended .exits)
  | some (some name, f) =>
    match lookupSection secs name with
    | some sec => (if sec.secStart then [.secStart sec.name] else [], .go (some sec) f)
    | none => ([], skipSection (f.length + 1) f)

/-- The value of a parameter, if there is one, behind an optional sign. -/
def readValue (f : Text) : Option (Option Text × Text) :=
  match nextLexeme f with
  | some (some ['='], f) => nextLexeme f
  | r => r

def readParam (sec : ConfigSection) (name f : Text) : List Call × Next :=
  match lookupParam sec name with
  | none => ([], afterLine (some sec) f)
  | some param =>
    if param.type = .none then ([.set sec.name param.name param.type none], .go (some sec) f)
    else
      match readValue f with
      | none => ([], .ended .exits)
      | some (none, f) => ([], afterLine (some sec) f)
      | some (some value, f) => ([.set sec.name param.name param.type (some value)], .go (some sec) f)

/-- An iteration of the loop of `read_script_file`. -/
def readStep (secs : List ConfigSection) (curSection : Option ConfigSection) (f : Text) : List Call × Next :=
  match nextLexeme f with
  | none => ([], .ended .exits)
  | some (none, _) => ([], .ended .done)
  | some (some lexeme, f) =>
    match curSection with
    | none => if lexeme = wordSection then startSection secs f else ([], afterLine none f)
    | some sec =>
      if lexeme = wordEnd then (if sec.secEnd then [.secEnd sec.name] else [], .go none f)
      else readParam sec lexeme f

def readFrom (secs : List ConfigSection) : Nat → Option ConfigSection → Text → List Call × Ending
  | 0, _, _ => ([], .hangs)
  | n + 1, curSection, f =>
    match readStep secs curSection f with
    | (calls, .ended e) => (calls, e)
    | (calls, .go curSection f) =>
      let (more, e) := readFrom secs n curSection f
      (calls ++ more, e)

/-- `read_script_file`, on the text of the file that it opens. -/
def readScriptFile (secs : List ConfigSection) (f : Text) : List Call × Ending := readFrom secs (f.length + 1) none f

end Or1ksim.SimConfig
