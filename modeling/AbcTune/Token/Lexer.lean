import AbcTune.Note
import AbcTune.Token

/-! # Reading a line as tokens

Of two marks that start alike the longer one is taken. Reading never fails: what is no mark
becomes a token of unknown kind. A scan says how many characters a token takes beyond its first,
so the tokens of a line of music always tile it.
-/
namespace AbcTune.Token

/-- Characters that only separate notes. -/
def isFiller (c : Char) : Bool := c = ' ' || c = '\t' || c = '\x60' || c = 'y'

/-- Size of the longest run of characters of a class at the front. -/
def runLength (p : Char → Bool) (t : Text) : Nat := (t.takeWhile p).length

def digitRun (t : Text) : Nat := runLength Char.isDigit t

/-- Size of a run of slashes, each with any digits behind it. -/
def slashRun : Text → Nat
  | '/' :: rest => 1 + digitRun rest + slashRun (rest.drop (digitRun rest))
  | _ => 0
termination_by t => t.length
decreasing_by simp only [List.length_drop, List.length_cons]; omega

/-- Size of a length: digits, then slashes. -/
def lengthRun (t : Text) : Nat := digitRun t + slashRun (t.drop (digitRun t))

/-- Size of up to `parts` colons, each with any digits behind it. -/
def colonRun : (parts : Nat) → Text → Nat
  | parts + 1, ':' :: rest => 1 + digitRun rest + colonRun parts (rest.drop (digitRun rest))
  | _, _ => 0

def isNoteLetter (c : Char) : Bool := ('A' ≤ c && c ≤ 'G') || ('a' ≤ c && c ≤ 'g')

/-- Size of the octave marks and the length behind a letter. -/
def noteTail (t : Text) : Nat :=
  let marks := runLength WrittenNote.isOctaveMark t
  marks + lengthRun (t.drop marks)

/-- A note whose accidental takes `marks` characters more, of which `rest` follows. -/
def scanLetter (marks : Nat) : Text → TokenKind × Nat
  | c :: rest => if isNoteLetter c then (.note, marks + 1 + noteTail rest) else (.unknown, marks)
  | [] => (.unknown, marks)

/-- A note that starts with a sharp or flat sign, which may be doubled. -/
def scanAccidental (c : Char) : Text → TokenKind × Nat
  | d :: rest => if c = d then scanLetter 1 rest else scanLetter 0 (d :: rest)
  | [] => (.unknown, 0)

/-- A named decoration: a name without blanks before the next delimiter. -/
def scanDecoration (delimiter : Char) (t : Text) : TokenKind × Nat :=
  match Text.cutAt delimiter t with
  | some (name, _) =>
    if name.isEmpty || name.any Text.isBlank then (.unknown, 0)
    else (.extendedDecoration, name.length + 1)
  | none => (.unknown, 0)

/-- A closed quotation; one that stays open takes the whole line. -/
def scanQuote (t : Text) : TokenKind × Nat :=
  match Text.cutAt '"' t with
  | some (quoted, _) => (.chordSymbol, quoted.length + 1)
  | none => (.unknown, t.length)

/-- What follows an opening bracket: a bar, a field, the number of an ending, or a chord. -/
def scanBracket (t : Text) : TokenKind × Nat :=
  match t with
  | '|' :: _ => (.bar, 1)
  | name :: next :: _ =>
    if next = ':' ∧ name.isAlpha then
      match Text.cutAt ']' t with
      | some (inside, _) => (.inlineField name, inside.length + 1)
      | none => (.unknown, 0)
    else if name.isDigit then (.ending, 1)
    else (.chordStart, 0)
  | [c] => if c.isDigit then (.ending, 1) else (.chordStart, 0)
  | [] => (.chordStart, 0)

def scanBar : Text → TokenKind × Nat
  | ':' :: _ => (.repeatStart, 1)
  | '|' :: _ | ']' :: _ => (.bar, 1)
  | c :: _ => if c.isDigit then (.ending, 1) else (.bar, 0)
  | [] => (.bar, 0)

def scanColon : Text → TokenKind × Nat
  | '|' :: '|' :: _ | '|' :: ']' :: _ => (.repeatEnd, 2)
  | '|' :: _ => (.repeatEnd, 1)
  | ':' :: _ => (.repeatBoth, 1)
  | _ => (.unknown, 0)

/-- What follows an opening parenthesis: the numbers of a tuplet, or nothing of a slur. -/
def scanParenthesis (t : Text) : TokenKind × Nat :=
  let count := digitRun t
  if count = 0 then (.slurStart, 0) else (.tuplet, count + colonRun 2 (t.drop count))

/-- Marks that are a decoration by themselves. -/
def decorationMarks : List Char := ['.', '~', 'H', 'L', 'M', 'O', 'P', 'S', 'T', 'u', 'v']

/-- The kind of the token that starts with `c` before `rest`, and how many characters of `rest`
belong to it. -/
def scan (c : Char) (rest : Text) : TokenKind × Nat :=
  if isFiller c then (.space, runLength isFiller rest)
  else if c = '%' then (.comment, rest.length)
  else if c = '\\' then (.continuation, 0)
  else if c = '"' then scanQuote rest
  else if c = '!' ∨ c = '+' then scanDecoration c rest
  else if c = '[' then scanBracket rest
  else if c = ']' then (.chordEnd, lengthRun rest)
  else if c = '|' then scanBar rest
  else if c = ':' then scanColon rest
  else if c = '(' then scanParenthesis rest
  else if c = ')' then (.slurEnd, 0)
  else if c = '\x7b' then (.graceStart, if rest.head? = some '/' then 1 else 0)
  else if c = '\x7d' then (.graceEnd, 0)
  else if c = '-' then (.tie, 0)
  else if c = '>' ∨ c = '<' then (.brokenRhythm, runLength (· = c) rest)
  else if c = '^' ∨ c = '_' then scanAccidental c rest
  else if c = '=' then scanLetter 0 rest
  else if isNoteLetter c then (.note, noteTail rest)
  else if c = 'z' ∨ c = 'x' then (.rest, lengthRun rest)
  else if c = 'Z' ∨ c = 'X' then (.multiRest, digitRun rest)
  else if c ∈ decorationMarks then (.decoration, 0)
  else (.unknown, 0)

/-- A token from the characters that it takes; of a field inside brackets only the value counts. -/
def ofLexeme (kind : TokenKind) (lexeme : Text) (line column : Nat) : Token :=
  match kind with
  | .inlineField _ =>
    let value := Text.trim (lexeme.drop 3).dropLast
    { kind, text := value, line, column, properties := fieldProperties value }
  | _ => { kind, text := lexeme, line, column, properties := [] }

/-- The tokens of a line of music from a column on. -/
def musicTokens (line column : Nat) : Text → List Token
  | [] => []
  | c :: rest =>
    let (kind, more) := scan c rest
    ofLexeme kind (c :: rest.take more) line column ::
      musicTokens line (column + 1 + more) (rest.drop more)
termination_by t => t.length
decreasing_by simp only [List.length_drop, List.length_cons]; omega

def isLineBreak (c : Char) : Bool := c = '\n' || c = '\r'

/-- A line without line feeds and carriage returns at its end. -/
def dropLineBreaks (t : Text) : Text := (t.reverse.dropWhile isLineBreak).reverse

def ofField (name : Char) (value : Text) (line : Nat) : Token :=
  let value := Text.trim (dropComment value)
  { kind := .field name, text := value, line, column := 1, properties := fieldProperties value }

/-- The tokens of a line without line breaks. -/
def ofLine (t : Text) (line : Nat) : List Token :=
  match t with
  | '%' :: '%' :: rest => [⟨.directive, Text.trim rest, line, 1, []⟩]
  | '%' :: _ => [⟨.comment, t, line, 1, []⟩]
  | name :: ':' :: value =>
    if isFieldLine t then [ofField name value line] else musicTokens line 1 t
  | _ => musicTokens line 1 t

/-- The tokens of a line; lines count from 1. -/
def tokenize (t : Text) (line : Nat) : List Token := ofLine (dropLineBreaks t) line

end AbcTune.Token
