import AbcTune.Text.Cut

/-! # Tokens

A line is read as tokens. A field line, a directive and a comment line are one token each; a
line of music has one for each mark, note and run of blanks.
-/
namespace AbcTune

inductive TokenKind where
  /-- A whole line such as `T:Title`, by its letter. -/
  | field (name : Char)
  /-- A field inside a line, such as `[K:D]`. -/
  | inlineField (name : Char)
  /-- A line that starts with two percent signs. -/
  | directive
  | comment
  | note
  | rest
  /-- Whole bars of rest. -/
  | multiRest
  | bar
  | repeatStart
  | repeatEnd
  | repeatBoth
  /-- The mark of a first or later ending. -/
  | ending
  | chordStart
  | chordEnd
  | graceStart
  | graceEnd
  | slurStart
  | slurEnd
  | tuplet
  | tie
  | brokenRhythm
  /-- A decoration of one character. -/
  | decoration
  /-- A decoration between exclamation or plus signs. -/
  | extendedDecoration
  /-- Quoted text. -/
  | chordSymbol
  | continuation
  | space
  | unknown
  deriving DecidableEq, Repr

structure Token where
  kind : TokenKind
  /-- The text of the token; of a field, its value. -/
  text : Text
  line : Nat
  column : Nat
  /-- The attributes of a field. -/
  properties : List (Text × Text)
  deriving DecidableEq, Repr

namespace Token

/-- The value of an attribute; the first one counts. -/
def property? (t : Token) (key : Text) : Option Text :=
  (t.properties.find? (·.1 = key)).map (·.2)

end Token

/-- Words of a field value, where quotes keep blanks inside a word and are dropped; `passed` is
the word under way in reverse, inside a quote or not. -/
def fieldWordsFrom (passed : Text) (quoted : Bool) : Text → List Text
  | [] => if passed.isEmpty then [] else [passed.reverse]
  | c :: rest =>
    if c = '"' then fieldWordsFrom passed (!quoted) rest
    else if Text.isBlank c && !quoted then
      if passed.isEmpty then fieldWordsFrom [] quoted rest
      else passed.reverse :: fieldWordsFrom [] quoted rest
    else fieldWordsFrom (c :: passed) quoted rest

def fieldWords (value : Text) : List Text := fieldWordsFrom [] false value

/-- An attribute is a word with an equals sign; its key is read in small letters. -/
def readAttribute? (word : Text) : Option (Text × Text) :=
  (Text.cutAt '=' word).map fun (key, value) => (Text.toLower key, value)

def fieldProperties (value : Text) : List (Text × Text) :=
  (fieldWords value).filterMap readAttribute?

/-- Whether a line is a field: a letter and a colon, where `a:|` and `a::` are music. -/
def isFieldLine : Text → Bool
  | c :: ':' :: rest => c.isAlpha && rest.head? != some '|' && rest.head? != some ':'
  | _ => false

/-- The value of a line up to a percent sign that no backslash stands before. -/
def dropCommentFrom (previous : Char) : Text → Text
  | [] => []
  | c :: rest =>
    if c = '%' ∧ previous ≠ '\\' then [] else c :: dropCommentFrom c rest

def dropComment (value : Text) : Text := dropCommentFrom '\x00' value

end AbcTune
