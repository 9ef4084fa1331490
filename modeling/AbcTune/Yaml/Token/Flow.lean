import AbcTune.Yaml.Token

/-! # Scalars that run on

Plain and quoted scalars may run over several lines. A single line break in them counts as a
space, and of several the first one is dropped. Blanks around line breaks are dropped as well.
-/
namespace AbcTune.Yaml

/-- What lies between two words of a scalar; its parts are kept in reverse. -/
inductive Gap where
  /-- Blanks of one line. -/
  | blanks (passed : Text)
  /-- The break that ended the line, unless it does not count, and further ones. -/
  | breaks (first : Option Char) (more : Text)
  deriving DecidableEq, Repr

namespace Gap

def none : Gap := .blanks []

def isBroken : Gap → Bool
  | .blanks _ => false
  | .breaks _ _ => true

def extend (c : Char) : Gap → Gap
  | .blanks passed => if isBreak c then .breaks (some c) [] else .blanks (c :: passed)
  | .breaks first more => if isBreak c then .breaks first (c :: more) else .breaks first more

/-- What the gap counts as, in reverse. -/
def text : Gap → Text
  | .blanks passed => passed
  | .breaks (some '\n') [] => [' ']
  | .breaks (some '\n') more => more
  | .breaks first more => more ++ first.toList

end Gap

/-- Marks that end a plain scalar inside a flow collection. -/
def flowMarks : List Char := [',', '[', ']', '\x7b', '\x7d']

/-- Whether a plain scalar ends before the first of the given places, behind a gap. -/
def endsPlain (flow : Bool) (indent : Int) (gap : Gap) (p : Place) (rest : Places) : Bool :=
  (gap.isBroken && !flow && decide ((p.column : Int) < indent)) ||
    (gap != .none && (p.char = '#' || Places.isDocumentMark (p :: rest))) ||
    (p.char = ':' && rest.isApart) || (flow && flowMarks.contains p.char)

/-- Reads on in a plain scalar, given its text in reverse. Returns also whether a line ended
behind the scalar. -/
def readPlainFrom? (flow : Bool) (indent : Int) (text : Text) (gap : Gap) :
    Places → Option (Text × Bool × Places)
  | [] => some (text.reverse, gap.isBroken, [])
  | p :: rest =>
    if isSpacing p.char then
      if p.char = '\t' ∧ gap.isBroken ∧ (p.column : Int) < indent then none
      else readPlainFrom? flow indent text (gap.extend p.char) rest
    else if endsPlain flow indent gap p rest then some (text.reverse, gap.isBroken, p :: rest)
    else if flow && p.char = ':' && Places.startsWithin ('?' :: flowMarks) rest then none
    else readPlainFrom? flow indent (p.char :: (gap.text ++ text)) .none rest

/-- What a letter after a backslash stands for. -/
def simpleEscape? : Char → Option Char
  | '0' => some '\x00'
  | 'a' => some '\x07'
  | 'b' => some '\x08'
  | 't' | '\t' => some '\t'
  | 'n' => some '\n'
  | 'v' => some '\x0b'
  | 'f' => some '\x0c'
  | 'r' => some '\r'
  | 'e' => some '\x1b'
  | ' ' => some ' '
  | '"' => some '"'
  | '/' => some '/'
  | '\\' => some '\\'
  | 'N' => some '\x85'
  | '_' => some '\xa0'
  | 'L' => some '\u2028'
  | 'P' => some '\u2029'
  | _ => none

/-- Number of hexadecimal digits that a letter after a backslash announces. -/
def escapeDigits : Char → Nat
  | 'x' => 2
  | 'u' => 4
  | 'U' => 8
  | _ => 0

def digitValue? (radix : Nat) (c : Char) : Option Nat :=
  let n := c.toLower.toNat
  let value? :=
    if c.isDigit then some (n - 48)
    else if 'a' ≤ c.toLower ∧ c.toLower ≤ 'z' then some (n - 87) else none
  value?.filter (· < radix)

def charOfCode? (n : Nat) : Option Char :=
  if n < 0xd800 ∨ (0xe000 ≤ n ∧ n < 0x110000) then some (Char.ofNat n) else none

/-- How far a sequence of characters that stands for one has been read. -/
inductive Escape where
  | none
  /-- Its first character has been read. -/
  | begun
  /-- So many hexadecimal digits of a number are left. -/
  | digits (left value : Nat)
  deriving DecidableEq, Repr

/-- Reads on in a quoted scalar, given its text in reverse. -/
def readQuotedFrom? (quote : Char) (text : Text) (gap : Gap) (escape : Escape) :
    Places → Option (Text × Places)
  | [] => none
  | p :: rest =>
    match escape with
    | .begun =>
      if p.char = '\'' ∧ quote = '\'' then readQuotedFrom? quote ('\'' :: text) .none .none rest
      else if isBreak p.char then readQuotedFrom? quote text (.breaks none []) .none rest
      else match simpleEscape? p.char with
        | some c => readQuotedFrom? quote (c :: text) .none .none rest
        | none =>
          if escapeDigits p.char = 0 then none
          else readQuotedFrom? quote text .none (.digits (escapeDigits p.char) 0) rest
    | .digits left value =>
      match digitValue? 16 p.char with
      | none => none
      | some d =>
        if left = 1 then
          match charOfCode? (value * 16 + d) with
          | some c => readQuotedFrom? quote (c :: text) .none .none rest
          | none => none
        else readQuotedFrom? quote text .none (.digits (left - 1) (value * 16 + d)) rest
    | .none =>
      if Places.isDocumentMark (p :: rest) then none
      else if isSpacing p.char then readQuotedFrom? quote text (gap.extend p.char) .none rest
      else
        let text := gap.text ++ text
        if p.char = quote then
          if quote = '\'' ∧ Places.startsWith '\'' rest then readQuotedFrom? quote text .none .begun rest
          else some (text.reverse, rest)
        else if p.char = '\\' ∧ quote = '"' then readQuotedFrom? quote text .none .begun rest
        else readQuotedFrom? quote (p.char :: text) .none .none rest

def readQuoted? (quote : Char) (ps : Places) : Option (Token × Places) :=
  (readQuotedFrom? quote [] .none .none ps).map fun (text, rest) =>
    (.scalar (if quote = '"' then .doubleQuoted else .singleQuoted) text, rest)

end AbcTune.Yaml
