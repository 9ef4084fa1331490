import AbcTune.Text.Cut

/-! # Places in a YAML text

The structure of a document depends on the lines and columns that its characters stand at. All
line breaks but the two separators of Unicode are written as line feeds once the text is laid out.
-/
namespace AbcTune.Yaml

def isSpaceOrTab (c : Char) : Bool := c = ' ' || c = '\t'

def isBreak (c : Char) : Bool :=
  c = '\n' || c = '\r' || c = '\x85' || c = '\u2028' || c = '\u2029'

def isSpacing (c : Char) : Bool := isSpaceOrTab c || isBreak c

/-- Whether the next character separates, as the end does. -/
def spacingFollows (rest : Text) : Bool := rest.head?.all isSpacing

/-- Characters that may occur in a document. -/
def isAllowed (c : Char) : Bool :=
  let n := c.toNat
  n == 0x9 || n == 0xa || n == 0xd || (0x20 ≤ n && n ≤ 0x7e) || n == 0x85 ||
    (0xa0 ≤ n && n != 0xfffe && n != 0xffff)

/-- A character and where it stands, counted from 0. -/
structure Place where
  char : Char
  line : Nat
  column : Nat
  deriving DecidableEq, Repr

/-- A text from here on, as it is laid out. -/
abbrev Places := List Place

/-- What a line break counts as in a scalar. -/
def breakSign (c : Char) : Char := if c = '\u2028' ∨ c = '\u2029' then c else '\n'

def layoutFrom (line column : Nat) : Text → Places
  | [] => []
  | '\r' :: '\n' :: rest => ⟨'\n', line, column⟩ :: layoutFrom (line + 1) 0 rest
  | c :: rest =>
    if isBreak c then ⟨breakSign c, line, column⟩ :: layoutFrom (line + 1) 0 rest
    else ⟨c, line, column⟩ :: layoutFrom line (column + 1) rest

/-- Lays a text out, unless it holds a character that no document may. A byte order mark at its
start is passed over and takes up a column. -/
def layout? (t : Text) : Option Places :=
  if t.all isAllowed then
    match layoutFrom 0 0 t with
    | ⟨'\ufeff', _, _⟩ :: rest => some rest
    | places => some places
  else none

namespace Places

def text (ps : Places) : Text := ps.map (·.char)

/-- The places at the front whose characters are of a class, and the others. -/
def span (p : Char → Bool) (ps : Places) : Text × Places :=
  (Places.text (ps.takeWhile (p ·.char)), ps.dropWhile (p ·.char))

def dropBlanks (ps : Places) : Places := ps.dropWhile (isSpaceOrTab ·.char)

def startsWith (c : Char) (ps : Places) : Bool := ps.head?.any (·.char = c)

/-- Whether what separates comes next, as the end does. -/
def isApart (ps : Places) : Bool := ps.head?.all (isSpacing ·.char)

def startsWithin (cs : List Char) (ps : Places) : Bool := ps.head?.any (cs.contains ·.char)

/-- Whether a line starts here with one of the marks that stand around documents. -/
def isDocumentMark : Places → Bool
  | a :: b :: c :: rest =>
    a.column = 0 && a.char = b.char && b.char = c.char && (a.char = '-' || a.char = '.') &&
      isApart rest
  | _ => false

/-- What follows the end of this line, on which only blanks and a comment may be left. -/
def endLine? (ps : Places) : Option Places :=
  let ps := ps.dropBlanks
  let ps := if ps.startsWith '#' then ps.dropWhile (!isBreak ·.char) else ps
  match ps with
  | [] => some []
  | p :: rest => if isBreak p.char then some rest else none

end Places
end AbcTune.Yaml
