import AbcTune.Text.Cut

/-! # Repeats

Repeats are written out in the text before it is read, so that the music runs straight through.
The body of a tune is divided where the voice changes, and each section is written out by itself:
a repeat in one voice never takes in text of another. In a section the first closing mark is
treated again and again, until none is left.
-/
namespace AbcTune.Repeat

/-- Closing marks treated in one section. -/
def mostExpansions : Nat := 64

/-- Bytes that a section may grow to. -/
def mostBytes : Nat := 1048576

/-- Why a section cannot be written out. -/
inductive Failure where
  /-- It needs too many repeats or too much room. -/
  | limit
  /-- The music that would be repeated starts after the repeat ends. -/
  | startAfterEnd
  deriving DecidableEq, Repr

def closing : Text := [':', '|']

def opening : Text := ['|', ':']

def double : Text := [':', ':']

def isKeyLine (line : Text) : Bool := ['K', ':'].isPrefixOf (Text.trimStart line)

/-- The lines through the first key line, and the others. -/
def splitAtKey : List Text → Option (List Text × List Text)
  | [] => none
  | line :: rest =>
    if isKeyLine line then some ([line], rest)
    else (splitAtKey rest).map fun (head, body) => (line :: head, body)

/-- The header of a tune, through its first key line, and its body. Without a key line there is
no header. -/
def splitHeader (t : Text) : Text × Text :=
  match splitAtKey (Text.lineBlocks t) with
  | some (head, body) => (head.flatten, body.flatten)
  | none => ([], t)

/-- Whether a section starts here: at a voice field, at the start of its line or in brackets. -/
def startsSection (lineStart : Bool) (t : Text) : Bool :=
  (lineStart && ['V', ':'].isPrefixOf t) || ['[', 'V', ':'].isPrefixOf t

/-- The sections found (last first), the one under way (in reverse), and whether only blanks have
been passed in the line. -/
def sectionsFrom (done : List Text) (current : Text) (lineStart : Bool) : Text → List Text
  | [] => (if current.isEmpty then done else current.reverse :: done).reverse
  | c :: rest =>
    let lineStart' := c = '\n' || (lineStart && Text.isBlank c)
    if startsSection lineStart (c :: rest) && !current.isEmpty then
      sectionsFrom (current.reverse :: done) [c] lineStart' rest
    else sectionsFrom done (c :: current) lineStart' rest

/-- A body divided at its voice fields, each of which starts a section. -/
def sections (body : Text) : List Text := sectionsFrom [] [] true body

/-- Whether text, given in reverse, ends in an opening parenthesis and digits. -/
def endsInTupletCount (reversed : Text) : Bool :=
  match reversed with
  | d :: _ => d.isDigit && (reversed.dropWhile Char.isDigit).head? == some '('
  | [] => false

def splitDoublesFrom (passed : Text) : Text → Text
  | [] => passed.reverse
  | [c] => (c :: passed).reverse
  | c :: d :: rest =>
    if c = ':' ∧ d = ':' then
      if endsInTupletCount passed then splitDoublesFrom (':' :: ':' :: passed) rest
      else splitDoublesFrom (':' :: '|' :: '|' :: ':' :: passed) rest
    else splitDoublesFrom (c :: passed) (d :: rest)

/-- Writes a double mark as a closing and an opening one, and leaves the colons of a tuplet. -/
def splitDoubles (t : Text) : Text := splitDoublesFrom [] t

/-- Whether a line, without the blanks before it, is a field. -/
def isField : Text → Bool
  | c :: ':' :: _ => c.isAlpha
  | _ => false

/-- Size of the field lines, or of the voice field in brackets, that come before the music. -/
def leadLength : List Text → Nat
  | [] => 0
  | line :: rest =>
    let trimmed := Text.trimStart line
    if isField trimmed then line.length + leadLength rest
    else if ['[', 'V', ':'].isPrefixOf trimmed then
      match Text.cutAt ']' line with
      | some (before, _) => before.length + 1
      | none => 0
    else 0

/-- Where the music of a section starts. -/
def musicStart (t : Text) : Nat := leadLength (Text.lineBlocks t)

/-- Repeated text up to a first ending, and the first ending. A bar line before the number is
part of what is shared. -/
def splitFirstEnding (content : Text) : Text × Option Text :=
  match Text.cutMark ['[', '1'] content with
  | some (main, first) => (main, some first)
  | none =>
    match Text.cutMark ['|', '1'] content with
    | some (main, first) => (main ++ ['|'], some first)
    | none => (content, none)

/-- What follows a closing mark, without the number of a second ending. -/
def dropSecondEnding (t : Text) : Text :=
  match t with
  | '[' :: '2' :: rest => rest
  | '2' :: rest => rest
  | _ => (Text.dropMark? ['[', '2'] (t.dropWhile (· = ' '))).getD t

/-- The text before the repeated part, and that part, given all that stands before the closing
mark in `t`. Without an opening mark the repeat starts with the music. -/
def repeatedPart (t before : Text) : Except Failure (Text × Text) :=
  match Text.cutLastMark opening before with
  | some parts => .ok parts
  | none =>
    let start := musicStart t
    if start ≤ before.length then .ok (before.take start, before.drop start)
    else .error .startAfterEnd

/-- Writes out the repeat that the closing mark between `before` and `after` ends. -/
def writeOut (t before after : Text) : Except Failure Text := do
  let (lead, content) ← repeatedPart t before
  match splitFirstEnding content with
  | (main, some first) => .ok (lead ++ (main ++ (first ++ (main ++ dropSecondEnding after))))
  | (_, none) => .ok (lead ++ (content ++ (content ++ after)))

/-- Writes out repeats until no closing mark is left, at most `fuel` of them. Opening marks that
nothing closes are bar lines. -/
def writeOutAll : (fuel : Nat) → Text → Except Failure Text
  | 0, _ => .error .limit
  | fuel + 1, t =>
    match Text.cutMark closing t with
    | none => .ok (Text.replacePair '|' ':' ['|'] t)
    | some (before, after) => do
      let next ← writeOut t before after
      if mostBytes < Text.byteLength next then .error .limit else writeOutAll fuel next

def expandSection (t : Text) : Except Failure Text :=
  if Text.hasMark closing t || Text.hasMark opening t || Text.hasMark double t then
    writeOutAll mostExpansions (splitDoubles t)
  else .ok t

/-- Writes out the repeats of a tune, and leaves its header. -/
def expand (t : Text) : Except Failure Text := do
  let (header, body) := splitHeader t
  let parts ← (sections body).mapM expandSection
  .ok (header ++ parts.flatten)

end AbcTune.Repeat
