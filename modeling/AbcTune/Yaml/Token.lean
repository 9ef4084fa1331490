import AbcTune.Yaml.Place

/-! # YAML tokens

A document is read as a list of tokens. Those that start and end the collections of a block are
not written; they follow from the columns.
-/
namespace AbcTune.Yaml

inductive Style where
  | plain
  | singleQuoted
  | doubleQuoted
  /-- In lines of its own, which are kept. -/
  | literal
  /-- In lines of its own, which are joined. -/
  | folded
  deriving DecidableEq, Repr

inductive Token where
  /-- The version that a document is written in. -/
  | version (major minor : Nat)
  /-- What a handle of tags stands for. -/
  | handle (name stem : Text)
  | documentStart
  | documentEnd
  | blockSequence
  | blockMapping
  | blockEnd
  | flowSequence
  | flowSequenceEnd
  | flowMapping
  | flowMappingEnd
  /-- The dash of an item. -/
  | blockEntry
  /-- The comma between items. -/
  | flowEntry
  | key
  | value
  | alias (name : Text)
  | anchor (name : Text)
  | tag (handle suffix : Text)
  | scalar (style : Style) (text : Text)
  deriving DecidableEq, Repr

/-- Characters of names of anchors, tags and directives. -/
def isWordChar (c : Char) : Bool := c.isAlphanum || c = '_' || c = '-'

/-- Characters of tags, and further ones of tags between angle brackets. -/
def isTagChar (c : Char) : Bool :=
  isWordChar c || ";/?:@&=+$.!~*'()".toList.contains c

def isLongTagChar (c : Char) : Bool := isTagChar c || c = ',' || c = '[' || c = ']'

namespace Token

/-- A name behind its mark, and what follows. -/
def readName? (ps : Places) : Option (Text × Places) :=
  let (name, rest) := ps.span isWordChar
  let ended := rest.isApart || rest.startsWithin ['?', ':', ',', ']', '\x7d', '%', '@', '\x60']
  if !name.isEmpty && ended then some (name, rest) else none

/-- The name of a handle behind its first mark, whole or not. -/
def readHandle (ps : Places) : Text × Bool × Places :=
  let (word, rest) := ps.span isWordChar
  if rest.startsWith '!' then ('!' :: word ++ ['!'], true, rest.drop 1)
  else ('!' :: word, false, rest)

/-- A tag between angle brackets, without the opening one. -/
def readLongTag? (ps : Places) : Option (Token × Places) :=
  let (suffix, rest) := ps.span isLongTagChar
  if !suffix.isEmpty && rest.startsWith '>' then some (.tag [] suffix, rest.drop 1) else none

/-- A tag that may start with a handle, behind its first mark. -/
def readShortTag? (ps : Places) : Option (Token × Places) :=
  let (name, whole, rest) := readHandle ps
  let (suffix, rest) := rest.span isTagChar
  if whole then if suffix.isEmpty then none else some (.tag name suffix, rest)
  else
    match name.drop 1 ++ suffix with
    | [] => some (.tag [] ['!'], rest)
    | suffix => some (.tag ['!'] suffix, rest)

/-- A tag behind its mark. -/
def readTag? (flow : Bool) (ps : Places) : Option (Token × Places) := do
  let (token, rest) ←
    if ps.startsWith '<' then readLongTag? (ps.drop 1) else readShortTag? ps
  if rest.isApart || (flow && rest.startsWith ',') then some (token, rest) else none

/-- A number of a version, of at most nine digits. -/
def readVersionNumber? (ps : Places) : Option (Nat × Places) :=
  let (digits, rest) := ps.span Char.isDigit
  if digits.isEmpty ∨ 9 < digits.length then none
  else some (digits.foldl (fun n c => n * 10 + (c.toNat - '0'.toNat)) 0, rest)

def readVersion? (ps : Places) : Option (Token × Places) := do
  let (major, rest) ← readVersionNumber? ps.dropBlanks
  if !rest.startsWith '.' then none
  else
    let (minor, rest) ← readVersionNumber? (rest.drop 1)
    some (.version major minor, rest)

def readHandleLine? (ps : Places) : Option (Token × Places) :=
  let ps := ps.dropBlanks
  if !ps.startsWith '!' then none
  else
    let (name, whole, rest) := readHandle (ps.drop 1)
    let (stem, after) := rest.dropBlanks.span isLongTagChar
    if (whole || name.length = 1) && rest.head?.any (isSpaceOrTab ·.char) && !stem.isEmpty &&
        after.isApart then
      some (.handle name stem, after)
    else none

/-- A directive behind its mark, with its line. -/
def readDirective? (ps : Places) : Option (Token × Places) := do
  let (name, rest) := ps.span isWordChar
  let (token, rest) ←
    if !rest.isApart then none
    else match String.ofList name with
      | "YAML" => readVersion? rest
      | "TAG" => readHandleLine? rest
      | _ => none
  let rest ← rest.endLine?
  some (token, rest)

end Token
end AbcTune.Yaml
