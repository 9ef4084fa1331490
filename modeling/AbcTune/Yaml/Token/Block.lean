import AbcTune.Yaml.Token

/-! # Scalars in lines of their own

A literal or folded scalar takes all lines that are indented far enough. Its first line says how
far, unless the sign behind its mark does. A folded scalar joins lines that start with no blank.
-/
namespace AbcTune.Yaml

/-- What becomes of the line breaks at the end. -/
inductive Chomping where
  | strip | clip | keep
  deriving DecidableEq, Repr

def Chomping.ofSign? : Char → Option Chomping
  | '+' => some .keep
  | '-' => some .strip
  | _ => none

/-- The signs behind the mark: the chomping, and the stated indentation or 0. -/
def readBlockSigns? (ps : Places) : Option (Chomping × Nat × Places) :=
  let stated? (p : Place) : Option Nat :=
    if p.char.isDigit then some (p.char.toNat - '0'.toNat) else none
  let signs := match ps with
    | p :: q :: rest =>
      match Chomping.ofSign? p.char, stated? p, Chomping.ofSign? q.char, stated? q with
      | some c, _, _, some n => (c, some n, rest)
      | some c, _, _, none => (c, none, q :: rest)
      | none, some n, some c, _ => (c, some n, rest)
      | none, some n, none, _ => (.clip, some n, q :: rest)
      | none, none, _, _ => (.clip, none, ps)
    | [p] =>
      match Chomping.ofSign? p.char, stated? p with
      | some c, _ => (c, none, [])
      | none, some n => (.clip, some n, [])
      | none, none => (.clip, none, ps)
    | [] => (.clip, none, [])
  match signs with
  | (_, some 0, _) => none
  | (chomping, stated, rest) => some (chomping, stated.getD 0, rest)

/-- Passes over the empty lines before the first line, whose column is the second part. -/
def skipEmptyLines? (breaks : Text) (most : Nat) : Places → Option (Text × Nat × Places)
  | [] => some (breaks, most, [])
  | p :: rest =>
    let most := max most p.column
    if p.char = ' ' then skipEmptyLines? breaks most rest
    else if p.char = '\t' then none
    else if isBreak p.char then skipEmptyLines? (p.char :: breaks) most rest
    else some (breaks, most, p :: rest)

/-- A scalar under way; its texts are kept in reverse. -/
structure BlockText where
  text : Text
  /-- The break that ended its last line. -/
  ended : Option Char
  /-- Those of the empty lines behind. -/
  more : Text
  /-- Whether its last line started with a blank. -/
  blank : Bool

def BlockText.startLine (b : BlockText) (folded : Bool) (c : Char) : BlockText :=
  let blank := isSpaceOrTab c
  let joint : Text :=
    if folded ∧ b.ended = some '\n' ∧ !b.blank ∧ !blank then
      if b.more.isEmpty then [' '] else []
    else b.ended.toList
  { text := c :: (b.more ++ (joint ++ b.text)), ended := none, more := [], blank }

def BlockText.close (b : BlockText) : Chomping → Text
  | .strip => b.text.reverse
  | .clip => (b.ended.toList ++ b.text).reverse
  | .keep => (b.more ++ (b.ended.toList ++ b.text)).reverse

/-- Reads on in a scalar with the given indentation, inside a line of it or between lines. -/
def readBlockFrom? (folded : Bool) (indent : Nat) (inLine : Bool) (b : BlockText) :
    Places → Option (BlockText × Places)
  | [] => some (b, [])
  | p :: rest =>
    if inLine then
      if isBreak p.char then
        readBlockFrom? folded indent false { b with ended := some p.char } rest
      else readBlockFrom? folded indent true { b with text := p.char :: b.text } rest
    else if isBreak p.char then
      readBlockFrom? folded indent false { b with more := p.char :: b.more } rest
    else if p.column < indent then
      if p.char = ' ' then readBlockFrom? folded indent false b rest
      else if p.char = '\t' then none
      else some (b, p :: rest)
    else if p.column = indent then
      readBlockFrom? folded indent true (b.startLine folded p.char) rest
    else some (b, p :: rest)

/-- A scalar in lines of its own behind its mark, where the lines around are indented as given. -/
def readBlock? (folded : Bool) (around : Int) (ps : Places) : Option (Token × Places) := do
  let (chomping, stated, rest) ← readBlockSigns? ps
  let lines ← rest.endLine?
  let (breaks, column, rest) ←
    if stated = 0 then skipEmptyLines? [] 0 lines else some ([], 0, lines)
  let indent := if stated = 0 then max column (max (around + 1).toNat 1)
    else (max around 0).toNat + stated
  let (b, rest) ← readBlockFrom? folded indent false ⟨[], none, breaks, false⟩ rest
  some (.scalar (if folded then .folded else .literal) (b.close chomping), rest)

end AbcTune.Yaml
