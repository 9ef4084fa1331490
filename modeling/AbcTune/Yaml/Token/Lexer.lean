import AbcTune.Yaml.Token.Block
import AbcTune.Yaml.Token.Flow

/-! # Reading YAML tokens

Collections in a block start and end where the column says so. A key without a mark of its own is
only known from the colon behind it, so the lexer keeps in mind where a key may have started, and
puts the tokens for its start in place once the colon comes.
-/
namespace AbcTune.Yaml

/-- Where a key may have started. -/
structure KeyStart where
  /-- Number of tokens before it. -/
  before : Nat
  line : Nat
  column : Nat
  /-- Whether nothing but a key can stand there. -/
  required : Bool
  deriving DecidableEq, Repr

structure Lexer where
  /-- Tokens so far, the last one first. -/
  done : List Token
  /-- The column of the innermost collection in a block, or -1. -/
  indent : Int
  /-- Those of the collections around it. -/
  indents : List Int
  /-- Whether a key may start here. -/
  keyAllowed : Bool
  keyStart : Option KeyStart
  /-- Starts of keys around each open flow collection, innermost first. -/
  outer : List (Option KeyStart)

namespace Lexer

def initial : Lexer where
  done := []
  indent := -1
  indents := []
  keyAllowed := true
  keyStart := none
  outer := []

def inFlow (l : Lexer) : Bool := !l.outer.isEmpty

def push (l : Lexer) (t : Token) : Lexer := { l with done := t :: l.done }

/-- Pushes a token and says whether a key may start behind it. -/
def pushThen (l : Lexer) (t : Token) (keyAllowed : Bool) : Lexer :=
  { l.push t with keyAllowed }

/-- Puts tokens behind the first `n`. -/
def insert (l : Lexer) (n : Nat) (ts : List Token) : Lexer :=
  let behind := l.done.length - n
  { l with done := l.done.take behind ++ ts.reverse ++ l.done.drop behind }

/-- Most columns between the start of a key and its colon. -/
def longestKey : Nat := 1024

def isStale (p : Place) (k : KeyStart) : Bool :=
  k.line < p.line || k.column + longestKey < p.column

/-- Forgets the starts of keys that are too far back, unless one of them is required. -/
def expire? (l : Lexer) (p : Place) : Option Lexer :=
  if (l.keyStart :: l.outer).any fun k => k.any fun k => isStale p k && k.required then none
  else
    let fresh (k : Option KeyStart) : Option KeyStart := k.filter (!isStale p ·)
    some { l with keyStart := fresh l.keyStart, outer := l.outer.map fresh }

/-- Forgets the start of a key, unless it is required. -/
def dropKey? (l : Lexer) : Option Lexer :=
  if l.keyStart.any (·.required) then none else some { l with keyStart := none }

/-- Keeps in mind that a key may start here. -/
def saveKey? (l : Lexer) (p : Place) : Option Lexer :=
  if l.keyAllowed then
    l.dropKey?.map fun l => { l with
      keyStart := some ⟨l.done.length, p.line, p.column, !l.inFlow && l.indent = p.column⟩ }
  else some l

/-- Whether a column starts a new collection. -/
def opens (l : Lexer) (column : Nat) : Bool := !l.inFlow && decide (l.indent < column)

def openAt (l : Lexer) (column : Nat) : Lexer :=
  { l with indent := column, indents := l.indent :: l.indents }

/-- Starts a collection in a block if the column does. -/
def roll (l : Lexer) (column : Nat) (start : Token) : Lexer :=
  if l.opens column then (l.openAt column).push start else l

def unrollFrom (column : Int) (done : List Token) (indent : Int) :
    List Int → List Token × Int × List Int
  | [] => (done, indent, [])
  | outer :: indents =>
    if column < indent then unrollFrom column (.blockEnd :: done) outer indents
    else (done, indent, outer :: indents)

/-- Ends the collections in a block that lie to the right of a column. -/
def unroll (l : Lexer) (column : Int) : Lexer :=
  if l.inFlow then l
  else
    let (done, indent, indents) := unrollFrom column l.done l.indent l.indents
    { l with done, indent, indents }

/-- Ends all collections in a block and starts afresh. -/
def reset? (l : Lexer) : Option Lexer :=
  (l.unroll (-1)).dropKey?.map fun l => { l with keyAllowed := false }

def openFlow? (l : Lexer) (p : Place) (start : Token) : Option Lexer := do
  let l ← l.saveKey? p
  some ({ l with outer := l.keyStart :: l.outer, keyStart := none }.pushThen start true)

def closeFlow? (l : Lexer) (stop : Token) : Option Lexer := do
  let l ← l.dropKey?
  match l.outer with
  | [] => some (l.pushThen stop false)
  | k :: outer => some ({ l with keyStart := k, outer }.pushThen stop false)

/-- A mark that stands at the start of an item or a key in a block. -/
def entry? (l : Lexer) (p : Place) (start mark : Token) (keyAllowed : Bool) : Option Lexer :=
  if l.inFlow then l.dropKey?.map (·.pushThen mark keyAllowed)
  else if l.keyAllowed then (l.roll p.column start).dropKey?.map (·.pushThen mark keyAllowed)
  else none

/-- The colon behind a key. -/
def value? (l : Lexer) (p : Place) : Option Lexer :=
  match l.keyStart with
  | some k =>
    let l := { l with keyStart := none }
    if l.opens k.column then
      some (((l.insert k.before [.blockMapping, .key]).openAt k.column).pushThen .value false)
    else some ((l.insert k.before [.key]).pushThen .value false)
  | none =>
    if l.inFlow then some (l.pushThen .value false)
    else if l.keyAllowed then some ((l.roll p.column .blockMapping).pushThen .value true)
    else none

/-- A token that may be a key or a part of one. -/
def content? (l : Lexer) (p : Place) (read : Option (Token × Places)) :
    Option (Lexer × Places) := do
  let l ← l.saveKey? p
  let (token, rest) ← read
  some (l.pushThen token false, rest)

def plain? (l : Lexer) (p : Place) (rest : Places) : Option (Lexer × Places) := do
  let l ← l.saveKey? p
  let (text, broken, rest) ← readPlainFrom? l.inFlow (l.indent + 1) [] .none (p :: rest)
  some (l.pushThen (.scalar .plain text) broken, rest)

def block? (l : Lexer) (folded : Bool) (rest : Places) : Option (Lexer × Places) := do
  let l ← l.dropKey?
  let (token, rest) ← readBlock? folded l.indent rest
  some (l.pushThen token true, rest)

/-- Marks that a plain scalar never starts with. -/
def startMarks : List Char :=
  ['-', '?', ':', ',', '[', ']', '\x7b', '\x7d', '#', '&', '*', '!', '|', '>', '\'', '"', '%', '@',
    '\x60']

/-- Whether a plain scalar starts here; some marks may start one if no blank follows. -/
def isPlainStart (flow : Bool) (c : Char) (rest : Places) : Bool :=
  (!isSpacing c && !startMarks.contains c) ||
    (c = '-' && !rest.head?.any (isSpaceOrTab ·.char)) ||
    (!flow && (c = '?' || c = ':') && !rest.isApart)

def next? (l : Lexer) (p : Place) (rest : Places) : Option (Lexer × Places) :=
  if p.column = 0 ∧ p.char = '%' then do
    let l ← l.reset?
    let (token, rest) ← Token.readDirective? rest
    some (l.push token, rest)
  else if Places.isDocumentMark (p :: rest) then
    l.reset?.map fun l =>
      (l.push (if p.char = '-' then .documentStart else .documentEnd), rest.drop 2)
  else match p.char with
    | '[' => (l.openFlow? p .flowSequence).map (·, rest)
    | '\x7b' => (l.openFlow? p .flowMapping).map (·, rest)
    | ']' => (l.closeFlow? .flowSequenceEnd).map (·, rest)
    | '\x7d' => (l.closeFlow? .flowMappingEnd).map (·, rest)
    | ',' => l.dropKey?.map fun l => (l.pushThen .flowEntry true, rest)
    | '*' => l.content? p ((Token.readName? rest).map fun (n, rest) => (.alias n, rest))
    | '&' => l.content? p ((Token.readName? rest).map fun (n, rest) => (.anchor n, rest))
    | '!' => l.content? p (Token.readTag? l.inFlow rest)
    | '\'' => l.content? p (readQuoted? '\'' rest)
    | '"' => l.content? p (readQuoted? '"' rest)
    | c =>
      if c = '-' && rest.isApart then (l.entry? p .blockSequence .blockEntry true).map (·, rest)
      else if c = '?' && (l.inFlow || rest.isApart) then
        (l.entry? p .blockMapping .key (!l.inFlow)).map (·, rest)
      else if c = ':' && (l.inFlow || rest.isApart) then (l.value? p).map (·, rest)
      else if (c = '|' || c = '>') && !l.inFlow then l.block? (c = '>') rest
      else if isPlainStart l.inFlow c rest then l.plain? p rest
      else none

/-- Passes over blanks, comments and line breaks, and says whether a key may start behind them.
In a block a tab may not stand where a key may. -/
def skipFiller (flow keyAllowed comment : Bool) : Places → Bool × Places
  | [] => (keyAllowed, [])
  | p :: rest =>
    if isBreak p.char then skipFiller flow (keyAllowed || !flow) false rest
    else if comment || p.char = '#' then skipFiller flow keyAllowed true rest
    else if p.char = ' ' || (p.char = '\t' && (flow || !keyAllowed)) then
      skipFiller flow keyAllowed false rest
    else (keyAllowed, p :: rest)

/-- Reads at most `fuel` tokens, up to the end. -/
def run? : (fuel : Nat) → Lexer → Places → Option (List Token)
  | 0, _, _ => none
  | fuel + 1, l, ps =>
    match skipFiller l.inFlow l.keyAllowed false ps with
    | (_, []) => l.reset?.map (·.done.reverse)
    | (keyAllowed, p :: rest) => do
      let l ← { l with keyAllowed }.expire? p
      let (l, rest) ← (l.unroll p.column).next? p rest
      run? fuel l rest

end Lexer

/-- The tokens of a text; each takes up one character or more. -/
def Token.read? (t : Text) : Option (List Token) := do
  let ps ← layout? t
  Lexer.initial.run? (ps.length + 1) ps

end AbcTune.Yaml
