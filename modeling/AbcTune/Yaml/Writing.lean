import AbcTune.Number.Display
import AbcTune.Yaml.Scalar

/-! # Writing YAML text

Text that would mean something else when written plainly is put in single quotes, and text with
characters that cannot be printed in double quotes.
-/
namespace AbcTune.Yaml

/-- Whether a plain scalar means something else than its text. -/
def isSpecial (t : Text) : Bool :=
  t.isEmpty || isNullWord t || isTruthWord t || (readNat? 128 t).isSome || isNegativeInt t ||
    isZeroPadded t || (readFloat? t).isSome

/-- Characters that are written as they are. -/
def isPrintable (c : Char) : Bool :=
  let n := c.toNat
  n == 0xa || (0x20 ≤ n && n ≤ 0x7e) ||
    (0xa0 ≤ n && n != 0xfeff && n != 0xfffe && n != 0xffff)

/-- Marks that a text to be written plainly cannot start with. -/
def frontMarks : List Char :=
  ['#', ',', '[', ']', '\x7b', '\x7d', '&', '*', '!', '|', '>', '\'', '"', '%', '@', '\x60']

/-- Marks inside a text that keep it from being written plainly, after a spacing or not. -/
def hasInnerMark (afterSpacing : Bool) : Text → Bool
  | [] => false
  | c :: rest =>
    (c = ':' && spacingFollows rest) || (c = '#' && afterSpacing) ||
      hasInnerMark (isSpacing c) rest

/-- Marks that keep a text in a block from being written plainly. -/
def hasMark : Text → Bool
  | [] => false
  | c :: rest =>
    frontMarks.contains c || ((c = '?' || c = ':' || c = '-') && spacingFollows rest) ||
      ['-', '-', '-'].isPrefixOf (c :: rest) || ['.', '.', '.'].isPrefixOf (c :: rest) ||
      hasInnerMark (isSpacing c) rest

def isPlain (t : Text) : Bool :=
  !hasMark t && t.head? != some ' ' && t.getLast? != some ' ' && !t.any isBreak

/-- Whether a space and a line break stand side by side. -/
def hasSpaceAtBreak : Text → Bool
  | c :: d :: rest =>
    (c = ' ' && isBreak d) || (isBreak c && d = ' ') || hasSpaceAtBreak (d :: rest)
  | _ => false

def spaces (n : Nat) : Text := List.replicate n ' '

/-- Text inside single quotes, where a quote is written twice and a line behind a break is
indented. -/
def quotedFrom (indent : Nat) (broken : Bool) : Text → Text
  | [] => if broken then spaces indent else []
  | c :: rest =>
    if isBreak c then c :: quotedFrom indent true rest
    else
      (if broken then spaces indent else []) ++
        ((if c = '\'' then ['\'', '\''] else [c]) ++ quotedFrom indent false rest)

def singleQuoted (indent : Nat) (t : Text) : Text := '\'' :: (quotedFrom indent false t ++ ['\''])

def capitalHex (digits n : Nat) : Text := Text.toUpper (Number.hexDigits digits n)

def namedEscape? (c : Char) : Option Char :=
  match c with
  | '\x00' => some '0'
  | '\x07' => some 'a'
  | '\x08' => some 'b'
  | '\t' => some 't'
  | '\n' => some 'n'
  | '\x0b' => some 'v'
  | '\x0c' => some 'f'
  | '\r' => some 'r'
  | '\x1b' => some 'e'
  | '"' => some '"'
  | '\\' => some '\\'
  | '\x85' => some 'N'
  | '\u2028' => some 'L'
  | '\u2029' => some 'P'
  | _ => none

def escaped (c : Char) : Text :=
  match namedEscape? c with
  | some e => ['\\', e]
  | none =>
    let n := c.toNat
    if isPrintable c then [c]
    else if n ≤ 0xff then '\\' :: 'x' :: capitalHex 2 n
    else '\\' :: 'u' :: capitalHex 4 n

def doubleQuoted (t : Text) : Text := ['"'] ++ t.flatMap escaped ++ ['"']

/-- Writes a text without line feeds so that it reads back as the same text, in a block with the
given indentation of lines behind a break. -/
def writeText (indent : Nat) (t : Text) : Text :=
  if !t.all isPrintable || hasSpaceAtBreak t then doubleQuoted t
  else if isSpecial t || !isPlain t then singleQuoted indent t
  else t

/-- Writes a character, always in quotes. -/
def writeChar (c : Char) : Text :=
  if isPrintable c then singleQuoted 0 [c] else doubleQuoted [c]

end AbcTune.Yaml
