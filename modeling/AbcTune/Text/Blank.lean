/-! # Text and blank characters

Everything that is read is a list of characters. Words are separated by blanks and values are
trimmed of them; a blank is a character with the Unicode property White_Space.
-/
namespace AbcTune

/-- Text that is scanned, character by character. -/
abbrev Text := List Char

namespace Text

/-- The twenty-five characters with the property White_Space. -/
def isBlank (c : Char) : Bool :=
  let n := c.toNat
  (0x9 ≤ n && n ≤ 0xd) || n == 0x20 || n == 0x85 || n == 0xa0 || n == 0x1680 ||
    (0x2000 ≤ n && n ≤ 0x200a) || n == 0x2028 || n == 0x2029 || n == 0x202f ||
    n == 0x205f || n == 0x3000

/-- Every blank that core knows of is one here. -/
theorem isBlank_of_isWhitespace {c : Char} (h : c.isWhitespace = true) : isBlank c = true := by
  simp only [Char.isWhitespace, Bool.or_eq_true, decide_eq_true_eq] at h
  rcases h with ((rfl | rfl) | rfl) | rfl <;> decide

def trimStart (t : Text) : Text := t.dropWhile isBlank

def trimEnd (t : Text) : Text := (t.reverse.dropWhile isBlank).reverse

def trim (t : Text) : Text := trimEnd (trimStart t)

def isBlankLine (t : Text) : Bool := t.all isBlank

/-- The words of a text, where `passed` is the word under way, in reverse. -/
def wordsFrom (passed : Text) : Text → List Text
  | [] => if passed.isEmpty then [] else [passed.reverse]
  | c :: rest =>
    if isBlank c then
      if passed.isEmpty then wordsFrom [] rest else passed.reverse :: wordsFrom [] rest
    else wordsFrom (c :: passed) rest

/-- The maximal runs of characters that are not blank. -/
def words (t : Text) : List Text := wordsFrom [] t

end Text
end AbcTune
