import AbcTune.Text.Blank

/-! # Cutting text at marks

A text is cut at a character or at a short mark into what stands before and what stands after.
The scans keep what they have passed in reverse, so that long texts need no stack.
-/
namespace AbcTune.Text

/-- The text before and after the first `sep`. -/
def cutAt (sep : Char) (t : Text) : Option (Text × Text) :=
  match t.dropWhile (· != sep) with
  | [] => none
  | _ :: after => some (t.takeWhile (· != sep), after)

/-- The pieces between the occurrences of `sep`, where `passed` is the piece under way, in
reverse. -/
def piecesFrom (sep : Char) (passed : Text) : Text → List Text
  | [] => [passed.reverse]
  | c :: rest =>
    if c = sep then passed.reverse :: piecesFrom sep [] rest else piecesFrom sep (c :: passed) rest

/-- The pieces between the occurrences of `sep`: one more than there are occurrences. -/
def pieces (sep : Char) (t : Text) : List Text := piecesFrom sep [] t

def cutMarkFrom (mark passed : Text) : Text → Option (Text × Text)
  | [] => none
  | c :: rest =>
    if mark.isPrefixOf (c :: rest) then some (passed.reverse, (c :: rest).drop mark.length)
    else cutMarkFrom mark (c :: passed) rest

/-- The text before and after the first occurrence of a mark. -/
def cutMark (mark t : Text) : Option (Text × Text) := cutMarkFrom mark [] t

def cutLastMarkFrom (mark passed : Text) (best : Option (Text × Text)) :
    Text → Option (Text × Text)
  | [] => best
  | c :: rest =>
    let here := if mark.isPrefixOf (c :: rest) then some (passed, c :: rest) else best
    cutLastMarkFrom mark (c :: passed) here rest

/-- The text before and after the last occurrence of a mark. -/
def cutLastMark (mark t : Text) : Option (Text × Text) :=
  (cutLastMarkFrom mark [] none t).map fun (before, rest) =>
    (before.reverse, rest.drop mark.length)

def hasMark (mark t : Text) : Bool := (cutMark mark t).isSome

def replacePairFrom (a b : Char) (new passed : Text) : Text → Text
  | [] => passed.reverse
  | [x] => (x :: passed).reverse
  | x :: y :: rest =>
    if x = a ∧ y = b then replacePairFrom a b new (new.reverse ++ passed) rest
    else replacePairFrom a b new (x :: passed) (y :: rest)

/-- Writes `new` for each `a` directly followed by `b`, from left to right. -/
def replacePair (a b : Char) (new t : Text) : Text := replacePairFrom a b new [] t

/-- Drops `mark` from the front of a text that starts with it. -/
def dropMark? (mark t : Text) : Option Text :=
  if mark.isPrefixOf t then some (t.drop mark.length) else none

/-- The lines found in `done` (last first), the line under way, and those still to come. -/
def lineBlocksFrom (done : List Text) (current : Text) : Text → List Text
  | [] => (if current.isEmpty then done else current.reverse :: done).reverse
  | c :: rest =>
    if c = '\n' then lineBlocksFrom ((c :: current).reverse :: done) [] rest
    else lineBlocksFrom done (c :: current) rest

/-- The lines of a text, each with the line feed that ends it. -/
def lineBlocks (t : Text) : List Text := lineBlocksFrom [] [] t

/-- A line without the line feed that ends it, nor a carriage return before that. -/
def dropLineEnd (line : Text) : Text :=
  match line.reverse with
  | '\n' :: '\r' :: rest => rest.reverse
  | '\n' :: rest => rest.reverse
  | _ => line

/-- The lines of a text, without what ends them. -/
def lines (t : Text) : List Text := (lineBlocks t).map dropLineEnd

/-- Bytes that the text takes in UTF-8. -/
def byteLength (t : Text) : Nat := t.foldl (fun n c => n + c.utf8Size) 0

/-- Writes ASCII capitals small and leaves all other characters. -/
def toLower (t : Text) : Text := t.map Char.toLower

/-- Writes small ASCII letters as capitals and leaves all other characters. -/
def toUpper (t : Text) : Text := t.map Char.toUpper

/-- Joins texts with `sep` between them. -/
def join (sep : Text) : List Text → Text
  | [] => []
  | [t] => t
  | t :: rest => t ++ sep ++ join sep rest

theorem length_dropWhile_le (p : Char → Bool) (t : Text) : (t.dropWhile p).length ≤ t.length :=
  (List.dropWhile_sublist p).length_le

end AbcTune.Text
