import AbcTune.Yaml.Scalar
import AbcTune.Yaml.Token.Lexer

/-! # YAML mappings

A document is read as a mapping from scalars to scalars and lists of scalars. Mapping and lists
may be written in blocks or in brackets, and values may be given a name and be used again by it.
What is nested deeper is refused.
-/
namespace AbcTune.Yaml

inductive Value where
  | scalar (s : Scalar)
  | list (items : List Scalar)
  deriving DecidableEq, Repr

/-- The entries of a mapping in the order of writing. -/
abbrev Entries := List (Text × Value)

/-- Tokens still to come, with what the names in them stand for. -/
structure Source where
  tokens : List Token
  /-- Handles of tags. -/
  handles : List (Text × Text)
  /-- Values given a name so far, the last one first. -/
  anchors : List (Text × Value)

/-- What stands before a value. -/
structure Properties where
  anchor : Option Text
  tag : Option Text

namespace Source

def goOn (s : Source) (tokens : List Token) : Source := { s with tokens }

/-- Handles that need not be declared. -/
def usualHandles : List (Text × Text) := [(['!'], ['!']), (['!', '!'], coreStem)]

/-- The tag that a handle and a suffix make up; a single mark is no tag. -/
def tag? (s : Source) (handle suffix : Text) : Option (Option Text) :=
  let stem? := if handle.isEmpty then some [] else (s.handles ++ usualHandles).lookup handle
  stem?.map fun stem => (some (stem ++ suffix)).filter (· ≠ ['!'])

/-- The properties before a value, in either order. -/
def readProperties? (s : Source) : Option (Properties × Source) :=
  match s.tokens with
  | .anchor name :: .tag handle suffix :: rest | .tag handle suffix :: .anchor name :: rest =>
    (s.tag? handle suffix).map fun tag => (⟨some name, tag⟩, s.goOn rest)
  | .anchor name :: rest => some (⟨some name, none⟩, s.goOn rest)
  | .tag handle suffix :: rest =>
    (s.tag? handle suffix).map fun tag => (⟨none, tag⟩, s.goOn rest)
  | _ => some (⟨none, none⟩, s)

def bind (s : Source) (p : Properties) (v : Value) : Source :=
  match p.anchor with
  | none => s
  | some name => { s with anchors := (name, v) :: s.anchors }

/-- A scalar behind its properties. Where there are properties it may be left out. -/
def readScalarBehind? (s : Source) (start : Source) (p : Properties) : Option (Scalar × Source) :=
  match s.tokens with
  | .scalar style text :: rest =>
    let scalar : Scalar := ⟨style, p.tag, text⟩
    some (scalar, (s.goOn rest).bind p (.scalar scalar))
  | _ =>
    if s.tokens.length = start.tokens.length then none
    else some (.empty p.tag, s.bind p (.scalar (.empty p.tag)))

def readScalar? (s : Source) : Option (Scalar × Source) :=
  match s.tokens with
  | .alias name :: rest =>
    match s.anchors.lookup name with
    | some (.scalar scalar) => some (scalar, s.goOn rest)
    | _ => none
  | _ => do
    let (p, behind) ← s.readProperties?
    behind.readScalarBehind? s p

/-- A scalar that is left out where a token stands that cannot start it. -/
def readScalarBefore? (s : Source) (stops : List Token) : Option (Scalar × Source) :=
  if s.tokens.head?.all (stops.contains ·) then some (.empty none, s) else s.readScalar?

/-- The items of a list in a block, at most `fuel` of them. -/
def readBlockItems? : (fuel : Nat) → Source → Option (List Scalar × Source)
  | 0, _ => none
  | fuel + 1, s =>
    match s.tokens with
    | .blockEnd :: rest => some ([], s.goOn rest)
    | .blockEntry :: rest => do
      let (item, s) ← (s.goOn rest).readScalarBefore? [.blockEntry, .blockEnd]
      let (items, s) ← readBlockItems? fuel s
      some (item :: items, s)
    | _ => none

/-- The items of a list that is indented no further than the mapping it is in. -/
def readLevelItems? : (fuel : Nat) → Source → Option (List Scalar × Source)
  | 0, _ => none
  | fuel + 1, s =>
    match s.tokens with
    | .blockEntry :: rest => do
      let (item, s) ← (s.goOn rest).readScalarBefore? [.blockEntry, .key, .value, .blockEnd]
      let (items, s) ← readLevelItems? fuel s
      some (item :: items, s)
    | _ => some ([], s)

/-- The items of a list in brackets from here on, where a comma may be the last. -/
def readFlowItems? : (fuel : Nat) → Source → Option (List Scalar × Source)
  | 0, _ => none
  | fuel + 1, s =>
    match s.tokens with
    | .flowSequenceEnd :: rest => some ([], s.goOn rest)
    | _ => do
      let (item, s) ← s.readScalar?
      match s.tokens with
      | .flowSequenceEnd :: rest => some ([item], s.goOn rest)
      | .flowEntry :: rest =>
        let (items, s) ← readFlowItems? fuel (s.goOn rest)
        some (item :: items, s)
      | _ => none

/-- A value behind its properties. -/
def readValueBehind? (s : Source) (start : Source) (p : Properties) : Option (Value × Source) :=
  let most := s.tokens.length
  let list (result : Option (List Scalar × Source)) : Option (Value × Source) :=
    result.map fun (items, s) => (.list items, s.bind p (.list items))
  match s.tokens with
  | .flowSequence :: rest => list ((s.goOn rest).readFlowItems? most)
  | .blockSequence :: rest => list ((s.goOn rest).readBlockItems? most)
  | .blockEntry :: _ => list (s.readLevelItems? most)
  | _ => (s.readScalarBehind? start p).map fun (scalar, s) => (.scalar scalar, s)

def readValue? (s : Source) : Option (Value × Source) :=
  match s.tokens with
  | .alias name :: rest => (s.anchors.lookup name).map (·, s.goOn rest)
  | _ => do
    let (p, behind) ← s.readProperties?
    behind.readValueBehind? s p

/-- What stands behind a key: a colon and a value, where both may be left out. -/
def readEntryValue? (s : Source) (stops : List Token) : Option (Value × Source) :=
  match s.tokens with
  | .value :: rest =>
    let s := s.goOn rest
    if rest.head?.all (stops.contains ·) then some (.scalar (.empty none), s) else s.readValue?
  | _ => some (.scalar (.empty none), s)

def readBlockEntries? : (fuel : Nat) → Source → Option (Entries × Source)
  | 0, _ => none
  | fuel + 1, s =>
    match s.tokens with
    | .blockEnd :: rest => some ([], s.goOn rest)
    | .key :: rest => do
      let (key, s) ← (s.goOn rest).readScalarBefore? [.key, .value, .blockEnd]
      let (value, s) ← s.readEntryValue? [.key, .value, .blockEnd]
      let (entries, s) ← readBlockEntries? fuel s
      some ((key.text, value) :: entries, s)
    | _ => none

/-- One entry of a mapping in brackets; a scalar without a colon is a key as well. -/
def readFlowEntry? (s : Source) : Option ((Text × Value) × Source) :=
  match s.tokens with
  | .key :: rest => do
    let (key, s) ← (s.goOn rest).readScalarBefore? [.value, .flowEntry, .flowMappingEnd]
    let (value, s) ← s.readEntryValue? [.flowEntry, .flowMappingEnd]
    some ((key.text, value), s)
  | _ => s.readScalar?.map fun (key, s) => ((key.text, .scalar (.empty none)), s)

/-- The entries of a mapping in brackets from here on, where a comma may be the last. -/
def readFlowEntries? : (fuel : Nat) → Source → Option (Entries × Source)
  | 0, _ => none
  | fuel + 1, s =>
    match s.tokens with
    | .flowMappingEnd :: rest => some ([], s.goOn rest)
    | _ => do
      let (entry, s) ← s.readFlowEntry?
      match s.tokens with
      | .flowMappingEnd :: rest => some ([entry], s.goOn rest)
      | .flowEntry :: rest =>
        let (entries, s) ← readFlowEntries? fuel (s.goOn rest)
        some (entry :: entries, s)
      | _ => none

/-- The mapping of a document. One that is left out has no entries. -/
def readRoot? (s : Source) : Option (Entries × Source) := do
  let (_, behind) ← s.readProperties?
  let most := behind.tokens.length
  match behind.tokens with
  | .blockMapping :: rest => (behind.goOn rest).readBlockEntries? most
  | .flowMapping :: rest => (behind.goOn rest).readFlowEntries? most
  | rest => if rest.length = s.tokens.length then none else some ([], behind)

/-- Whether a document that has been started has no content. -/
def isVoid (s : Source) : Bool :=
  match s.tokens with
  | [] | .documentStart :: _ | .documentEnd :: _ | .version _ _ :: _ | .handle _ _ :: _ => true
  | _ => false

end Source

/-- The versions of the language that may be declared. -/
def isVersion (major minor : Nat) : Bool := major = 1 && (minor = 1 || minor = 2)

/-- The handles that are declared before a document, each at most once, and what follows. -/
def readDeclarations? (versioned : Bool) (handles : List (Text × Text)) :
    List Token → Option (List (Text × Text) × List Token)
  | .version major minor :: rest =>
    if versioned || !isVersion major minor then none else readDeclarations? true handles rest
  | .handle name stem :: rest =>
    if (handles.lookup name).isSome then none
    else readDeclarations? versioned ((name, stem) :: handles) rest
  | tokens => some (handles, tokens)

/-- The mapping of the document that tokens start with, and what follows it. -/
def readDocument? (tokens : List Token) : Option (Entries × List Token) := do
  let (handles, rest) ← readDeclarations? false [] tokens
  let (entries, s) ← match rest with
    | .documentStart :: rest =>
      let s : Source := ⟨rest, handles, []⟩
      if s.isVoid then some ([], s) else s.readRoot?
    | _ => if rest.length = tokens.length then Source.readRoot? ⟨rest, [], []⟩ else none
  some (entries, s.tokens)

/-- Reads a text with one document as a mapping; a text without any has no entries. -/
def readMapping? (t : Text) : Option Entries := do
  let tokens ← Token.read? t
  if tokens.isEmpty then some []
  else
    let (entries, rest) ← readDocument? tokens
    if rest.all (· = .documentEnd) then some entries else none

end AbcTune.Yaml
