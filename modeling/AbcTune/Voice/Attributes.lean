import AbcTune.Number.Display
import AbcTune.Number.Reading
import AbcTune.Voice

/-! # Voice attributes

The settings of a voice are written as pairs such as `clef=bass` or as bare words. A pair with an
unknown key sets nothing; one whose value cannot be understood spoils the whole list.
-/
namespace AbcTune

inductive AttributeProblem where
  | unknownClef (value : Text)
  | badNumber (key value : Text)
  | programRange (program : Int)
  | channelRange (channel : Nat)
  | volumeRange (volume : Float32)

def AttributeProblem.message : AttributeProblem → String
  | .unknownClef value => "Unknown clef '" ++ String.ofList value ++ "'"
  | .badNumber key value =>
    "Invalid " ++ String.ofList key ++ " value '" ++ String.ofList value ++ "'"
  | .programRange n => "Program " ++ toString n ++ " out of range 0-127"
  | .channelRange n => "Channel " ++ toString n ++ " out of range 1-16"
  | .volumeRange v => "Volume " ++ Number.plainSingle v ++ " out of range"

inductive Setting where
  | name (value : String)
  | subname (value : String)
  | clef (value : Clef)
  | transpose (semitones : Int)
  | octave (octaves : Int)
  | program (value : Nat)
  | channel (value : Nat)
  | volume (value : Float32)
  | muted (value : Bool)

/-- The settings given in one place; an absent one leaves the voice as it is. -/
structure Attributes where
  name : Option String
  subname : Option String
  clef : Option Clef
  transpose : Option Int
  octave : Option Int
  program : Option Nat
  channel : Option Nat
  volume : Option Float32
  muted : Option Bool

namespace Attributes

def none : Attributes where
  name := .none
  subname := .none
  clef := .none
  transpose := .none
  octave := .none
  program := .none
  channel := .none
  volume := .none
  muted := .none

def isEmpty (a : Attributes) : Bool :=
  a.name.isNone && a.subname.isNone && a.clef.isNone && a.transpose.isNone && a.octave.isNone &&
    a.program.isNone && a.channel.isNone && a.volume.isNone && a.muted.isNone

/-- A later setting replaces an earlier one of its kind. -/
def set (a : Attributes) : Setting → Attributes
  | .name value => { a with name := some value }
  | .subname value => { a with subname := some value }
  | .clef value => { a with clef := some value }
  | .transpose value => { a with transpose := some value }
  | .octave value => { a with octave := some value }
  | .program value => { a with program := some value }
  | .channel value => { a with channel := some value }
  | .volume value => { a with volume := some value }
  | .muted value => { a with muted := some value }

def dropPlus (t : Text) : Text := t.dropWhile (· = '+')

/-- The value of a reading, or the problem that `key` has with it. -/
def orBadNumber {α : Type} (key value : Text) : Option α → Except AttributeProblem α
  | some x => .ok x
  | Option.none => .error (.badNumber key value)

/-- Shifts are whole numbers that fit in a signed byte. -/
def readShift (key value : Text) : Except AttributeProblem Int :=
  orBadNumber key value (Number.readInt? (-128) 127 (dropPlus value))

def readByte (key value : Text) : Except AttributeProblem Nat :=
  orBadNumber key value (Number.readNat? 255 (dropPlus value))

def readProgram (key value : Text) : Except AttributeProblem Nat := do
  let n ← readByte key value
  if 127 < n then .error (.programRange n) else .ok n

/-- Channels are written from 1 to 16 and count from 0. -/
def readChannel (value : Text) : Except AttributeProblem Nat := do
  let n ← readByte "channel".toList value
  if 1 ≤ n ∧ n ≤ 16 then .ok (n - 1) else .error (.channelRange n)

/-- A volume is written as a number up to 1, or as one up to 127. -/
def readVolume (value : Text) : Except AttributeProblem Float32 := do
  let v ← orBadNumber "volume".toList value (Number.readFloat32? (dropPlus value))
  if 0.0 ≤ v ∧ v ≤ 1.0 then .ok v
  else if 0.0 ≤ v ∧ v ≤ 127.0 then .ok (v / 127.0)
  else .error (.volumeRange v)

/-- All words but these four switch something on. -/
def readSwitch (value : Text) : Bool :=
  String.ofList (Text.toLower value) ∉ ["0", "false", "no", "off"]

def readClef (value : Text) : Except AttributeProblem Clef :=
  match Clef.read? value with
  | some clef => .ok clef
  | Option.none => .error (.unknownClef value)

/-- Reads a pair; an unknown key sets nothing. -/
def readPair (key value : Text) : Except AttributeProblem (Option Setting) :=
  match String.ofList key with
  | "name" | "nm" => .ok (some (.name (String.ofList value)))
  | "subname" | "snm" | "sname" => .ok (some (.subname (String.ofList value)))
  | "clef" => (readClef value).map fun c => some (.clef c)
  | "transpose" | "t" => (readShift key value).map fun n => some (.transpose n)
  | "octave" => (readShift key value).map fun n => some (.octave n)
  | "program" | "instrument" => (readProgram key value).map fun n => some (.program n)
  | "channel" => (readChannel value).map fun n => some (.channel n)
  | "volume" | "vol" => (readVolume value).map fun v => some (.volume v)
  | "mute" | "muted" => .ok (some (.muted (readSwitch value)))
  | _ => .ok Option.none

/-- Reads a bare word, which may name a clef; an unknown word sets nothing. -/
def readFlag (flag : Text) : Option Setting :=
  match String.ofList (Text.toLower flag) with
  | "mute" | "muted" => some (.muted true)
  | _ => (Clef.read? (Text.toLower flag)).map .clef

def setOption (a : Attributes) : Option Setting → Attributes
  | some s => a.set s
  | Option.none => a

def readPairs (a : Attributes) : List (Text × Text) → Except AttributeProblem Attributes
  | [] => .ok a
  | (key, value) :: rest => do
    let s ← readPair key value
    readPairs (a.setOption s) rest

/-- Reads pairs and then bare words, from left to right. -/
def read (pairs : List (Text × Text)) (flags : List Text) : Except AttributeProblem Attributes :=
  (readPairs none pairs).map fun a => flags.foldl (fun a f => a.setOption (readFlag f)) a

/-- Pairs with an unknown key, up to the first one that cannot be understood. -/
def ignoredPairs : List (Text × Text) → List (Text × Text)
  | [] => []
  | (key, value) :: rest =>
    match readPair key value with
    | .error _ => []
    | .ok (some _) => ignoredPairs rest
    | .ok Option.none => (key, value) :: ignoredPairs rest

def ignoredFlags (flags : List Text) : List Text := flags.filter fun f => (readFlag f).isNone

end Attributes

/-- Gives a voice the settings that are present. The percussion clef moves it to the percussion
channel unless its channel was stated. -/
def Voice.withAttributes {β : Type} (v : Voice β) (a : Attributes) : Voice β :=
  { v with
    name := a.name <|> v.name
    subname := a.subname <|> v.subname
    clef := a.clef.getD v.clef
    channel := a.channel.getD
      (if a.clef = some .percussion ∧ v.fixedChannel = false then percussionChannel else v.channel)
    fixedChannel := v.fixedChannel || a.channel.isSome
    transpose := a.transpose.getD v.transpose
    octave := a.octave.getD v.octave
    program := a.program <|> v.program
    volume := a.volume.getD v.volume
    muted := a.muted.getD v.muted }

end AbcTune
