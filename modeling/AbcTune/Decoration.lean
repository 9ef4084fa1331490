/-! # Decorations

A decoration is known by its name. Dynamics set the velocity of the notes from there on, accents
and hairpins move it, and staccato halves the sounding length.
-/
namespace AbcTune

inductive DecorationKind where
  | dynamic | accent | staccato | tenuto | fermata | trill | ornament
  | crescendo | diminuendo | bowing | navigation | other
  deriving DecidableEq, Repr

def DecorationKind.name : DecorationKind → String
  | .dynamic => "dynamic"
  | .accent => "accent"
  | .staccato => "staccato"
  | .tenuto => "tenuto"
  | .fermata => "fermata"
  | .trill => "trill"
  | .ornament => "ornament"
  | .crescendo => "crescendo"
  | .diminuendo => "diminuendo"
  | .bowing => "bowing"
  | .navigation => "navigation"
  | .other => "other"

structure Decoration where
  kind : DecorationKind
  /-- The name as written. -/
  variant : String
  /-- Whether it lasts from an opening mark to a closing one. -/
  spanning : Bool
  /-- The velocity of a dynamic, and the change of velocity of an accent or hairpin. -/
  intensity : Int
  deriving DecidableEq, Repr

namespace Decoration

def accentBoost : Int := 20

/-- Change of velocity from note to note inside a hairpin. -/
def hairpinStep : Int := 6

def classify : String → DecorationKind × Int
  | "pppp" => (.dynamic, 20)
  | "ppp" => (.dynamic, 30)
  | "pp" => (.dynamic, 45)
  | "p" => (.dynamic, 60)
  | "mp" => (.dynamic, 70)
  | "mf" => (.dynamic, 80)
  | "f" => (.dynamic, 95)
  | "ff" => (.dynamic, 110)
  | "fff" => (.dynamic, 120)
  | "ffff" => (.dynamic, 127)
  | "sfz" => (.accent, 30)
  | "accent" | ">" | "emphasis" | "L" => (.accent, accentBoost)
  | "staccato" | "." => (.staccato, 0)
  | "tenuto" => (.tenuto, 0)
  | "fermata" | "H" | "invertedfermata" => (.fermata, 0)
  | "trill" | "T" => (.trill, 0)
  | "roll" | "~" | "mordent" | "lowermordent" | "M" | "uppermordent" | "pralltriller" | "P"
  | "turn" | "invertedturn" | "slide" | "arpeggio" => (.ornament, 0)
  | "crescendo" | "<" | "cresc" => (.crescendo, hairpinStep)
  | "diminuendo" | "dim" | "decresc" => (.diminuendo, -hairpinStep)
  | "upbow" | "u" | "downbow" | "v" => (.bowing, 0)
  | "segno" | "S" | "coda" | "O" | "D.C." | "D.S." | "fine" => (.navigation, 0)
  | _ => (.other, 0)

def ofName (name : String) : Decoration :=
  let (kind, intensity) := classify name
  { kind, variant := name, spanning := false, intensity }

def affectsVelocity (d : Decoration) : Bool :=
  match d.kind with
  | .dynamic | .accent | .crescendo | .diminuendo => true
  | _ => false

def affectsDuration (d : Decoration) : Bool := d.kind == .staccato

end Decoration
end AbcTune
