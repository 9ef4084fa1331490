/-! # Files

Reading a file gives its text or says why there is none.
-/
namespace AbcTune

inductive FileProblem where
  | missing
  | directory
  | notDirectory
  | notText
  | other (text : String)
  deriving DecidableEq, Repr

def FileProblem.message : FileProblem → String
  | .missing => "No such file or directory (os error 2)"
  | .directory => "Is a directory (os error 21)"
  | .notDirectory => "Not a directory (os error 20)"
  | .notText => "stream did not contain valid UTF-8"
  | .other text => text

abbrev ReadFile := String → Except FileProblem String

end AbcTune
