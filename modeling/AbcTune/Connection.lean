import AbcTune.Config

/-! # Opening a player

A player listens at an address. Where none can be reached there, the configured program is started
once and the connection tried again. What is described here is every way in which this fails.
-/
namespace AbcTune

/-- What is wrong with an address, or with reaching it. -/
inductive AddressProblem where
  | noPort
  | badPort
  | refused
  deriving DecidableEq, Repr

def AddressProblem.message : AddressProblem → String
  | .noPort => "invalid socket address"
  | .badPort => "invalid port value"
  | .refused => "Connection refused (os error 111)"

def mostPort : Nat := 65535

/-- What makes an address unusable: it needs a port behind its last colon. -/
def addressProblem? (address : Text) : Option AddressProblem :=
  match Text.cutLastMark [':'] address with
  | none => some .noPort
  | some (_, port) => if (Number.readNat? mostPort port).isNone then some .badPort else none

/-- Why no player can be opened. -/
inductive OpenProblem where
  | connect (address : Text) (problem : AddressProblem)
  | noProgram
  | emptyCommand
  deriving DecidableEq, Repr

def OpenProblem.cause : OpenProblem → String
  | .connect _ p => p.message
  | .noProgram => FileProblem.missing.message
  | .emptyCommand => "empty player command"

def OpenProblem.message : OpenProblem → String
  | .connect address p => "Could not connect to " ++ String.ofList address ++ ": " ++ p.message
  | p => "Could not start player process: " ++ p.cause

/-- Why no player can be opened where nothing listens, given which programs there are. The
connection is tried first, but a program that cannot be started is what is reported. -/
def openProblem (hasProgram : Text → Bool) (listen : Text) (command : Option (List Text)) :
    OpenProblem :=
  match command with
  | some [] => .emptyCommand
  | some (program :: _) =>
    if hasProgram program then .connect listen ((addressProblem? listen).getD .refused)
    else .noProgram
  | none => .connect listen ((addressProblem? listen).getD .refused)

end AbcTune
