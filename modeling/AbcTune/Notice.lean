/-! # Notices

A notice is a line of the log. It has a level and never changes what is read or played.
-/
namespace AbcTune

inductive Level where
  | error | warn | info | debug | trace
  deriving DecidableEq, Repr

def Level.name : Level → String
  | .error => "error"
  | .warn => "warn"
  | .info => "info"
  | .debug => "debug"
  | .trace => "trace"

structure Notice where
  level : Level
  text : String
  deriving DecidableEq, Repr

namespace Notice

def warn (text : String) : Notice := ⟨.warn, text⟩

def info (text : String) : Notice := ⟨.info, text⟩

def debug (text : String) : Notice := ⟨.debug, text⟩

end Notice
end AbcTune
