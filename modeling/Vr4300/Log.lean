/-! Log records. Every record carries the one target of this library. -/

namespace Vr4300.Log

inductive Level where
  | error | debug | trace
  deriving DecidableEq, Repr

def Level.name : Level → String
  | error => "ERROR"
  | debug => "DEBUG"
  | trace => "TRACE"

structure Record where
  level : Level
  target : String
  message : String
  deriving DecidableEq, Repr

def target : String := "n64_machine"

/-- A record as this library issues it. -/
def record (level : Level) (message : String) : Record := ⟨level, target, message⟩

end Vr4300.Log
