import Vr4300.Console.Viewer
import Vr4300.Exception.Report

/-! Commands on one viewer, with the log records that they issue. -/

namespace Vr4300.Console

inductive Command where
  | writeBytes (bytes : List UInt8)
  | write (text : String)
  | writeChar (c : Char)
  | report (frame : Exception.Frame)

inductive Answer where
  | count (n : Nat)
  | written (r : Except Text.Refusal Unit)
  | reported (r : Except Error Unit)

/-- The record holds the pieces of a report; other commands only change the viewer. -/
def Command.perform {σ : Type} [WordStore σ] : Command → Action String (Viewer σ) Answer
  | writeBytes bytes => .count <$> .silent (·.writeBytes bytes)
  | write text => .written <$> .silent (·.write text)
  | writeChar c => .written <$> .silent (·.writeChar c)
  | report frame => .reported <$> frame.report

end Vr4300.Console
