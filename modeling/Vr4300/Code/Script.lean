import Vr4300.Code.Sink

/-! A sink with prepared answers, for trying out what a generator makes of them. -/

namespace Vr4300.Code

structure ScriptedSink where
  /-- What `remaining` returns, call by call; the last entry stays. -/
  answers : List Nat
  /-- How many more words are taken. -/
  accepts : Nat
  /-- What a word is refused with after that. -/
  failure : Error
  deriving DecidableEq, Repr

namespace ScriptedSink

def remaining (s : ScriptedSink) : Nat × ScriptedSink :=
  match s.answers with
  | [] => (0, s)
  | [n] => (n, s)
  | n :: ns => (n, { s with answers := ns })

def emit (_word : UInt32) (s : ScriptedSink) : Except Error Unit × ScriptedSink :=
  match s.accepts with
  | 0 => (.error s.failure, s)
  | n + 1 => (.ok (), { s with accepts := n })

instance : InstructionSink ScriptedSink := ⟨remaining, emit⟩

end ScriptedSink

end Vr4300.Code
