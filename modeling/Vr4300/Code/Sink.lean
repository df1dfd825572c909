import Vr4300.Action
import Vr4300.Error

/-! Destinations of instruction words.

An `InstructionSink` says how many words it still takes and takes them one at a time. Its answers
need not fit each other. `Sink.remaining` and `Sink.emit` are its operations with the calls on
record, `accepted` the words that the calls on a record got into the sink. -/

namespace Vr4300.Code

/-- Both operations may change the sink, also a refused `emit`. -/
class InstructionSink (σ : Type) where
  remaining : σ → Nat × σ
  emit : UInt32 → σ → Except Error Unit × σ

/-- A call on a sink: what `remaining` returned, or the word for `emit` and what became of it. -/
inductive SinkCall where
  | remaining (count : Nat)
  | emit (word : UInt32) (result : Except Error Unit)

namespace SinkCall

def accepted? : SinkCall → Option UInt32
  | emit word (.ok ()) => some word
  | _ => none

end SinkCall

def accepted (calls : List SinkCall) : List UInt32 := calls.filterMap SinkCall.accepted?

namespace Sink

variable {σ : Type} [InstructionSink σ]

def remaining : Action SinkCall σ Nat :=
  .call (fun s => .remaining (InstructionSink.remaining s).1) InstructionSink.remaining

def emit (word : UInt32) : Action SinkCall σ (Except Error Unit) :=
  .call (fun s => .emit word (InstructionSink.emit word s).1) (InstructionSink.emit word)

/-- Stops at the first word that the sink refuses. -/
def emitAll : List UInt32 → Action SinkCall σ (Except Error Unit)
  | [] => return .ok ()
  | word :: words => do
    match ← emit word with
    | .ok () => emitAll words
    | .error e => return .error e

end Sink

end Vr4300.Code
