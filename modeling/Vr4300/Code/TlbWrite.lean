import Vr4300.Code.Sink

/-! The write of a TLB entry, safe from the pipeline hazard.

The instruction that writes the entry must not follow an access to coprocessor 0 at once, so it is
only ever issued behind a no-operation: `TlbWrite.sequence` has the two words,
`TlbWrite.assembly` the same for an assembler, and `TlbWrite.emit` puts both into a sink, or neither
when the sink says that it has no room for two. -/

namespace Vr4300.Code

namespace Instruction

/-- A shift of register 0 into itself. -/
def nop : UInt32 := 0x00000000

/-- Writes the TLB entry that the Index register selects. -/
def tlbwi : UInt32 := 0x42000002

end Instruction

namespace TlbWrite

def sequence : List UInt32 := [Instruction.nop, Instruction.tlbwi]

def assembly : String := "nop\n.word " ++ Numeral.markedHex Instruction.tlbwi.toNat

variable {σ : Type} [InstructionSink σ]

/-- Where the sink has no room it is asked again, for the log record. -/
def emit : Action SinkCall σ (Except Error Unit) := do
  if (← Sink.remaining) < sequence.length then
    let left ← Sink.remaining
    .log .debug ("no room for tlbwi sequence (" ++ Numeral.decimal left ++ " words left)")
    return .error .bufferFull
  else Sink.emitAll sequence

end TlbWrite

/-! ## Runs -/

/-- A step of a program that generates code. -/
inductive Step where
  | emit (word : UInt32)
  | tlbWrite
  deriving DecidableEq, Repr

def Step.perform {σ : Type} [InstructionSink σ] : Step → Action SinkCall σ (Except Error Unit)
  | emit word => Sink.emit word
  | tlbWrite => TlbWrite.emit

end Vr4300.Code
