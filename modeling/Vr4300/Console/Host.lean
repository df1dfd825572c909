import Vr4300.Console.Command

/-! The host side of the debug console.

The host watches the register block. Whenever the length register is stored it takes that many
bytes from the start of the buffer. `Command.delivered` is what a command means it to take. -/

namespace Vr4300.Console

structure Host where
  block : Block
  /-- The bytes taken so far. -/
  output : List UInt8

namespace Host

def store (x : Store) (h : Host) : Host where
  block := h.block.store x
  output :=
    if x.offset = lengthOffset then h.output ++ (h.block.store x).bytes.take x.value.toNat
    else h.output

instance : WordStore Host := ⟨store⟩

@[simp] theorem block_store (x : Store) (h : Host) : (h.store x).block = h.block.store x := rfl

theorem block_storeAll (xs : List Store) (h : Host) :
    (storeAll xs h).block = storeAll xs h.block := by
  induction xs generalizing h with
  | nil => rfl
  | cons x xs ih => exact ih (h.store x)

theorem output_store_of_ne {x : Store} (h : Host) (hx : x.offset ≠ lengthOffset) :
    (h.store x).output = h.output := if_neg hx

end Host

/-- The bytes that reach the host. -/
def Command.delivered : Command → List UInt8
  | writeBytes bytes => bytes.take bufferSize
  | write text => Text.bytes text
  | writeChar c => String.utf8EncodeChar c
  | report frame => Text.bytes (String.join frame.reportPieces)

end Vr4300.Console
