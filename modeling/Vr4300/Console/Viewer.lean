import Vr4300.Console.Store
import Vr4300.Text.Bytes
import Vr4300.Text.Writer

/-! Writing to the debug console.

A `Viewer` hands bytes to the host in packets: it stores the bytes into the buffer, then their
number into the length register, which makes the host pick them up. `Viewer.writeBytes` makes one
packet and says how many bytes it holds, `Viewer.writeAll` makes as many as the bytes need. As a
`TextWriter` a viewer takes the UTF-8 bytes of any text. -/

namespace Vr4300.Console

/-- Stores into the buffer, one for every word. -/
def dataStores (bytes : List UInt8) : List Store :=
  (Word.packAll bytes).mapIdx fun i w => ⟨bufferOffset + 4 * i, w⟩

/-- The stores that hand over at most a buffer of bytes; the length comes last. -/
def packet (bytes : List UInt8) : List Store :=
  dataStores bytes ++ [⟨lengthOffset, .ofNat bytes.length⟩]

/-- A console behind a destination of stores. -/
structure Viewer (σ : Type) where
  regs : σ
  deriving DecidableEq, Repr

namespace Viewer

variable {σ : Type} [WordStore σ]

/-- Hands over what fits the buffer, and how many bytes that was. -/
def writeBytes (bytes : List UInt8) (v : Viewer σ) : Nat × Viewer σ :=
  let taken := bytes.take bufferSize
  (taken.length, ⟨storeAll (packet taken) v.regs⟩)

theorem writeBytes_fst (bytes : List UInt8) (v : Viewer σ) :
    (v.writeBytes bytes).1 = min bufferSize bytes.length := List.length_take

theorem drop_writeBytes_fst (bytes : List UInt8) (v : Viewer σ) :
    bytes.drop (v.writeBytes bytes).1 = bytes.drop bufferSize := by
  rw [writeBytes_fst]
  by_cases hle : bufferSize ≤ bytes.length
  · rw [Nat.min_eq_left hle]
  · have hge := Nat.le_of_not_le hle
    rw [Nat.min_eq_right hge, List.drop_length, List.drop_eq_nil_of_le hge]

/-- Packet after packet until no byte is left. -/
def writeAll (bytes : List UInt8) (v : Viewer σ) : Viewer σ :=
  if _h : bytes = [] then v
  else
    let r := v.writeBytes bytes
    writeAll (bytes.drop r.1) r.2
termination_by bytes.length
decreasing_by
  have := List.length_pos_iff.mpr _h
  simp only [writeBytes_fst, List.length_drop, bufferSize]
  omega

@[simp] theorem writeAll_nil (v : Viewer σ) : v.writeAll [] = v := by
  rw [writeAll]; simp

theorem writeAll_of_ne_nil {bytes : List UInt8} (h : bytes ≠ []) (v : Viewer σ) :
    v.writeAll bytes = (v.writeBytes bytes).2.writeAll (bytes.drop bufferSize) := by
  rw [writeAll]
  simp only [h, ↓reduceDIte, drop_writeBytes_fst]

/-- Text is never refused. -/
def write (text : String) (v : Viewer σ) : Except Text.Refusal Unit × Viewer σ :=
  (.ok (), v.writeAll (Text.bytes text))

def writeChar (c : Char) (v : Viewer σ) : Except Text.Refusal Unit × Viewer σ :=
  v.write (String.singleton c)

instance : Text.TextWriter (Viewer σ) := ⟨write⟩

end Viewer

end Vr4300.Console
