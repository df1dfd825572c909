import Vr4300.Action
import Vr4300.Error

/-! Destinations of text.

A `TextWriter` takes text piece by piece and may refuse any piece, having taken some of it or
nothing. `Writer.write` and `Writer.writeAll` are its use with the pieces on record. A
`LimitedWriter` keeps what it takes and refuses by number or by size. -/

namespace Vr4300.Text

/-- A piece was refused. -/
inductive Refusal where
  | refused
  deriving DecidableEq, Repr

def Refusal.toError : Refusal → Error := fun _ => .outputRefused

class TextWriter (ω : Type) where
  write : String → ω → Except Refusal Unit × ω

namespace Writer

variable {ω : Type} [TextWriter ω]

/-- The record of a call is the piece, taken or not. -/
def write (piece : String) : Action String ω (Except Error Unit) :=
  .call (fun _ => piece) fun w =>
    let r := TextWriter.write piece w
    (r.1.mapError Refusal.toError, r.2)

/-- Stops at the first piece that the writer refuses. -/
def writeAll : List String → Action String ω (Except Error Unit)
  | [] => return .ok ()
  | piece :: pieces => do
    match ← write piece with
    | .ok () => writeAll pieces
    | .error e => return .error e

end Writer

/-! ## A writer with limits -/

structure LimitedWriter where
  /-- The number of the call to refuse, from 0. -/
  refuses : Option Nat
  /-- How many bytes it takes in all. -/
  capacity : Option Nat
  /-- Calls so far, refused ones included. -/
  calls : Nat
  /-- What it took, piece by piece. -/
  pieces : List String
  deriving DecidableEq, Repr

namespace LimitedWriter

def make (refuses capacity : Option Nat) : LimitedWriter := ⟨refuses, capacity, 0, []⟩

/-- Bytes taken so far. -/
def size (w : LimitedWriter) : Nat := (String.join w.pieces).utf8ByteSize

/-- A refused piece is not taken in part. -/
def write (piece : String) (w : LimitedWriter) : Except Refusal Unit × LimitedWriter :=
  let w' := { w with calls := w.calls + 1 }
  if w.refuses = some w.calls ∨ ∃ c ∈ w.capacity, c < w.size + piece.utf8ByteSize then
    (.error .refused, w')
  else (.ok (), { w' with pieces := w.pieces ++ [piece] })

instance : TextWriter LimitedWriter := ⟨write⟩

end LimitedWriter

end Vr4300.Text
