import Vr4300.Exception.Frame
import Vr4300.Text.Writer

/-! The report of an exception that nobody handled.

`Frame.report` logs one line and hands the report to a text writer in eleven pieces: a title, then
for each field of the frame its label and its 16 hexadecimal digits. It stops where the writer
refuses a piece. -/

namespace Vr4300.Exception

/-! ## Digits -/

/-- The ASCII code of a digit below 16. -/
def digit (n : UInt8) : UInt8 := if 9 < n then 0x61 + n - 10 else 0x30 + n

/-- The hexadecimal digits of a word, the highest first, as ASCII codes. -/
def digits (w : UInt64) : Vector UInt8 16 :=
  .ofFn fun i => digit ((w >>> (60 - 4 * .ofNat i)) &&& 0xf).toUInt8

/-- The digits as text; codes that are no text would show as question marks. -/
def digitText (w : UInt64) : String :=
  (String.fromUTF8? ⟨(digits w).toArray⟩).getD "????????????????"

/-! ## Text -/

namespace Frame

def title : String := "UNHANDLED EXCEPTION"

def Field.label : Field → String
  | cause => "\ncause    0x"
  | epc => "\nepc      0x"
  | status => "\nstatus   0x"
  | badVAddr => "\nbadvaddr 0x"
  | sp => "\nsp       0x"

def reportPieces (f : Frame) : List String :=
  title :: Field.all.flatMap fun field => [field.label, digitText (f.get field)]

/-- Names the exception if it has a name, and gives the Cause word otherwise. -/
def logMessage (f : Frame) : String :=
  match f.exceptionCode? with
  | some code => "unhandled exception " ++ code.mnemonic ++ " at epc " ++
      Numeral.markedHex f.epc.toNat
  | none => "unhandled exception, cause " ++ Numeral.markedHex f.cause.toNat ++ " at epc " ++
      Numeral.markedHex f.epc.toNat

def report {ω : Type} [Text.TextWriter ω] (f : Frame) : Action String ω (Except Error Unit) := do
  .log .error f.logMessage
  Text.Writer.writeAll f.reportPieces

end Frame

end Vr4300.Exception
