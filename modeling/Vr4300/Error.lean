import Vr4300.Numeral

/-! What can go wrong, as causes, with the text and the numeric code of each.

`Error.message` is the text for a person, `Error.describe` the constructor with its payload, and
`Error.returnCode` the number that assembly callers see. Codes of errors are negative
(`Error.returnCode_neg`), so none of them is the code of success. -/

namespace Vr4300

inductive Error where
  /-- A coprocessor register number below 32 that has no name. -/
  | unknownRegister (number : UInt32)
  /-- A coprocessor register number from 32 on. -/
  | outOfRange (value : UInt32)
  | unknownExceptionCode (code : UInt32)
  | invalidBootInfo (word : UInt32)
  /-- An instruction sink without room. -/
  | bufferFull
  /-- A text writer that refused a piece. -/
  | outputRefused
  deriving DecidableEq, Repr

namespace Error

inductive Kind where
  | unknownRegister | outOfRange | unknownExceptionCode | invalidBootInfo | bufferFull
  | outputRefused
  deriving DecidableEq, Repr

def kind : Error → Kind
  | unknownRegister _ => .unknownRegister
  | outOfRange _ => .outOfRange
  | unknownExceptionCode _ => .unknownExceptionCode
  | invalidBootInfo _ => .invalidBootInfo
  | bufferFull => .bufferFull
  | outputRefused => .outputRefused

def payload? : Error → Option UInt32
  | unknownRegister v | outOfRange v | unknownExceptionCode v | invalidBootInfo v => some v
  | bufferFull | outputRefused => none

def Kind.name : Kind → String
  | unknownRegister => "UnknownRegister"
  | outOfRange => "OutOfRange"
  | unknownExceptionCode => "UnknownExceptionCode"
  | invalidBootInfo => "InvalidBootInfo"
  | bufferFull => "BufferFull"
  | outputRefused => "Io"

/-- Register numbers and exception codes are written in decimal, other words in hexadecimal. -/
def message : Error → String
  | unknownRegister number => "no CP0 register named for index " ++ Numeral.decimal number.toNat
  | outOfRange value => "value " ++ Numeral.markedHex value.toNat ++ " out of range"
  | unknownExceptionCode code => "unknown exception code " ++ Numeral.decimal code.toNat
  | invalidBootInfo word => "invalid boot info word " ++ Numeral.markedHex word.toNat
  | bufferFull => "instruction buffer full"
  | outputRefused => "output error"

/-- The name of the kind, with the payload in parentheses. -/
def describe (e : Error) : String :=
  match e.payload? with
  | some v => e.kind.name ++ "(" ++ Numeral.decimal v.toNat ++ ")"
  | none => e.kind.name

/-! ## Numeric codes -/

def returnCode : Error → Int32
  | unknownRegister _ => -3
  | outOfRange _ => -33
  | unknownExceptionCode _ => -10
  | invalidBootInfo _ => -4
  | bufferFull => -12
  | outputRefused => -11

theorem returnCode_neg (e : Error) : e.returnCode < 0 := by
  cases e <;> simp only [returnCode] <;> decide

end Error

/-- The code that an operation hands to an assembly caller: 0 on success. -/
def returnCode : Except Error Unit → Int32
  | .ok () => 0
  | .error e => e.returnCode

theorem returnCode_eq_zero_iff {r : Except Error Unit} : returnCode r = 0 ↔ r = .ok () := by
  cases r with
  | ok => simp [returnCode]
  | error e =>
    have h : e.returnCode ≠ 0 := fun h => absurd (h ▸ e.returnCode_neg) (by decide)
    simp [returnCode, h]

end Vr4300
