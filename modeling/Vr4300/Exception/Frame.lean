import Vr4300.Cp0.Cause

/-! What the exception vector saves: the registers that describe a fault. -/

namespace Vr4300.Exception

structure Frame where
  cause : UInt64
  epc : UInt64
  status : UInt64
  badVAddr : UInt64
  sp : UInt64
  deriving DecidableEq, Repr

namespace Frame

def zero : Frame := ⟨0, 0, 0, 0, 0⟩

/-- In the order of memory. -/
inductive Field where
  | cause | epc | status | badVAddr | sp
  deriving DecidableEq, Repr

namespace Field

def all : List Field := [cause, epc, status, badVAddr, sp]

theorem mem_all (f : Field) : f ∈ all := by cases f <;> decide

def name : Field → String
  | cause => "cause"
  | epc => "epc"
  | status => "status"
  | badVAddr => "badvaddr"
  | sp => "sp"

/-- Where the assembly that fills the frame stores the field. -/
def offset : Field → Nat
  | cause => 0
  | epc => 8
  | status => 16
  | badVAddr => 24
  | sp => 32

end Field

/-- Bytes of a frame in memory. -/
def size : Nat := 40

def get (f : Frame) : Field → UInt64
  | .cause => f.cause
  | .epc => f.epc
  | .status => f.status
  | .badVAddr => f.badVAddr
  | .sp => f.sp

@[ext] theorem ext {f f' : Frame} (h : ∀ field, f.get field = f'.get field) : f = f' := by
  cases f; cases f'
  simpa [get] using And.intro (h .cause) ⟨h .epc, h .status, h .badVAddr, h .sp⟩

/-- The exception that the low half of the Cause word names, if there is one. -/
def exceptionCode? (f : Frame) : Option Cp0.ExceptionCode :=
  (Cp0.ExceptionCode.ofCause f.cause.toUInt32).toOption

/-- The fields in decimal. -/
def describe (f : Frame) : String :=
  "ExceptionFrame \x7b " ++
    ", ".intercalate (Field.all.map fun field =>
      field.name ++ ": " ++ Numeral.decimal (f.get field).toNat) ++ " \x7d"

end Frame

end Vr4300.Exception
