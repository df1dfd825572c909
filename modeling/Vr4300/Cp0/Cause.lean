import Vr4300.BitField
import Vr4300.Error

/-! The Cause register: the exception code in bits 2 to 6 and the branch delay bit.

`ExceptionCode.decode` finds the exception of a code and `ExceptionCode.ofCause` that of a whole
Cause word. Taking either field never overflows (`Cause.extract_exceptionCode`,
`Cause.isSet_branchDelay`). -/

namespace Vr4300.Cp0

/-! ## Fields -/

namespace Cause

def codeHigh : UInt32 := 6

def codeLow : UInt32 := 2

def branchDelayBit : UInt32 := 31

/-- The number of the exception. -/
def exceptionCode (cause : UInt32) : UInt32 :=
  BitField.read cause (codeHigh - codeLow + 1) codeLow

/-- The exception hit an instruction in a branch delay slot. -/
def branchDelay (cause : UInt32) : Bool := cause &&& (1 <<< branchDelayBit) != 0

theorem extract_exceptionCode (cause : UInt32) :
    BitField.extract cause codeHigh codeLow = .ok (exceptionCode cause) :=
  BitField.extract_eq_ok (by decide) (by decide) (by decide)

theorem isSet_branchDelay (cause : UInt32) :
    BitField.isSet cause branchDelayBit = .ok (branchDelay cause) :=
  BitField.isSet_eq_ok (by decide)

end Cause

/-! ## Exceptions -/

inductive ExceptionCode where
  | interrupt | tlbModification | tlbLoad | tlbStore | addressErrorLoad | addressErrorStore
  | instructionBusError | dataBusError | syscall | breakpoint | reservedInstruction
  | coprocessorUnusable | overflow | trap | floatingPoint | watch
  deriving DecidableEq, Repr

namespace ExceptionCode

def number : ExceptionCode → UInt32
  | interrupt => 0
  | tlbModification => 1
  | tlbLoad => 2
  | tlbStore => 3
  | addressErrorLoad => 4
  | addressErrorStore => 5
  | instructionBusError => 6
  | dataBusError => 7
  | syscall => 8
  | breakpoint => 9
  | reservedInstruction => 10
  | coprocessorUnusable => 11
  | overflow => 12
  | trap => 13
  | floatingPoint => 15
  | watch => 23

/-- The short name of the architecture manual. -/
def mnemonic : ExceptionCode → String
  | interrupt => "Int"
  | tlbModification => "Mod"
  | tlbLoad => "TLBL"
  | tlbStore => "TLBS"
  | addressErrorLoad => "AdEL"
  | addressErrorStore => "AdES"
  | instructionBusError => "IBE"
  | dataBusError => "DBE"
  | syscall => "Sys"
  | breakpoint => "Bp"
  | reservedInstruction => "RI"
  | coprocessorUnusable => "CpU"
  | overflow => "Ov"
  | trap => "Tr"
  | floatingPoint => "FPE"
  | watch => "WATCH"

def describe : ExceptionCode → String
  | interrupt => "Interrupt"
  | tlbModification => "TlbModification"
  | tlbLoad => "TlbLoad"
  | tlbStore => "TlbStore"
  | addressErrorLoad => "AddressErrorLoad"
  | addressErrorStore => "AddressErrorStore"
  | instructionBusError => "InstructionBusError"
  | dataBusError => "DataBusError"
  | syscall => "Syscall"
  | breakpoint => "Breakpoint"
  | reservedInstruction => "ReservedInstruction"
  | coprocessorUnusable => "CoprocessorUnusable"
  | overflow => "Overflow"
  | trap => "Trap"
  | floatingPoint => "FloatingPoint"
  | watch => "Watch"

def decode : UInt32 → Except Error ExceptionCode
  | 0 => .ok interrupt
  | 1 => .ok tlbModification
  | 2 => .ok tlbLoad
  | 3 => .ok tlbStore
  | 4 => .ok addressErrorLoad
  | 5 => .ok addressErrorStore
  | 6 => .ok instructionBusError
  | 7 => .ok dataBusError
  | 8 => .ok syscall
  | 9 => .ok breakpoint
  | 10 => .ok reservedInstruction
  | 11 => .ok coprocessorUnusable
  | 12 => .ok overflow
  | 13 => .ok trap
  | 15 => .ok floatingPoint
  | 23 => .ok watch
  | n => .error (.unknownExceptionCode n)

/-- The exception that a Cause word names. -/
def ofCause (cause : UInt32) : Except Error ExceptionCode := decode (Cause.exceptionCode cause)

end ExceptionCode

end Vr4300.Cp0
