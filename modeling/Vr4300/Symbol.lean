import Vr4300.Boot
import Vr4300.Code.TlbWrite
import Vr4300.Console.Store
import Vr4300.Cp0.Cause
import Vr4300.Cp0.Status
import Vr4300.Cp0.Register
import Vr4300.Exception.Frame

/-! The constants of the machine under the names that assembly source uses for them. -/

namespace Vr4300.Symbol

inductive Value where
  | number (n : Int)
  | doubleword (w : UInt64)
  | words (ws : List UInt32)
  | text (t : String)
  deriving DecidableEq, Repr

def Value.word (w : UInt32) : Value := number w.toNat

def registers : List (String × Value) :=
  Cp0.Register.all.map (fun r => (r.symbol, .word r.number)) ++
    [("CP0_REGISTER_COUNT", .word Cp0.Register.slotCount)]

/-- Fields of the Status and of the Cause register. -/
def fields : List (String × Value) :=
  [("SR_CU1", .word Cp0.Status.Flag.cu1.mask),
    ("SR_FR", .word Cp0.Status.Flag.fr.mask),
    ("SR_BEV", .word Cp0.Status.Flag.bev.mask),
    ("SR_PE", .word Cp0.Status.Flag.pe.mask),
    ("CAUSE_EXC_CODE_HIGH", .word Cp0.Cause.codeHigh),
    ("CAUSE_EXC_CODE_LOW", .word Cp0.Cause.codeLow),
    ("CAUSE_BD", .word Cp0.Cause.branchDelayBit)]

def instructions : List (String × Value) :=
  [("NOP", .word Code.Instruction.nop),
    ("TLBWI_OPCODE", .word Code.Instruction.tlbwi),
    ("TLBWI_SEQUENCE", .words Code.TlbWrite.sequence),
    ("tlbwi_asm", .text Code.TlbWrite.assembly)]

/-- Where the exception vector stores the fields of a frame. -/
def frame : List (String × Value) :=
  [("FRAME_CAUSE", .number Exception.Frame.Field.cause.offset),
    ("FRAME_EPC", .number Exception.Frame.Field.epc.offset),
    ("FRAME_STATUS", .number Exception.Frame.Field.status.offset),
    ("FRAME_BADVADDR", .number Exception.Frame.Field.badVAddr.offset),
    ("FRAME_SP", .number Exception.Frame.Field.sp.offset),
    ("FRAME_SIZE", .number Exception.Frame.size)]

def machine : List (String × Value) :=
  [("CLOCK_SPEED_HZ", .doubleword Clock.frequency),
    ("COUNT_HZ", .doubleword Clock.countFrequency),
    ("KSEG0", .doubleword Segment.kseg0),
    ("KSEG1", .doubleword Segment.kseg1),
    ("RESET_TYPE_ADDR", .doubleword Boot.ResetType.address),
    ("VIDEO_TYPE_ADDR", .doubleword Boot.VideoType.address),
    ("PAK_TYPE_ADDR", .doubleword Boot.PakType.address),
    ("ISVIEWER_BASE", .doubleword Console.base),
    ("BUFFER_SIZE", .number Console.bufferSize),
    ("STATUS_OK", .number (returnCode (.ok ())).toInt),
    ("LOG_TARGET", .text Log.target)]

def table : List (String × Value) := registers ++ fields ++ instructions ++ frame ++ machine

def lookup? (name : String) : Option Value := table.lookup name

end Vr4300.Symbol
