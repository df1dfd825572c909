import Vr4300.Numeral
import Vr4300.Error
import Vr4300.Log
import Vr4300.Action
import Vr4300.BitField
import Vr4300.Word
import Vr4300.Memory
import Vr4300.Segment
import Vr4300.Text.Blank
import Vr4300.Text.Bytes
import Vr4300.Text.Writer
import Vr4300.Cp0.Register
import Vr4300.Cp0.Status
import Vr4300.Cp0.Status.Text
import Vr4300.Cp0.Status.Command
import Vr4300.Cp0.Cause
import Vr4300.Cp0.File
import Vr4300.Cp0.Access
import Vr4300.Code.Sink
import Vr4300.Code.TlbWrite
import Vr4300.Code.Buffer
import Vr4300.Code.Script
import Vr4300.Exception.Frame
import Vr4300.Exception.Report
import Vr4300.Console.Store
import Vr4300.Console.Viewer
import Vr4300.Console.Host
import Vr4300.Console.Command
import Vr4300.Boot
import Vr4300.Symbol
import Vr4300.Proofs.Word
import Vr4300.Proofs.Memory
import Vr4300.Proofs.Numeral
import Vr4300.Proofs.Numeral.Place
import Vr4300.Proofs.Word.Order
import Vr4300.Proofs.Text.Bytes
import Vr4300.Proofs.Text.Writer
import Vr4300.Proofs.Text.Words
import Vr4300.Proofs.Exception.Digits
import Vr4300.Proofs.Exception.Report
import Vr4300.Proofs.Exception.ReadBack
import Vr4300.Proofs.Console.Block
import Vr4300.Proofs.Console.Payload
import Vr4300.Proofs.Console.Delivery
import Vr4300.Proofs.Console.Packing
import Vr4300.Proofs.Console.Splitting
import Vr4300.Proofs.Console.Report
import Vr4300.Proofs.Console.Protocol
import Vr4300.Proofs.Console.Mmio
import Vr4300.Proofs.Console.Overlay
import Vr4300.Proofs.Action
import Vr4300.Proofs.Cp0.Register
import Vr4300.Proofs.Cp0.Access
import Vr4300.Proofs.Cp0.LastWrite
import Vr4300.Proofs.Code.Sink
import Vr4300.Proofs.Code.Buffer
import Vr4300.Proofs.Code.TlbWrite
import Vr4300.Proofs.Code.BoundedList
import Vr4300.Proofs.Code.Hazard
import Vr4300.Proofs.Bits
import Vr4300.Proofs.BitField.Extract
import Vr4300.Proofs.BitField.Disjoint
import Vr4300.Proofs.BitField.Write
import Vr4300.Proofs.Cp0.Replay
import Vr4300.Proofs.Cp0.Status.Cover
import Vr4300.Proofs.Cp0.Visible
import Vr4300.Proofs.Cp0.Status.Reading
import Vr4300.Proofs.Cp0.Status.RoundTrip
import Vr4300.Proofs.Cp0.Status.Fpu
import Vr4300.Proofs.Cp0.Status.Union
import Vr4300.Proofs.Cp0.Status.Joined
import Vr4300.Proofs.Cp0.Status.Partition
import Vr4300.Proofs.Cp0.Cause
import Vr4300.Proofs.Cp0.Status.Updates
import Vr4300.Proofs.Exception.Cause
import Vr4300.Proofs.Exception.LogRecord
import Vr4300.Proofs.Exception.Order
import Vr4300.Proofs.Error
import Vr4300.Proofs.Boot
import Vr4300.Proofs.Segment
