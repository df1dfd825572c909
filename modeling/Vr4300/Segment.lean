/-! Kernel address segments and the clock of the processor.

`Segment.kseg0` and `Segment.kseg1` are the cached and the uncached window on physical memory.
`physicalAddress` leaves a segment and `uncached` enters the second one. -/

namespace Vr4300

namespace Segment

/-- Unmapped and cached. -/
def kseg0 : UInt64 := 0xffffffff80000000

/-- Unmapped and uncached. -/
def kseg1 : UInt64 := 0xffffffffa0000000

/-- The bits that tell the segments of the low half of the address apart. -/
def selector : UInt64 := 0xe0000000

end Segment

/-- The physical address behind an address in either window. -/
def physicalAddress (address : UInt64) : UInt32 := (address &&& ~~~Segment.selector).toUInt32

/-- The alias of a physical address in the uncached window. -/
def uncached (physical : UInt32) : UInt64 := Segment.kseg1 ||| physical.toUInt64

namespace Clock

/-- Cycles of the processor in a second. -/
def frequency : UInt64 := 93750000

/-- Steps of the Count register in a second: one for every two cycles. -/
def countFrequency : UInt64 := frequency / 2

end Clock

end Vr4300
