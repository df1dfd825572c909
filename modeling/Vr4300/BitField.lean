/-! Fields and single bits of a 32-bit word.

`BitField.read` takes a field by width and lowest bit and is total. `BitField.extract` takes it by
its highest and lowest bit, `BitField.isSet` tests one bit, and both refuse operands for which
arithmetic on 32-bit words overflows, with the first overflow in the order of evaluation.
`BitField.disjoint` decides whether masks are usable side by side. -/

namespace Vr4300.BitField

/-- The arithmetic step that left the range of a word. -/
inductive Overflow where
  | subtract | add | shiftLeft | shiftRight
  deriving DecidableEq, Repr

def Overflow.message : Overflow → String
  | subtract => "attempt to subtract with overflow"
  | add => "attempt to add with overflow"
  | shiftLeft => "attempt to shift left with overflow"
  | shiftRight => "attempt to shift right with overflow"

/-- The lowest `width` bits; all of them from a width of 32 on. -/
def mask (width : UInt32) : UInt32 :=
  if 32 ≤ width then 0xffffffff else (1 <<< width) - 1

/-- The `width` bits of `value` from bit `low` on. -/
def read (value width low : UInt32) : UInt32 := (value >>> low) &&& mask width

/-- The bits `low` to `high` of `value`, both included. -/
def extract (value high low : UInt32) : Except Overflow UInt32 :=
  if high < low then .error .subtract
  else if high - low = 0xffffffff then .error .add
  else if 32 ≤ low then .error .shiftRight
  else .ok (read value (high - low + 1) low)

def isSet (value bit : UInt32) : Except Overflow Bool :=
  if 32 ≤ bit then .error .shiftLeft else .ok (value &&& (1 <<< bit) != 0)

/-- No mask is zero and none overlaps another or `seen`. -/
def disjointFrom (seen : UInt32) : List UInt32 → Bool
  | [] => true
  | m :: ms => m != 0 && seen &&& m == 0 && disjointFrom (seen ||| m) ms

def disjoint (ms : List UInt32) : Bool := disjointFrom 0 ms

theorem extract_eq_ok {value high low : UInt32} (hle : ¬ high < low)
    (hadd : high - low ≠ 0xffffffff) (hlow : ¬ 32 ≤ low) :
    extract value high low = .ok (read value (high - low + 1) low) := by
  simp only [extract, if_neg hle, if_neg hadd, if_neg hlow]

theorem isSet_eq_ok {value bit : UInt32} (hbit : ¬ 32 ≤ bit) :
    isSet value bit = .ok (value &&& (1 <<< bit) != 0) := if_neg hbit

end Vr4300.BitField
