import Vr4300.Error

/-! The named registers of coprocessor 0.

Of the 32 register numbers 14 have a name. `Register.ofNumber?` finds the register of a number and
`Register.decode` also says why there is none. A register is a word or a doubleword wide
(`Register.width`), and the two that the hardware never lets a program write are no `Writable`. -/

namespace Vr4300.Cp0

/-- In the order of their numbers, which is the order of `Ord`. -/
inductive Register where
  | index | entryLo0 | entryLo1 | pageMask | badVAddr | count | entryHi | compare | status | cause
  | epc | prId | config | watchLo
  deriving DecidableEq, Repr, Ord

namespace Register

def number : Register → UInt32
  | index => 0
  | entryLo0 => 2
  | entryLo1 => 3
  | pageMask => 5
  | badVAddr => 8
  | count => 9
  | entryHi => 10
  | compare => 11
  | status => 12
  | cause => 13
  | epc => 14
  | prId => 15
  | config => 16
  | watchLo => 18

/-- How many register numbers an instruction can hold. -/
def slotCount : UInt32 := 32

theorem number_lt (r : Register) : r.number < slotCount := by cases r <;> decide

/-- The place of the register in a register file. -/
def slot (r : Register) : Fin 32 := ⟨r.number.toNat, r.number_lt⟩

/-- The name that assembly source uses. -/
def symbol : Register → String
  | index => "C0_INDEX"
  | entryLo0 => "C0_ENTRYLO0"
  | entryLo1 => "C0_ENTRYLO1"
  | pageMask => "C0_PAGEMASK"
  | badVAddr => "C0_BADVADDR"
  | count => "C0_COUNT"
  | entryHi => "C0_ENTRYHI"
  | compare => "C0_COMPARE"
  | status => "C0_SR"
  | cause => "C0_CAUSE"
  | epc => "C0_EPC"
  | prId => "C0_PRID"
  | config => "C0_CONFIG"
  | watchLo => "C0_WATCHLO"

instance : ToString Register := ⟨symbol⟩

def describe : Register → String
  | index => "Index"
  | entryLo0 => "EntryLo0"
  | entryLo1 => "EntryLo1"
  | pageMask => "PageMask"
  | badVAddr => "BadVAddr"
  | count => "Count"
  | entryHi => "EntryHi"
  | compare => "Compare"
  | status => "Status"
  | cause => "Cause"
  | epc => "Epc"
  | prId => "PrId"
  | config => "Config"
  | watchLo => "WatchLo"

/-! ## Finding a register -/

def all : List Register :=
  [index, entryLo0, entryLo1, pageMask, badVAddr, count, entryHi, compare, status, cause, epc, prId,
    config, watchLo]

theorem mem_all (r : Register) : r ∈ all := by cases r <;> decide

theorem number_inj {r r' : Register} : r.number = r'.number ↔ r = r' :=
  ⟨fun h => by revert h; cases r <;> cases r' <;> decide, congrArg _⟩

def ofNumber? (n : UInt32) : Option Register := all.find? (·.number = n)

theorem ofNumber?_eq_some_iff {n : UInt32} {r : Register} :
    ofNumber? n = some r ↔ r.number = n := by
  constructor
  · intro h
    unfold ofNumber? at h
    simpa using List.find?_some h
  · rintro rfl
    cases r <;> decide

/-- A number from 32 on is out of range, whether or not it would name a register. -/
def decode (n : UInt32) : Except Error Register :=
  if slotCount ≤ n then .error (.outOfRange n)
  else match ofNumber? n with
    | some r => .ok r
    | none => .error (.unknownRegister n)

/-- All numbers in turn; the first that fails decides the error. -/
def decodeAll (ns : List UInt32) : Except Error (List Register) := ns.mapM decode

/-- By number, with repetitions kept. -/
def sort (rs : List Register) : List Register := rs.mergeSort fun r r' => (Ord.compare r r').isLE

theorem compare_eq (r r' : Register) : Ord.compare r r' = Ord.compare r.number r'.number := by
  cases r <;> cases r' <;> decide

/-! ## Width and permission to write -/

def isReadOnly : Register → Bool
  | badVAddr | prId => true
  | _ => false

end Register

/-- The part of a 64-bit register that an access moves. -/
inductive Width where
  | word | doubleword
  deriving DecidableEq, Repr

namespace Width

abbrev Value : Width → Type
  | word => UInt32
  | doubleword => UInt64

/-- The low part of a 64-bit word. -/
def truncate : (w : Width) → UInt64 → w.Value
  | word, v => v.toUInt32
  | doubleword, v => v

/-- The value as a 64-bit word, with zeros above. -/
def extend : (w : Width) → w.Value → UInt64
  | word, v => UInt32.toUInt64 v
  | doubleword, v => v

theorem truncate_extend (w : Width) (v : w.Value) : w.truncate (w.extend v) = v := by
  cases w with
  | word => exact UInt32.toUInt32_toUInt64 v
  | doubleword => rfl

end Width

/-- Registers that hold an address are a doubleword wide. -/
def Register.width : Register → Width
  | .entryLo0 | .entryLo1 | .badVAddr | .entryHi | .epc => .doubleword
  | _ => .word

/-- A register together with the permission to write it. -/
structure Writable where
  register : Register
  writable : register.isReadOnly = false
  deriving DecidableEq

def Register.writable? (r : Register) : Option Writable :=
  if h : r.isReadOnly = false then some ⟨r, h⟩ else none

end Vr4300.Cp0
