/-! The Status register as a set of flags.

A `Status` is any 32-bit word: bits without a name are kept unless an operation says that it drops
them. Dropping them is `Status.truncate`, and `Status.complement` does it too. `Status.cover`
splits a word into named flags and a rest, `Status.flags` and `Status.unnamed` are its two parts
for the declared flags. -/

namespace Vr4300.Cp0

structure Status where
  bits : UInt32
  deriving DecidableEq, Repr

namespace Status

/-! ## Flags -/

/-- In declaration order; `fpu` stands for two flags at once. -/
inductive Flag where
  /-- Coprocessor 1 is usable. -/
  | cu1
  /-- The floating point registers are 32 of 64 bits. -/
  | fr
  /-- Exception vectors are at their boot location. -/
  | bev
  /-- Soft reset or parity error. -/
  | pe
  /-- All that floating point code in 64-bit register mode needs. -/
  | fpu
  deriving DecidableEq, Repr

namespace Flag

def mask : Flag → UInt32
  | cu1 => 0x20000000
  | fr => 0x04000000
  | bev => 0x00400000
  | pe => 0x00100000
  | fpu => 0x24000000

def name : Flag → String
  | cu1 => "CU1"
  | fr => "FR"
  | bev => "BEV"
  | pe => "PE"
  | fpu => "FPU"

def all : List Flag := [cu1, fr, bev, pe, fpu]

theorem mem_all (f : Flag) : f ∈ all := by cases f <;> decide

def ofName? (name : String) : Option Flag := all.find? (·.name = name)

theorem mask_fpu : fpu.mask = cu1.mask ||| fr.mask := rfl

theorem ofName?_name (f : Flag) : ofName? f.name = some f := by cases f <;> decide

end Flag

/-- The bits of all flags. -/
def named : UInt32 := Flag.all.foldl (fun bits f => bits ||| f.mask) 0

theorem named_eq : named = 0x24500000 := by decide

/-! ## Making and changing sets -/

def empty : Status := ⟨0⟩

def all : Status := ⟨named⟩

def ofFlag (f : Flag) : Status := ⟨f.mask⟩

/-- Refuses a word with a bit that has no name. -/
def ofBits? (bits : UInt32) : Option Status :=
  if bits &&& ~~~named = 0 then some ⟨bits⟩ else none

def ofName? (name : String) : Option Status := (Flag.ofName? name).map ofFlag

/-- Without the bits that have no name. -/
def truncate (s : Status) : Status := ⟨s.bits &&& named⟩

def union (s t : Status) : Status := ⟨s.bits ||| t.bits⟩

def intersection (s t : Status) : Status := ⟨s.bits &&& t.bits⟩

def difference (s t : Status) : Status := ⟨s.bits &&& ~~~t.bits⟩

def symmetricDifference (s t : Status) : Status := ⟨s.bits ^^^ t.bits⟩

/-- The named flags that are not in the set. -/
def complement (s : Status) : Status := truncate ⟨~~~s.bits⟩

/-- Adds or takes away. -/
def set (s t : Status) (on : Bool) : Status := if on then s.union t else s.difference t

def unions (ss : List Status) : Status := ss.foldl union empty

def extend (s : Status) (ss : List Status) : Status := ss.foldl union s

/-- With the floating point unit usable in 64-bit register mode. -/
def withFpu (s : Status) : Status := s.union (ofFlag .fpu)

/-! ## Questions -/

def isEmpty (s : Status) : Bool := s.bits == 0

/-- Contains every named flag. -/
def isAll (s : Status) : Bool := named &&& s.bits == named

def contains (s t : Status) : Bool := s.bits &&& t.bits == t.bits

def intersects (s t : Status) : Bool := s.bits &&& t.bits != 0

/-! ## Parts -/

/-- The flags out of `fs` that `s` contains and that still have a bit in `rest`, each taken out of
`rest`, and what is left of it. -/
def cover (s : Status) : List Flag → UInt32 → List Flag × UInt32
  | [], rest => ([], rest)
  | f :: fs, rest =>
    if s.contains (ofFlag f) ∧ rest &&& f.mask ≠ 0 then
      let (taken, left) := cover s fs (rest &&& ~~~f.mask)
      (f :: taken, left)
    else cover s fs rest

def flags (s : Status) : List Flag := (s.cover Flag.all s.bits).1

/-- The bits that no flag covers. -/
def unnamed (s : Status) : UInt32 := (s.cover Flag.all s.bits).2

/-- The masks of the flags, then the bits without a name if there are any. -/
def parts (s : Status) : List UInt32 :=
  s.flags.map Flag.mask ++ if s.unnamed = 0 then [] else [s.unnamed]

end Status

end Vr4300.Cp0
