import Vr4300.Word

/-! Memory by the byte, and words in it.

Words are big-endian. An address is taken modulo the size of the address space; a word at the very
end of it runs on at address 0. -/

namespace Vr4300

structure Memory where
  byte : UInt64 → UInt8

namespace Memory

def readWord (m : Memory) (address : UInt64) : UInt32 :=
  Word.pack [m.byte address, m.byte (address + 1), m.byte (address + 2), m.byte (address + 3)]

def writeWord (m : Memory) (address : UInt64) (w : UInt32) : Memory where
  byte a := if a - address < 4 then (Word.bytes w).getD (a - address).toNat 0 else m.byte a

/-- Words one behind the other from `base` on, in memory that is zero elsewhere. -/
def ofWords (base : UInt64) (ws : Array UInt32) : Memory where
  byte a := (Word.bytes (ws.getD ((a - base).toNat / 4) 0)).getD ((a - base).toNat % 4) 0

/-- The words at `base`, `base + 4` and so on. -/
def readWords (m : Memory) (base : UInt64) (count : Nat) : List UInt32 :=
  (List.range count).map fun i => m.readWord (base + 4 * .ofNat i)

theorem add_sub_self (a b : UInt64) : a + b - a = b := by
  rw [UInt64.add_comm, UInt64.add_sub_cancel]

theorem readWord_writeWord (m : Memory) (address : UInt64) (w : UInt32) :
    (m.writeWord address w).readWord address = w := by
  simp only [readWord, writeWord, add_sub_self, UInt64.sub_self]
  exact Word.pack_bytes w

end Memory

end Vr4300
