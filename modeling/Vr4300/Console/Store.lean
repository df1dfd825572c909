import Vr4300.Memory
import Vr4300.Segment

/-! The register block of the debug console and the destinations of stores into it.

The block has a length register, two reserved words and a buffer of 128 words. A `WordStore` takes
stores into such a block: a `Recorder` lists them, a `Block` is the block itself, `Mmio` a block
somewhere in memory. -/

namespace Vr4300.Console

/-! ## Layout -/

/-- Bytes that the buffer holds. -/
def bufferSize : Nat := 512

def lengthOffset : Nat := 0x00

def bufferOffset : Nat := 0x0c

/-- Words of the whole block. -/
def blockSize : Nat := 131

/-- Where the block is on a development cartridge. -/
def base : UInt64 := uncached 0x13ff0014

theorem blockSize_eq : 4 * blockSize = bufferOffset + bufferSize := rfl

/-! ## Stores -/

/-- A word for the register at a byte offset into the block. -/
structure Store where
  offset : Nat
  value : UInt32
  deriving DecidableEq, Repr

class WordStore (σ : Type) where
  store : Store → σ → σ

def storeAll {σ : Type} [WordStore σ] (xs : List Store) (s : σ) : σ :=
  xs.foldl (fun s x => WordStore.store x s) s

@[simp] theorem storeAll_nil {σ : Type} [WordStore σ] (s : σ) : storeAll [] s = s := rfl

@[simp] theorem storeAll_cons {σ : Type} [WordStore σ] (x : Store) (xs : List Store) (s : σ) :
    storeAll (x :: xs) s = storeAll xs (WordStore.store x s) := rfl

theorem storeAll_append {σ : Type} [WordStore σ] (xs ys : List Store) (s : σ) :
    storeAll (xs ++ ys) s = storeAll ys (storeAll xs s) := List.foldl_append

/-! ### On record -/

structure Recorder where
  stores : Array Store
  deriving DecidableEq, Repr

instance : WordStore Recorder := ⟨fun x r => ⟨r.stores.push x⟩⟩

theorem Recorder.toList_storeAll (xs : List Store) (r : Recorder) :
    (storeAll xs r).stores.toList = r.stores.toList ++ xs := by
  induction xs generalizing r with
  | nil => simp
  | cons x xs ih => simp [ih, WordStore.store]

/-! ### Into a block -/

structure Block where
  words : Vector UInt32 blockSize
  deriving DecidableEq

namespace Block

/-- A store between two words or behind the block changes nothing. -/
def store (x : Store) (b : Block) : Block :=
  if h : x.offset % 4 = 0 ∧ x.offset / 4 < blockSize then ⟨b.words.set (x.offset / 4) x.value h.2⟩
  else b

instance : WordStore Block := ⟨store⟩

/-- The length register. -/
def length (b : Block) : UInt32 := b.words.get ⟨0, by decide⟩

def reserved (b : Block) : List UInt32 := (b.words.toList.drop 1).take 2

/-- The words of the buffer. -/
def buffer (b : Block) : List UInt32 := b.words.toList.drop 3

/-- The bytes of the buffer. -/
def bytes (b : Block) : List UInt8 := b.buffer.flatMap Word.bytes

end Block

/-! ### Into memory -/

/-- A block at an address in memory. -/
structure Mmio where
  base : UInt64
  memory : Memory

namespace Mmio

instance : WordStore Mmio where
  store x m := { m with memory := m.memory.writeWord (m.base + .ofNat x.offset) x.value }

/-- The block as it is now. -/
def block (m : Mmio) : Block := ⟨.ofFn fun i => m.memory.readWord (m.base + 4 * .ofNat i)⟩

end Mmio

end Vr4300.Console
