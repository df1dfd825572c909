import Vr4300.Code.Sink

/-! An instruction buffer over storage of fixed size.

`CodeBuffer` fills its storage from the start and never moves a word: `words` is what was
emitted, the storage behind it is as it was. -/

namespace Vr4300.Code

structure CodeBuffer where
  storage : Array UInt32
  length : Nat
  length_le : length ≤ storage.size

namespace CodeBuffer

def ofStorage (storage : Array UInt32) : CodeBuffer := ⟨storage, 0, Nat.zero_le _⟩

def words (b : CodeBuffer) : List UInt32 := b.storage.toList.take b.length

def isEmpty (b : CodeBuffer) : Bool := b.length == 0

def remaining (b : CodeBuffer) : Nat := b.storage.size - b.length

/-- Fills the next slot; a full buffer stays as it is. -/
def emit (word : UInt32) (b : CodeBuffer) : Except Error Unit × CodeBuffer :=
  if h : b.length < b.storage.size then
    (.ok (), ⟨b.storage.set b.length word, b.length + 1, by simpa using Nat.succ_le_of_lt h⟩)
  else (.error .bufferFull, b)

instance : InstructionSink CodeBuffer where
  remaining b := (b.remaining, b)
  emit := emit

@[simp] theorem length_words (b : CodeBuffer) : b.words.length = b.length := by
  simpa [words] using Nat.min_eq_left b.length_le

theorem length_add_remaining (b : CodeBuffer) : b.length + b.remaining = b.storage.size :=
  Nat.add_sub_cancel' b.length_le

@[simp] theorem words_ofStorage (storage : Array UInt32) : (ofStorage storage).words = [] := rfl

theorem emit_eq_ok (word : UInt32) (b : CodeBuffer) (h : b.length < b.storage.size) :
    (b.emit word).1 = .ok () ∧ (b.emit word).2.words = b.words ++ [word] := by
  simp [emit, words, h, List.take_add_one, List.take_set_of_le]

theorem emit_eq_error (word : UInt32) (b : CodeBuffer) (h : b.length = b.storage.size) :
    b.emit word = (.error .bufferFull, b) := by
  simp [emit, h]

end CodeBuffer

end Vr4300.Code
