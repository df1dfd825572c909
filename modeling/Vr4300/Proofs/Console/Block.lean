import Vr4300.Console.Viewer
import Vr4300.Proofs.Word

/-!
# Packets stored into a register block

A packet overwrites the first words of the buffer and then the length register. The words of the
block after any number of consecutive data stores are given in one piece
(`Block.toList_storeAll_storesFrom`), so that the buffer after a packet starts with the packed
bytes and goes on with what was there before (`Block.buffer_dataStores`).
-/

namespace Vr4300.Console

/-- Stores of words into the buffer, from its `i`-th word on. -/
def storesFrom (i : Nat) (ws : List UInt32) : List Store :=
  ws.mapIdx fun j w => ⟨bufferOffset + 4 * (i + j), w⟩

theorem storesFrom_cons (i : Nat) (w : UInt32) (ws : List UInt32) :
    storesFrom i (w :: ws) = ⟨bufferOffset + 4 * i, w⟩ :: storesFrom (i + 1) ws := by
  simp [storesFrom, List.mapIdx_cons, Nat.add_assoc, Nat.add_comm 1]

theorem dataStores_eq_storesFrom (bs : List UInt8) :
    dataStores bs = storesFrom 0 (Word.packAll bs) := by
  simp [dataStores, storesFrom]

/-- The length register has room for the size of a full buffer. -/
theorem toNat_count {n : Nat} (h : n ≤ bufferSize) : (UInt32.ofNat n).toNat = n :=
  UInt32.toNat_ofNat_of_lt' (Nat.lt_of_le_of_lt h (by decide))

/-- No data store hits the length register. -/
theorem offset_ne_of_mem_dataStores {bs : List UInt8} {x : Store} (hx : x ∈ dataStores bs) :
    x.offset ≠ lengthOffset := by
  obtain ⟨i, _, rfl⟩ := List.mem_mapIdx.mp hx
  simp only [bufferOffset, lengthOffset]
  omega

/-- A packet has one length, that of its payload. -/
theorem filter_packet (p : List UInt8) :
    (packet p).filter (·.offset = lengthOffset) = [⟨lengthOffset, .ofNat p.length⟩] := by
  have hdata : (dataStores p).filter (·.offset = lengthOffset) = [] := by
    rw [List.filter_eq_nil_iff]
    intro x hx
    simpa using offset_ne_of_mem_dataStores hx
  rw [packet, List.filter_append, hdata]
  rfl

namespace Block

@[simp] theorem length_toList (b : Block) : b.words.toList.length = blockSize :=
  Vector.length_toList

theorem toList_store {x : Store} {i : Nat} (b : Block) (hx : x.offset = 4 * i)
    (hi : i < blockSize) : (b.store x).words.toList = b.words.toList.set i x.value := by
  have hdiv : x.offset % 4 = 0 ∧ x.offset / 4 = i := by omega
  simp [store, hdiv, hi, Vector.toList_set]

/-- Consecutive stores into the buffer replace a run of words and keep the others. -/
theorem toList_storeAll_storesFrom (b : Block) (i : Nat) (ws : List UInt32)
    (h : 3 + i + ws.length ≤ blockSize) :
    (storeAll (storesFrom i ws) b).words.toList =
      b.words.toList.take (3 + i) ++ ws ++ b.words.toList.drop (3 + i + ws.length) := by
  induction ws generalizing i b with
  | nil => simp [storesFrom]
  | cons w ws ih =>
    rw [List.length_cons] at h
    have hi : 3 + i < b.words.toList.length := by rw [length_toList]; omega
    rw [storesFrom_cons, storeAll_cons, ih _ _ (by omega)]
    change (b.store _).words.toList.take _ ++ ws ++ (b.store _).words.toList.drop _ = _
    have hx : bufferOffset + 4 * i = 4 * (3 + i) := by simp only [bufferOffset]; omega
    rw [toList_store b hx (by omega), ← Nat.add_assoc, List.drop_set_of_lt (by omega),
      List.take_add_one, List.take_set_of_le (Nat.le_refl _), List.getElem?_set_self hi]
    simp [Nat.add_assoc, Nat.add_comm 1]

/-- A buffer of bytes needs no more words than the buffer has. -/
theorem length_packAll_le {bs : List UInt8} (h : bs.length ≤ bufferSize) :
    3 + (Word.packAll bs).length ≤ blockSize := by
  simp only [bufferSize] at h
  simp only [Word.length_packAll, blockSize]
  omega

theorem toList_dataStores (b : Block) {bs : List UInt8} (h : bs.length ≤ bufferSize) :
    (storeAll (dataStores bs) b).words.toList =
      b.words.toList.take 3 ++ Word.packAll bs ++
        b.words.toList.drop (3 + (Word.packAll bs).length) := by
  rw [dataStores_eq_storesFrom]
  exact toList_storeAll_storesFrom b 0 _ (length_packAll_le h)

/-- The packed bytes at the front of the buffer, and the older words behind them. -/
theorem buffer_dataStores (b : Block) {bs : List UInt8} (h : bs.length ≤ bufferSize) :
    (storeAll (dataStores bs) b).buffer =
      Word.packAll bs ++ b.buffer.drop (Word.packAll bs).length := by
  have h3 : (b.words.toList.take 3).length = 3 := by
    rw [List.length_take, length_toList]; rfl
  rw [buffer, toList_dataStores b h, List.append_assoc, List.drop_left' h3, buffer, List.drop_drop]

/-- What the host reads at the front of the buffer are the bytes just stored, whatever an earlier
and longer packet left behind them. -/
theorem take_bytes_dataStores (b : Block) {bs : List UInt8} (h : bs.length ≤ bufferSize) :
    (storeAll (dataStores bs) b).bytes.take bs.length = bs := by
  rw [bytes, buffer_dataStores b h, List.flatMap_append, Word.flatMap_bytes_packAll,
    List.append_assoc, List.take_left]

/-- A store into the length register leaves the buffer alone. -/
@[simp] theorem buffer_store_length (b : Block) (w : UInt32) :
    (b.store ⟨lengthOffset, w⟩).buffer = b.buffer := by
  rw [buffer, toList_store b (i := 0) rfl (by decide), List.drop_set_of_lt (by decide), buffer]

end Block

end Vr4300.Console
