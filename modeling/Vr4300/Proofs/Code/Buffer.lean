import Vr4300.Code.Buffer
import Vr4300.Proofs.Code.Sink

/-!
# Words behind the words of a buffer

`CodeBuffer.Extends` relates a buffer to itself with more words: they stand behind the old ones,
and the slots behind them are untouched. One emitted word extends a buffer that is not full
(`CodeBuffer.extends_emit`). The buffer keeps its word about its room (`CodeBuffer.honest`).
-/

namespace Vr4300.Code.CodeBuffer

theorem storage_emit (word : UInt32) (b : CodeBuffer) (h : b.length < b.storage.size) :
    (b.emit word).2.length = b.length + 1 ∧
      (b.emit word).2.storage = b.storage.set b.length word h := by
  rw [emit, dif_pos h]
  exact ⟨rfl, rfl⟩

/-- `b'` is `b` with the words `ws` behind its own. -/
structure Extends (b : CodeBuffer) (ws : List UInt32) (b' : CodeBuffer) : Prop where
  words : b'.words = b.words ++ ws
  size : b'.storage.size = b.storage.size
  tail : ∀ i, b'.length ≤ i → b'.storage[i]? = b.storage[i]?

namespace Extends

variable {b b' b'' : CodeBuffer} {ws ws' : List UInt32}

theorem refl (b : CodeBuffer) : b.Extends [] b :=
  ⟨(List.append_nil _).symm, rfl, fun _ _ => rfl⟩

theorem length (h : b.Extends ws b') : b'.length = b.length + ws.length := by
  rw [← b'.length_words, h.words, List.length_append, b.length_words]

theorem trans (h : b.Extends ws b') (h' : b'.Extends ws' b'') : b.Extends (ws ++ ws') b'' where
  words := by rw [h'.words, h.words, List.append_assoc]
  size := h'.size.trans h.size
  tail i hi := by
    have hle : b'.length ≤ i := by
      have := h'.length
      omega
    exact (h'.tail i hi).trans (h.tail i hle)

end Extends

theorem extends_emit (word : UInt32) (b : CodeBuffer) (h : b.length < b.storage.size) :
    b.Extends [word] (b.emit word).2 := by
  obtain ⟨hlength, hstorage⟩ := storage_emit word b h
  refine ⟨(b.emit_eq_ok word h).2, ?_, fun i hi => ?_⟩
  · rw [hstorage]
    exact Array.size_set h
  · rw [hlength] at hi
    rw [hstorage]
    exact Array.getElem?_set_ne h (Nat.ne_of_lt hi)

theorem honest (b : CodeBuffer) : Sink.Honest b := by
  intro hroom word word'
  change 2 ≤ b.remaining at hroom
  have hsize := b.length_add_remaining
  have hlt : b.length < b.storage.size := by omega
  have hext := b.extends_emit word hlt
  refine ⟨(b.emit_eq_ok word hlt).1, (emit_eq_ok word' (b.emit word).2 ?_).1⟩
  rw [hext.length, hext.size, List.length_singleton]
  omega

end Vr4300.Code.CodeBuffer
