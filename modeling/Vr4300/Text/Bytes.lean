/-! The UTF-8 bytes of text. -/

namespace Vr4300.Text

def bytes (text : String) : List UInt8 := text.toByteArray.data.toList

@[simp] theorem bytes_empty : bytes "" = [] := rfl

@[simp] theorem bytes_append (s t : String) : bytes (s ++ t) = bytes s ++ bytes t := by
  simp [bytes, ByteArray.data_append]

@[simp] theorem length_bytes (text : String) : (bytes text).length = text.utf8ByteSize := rfl

theorem bytes_inj {s t : String} : bytes s = bytes t ↔ s = t := by
  rw [bytes, bytes, Array.toList_inj, ← ByteArray.ext_iff, String.toByteArray_inj]

theorem bytes_singleton (c : Char) : bytes (String.singleton c) = String.utf8EncodeChar c := by
  have h : (String.singleton c).toByteArray = [c].utf8Encode := by simp
  rw [bytes, h, List.utf8Encode_singleton, List.toList_data_toByteArray]

end Vr4300.Text
