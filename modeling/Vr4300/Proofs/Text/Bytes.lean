import Vr4300.Text.Bytes

/-!
# The bytes of ASCII text

Text of ASCII characters has one byte for each, the code of the character (`bytes_eq_map`).
-/

namespace Vr4300.Text

def IsAscii (text : String) : Prop := ∀ c ∈ text.toList, c.toNat < 128

theorem bytes_eq_flatMap (text : String) :
    bytes text = text.toList.flatMap String.utf8EncodeChar := by
  have h : text.toByteArray = text.toList.utf8Encode := by
    rw [← String.toByteArray_ofList, String.ofList_toList]
  rw [bytes, h, List.utf8Encode, List.toList_data_toByteArray]

theorem utf8EncodeChar_of_lt {c : Char} (hc : c.toNat < 128) :
    String.utf8EncodeChar c = [c.toUInt8] := by
  have hval : c.val.toNat ≤ 127 := Nat.le_of_lt_succ hc
  exact String.utf8EncodeChar_eq_singleton
    (Char.utf8Size_eq_one_iff.mpr (UInt32.le_iff_toNat_le.mpr hval))

theorem bytes_eq_map {text : String} (h : IsAscii text) :
    bytes text = text.toList.map Char.toUInt8 := by
  rw [bytes_eq_flatMap, List.flatMap_def,
    List.map_congr_left fun c hc => utf8EncodeChar_of_lt (h c hc), ← List.flatMap_def]
  exact List.map_eq_flatMap.symm

theorem IsAscii.utf8ByteSize {text : String} (h : IsAscii text) :
    text.utf8ByteSize = text.toList.length := by
  rw [← length_bytes, bytes_eq_map h, List.length_map]

theorem IsAscii.lt_of_mem_bytes {text : String} (h : IsAscii text) {b : UInt8}
    (hb : b ∈ bytes text) : b.toNat < 128 := by
  rw [bytes_eq_map h] at hb
  obtain ⟨c, hc, rfl⟩ := List.mem_map.mp hb
  have hlt := h c hc
  exact Nat.lt_of_le_of_lt (Nat.mod_le ..) hlt

end Vr4300.Text
