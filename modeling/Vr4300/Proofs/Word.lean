import Vr4300.Word

/-! # Packed words read back

`Word.bytes_pack_of_length_le` fills a short byte string up to a word, and
`Word.flatMap_bytes_packAll` says that the words of a byte string hold its bytes in order, with
nothing but zeros behind them. `Word.packAll_eq_map` gives these words by their places. -/

namespace Vr4300.Word

theorem bytes_pack_of_length_le {bs : List UInt8} (h : bs.length ≤ 4) :
    bytes (pack bs) = bs ++ List.replicate (4 - bs.length) 0 := by
  match bs, h with
  | [], _ => exact bytes_pack 0 0 0 0
  | [a], _ => exact bytes_pack a 0 0 0
  | [a, b], _ => exact bytes_pack a b 0 0
  | [a, b, c], _ => exact bytes_pack a b c 0
  | [a, b, c, d], _ => exact bytes_pack a b c d

theorem flatMap_bytes_packAll (bs : List UInt8) :
    (packAll bs).flatMap bytes =
      bs ++ List.replicate (4 * (packAll bs).length - bs.length) 0 := by
  fun_induction packAll bs with
  | case1 a b c d bs ih =>
    rw [List.flatMap_cons, ih, bytes_pack]
    simp [Nat.mul_add]
  | case2 => rfl
  | case3 bs hlong _ =>
    have hlt := length_lt_of_ne_cons hlong
    rw [List.flatMap_singleton, bytes_pack_of_length_le (Nat.le_of_lt hlt), List.length_singleton]

/-- The `j`-th word of a byte string, filled up with zeros where the string ends. -/
def wordAt (bs : List UInt8) (j : Nat) : UInt32 := pack ((bs.drop (4 * j)).take 4)

theorem packAll_eq_map (bs : List UInt8) :
    packAll bs = (List.range ((bs.length + 3) / 4)).map (wordAt bs) := by
  fun_induction packAll bs with
  | case1 a b c d bs ih =>
    have hcount : ((a :: b :: c :: d :: bs).length + 3) / 4 = (bs.length + 3) / 4 + 1 := by
      simp only [List.length_cons]
      omega
    rw [hcount, List.range_succ_eq_map, List.map_cons, List.map_map, ih]
    rfl
  | case2 => rfl
  | case3 bs hlong hne =>
    have hlt := length_lt_of_ne_cons hlong
    have hpos := List.length_pos_iff.mpr hne
    have hcount : (bs.length + 3) / 4 = 1 := by omega
    rw [hcount]
    change _ = [pack (bs.take 4)]
    rw [List.take_of_length_le (Nat.le_of_lt hlt)]

theorem getElem?_packAll {bs : List UInt8} {j : Nat} (h : j < (bs.length + 3) / 4) :
    (packAll bs)[j]? = some (wordAt bs j) := by
  rw [packAll_eq_map, List.getElem?_map, List.getElem?_range h, Option.map_some]

/-- A word that ends inside the first of two byte strings does not see the second. -/
theorem wordAt_append_left {bs : List UInt8} {j : Nat} (h : 4 * j + 4 ≤ bs.length)
    (bs' : List UInt8) : wordAt (bs ++ bs') j = wordAt bs j := by
  rw [wordAt, List.drop_append_of_le_length (by omega), wordAt,
    List.take_append_of_le_length (by rw [List.length_drop]; omega)]

/-- Behind full words the words of the second byte string follow. -/
theorem wordAt_append_right {bs : List UInt8} {i : Nat} (h : bs.length = 4 * i)
    (bs' : List UInt8) (j : Nat) : wordAt (bs ++ bs') (i + j) = wordAt bs' j := by
  rw [wordAt, Nat.mul_add, ← h, List.drop_append, List.drop_eq_nil_of_le (Nat.le_add_right ..),
    Nat.add_sub_cancel_left, List.nil_append, wordAt]

end Vr4300.Word
