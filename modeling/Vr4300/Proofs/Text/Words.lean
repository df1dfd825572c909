import Vr4300.Proofs.Numeral

/-!
# The words of a text

A text that is made of words with a space between each two is taken apart into the same words
(`words_intercalate`). Numerals are single words.
-/

namespace Vr4300.Text

/-- What stands between single spaces. -/
def words (text : String) : List String := (text.toList.splitOn ' ').map String.ofList

theorem words_intercalate {ws : List String} (hne : ws ≠ []) (hws : ∀ w ∈ ws, ' ' ∉ w.toList) :
    words (" ".intercalate ws) = ws := by
  have hsplit : (" ".intercalate ws).toList.splitOn ' ' = ws.map String.toList := by
    rw [String.toList_intercalate]
    apply List.splitOn_intercalate ' '
    · intro cs hcs
      obtain ⟨w, hw, rfl⟩ := List.mem_map.mp hcs
      exact hws w hw
    · exact fun h => hne (List.map_eq_nil_iff.mp h)
  rw [words, hsplit, List.map_map]
  exact List.map_id'' (fun w => String.ofList_toList) ws

theorem space_notMem_digits (n : Nat) : ' ' ∉ Numeral.digits 16 n := by
  have hdigit : ∀ d : Fin 16, ' ' ≠ d.val.digitChar := by decide
  intro h
  obtain ⟨d, hd, h⟩ := Numeral.isHexDigit_of_mem_digits h
  exact hdigit ⟨d, hd⟩ h

theorem space_notMem_decimalDigits (n : Nat) : ' ' ∉ Numeral.digits 10 n := by
  intro h
  cases Nat.isDigit_of_mem_toDigits (Nat.succ_pos 9) (Nat.le_refl 10) h

end Vr4300.Text
