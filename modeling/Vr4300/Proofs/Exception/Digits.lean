import Vr4300.Exception.Report
import Vr4300.Proofs.Numeral
import Vr4300.Proofs.Text.Bytes

/-!
# The digits of a report

The digits that the report takes from a word by shifts and masks are those of the word's
hexadecimal numeral of 16 digits, and they are always text (`digitText_eq`).
-/

namespace Vr4300

theorem Numeral.IsHexDigit.toNat_lt {c : Char} (h : IsHexDigit c) : c.toNat < 128 := by
  obtain ⟨d, hd, rfl⟩ := h
  exact (by decide : ∀ d : Fin 16, d.val.digitChar.toNat < 128) ⟨d, hd⟩

namespace Exception

theorem digit_ofNat {n : Nat} (h : n < 16) : digit (.ofNat n) = n.digitChar.toUInt8 :=
  (by decide : ∀ k : Fin 16, digit (.ofNat k.val) = k.val.digitChar.toUInt8) ⟨n, h⟩

/-- A shift and a mask give the hexadecimal digit at a place. -/
theorem nibble_eq (w : UInt64) (i : Fin 16) :
    ((w >>> (60 - 4 * .ofNat i)) &&& 0xf).toUInt8 = .ofNat (w.toNat / 16 ^ (15 - i.val) % 16) := by
  have hshift : (60 - 4 * .ofNat i : UInt64).toNat % 64 = 4 * (15 - i.val) :=
    (by decide : ∀ i : Fin 16, (60 - 4 * .ofNat i : UInt64).toNat % 64 = 4 * (15 - i.val)) i
  apply UInt8.toNat_inj.mp
  rw [UInt64.toNat_toUInt8, UInt64.toNat_and, UInt64.toNat_shiftRight, hshift,
    Nat.shiftRight_eq_div_pow, Nat.pow_mul, UInt8.toNat_ofNat']
  exact congrArg (· % 2 ^ 8) (Nat.and_two_pow_sub_one_eq_mod _ 4)

/-- The highest place first. -/
theorem toList_digits_eq_ofFn (w : UInt64) :
    (digits w).toList =
      List.ofFn fun i : Fin 16 => digit (.ofNat (w.toNat / 16 ^ (16 - 1 - i.val) % 16)) := by
  rw [digits, Vector.toList_ofFn]
  congr 1
  funext i
  rw [nibble_eq]

theorem toList_digits (w : UInt64) :
    (digits w).toList = (Numeral.fixedHex 16 w.toNat).toList.map Char.toUInt8 := by
  rw [Numeral.toList_fixedHex, Numeral.leftpad_digits (by decide) w.toNat_lt, List.map_ofFn,
    toList_digits_eq_ofFn]
  congr 1
  funext i
  exact digit_ofNat (Nat.mod_lt _ (by decide))

theorem isAscii_fixedHex (w : UInt64) : Text.IsAscii (Numeral.fixedHex 16 w.toNat) := fun _ hc =>
  (Numeral.isHexDigit_of_mem_fixedHex (by decide) w.toNat_lt hc).toNat_lt

theorem digitText_eq (w : UInt64) : digitText w = Numeral.fixedHex 16 w.toNat := by
  have hbytes : (⟨(digits w).toArray⟩ : ByteArray) = (Numeral.fixedHex 16 w.toNat).toByteArray := by
    apply ByteArray.ext
    apply Array.toList_inj.mp
    exact (toList_digits w).trans (Text.bytes_eq_map (isAscii_fixedHex w)).symm
  rw [digitText, hbytes, String.fromUTF8?, dif_pos (String.isValidUTF8 _)]
  rfl

end Exception

end Vr4300
