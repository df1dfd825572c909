import Vr4300.BitField
import Vr4300.Proofs.Exception.Digits
import Vr4300.Proofs.Numeral.Place

/-!
# The digits of a word in order

The bytes of `digits` are codes of lowercase hexadecimal digits, and they are computed without an
overflow (`Checked.digit_eq`). Codes are ordered as they count (`hexCodes`), so words are ordered as
their digits (`digits_lt_iff`), and any sixteen codes are the digits of a word
(`exists_digits_eq`). Without leading zeros they are the numeral that has no fixed width
(`significant_digits`).
-/

namespace Vr4300.Exception

open Numeral

/-! ## Codes of digits -/

/-- The ASCII code of a decimal digit or of a letter from `a` to `f`. -/
def IsDigitCode (b : UInt8) : Prop := 0x30 ≤ b ∧ b ≤ 0x39 ∨ 0x61 ≤ b ∧ b ≤ 0x66

/-- What the digit of a code counts. -/
def digitCount (b : UInt8) : Nat := if b ≤ 0x39 then b.toNat - 0x30 else b.toNat - 0x61 + 10

theorem isDigitCode_iff {b : UInt8} :
    IsDigitCode b ↔ 48 ≤ b.toNat ∧ b.toNat ≤ 57 ∨ 97 ≤ b.toNat ∧ b.toNat ≤ 102 := Iff.rfl

theorem digitCount_eq (b : UInt8) :
    digitCount b = if b.toNat ≤ 57 then b.toNat - 48 else b.toNat - 97 + 10 := rfl

/-- The letters stand behind the decimal digits, with a gap between them. -/
theorem hexCodes : DigitsOf 16 IsDigitCode digitCount where
  count_lt {b} hb := by
    rw [isDigitCode_iff] at hb
    rw [digitCount_eq]
    split <;> omega
  count_lt_count {b c} hb hc := by
    rw [isDigitCode_iff] at hb hc
    rw [UInt8.lt_iff_toNat_lt, digitCount_eq, digitCount_eq]
    split <;> split <;> omega

/-! ## One digit -/

section
variable {n : UInt8}

theorem nine_lt_iff : 9 < n ↔ 9 < n.toNat := UInt8.lt_iff_toNat_lt

theorem digit_of_lt (h : 9 < n.toNat) : digit n = 0x61 + n - 10 := if_pos (nine_lt_iff.mpr h)

theorem digit_of_le (h : n.toNat ≤ 9) : digit n = 0x30 + n :=
  if_neg (mt nine_lt_iff.mp (Nat.not_lt_of_le h))

/-- A digit below 16 is added to an ASCII code without leaving the byte. -/
theorem code_add_lt {code : UInt8} (hcode : code.toNat < 128) (h : n.toNat < 16) :
    code.toNat + n.toNat < 2 ^ 8 := by
  omega

theorem toNat_code_add {code : UInt8} (hcode : code.toNat < 128) (h : n.toNat < 16) :
    (code + n).toNat = code.toNat + n.toNat := by
  rw [UInt8.toNat_add, Nat.mod_eq_of_lt (code_add_lt hcode h)]

theorem ten_le_letter (h : n.toNat < 16) : (10 : UInt8).toNat ≤ (0x61 + n).toNat := by
  rw [toNat_code_add (by decide) h]
  exact Nat.le_add_right_of_le (by decide)

theorem toNat_digit (h : n.toNat < 16) :
    (digit n).toNat = if n.toNat ≤ 9 then 48 + n.toNat else 97 + n.toNat - 10 := by
  rcases Nat.lt_or_ge 9 n.toNat with hn | hn
  · rw [digit_of_lt hn, UInt8.toNat_sub_of_le _ _ (UInt8.le_iff_toNat_le.mpr (ten_le_letter h)),
      toNat_code_add (by decide) h, if_neg (Nat.not_le_of_lt hn)]
    rfl
  · rw [digit_of_le hn, toNat_code_add (by decide) h, if_pos hn]
    rfl

theorem isDigitCode_digit (h : n.toNat < 16) : IsDigitCode (digit n) := by
  rw [isDigitCode_iff, toNat_digit h]
  split <;> omega

theorem digitCount_digit (h : n.toNat < 16) : digitCount (digit n) = n.toNat := by
  rw [digitCount_eq, toNat_digit h]
  split <;> split <;> omega

end

/-! ## Overflow -/

namespace Checked

/-- The sum of two bytes, unless it is too large for a byte. -/
def add (a b : UInt8) : Except BitField.Overflow UInt8 :=
  if a.toNat + b.toNat < 2 ^ 8 then .ok (a + b) else .error .add

def sub (a b : UInt8) : Except BitField.Overflow UInt8 :=
  if b.toNat ≤ a.toNat then .ok (a - b) else .error .subtract

/-- As `Exception.digit`, with operations that stop at an overflow. -/
def digit (n : UInt8) : Except BitField.Overflow UInt8 :=
  if 9 < n then do sub (← add 0x61 n) 10 else add 0x30 n

variable {a b n : UInt8}

theorem add_eq_ok (h : a.toNat + b.toNat < 2 ^ 8) : add a b = .ok (a + b) := if_pos h

theorem sub_eq_ok (h : b.toNat ≤ a.toNat) : sub a b = .ok (a - b) := if_pos h

theorem digit_eq (h : n.toNat < 16) : digit n = .ok (Exception.digit n) := by
  rcases Nat.lt_or_ge 9 n.toNat with hn | hn
  · rw [digit, if_pos (nine_lt_iff.mpr hn), add_eq_ok (code_add_lt (by decide) h), digit_of_lt hn]
    exact sub_eq_ok (ten_le_letter h)
  · rw [digit, if_neg (mt nine_lt_iff.mp (Nat.not_lt_of_le hn)), digit_of_le hn]
    exact add_eq_ok (code_add_lt (by decide) h)

end Checked

/-! ## All digits -/

/-- Four bits of a word, from the highest on. -/
def nibble (w : UInt64) (i : Fin 16) : UInt8 := ((w >>> (60 - 4 * .ofNat i)) &&& 0xf).toUInt8

theorem getElem_digits (w : UInt64) (i : Fin 16) : (digits w)[i] = digit (nibble w i) :=
  Vector.getElem_ofFn i.isLt

theorem toNat_nibble (w : UInt64) (i : Fin 16) :
    (nibble w i).toNat = w.toNat / 16 ^ (15 - i.val) % 16 := by
  rw [nibble, nibble_eq, UInt8.toNat_ofNat']
  exact Nat.mod_eq_of_lt (Nat.lt_trans (Nat.mod_lt _ (Nat.succ_pos 15)) (by decide))

theorem nibble_lt (w : UInt64) (i : Fin 16) : (nibble w i).toNat < 16 := by
  rw [toNat_nibble]
  exact Nat.mod_lt _ (Nat.succ_pos 15)

theorem isDigitCode_of_mem_digits {w : UInt64} {b : UInt8} (hb : b ∈ (digits w).toList) :
    IsDigitCode b := by
  rw [digits, Vector.toList_ofFn, List.mem_ofFn] at hb
  obtain ⟨i, rfl⟩ := hb
  exact isDigitCode_digit (nibble_lt w i)

theorem placeValue_digits (w : UInt64) : placeValue 16 digitCount (digits w).toList = w.toNat := by
  have hdigit : ∀ d < 16, digitCount (digit (.ofNat d)) = d := by
    intro d hd
    have hd' : (UInt8.ofNat d).toNat = d := UInt8.toNat_ofNat_of_lt' (Nat.lt_trans hd (by decide))
    rw [digitCount_digit (hd'.symm ▸ hd), hd']
  rw [toList_digits_eq_ofFn, placeValue_ofFn 16 digitCount (Nat.succ_pos 15) hdigit]
  exact Nat.mod_eq_of_lt w.toNat_lt

theorem digits_lt_iff {w w' : UInt64} : (digits w).toList < (digits w').toList ↔ w < w' := by
  have hlength : (digits w).toList.length = (digits w').toList.length := by simp
  rw [hexCodes.lt_iff (fun _ => isDigitCode_of_mem_digits) (fun _ => isDigitCode_of_mem_digits)
    hlength, placeValue_digits, placeValue_digits, UInt64.lt_iff_toNat_lt]

theorem exists_digits_eq {codes : Vector UInt8 16} (hcodes : ∀ b ∈ codes.toList, IsDigitCode b) :
    ∃ w, digits w = codes := by
  have hlt : placeValue 16 digitCount codes.toList < 2 ^ 64 := by
    have h := hexCodes.placeValue_lt hcodes
    rwa [Vector.length_toList] at h
  refine ⟨.ofNat (placeValue 16 digitCount codes.toList), ?_⟩
  apply Vector.toList_inj.mp
  apply (hexCodes.placeValue_inj (fun _ => isDigitCode_of_mem_digits) hcodes (by simp)).mp
  rw [placeValue_digits, UInt64.toNat_ofNat_of_lt' hlt]

/-! ## Significant digits -/

theorem ofUInt8_toUInt8 {c : Char} (h : c.toNat < 128) : Char.ofUInt8 c.toUInt8 = c := by
  apply Char.ext
  apply UInt32.toNat_inj.mp
  have hmod : c.toNat % 256 = c.toNat := Nat.mod_eq_of_lt (Nat.lt_trans h (by decide))
  exact hmod

theorem map_ofUInt8_digits (w : UInt64) :
    (digits w).toList.map Char.ofUInt8 = (fixedHex 16 w.toNat).toList := by
  rw [toList_digits, List.map_map]
  exact (List.map_congr_left fun c hc => ofUInt8_toUInt8 (isAscii_fixedHex w c hc)).trans
    (List.map_id _)

theorem significant_digits (w : UInt64) :
    significant ((digits w).toList.map Char.ofUInt8) = (hex w.toNat).toList := by
  rw [map_ofUInt8_digits, significant_fixedHex, toList_hex]

/-- **The digits of a word are an encoding that keeps the order.** They are computed without an
overflow and are codes of lowercase hexadecimal digits, which stand for the word in base 16; without
leading zeros they are its numeral. Byte by byte, digits are ordered as their words, and all sixteen
codes of digits are the digits of a word. -/
theorem digits_encode_in_order :
    (∀ w : UInt64,
      (∀ i : Fin 16, Checked.digit (nibble w i) = .ok (digits w)[i]) ∧
      (∀ b ∈ (digits w).toList, IsDigitCode b) ∧
      placeValue 16 digitCount (digits w).toList = w.toNat ∧
      significant ((digits w).toList.map Char.ofUInt8) = (hex w.toNat).toList) ∧
    (∀ w w' : UInt64, (digits w).toList < (digits w').toList ↔ w < w') ∧
    ∀ codes : Vector UInt8 16, (∀ b ∈ codes.toList, IsDigitCode b) ↔ ∃ w, digits w = codes := by
  refine ⟨fun w => ⟨fun i => ?_, fun _ => isDigitCode_of_mem_digits, placeValue_digits w,
    significant_digits w⟩, fun _ _ => digits_lt_iff, fun codes => ⟨exists_digits_eq, ?_⟩⟩
  · rw [getElem_digits]
    exact Checked.digit_eq (nibble_lt w i)
  · rintro ⟨w, rfl⟩ b
    exact isDigitCode_of_mem_digits

/-- Over the gap between the decimal digits and the letters, and sixteen times the last digit. -/
theorem digits_encode_in_order_of_last_digits :
    (digits 0x9).toList < (digits 0xa).toList ∧ IsDigitCode (digits 0xa)[15] ∧
    ∃ w, digits w = Vector.replicate 16 0x66 := by
  obtain ⟨hword, horder, honto⟩ := digits_encode_in_order
  refine ⟨(horder 0x9 0xa).mpr (by decide), ?_, (honto _).mp fun b hb => ?_⟩
  · exact (hword 0xa).2.1 _ (Vector.mem_toList_iff.mpr (Vector.getElem_mem _))
  · rw [Vector.toList_replicate] at hb
    obtain rfl := List.eq_of_mem_replicate hb
    exact .inr ⟨by decide, by decide⟩

end Vr4300.Exception
