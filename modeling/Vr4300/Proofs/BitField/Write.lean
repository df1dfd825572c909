import Vr4300.Proofs.BitField.Extract
import Vr4300.Proofs.Bits

/-!
# Fields written and read back

`write` puts a value into a field of a word and leaves all other bits (`testBit_write`). So the
field reads as what was written (`read_write`), and a field beside it as before
(`read_write_of_apart`).
-/

namespace Vr4300.BitField

open Word

/-- `value` with the lowest bits of `field` in its `width` bits from bit `low` on. -/
def write (value width low field : UInt32) : UInt32 :=
  (value &&& ~~~(mask width <<< low)) ||| ((field &&& mask width) <<< low)

theorem testBit_mask (width : UInt32) {k : Nat} (hk : k < 32) :
    (mask width).toNat.testBit k = decide (k < width.toNat) := by
  rw [toNat_mask, Nat.testBit_two_pow_sub_one]
  simp only [Nat.lt_min, hk, and_true]

section
variable {width low : UInt32} (hlow : low.toNat < 32)
include hlow

theorem testBit_read (value : UInt32) (k : Nat) :
    (read value width low).toNat.testBit k =
      (decide (k < width.toNat) && value.toNat.testBit (k + low.toNat)) := by
  rw [toNat_read hlow, Nat.testBit_mod_two_pow, Nat.testBit_div_two_pow]

theorem testBit_write (value field : UInt32) {k : Nat} (hk : k < 32) :
    (write value width low field).toNat.testBit k =
      if low.toNat ≤ k ∧ k < low.toNat + width.toNat then field.toNat.testBit (k - low.toNat)
      else value.toNat.testBit k := by
  have hsub : k - low.toNat < 32 := Nat.lt_of_le_of_lt (Nat.sub_le ..) hk
  have hvalue : bit value ⟨k, hk⟩ = value.toNat.testBit k := bit_eq_testBit value ⟨k, hk⟩
  rw [← bit_eq_testBit _ ⟨k, hk⟩, write, bit_or, bit_and, bit_not, bit_shiftLeft _ hlow,
    bit_shiftLeft _ hlow, UInt32.toNat_and, Nat.testBit_and, testBit_mask width hsub, hvalue]
  split
  next h =>
    have hwithin : k - low.toNat < width.toNat := by omega
    simp [h.1, hwithin]
  next h =>
    rcases Nat.lt_or_ge k low.toNat with hlt | hge
    · simp [Nat.not_le_of_lt hlt]
    · have hbehind : ¬ k - low.toNat < width.toNat := by omega
      simp [hbehind]

theorem read_write (value : UInt32) {field : UInt32} (hfit : low.toNat + width.toNat ≤ 32)
    (hfield : field.toNat < 2 ^ width.toNat) :
    read (write value width low field) width low = field := by
  apply UInt32.toNat_inj.mp
  apply Nat.eq_of_testBit_eq
  intro k
  rw [testBit_read hlow]
  rcases Nat.lt_or_ge k width.toNat with hk | hk
  · have hplace : low.toNat ≤ k + low.toNat ∧ k + low.toNat < low.toNat + width.toNat := by omega
    rw [testBit_write hlow value field (by omega), if_pos hplace, Nat.add_sub_cancel,
      decide_eq_true hk, Bool.true_and]
  · have hzero : field.toNat.testBit k = false :=
      Nat.testBit_lt_two_pow (Nat.lt_of_lt_of_le hfield (Nat.pow_le_pow_right (by decide) hk))
    rw [hzero, decide_eq_false (Nat.not_lt_of_le hk), Bool.false_and]

theorem read_write_of_apart (value field : UInt32) {width' low' : UInt32}
    (hfit : low'.toNat + width'.toNat ≤ 32) (hlow' : low'.toNat < 32)
    (h : low'.toNat + width'.toNat ≤ low.toNat ∨ low.toNat + width.toNat ≤ low'.toNat) :
    read (write value width low field) width' low' = read value width' low' := by
  apply UInt32.toNat_inj.mp
  apply Nat.eq_of_testBit_eq
  intro k
  rw [testBit_read hlow', testBit_read hlow']
  rcases Nat.lt_or_ge k width'.toNat with hk | hk
  · rw [testBit_write hlow value field (by omega), if_neg (by omega)]
  · rw [decide_eq_false (Nat.not_lt_of_le hk), Bool.false_and, Bool.false_and]

end

end Vr4300.BitField
