import Mathlib.Algebra.Ring.Nat

/-!
# The bits of a word

A word is determined by its 32 bits (`Word.ext_bit`), and the bitwise operations work on each of
them alone. Words without a common bit are added by joining their bits
(`Word.toNat_or_of_and_eq_zero`).
-/

namespace Vr4300.Word

/-- Numbers have the same remainder by a power of two if their bits below it are the same. -/
theorem mod_two_pow_eq_iff {k n m : Nat} :
    n % 2 ^ k = m % 2 ^ k ↔ ∀ i < k, n.testBit i = m.testBit i := by
  constructor
  · intro h i hi
    have hbit := congrArg (Nat.testBit · i) h
    simpa only [Nat.testBit_mod_two_pow, decide_eq_true hi, Bool.true_and] using hbit
  · intro h
    apply Nat.eq_of_testBit_eq
    intro i
    rw [Nat.testBit_mod_two_pow, Nat.testBit_mod_two_pow]
    rcases Nat.lt_or_ge i k with hi | hi
    · rw [h i hi]
    · rw [decide_eq_false (Nat.not_lt_of_le hi), Bool.false_and, Bool.false_and]

/-- Joining hides the bits that are set in the common part, and no others. -/
theorem or_eq_or_iff {k n m : Nat} :
    k ||| n = k ||| m ↔ ∀ i, k.testBit i = false → n.testBit i = m.testBit i := by
  constructor
  · intro h i hi
    have hbit := congrArg (Nat.testBit · i) h
    simpa only [Nat.testBit_or, hi, Bool.false_or] using hbit
  · intro h
    apply Nat.eq_of_testBit_eq
    intro i
    rw [Nat.testBit_or, Nat.testBit_or]
    cases hi : k.testBit i with
    | false => rw [h i hi]
    | true => rfl

/-- The bit of weight `2 ^ i`. -/
def bit (w : UInt32) (i : Fin 32) : Bool := w.toBitVec.getLsb i

theorem bit_eq_testBit (w : UInt32) (i : Fin 32) : bit w i = w.toNat.testBit i :=
  (BitVec.testBit_toNat w.toBitVec).symm

theorem ext_bit {w w' : UInt32} (h : ∀ i, bit w i = bit w' i) : w = w' :=
  UInt32.toBitVec_inj.mp (BitVec.eq_of_getElem_eq fun i hi => h ⟨i, hi⟩)

section
variable (w w' : UInt32) (i : Fin 32)

@[simp] theorem bit_zero : bit 0 i = false := BitVec.getElem_zero i.isLt

@[simp] theorem bit_and : bit (w &&& w') i = (bit w i && bit w' i) := BitVec.getElem_and i.isLt

@[simp] theorem bit_or : bit (w ||| w') i = (bit w i || bit w' i) := BitVec.getElem_or i.isLt

@[simp] theorem bit_xor : bit (w ^^^ w') i = (bit w i ^^ bit w' i) := BitVec.getElem_xor i.isLt

@[simp] theorem bit_not : bit (~~~w) i = !bit w i := BitVec.getElem_not i.isLt

end

theorem bit_shiftLeft (w : UInt32) {n : UInt32} (hn : n.toNat < 32) (i : Fin 32) :
    bit (w <<< n) i = (decide (n.toNat ≤ i) && w.toNat.testBit (i - n.toNat)) := by
  rw [bit_eq_testBit, UInt32.toNat_shiftLeft, Nat.mod_eq_of_lt hn, Nat.testBit_mod_two_pow,
    decide_eq_true i.isLt, Bool.true_and, Nat.testBit_shiftLeft]

theorem exists_bit_of_ne_zero {w : UInt32} (h : w ≠ 0) : ∃ i, bit w i = true := by
  apply Decidable.by_contra
  intro hnone
  refine h (ext_bit fun i => ?_)
  rw [bit_zero, ← Bool.not_eq_true]
  exact fun hi => hnone ⟨i, hi⟩

theorem or_and (w w' m : UInt32) : (w ||| w') &&& m = (w &&& m) ||| (w' &&& m) :=
  ext_bit fun i => by simp only [bit_and, bit_or, Bool.and_or_distrib_right]

theorem toNat_or_of_and_eq_zero {w w' : UInt32} (h : w &&& w' = 0) :
    (w ||| w').toNat = w.toNat + w'.toNat := by
  have hbits : w.toBitVec &&& w'.toBitVec = 0#32 := congrArg UInt32.toBitVec h
  have hor : (w ||| w').toBitVec = w.toBitVec + w'.toBitVec :=
    (BitVec.add_eq_or_of_and_eq_zero _ _ hbits).symm
  exact (congrArg BitVec.toNat hor).trans (BitVec.toNat_add_of_and_eq_zero hbits)

end Vr4300.Word
