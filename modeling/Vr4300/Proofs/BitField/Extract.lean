import Mathlib.Data.Nat.Bitwise
import Vr4300.BitField
import Vr4300.Cp0.Cause

/-!
# Fields of a word as integers

On 32-bit words that never wrap (`Checked`), an operation gives the word for the exact result, or
stops where there is none. Taking a field and testing a bit are computations of this kind
(`extract_eq_checked`, `isSet_eq_checked`). They stop for certain places only
(`extract_eq_error_iff`, `isSet_eq`), and for all others the field is a remainder of a quotient of
the word as a natural number (`extract_of_fits`), also where it reaches beyond the highest bit.
-/

namespace Vr4300.BitField

/-! ## Operations that stop at an overflow -/

namespace Checked

def sub (a b : UInt32) : Except Overflow UInt32 :=
  if b.toNat ≤ a.toNat then .ok (a - b) else .error .subtract

def add (a b : UInt32) : Except Overflow UInt32 :=
  if a.toNat + b.toNat < 2 ^ 32 then .ok (a + b) else .error .add

def shiftLeft (a n : UInt32) : Except Overflow UInt32 :=
  if n.toNat < 32 then .ok (a <<< n) else .error .shiftLeft

def shiftRight (a n : UInt32) : Except Overflow UInt32 :=
  if n.toNat < 32 then .ok (a >>> n) else .error .shiftRight

/-- The shift and the subtraction are left out from a width of 32 on. -/
def mask (width : UInt32) : Except Overflow UInt32 :=
  if 32 ≤ width then .ok 0xffffffff else do sub (← shiftLeft 1 width) 1

def extract (value high low : UInt32) : Except Overflow UInt32 := do
  let width ← add (← sub high low) 1
  let m ← mask width
  return (← shiftRight value low) &&& m

def isSet (value bit : UInt32) : Except Overflow Bool := do
  return value &&& (← shiftLeft 1 bit) != 0

variable {a b : UInt32}

theorem sub_eq_ok (h : b.toNat ≤ a.toNat) : sub a b = .ok (a - b) := if_pos h

theorem sub_eq_error (h : a.toNat < b.toNat) : sub a b = .error .subtract :=
  if_neg (Nat.not_le_of_lt h)

theorem add_eq_ok (h : a.toNat + b.toNat < 2 ^ 32) : add a b = .ok (a + b) := if_pos h

theorem add_eq_error (h : 2 ^ 32 ≤ a.toNat + b.toNat) : add a b = .error .add :=
  if_neg (Nat.not_lt_of_le h)

end Checked

/-- The computation stops, and this is the text that it leaves. -/
def StopsWith {α : Type} (r : Except Overflow α) (text : String) : Prop :=
  r.mapError Overflow.message = .error text

theorem Overflow.message_inj {o o' : Overflow} : o.message = o'.message ↔ o = o' := by
  cases o <;> cases o' <;> decide

theorem stopsWith_message {α : Type} {r : Except Overflow α} {o : Overflow} :
    StopsWith r o.message ↔ r = .error o := by
  cases r with
  | ok => exact ⟨nofun, nofun⟩
  | error o' =>
    change Except.error o'.message = Except.error o.message ↔ _
    rw [Except.error.injEq, Except.error.injEq, Overflow.message_inj]

/-! ## Masks -/

theorem toNat_one_shiftLeft {n : UInt32} (h : n.toNat < 32) : (1 <<< n).toNat = 2 ^ n.toNat := by
  rw [UInt32.toNat_shiftLeft, Nat.mod_eq_of_lt h, Nat.shiftLeft_eq]
  have hlt : 2 ^ n.toNat < 2 ^ 32 := Nat.pow_lt_pow_right (by decide) h
  exact (Nat.mod_eq_of_lt (by simpa using hlt)).trans (Nat.one_mul _)

/-- There is a word to subtract one from. -/
theorem one_le_one_shiftLeft {n : UInt32} (h : n.toNat < 32) : 1 ≤ (1 <<< n).toNat := by
  rw [toNat_one_shiftLeft h]
  exact Nat.one_le_two_pow

theorem thirtyTwo_le_iff {n : UInt32} : 32 ≤ n ↔ 32 ≤ n.toNat := UInt32.le_iff_toNat_le

theorem toNat_lt_of_not_le {n : UInt32} (h : ¬ 32 ≤ n) : n.toNat < 32 :=
  Nat.lt_of_not_le (mt thirtyTwo_le_iff.mpr h)

theorem toNat_mask (width : UInt32) : (mask width).toNat = 2 ^ min width.toNat 32 - 1 := by
  unfold mask
  split
  next h =>
    rw [Nat.min_eq_right (thirtyTwo_le_iff.mp h)]
    rfl
  next h =>
    have hlt := toNat_lt_of_not_le h
    rw [Nat.min_eq_left (Nat.le_of_lt hlt), ← toNat_one_shiftLeft hlt]
    exact UInt32.toNat_sub_of_le _ _ (UInt32.le_iff_toNat_le.mpr (one_le_one_shiftLeft hlt))

theorem Checked.mask_eq (width : UInt32) : Checked.mask width = .ok (BitField.mask width) := by
  unfold Checked.mask BitField.mask
  split
  next => rfl
  next h =>
    have hlt := toNat_lt_of_not_le h
    rw [Checked.shiftLeft, if_pos hlt]
    exact Checked.sub_eq_ok (one_le_one_shiftLeft hlt)

theorem toNat_read {low : UInt32} (hlow : low.toNat < 32) (value width : UInt32) :
    (read value width low).toNat = value.toNat / 2 ^ low.toNat % 2 ^ width.toNat := by
  rw [read, UInt32.toNat_and, UInt32.toNat_shiftRight, Nat.mod_eq_of_lt hlow, toNat_mask,
    Nat.and_two_pow_sub_one_eq_mod, Nat.shiftRight_eq_div_pow]
  rcases Nat.le_total width.toNat 32 with hle | hge
  · rw [Nat.min_eq_left hle]
  · -- a field that is as wide as the word or wider takes all that is left
    have hlt : value.toNat / 2 ^ low.toNat < 2 ^ 32 :=
      Nat.lt_of_le_of_lt (Nat.div_le_self ..) value.toNat_lt
    rw [Nat.min_eq_right hge, Nat.mod_eq_of_lt hlt,
      Nat.mod_eq_of_lt (Nat.lt_of_lt_of_le hlt (Nat.pow_le_pow_right (by decide) hge))]

/-! ## A field between two bits -/

/-- The overflow that stops the extraction of the bits `low` to `high`. -/
def ExtractOverflows (high low : Nat) : Overflow → Prop
  | .subtract => high < low
  | .add => low = 0 ∧ high = 2 ^ 32 - 1
  | .shiftRight => 32 ≤ low ∧ low ≤ high
  | .shiftLeft => False

theorem extractOverflows_or_fits (high low : Nat) :
    (∃ o, ExtractOverflows high low o) ∨
      low ≤ high ∧ low < 32 ∧ ¬(low = 0 ∧ high = 2 ^ 32 - 1) := by
  rcases Nat.lt_or_ge high low with hlt | hle
  · exact .inl ⟨.subtract, hlt⟩
  by_cases hadd : low = 0 ∧ high = 2 ^ 32 - 1
  · exact .inl ⟨.add, hadd⟩
  rcases Nat.lt_or_ge low 32 with hlow | hlow
  · exact .inr ⟨hle, hlow, hadd⟩
  · exact .inl ⟨.shiftRight, hlow, hle⟩

section
variable {high low : UInt32}

theorem toNat_distance (hle : low.toNat ≤ high.toNat) :
    (high - low).toNat = high.toNat - low.toNat :=
  UInt32.toNat_sub_of_le _ _ (UInt32.le_iff_toNat_le.mpr hle)

/-- Only the distance between the first and the last number cannot be increased by one. -/
theorem distance_eq_top_iff (hle : low.toNat ≤ high.toNat) :
    high - low = 0xffffffff ↔ low.toNat = 0 ∧ high.toNat = 2 ^ 32 - 1 := by
  have hhigh := high.toNat_lt
  rw [← UInt32.toNat_inj, toNat_distance hle]
  change high.toNat - low.toNat = 2 ^ 32 - 1 ↔ _
  omega

theorem distance_add_one_lt (hle : low.toNat ≤ high.toNat)
    (hadd : ¬(low.toNat = 0 ∧ high.toNat = 2 ^ 32 - 1)) :
    (high - low).toNat + (1 : UInt32).toNat < 2 ^ 32 := by
  have hhigh := high.toNat_lt
  rw [toNat_distance hle]
  change _ + 1 < _
  omega

theorem toNat_width (hle : low.toNat ≤ high.toNat)
    (hadd : ¬(low.toNat = 0 ∧ high.toNat = 2 ^ 32 - 1)) :
    (high - low + 1).toNat = high.toNat - low.toNat + 1 := by
  rw [UInt32.toNat_add, Nat.mod_eq_of_lt (distance_add_one_lt hle hadd), toNat_distance hle]
  rfl

theorem extract_eq (value high low : UInt32) :
    extract value high low =
      if high.toNat < low.toNat then .error .subtract
      else if low.toNat = 0 ∧ high.toNat = 2 ^ 32 - 1 then .error .add
      else if 32 ≤ low.toNat then .error .shiftRight
      else .ok (read value (high - low + 1) low) := by
  unfold extract
  by_cases hlt : high < low
  · rw [if_pos hlt, if_pos (UInt32.lt_iff_toNat_lt.mp hlt)]
  · have hle := Nat.le_of_not_lt (mt UInt32.lt_iff_toNat_lt.mpr hlt)
    rw [if_neg hlt, if_neg (Nat.not_lt_of_le hle), if_congr (distance_eq_top_iff hle) rfl rfl,
      if_congr thirtyTwo_le_iff rfl rfl]

theorem extract_of_fits (value : UInt32) (hle : low.toNat ≤ high.toNat) (hlow : low.toNat < 32)
    (hadd : ¬(low.toNat = 0 ∧ high.toNat = 2 ^ 32 - 1)) :
    ∃ w, extract value high low = .ok w ∧
      w.toNat = value.toNat / 2 ^ low.toNat % 2 ^ (high.toNat - low.toNat + 1) := by
  refine ⟨read value (high - low + 1) low, ?_, ?_⟩
  · rw [extract_eq, if_neg (Nat.not_lt_of_le hle), if_neg hadd, if_neg (Nat.not_le_of_lt hlow)]
  · rw [toNat_read hlow, toNat_width hle hadd]

theorem extract_of_overflows (value : UInt32) {o : Overflow}
    (h : ExtractOverflows high.toNat low.toNat o) : extract value high low = .error o := by
  rw [extract_eq]
  cases o with
  | subtract => exact if_pos h
  | add =>
    obtain ⟨hlow, hhigh⟩ := h
    rw [if_neg (by rw [hlow]; exact Nat.not_lt_zero _), if_pos ⟨hlow, hhigh⟩]
  | shiftRight =>
    obtain ⟨hlow, hle⟩ := h
    rw [if_neg (Nat.not_lt_of_le hle), if_neg (by omega), if_pos hlow]
  | shiftLeft => exact h.elim

theorem extract_eq_error_iff {value : UInt32} {o : Overflow} :
    extract value high low = .error o ↔ ExtractOverflows high.toNat low.toNat o := by
  refine ⟨fun h => ?_, extract_of_overflows value⟩
  obtain ⟨o', ho'⟩ | ⟨hle, hlow, hadd⟩ := extractOverflows_or_fits high.toNat low.toNat
  · obtain rfl : o = o' := Except.error.inj (h.symm.trans (extract_of_overflows value ho'))
    exact ho'
  · obtain ⟨w, hw, _⟩ := extract_of_fits value hle hlow hadd
    cases h.symm.trans hw

/-- What `extract` finds out beforehand is what the operations stop at, one after the other. -/
theorem extract_eq_checked (value high low : UInt32) :
    extract value high low = Checked.extract value high low := by
  rw [extract_eq]
  unfold Checked.extract
  rcases Nat.lt_or_ge high.toNat low.toNat with hlt | hle
  · rw [if_pos hlt, Checked.sub_eq_error hlt]
    rfl
  rw [if_neg (Nat.not_lt_of_le hle), Checked.sub_eq_ok hle]
  change _ = Checked.add (high - low) 1 >>= _
  by_cases hadd : low.toNat = 0 ∧ high.toNat = 2 ^ 32 - 1
  · rw [if_pos hadd, Checked.add_eq_error]
    · rfl
    · rw [toNat_distance hle, hadd.1, hadd.2]
      decide
  rw [if_neg hadd, Checked.add_eq_ok (distance_add_one_lt hle hadd)]
  change _ = Checked.mask (high - low + 1) >>= _
  rw [Checked.mask_eq]
  change _ = Checked.shiftRight value low >>= _
  unfold Checked.shiftRight
  rcases Nat.lt_or_ge low.toNat 32 with hlow | hlow
  · rw [if_neg (Nat.not_le_of_lt hlow), if_pos hlow]
    rfl
  · rw [if_pos hlow, if_neg (Nat.not_lt_of_le hlow)]
    rfl

end

/-! ## One bit -/

theorem isSet_eq (value bit : UInt32) :
    isSet value bit =
      if 32 ≤ bit.toNat then .error .shiftLeft else .ok (value.toNat.testBit bit.toNat) := by
  rw [isSet, if_congr thirtyTwo_le_iff rfl rfl]
  split
  next => rfl
  next h =>
    rw [Except.ok.injEq, Bool.eq_iff_iff, bne_iff_ne, ne_eq, ← UInt32.toNat_inj, UInt32.toNat_and,
      toNat_one_shiftLeft (Nat.lt_of_not_le h), Nat.and_two_pow]
    cases value.toNat.testBit bit.toNat with
    | false => simp
    | true => simp

theorem isSet_eq_checked (value bit : UInt32) : isSet value bit = Checked.isSet value bit := by
  unfold isSet Checked.isSet Checked.shiftLeft
  split
  next h =>
    rw [if_neg (Nat.not_lt_of_le (thirtyTwo_le_iff.mp h))]
    rfl
  next h =>
    rw [if_pos (toNat_lt_of_not_le h)]
    rfl

theorem isSet_eq_error_iff {value bit : UInt32} :
    isSet value bit = .error .shiftLeft ↔ 32 ≤ bit.toNat := by
  rw [isSet_eq]
  split
  next h => exact ⟨fun _ => h, fun _ => rfl⟩
  next h => exact ⟨nofun, fun h' => absurd h' h⟩

/-- A bit is a field of its own. -/
theorem isSet_of_lt (value : UInt32) {bit : UInt32} (h : bit.toNat < 32) :
    ∃ w, extract value bit bit = .ok w ∧ isSet value bit = .ok (w == 1) := by
  obtain ⟨w, hw, hvalue⟩ := extract_of_fits value (Nat.le_refl _) h (by omega)
  refine ⟨w, hw, ?_⟩
  rw [Nat.sub_self] at hvalue
  rw [isSet_eq, if_neg (Nat.not_le_of_lt h), Nat.testBit_eq_decide_div_mod_eq, Except.ok.injEq,
    Bool.eq_iff_iff, decide_eq_true_iff, beq_iff_eq, ← UInt32.toNat_inj, hvalue]
  rfl

/-- **Fields are remainders of quotients.** Extracting the bits `low` to `high` computes with
operations that stop at an overflow. It stops in the subtraction if the places are in the wrong
order, in the addition if they are the first and the last of all numbers, and in the shift if the
field starts behind the word. For all other places it gives the word divided by `2 ^ low`, modulo
`2 ^ (high - low + 1)`. Testing a bit stops behind the word, and otherwise it looks at the field of
this one bit. The two fields of a Cause word never stop. -/
theorem fields_over_integers :
    (∀ value high low : UInt32,
      extract value high low = Checked.extract value high low ∧
      (StopsWith (extract value high low) "attempt to subtract with overflow" ↔
        high.toNat < low.toNat) ∧
      (StopsWith (extract value high low) "attempt to add with overflow" ↔
        low.toNat = 0 ∧ high.toNat = 2 ^ 32 - 1) ∧
      (StopsWith (extract value high low) "attempt to shift right with overflow" ↔
        32 ≤ low.toNat ∧ low.toNat ≤ high.toNat) ∧
      (low.toNat ≤ high.toNat → low.toNat < 32 → ¬(low.toNat = 0 ∧ high.toNat = 2 ^ 32 - 1) →
        ∃ w, extract value high low = .ok w ∧
          w.toNat = value.toNat / 2 ^ low.toNat % 2 ^ (high.toNat - low.toNat + 1))) ∧
    (∀ value bit : UInt32,
      isSet value bit = Checked.isSet value bit ∧
      (StopsWith (isSet value bit) "attempt to shift left with overflow" ↔ 32 ≤ bit.toNat) ∧
      (bit.toNat < 32 →
        ∃ w, extract value bit bit = .ok w ∧ isSet value bit = .ok (w == 1))) ∧
    ∀ cause : UInt32,
      extract cause Cp0.Cause.codeHigh Cp0.Cause.codeLow = .ok (Cp0.Cause.exceptionCode cause) ∧
      isSet cause Cp0.Cause.branchDelayBit = .ok (Cp0.Cause.branchDelay cause) := by
  have hstops (value high low : UInt32) (o : Overflow) :
      StopsWith (extract value high low) o.message ↔ ExtractOverflows high.toNat low.toNat o :=
    stopsWith_message.trans extract_eq_error_iff
  refine ⟨fun value high low => ?_, fun value bit => ?_, fun cause => ?_⟩
  · exact ⟨extract_eq_checked value high low, hstops value high low .subtract,
      hstops value high low .add, hstops value high low .shiftRight, extract_of_fits value⟩
  · exact ⟨isSet_eq_checked value bit, stopsWith_message.trans isSet_eq_error_iff,
      isSet_of_lt value⟩
  · exact ⟨Cp0.Cause.extract_exceptionCode cause, Cp0.Cause.isSet_branchDelay cause⟩

/-- A field that reaches far beyond the highest bit, one that starts behind it, and that bit. -/
theorem fields_over_integers_of_high_places :
    (∃ w, extract 0xdeadbeef 100 4 = .ok w ∧ w.toNat = 0xdeadbee) ∧
    StopsWith (extract 0xdeadbeef 100 32) "attempt to shift right with overflow" ∧
    StopsWith (extract 0xdeadbeef 0xffffffff 0) "attempt to add with overflow" ∧
    ∃ w, extract 0x80000000 31 31 = .ok w ∧ isSet 0x80000000 31 = .ok (w == 1) := by
  obtain ⟨hextract, hset, _⟩ := fields_over_integers
  obtain ⟨_, _, _, _, hfits⟩ := hextract 0xdeadbeef 100 4
  obtain ⟨_, _, _, hshift, _⟩ := hextract 0xdeadbeef 100 32
  obtain ⟨_, _, hadd, _⟩ := hextract 0xdeadbeef 0xffffffff 0
  exact ⟨hfits (by decide) (by decide) (by decide), hshift.mpr (by decide), hadd.mpr (by decide),
    (hset 0x80000000 31).2.2 (by decide)⟩

end Vr4300.BitField
