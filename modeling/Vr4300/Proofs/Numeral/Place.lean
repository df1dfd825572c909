import Mathlib.Algebra.Ring.Nat

/-!
# Numerals in the order of their places

Digits of a base stand for the sum of what they count at their places, the highest first
(`placeValue`). If the digits themselves are ordered as they count (`DigitsOf`), then numerals of
one length are ordered, digit by digit, as the numbers they stand for (`DigitsOf.lt_iff`), and
different numerals stand for different numbers (`DigitsOf.placeValue_inj`).
-/

namespace Vr4300.Numeral

section
variable {α : Type} (base : Nat) (count : α → Nat)

/-- The number for which digits stand, each of which counts `count` of its place. -/
def placeValue : List α → Nat
  | [] => 0
  | a :: as => count a * base ^ as.length + placeValue as

/-- The digits of a number by place stand for its remainder by the power that they reach. -/
theorem placeValue_ofFn {digit : Nat → α} (hbase : 0 < base)
    (hdigit : ∀ d < base, count (digit d) = d) (k n : Nat) :
    placeValue base count (List.ofFn fun i : Fin k => digit (n / base ^ (k - 1 - i) % base)) =
      n % base ^ k := by
  induction k with
  | zero => simp [placeValue, Nat.mod_one]
  | succ k ih =>
    have hindex (i : Fin k) : k + 1 - 1 - i.succ.val = k - 1 - i.val := by
      rw [Fin.val_succ]
      omega
    rw [List.ofFn_succ, placeValue, List.length_ofFn]
    simp only [hindex]
    rw [ih, hdigit _ (Nat.mod_lt _ hbase), Nat.mod_pow_succ, Nat.add_comm, Nat.mul_comm]
    rfl

end

/-- What fits behind a place cannot make up for a difference there. -/
theorem place_lt_iff {place d d' r r' : Nat} (hr : r < place) (hr' : r' < place) :
    d * place + r < d' * place + r' ↔ d < d' ∨ d = d' ∧ r < r' := by
  rcases Nat.lt_trichotomy d d' with h | rfl | h
  · have hstep := Nat.mul_le_mul_right place (Nat.succ_le_of_lt h)
    rw [Nat.succ_mul] at hstep
    omega
  · omega
  · have hstep := Nat.mul_le_mul_right place (Nat.succ_le_of_lt h)
    rw [Nat.succ_mul] at hstep
    omega

/-- The elements with `IsDigit` are ordered as they count, below the base. -/
structure DigitsOf {α : Type} [LT α] (base : Nat) (IsDigit : α → Prop) (count : α → Nat) :
    Prop where
  count_lt : ∀ {a}, IsDigit a → count a < base
  count_lt_count : ∀ {a b}, IsDigit a → IsDigit b → (count a < count b ↔ a < b)

namespace DigitsOf

variable {α : Type} [LT α] {base : Nat} {IsDigit : α → Prop} {count : α → Nat}
  (H : DigitsOf base IsDigit count) {as bs : List α}
include H

theorem placeValue_lt (has : ∀ a ∈ as, IsDigit a) :
    placeValue base count as < base ^ as.length := by
  induction as with
  | nil => exact Nat.one_pos
  | cons a as ih =>
    obtain ⟨ha, has⟩ := List.forall_mem_cons.mp has
    have hplace := Nat.mul_le_mul_right (base ^ as.length) (Nat.succ_le_of_lt (H.count_lt ha))
    have hrest := ih has
    rw [Nat.succ_mul] at hplace
    rw [placeValue, List.length_cons, Nat.pow_succ']
    omega

variable [Std.Trichotomous fun a b : α => a < b]

theorem count_inj {a b : α} (ha : IsDigit a) (hb : IsDigit b) : count a = count b ↔ a = b := by
  refine ⟨fun h => Std.Trichotomous.trichotomous (r := fun a b => a < b) a b ?_ ?_, congrArg count⟩
  · exact fun hlt => Nat.ne_of_lt ((H.count_lt_count ha hb).mpr hlt) h
  · exact fun hlt => Nat.ne_of_lt ((H.count_lt_count hb ha).mpr hlt) h.symm

theorem lt_iff (has : ∀ a ∈ as, IsDigit a) (hbs : ∀ b ∈ bs, IsDigit b)
    (hlength : as.length = bs.length) :
    as < bs ↔ placeValue base count as < placeValue base count bs := by
  induction as generalizing bs with
  | nil =>
    obtain rfl := List.length_eq_zero_iff.mp hlength.symm
    exact ⟨fun h => absurd h (List.not_lt_nil _), fun h => absurd h (Nat.lt_irrefl _)⟩
  | cons a as ih =>
    cases bs with
    | nil => cases hlength
    | cons b bs =>
      obtain ⟨ha, has⟩ := List.forall_mem_cons.mp has
      obtain ⟨hb, hbs⟩ := List.forall_mem_cons.mp hbs
      have hlength : as.length = bs.length := Nat.succ.inj hlength
      rw [List.cons_lt_cons_iff, ih has hbs hlength, placeValue, placeValue, hlength,
        place_lt_iff (hlength ▸ H.placeValue_lt has) (H.placeValue_lt hbs),
        H.count_lt_count ha hb, H.count_inj ha hb]

theorem placeValue_inj (has : ∀ a ∈ as, IsDigit a) (hbs : ∀ b ∈ bs, IsDigit b)
    (hlength : as.length = bs.length) :
    placeValue base count as = placeValue base count bs ↔ as = bs := by
  refine ⟨fun h => List.le_antisymm ?_ ?_, congrArg _⟩
  · exact fun hlt => Nat.ne_of_lt ((H.lt_iff hbs has hlength.symm).mp hlt) h.symm
  · exact fun hlt => Nat.ne_of_lt ((H.lt_iff has hbs hlength).mp hlt) h

end DigitsOf

end Vr4300.Numeral
