import Mathlib.Algebra.Ring.Nat
import Vr4300.Numeral

/-!
# Hexadecimal numerals of fixed width

A number below `16 ^ width` has exactly `width` digits in `fixedHex`, each the digit of its place
(`leftpad_digits`), and `readHex?` reads it back whatever the width (`readHex?_fixedHex`), so
numerals of one width are equal only for equal numbers (`fixedHex_inj`). Its significant digits are
those of the numeral without a fixed width (`significant_fixedHex`).
-/

namespace Vr4300

/-- What reads as what was written is written in one way only. -/
theorem eq_iff_of_read {α β : Type} {write : α → β} (read : β → Option α)
    (h : ∀ a, read (write a) = some a) {a b : α} : write a = write b ↔ a = b := by
  refine ⟨fun hwrite => ?_, congrArg write⟩
  rw [← Option.some_inj, ← h a, ← h b, hwrite]

namespace Numeral

/-- The sixteen lowercase digits. -/
def IsHexDigit (c : Char) : Prop := ∃ d < 16, c = Nat.digitChar d

theorem toList_fixedHex (width n : Nat) :
    (fixedHex width n).toList = (digits 16 n).leftpad width '0' := String.toList_ofList

/-- One more digit stands behind the digits of the number without it. -/
theorem leftpad_digits_succ (width n : Nat) :
    (digits 16 n).leftpad (width + 2) '0' =
      (digits 16 (n / 16)).leftpad (width + 1) '0' ++ [(n % 16).digitChar] := by
  unfold digits
  by_cases hn : n < 16
  · rw [Nat.div_eq_of_lt hn, Nat.mod_eq_of_lt hn, Nat.toDigits_of_lt_base hn,
      Nat.toDigits_of_lt_base (by decide)]
    change List.replicate (width + 1) '0' ++ _ = List.replicate width '0' ++ ['0'] ++ _
    rw [List.replicate_succ']
  · have hlength (cs : List Char) : width + 2 - (cs.length + 1) = width + 1 - cs.length := by omega
    rw [Nat.toDigits_eq_if (by decide : 1 < 16), if_neg hn, List.leftpad, List.leftpad,
      List.length_append, List.length_singleton, hlength, List.append_assoc]

theorem leftpad_digits {width n : Nat} (hwidth : 0 < width) (hn : n < 16 ^ width) :
    (digits 16 n).leftpad width '0' =
      List.ofFn fun i : Fin width => (n / 16 ^ (width - 1 - i) % 16).digitChar := by
  obtain ⟨k, rfl⟩ : ∃ k, width = k + 1 := ⟨width - 1, by omega⟩
  clear hwidth
  -- from the last digit on: `n / 16` has one digit less
  induction k generalizing n with
  | zero =>
    have hlt : n < 16 := hn
    simp [digits, Nat.toDigits_of_lt_base hlt, List.leftpad, Nat.mod_eq_of_lt hlt]
  | succ k ih =>
    have hdiv : n / 16 < 16 ^ (k + 1) := Nat.div_lt_of_lt_mul (by rwa [Nat.pow_succ'] at hn)
    rw [leftpad_digits_succ, ih hdiv, List.ofFn_succ_last (n := k + 1)]
    congr 2
    · funext i
      have hi : k + 1 + 1 - 1 - i.val = k + 1 - 1 - i.val + 1 := by omega
      rw [Fin.val_castSucc, hi, Nat.pow_succ', Nat.div_div_eq_div_mul]
    · simp

theorem readHex?_replicate (m : Nat) : readHex? 0 (List.replicate m '0') = some 0 := by
  induction m with
  | zero => rfl
  | succ m ih => exact ih

theorem readHex?_fixedHex (width n : Nat) : readHex? 0 (fixedHex width n).toList = some n := by
  rw [toList_fixedHex, List.leftpad, readHex?_append, readHex?_replicate]
  exact readHex?_digits n

theorem fixedHex_inj {width n m : Nat} : fixedHex width n = fixedHex width m ↔ n = m :=
  eq_iff_of_read (fun text => readHex? 0 text.toList) (readHex?_fixedHex width)

section
variable {width n : Nat} (hwidth : 0 < width) (hn : n < 16 ^ width)
include hwidth hn

theorem length_toList_fixedHex : (fixedHex width n).toList.length = width := by
  rw [toList_fixedHex, leftpad_digits hwidth hn, List.length_ofFn]

theorem isHexDigit_of_mem_fixedHex {c : Char} (hc : c ∈ (fixedHex width n).toList) :
    IsHexDigit c := by
  rw [toList_fixedHex, leftpad_digits hwidth hn, List.mem_ofFn] at hc
  obtain ⟨i, rfl⟩ := hc
  exact ⟨_, Nat.mod_lt _ (by decide), rfl⟩

end

theorem isHexDigit_of_mem_digits {n : Nat} {c : Char} (hc : c ∈ digits 16 n) : IsHexDigit c := by
  have hn : n < 16 ^ (n + 1) :=
    Nat.lt_of_lt_of_le (Nat.lt_pow_self (by decide)) (Nat.pow_le_pow_right (by decide) n.le_succ)
  apply isHexDigit_of_mem_fixedHex n.succ_pos hn
  rw [toList_fixedHex, List.leftpad]
  exact List.mem_append_right _ hc

theorem digits_inj {n m : Nat} : digits 16 n = digits 16 m ↔ n = m :=
  eq_iff_of_read (readHex? 0) readHex?_digits

theorem markedHex_inj {n m : Nat} : markedHex n = markedHex m ↔ n = m := by
  rw [← String.toList_inj, toList_markedHex, toList_markedHex, List.cons.injEq, List.cons.injEq,
    digits_inj]
  exact ⟨fun h => h.2.2, fun h => ⟨rfl, rfl, h⟩⟩

/-! ## Leading zeros -/

/-- Without leading zeros, of which one is kept if there is nothing else. -/
def significant (cs : List Char) : List Char :=
  match cs.dropWhile (· == '0') with
  | [] => ['0']
  | c :: cs => c :: cs

theorem dropWhile_digits {n : Nat} (hn : n ≠ 0) :
    (digits 16 n).dropWhile (· == '0') = digits 16 n := by
  induction n using Nat.strongRecOn with
  | ind n ih =>
    unfold digits at ih ⊢
    rw [Nat.toDigits_eq_if (by decide : 1 < 16)]
    split
    next hlt =>
      have hdigit : ∀ k : Fin 16, k ≠ 0 → (k.val.digitChar == '0') = false := by decide
      have hne := hdigit ⟨n, hlt⟩ (by simpa [Fin.ext_iff] using hn)
      rw [List.dropWhile_cons_of_neg (by simp [hne])]
    next hge =>
      have hdiv : (Nat.toDigits 16 (n / 16)).dropWhile (· == '0') = Nat.toDigits 16 (n / 16) :=
        ih (n / 16) (by omega) (by omega)
      rw [List.dropWhile_append, hdiv, if_neg]
      rw [List.isEmpty_iff]
      exact Nat.toDigits_ne_nil

theorem dropWhile_replicate_append (m : Nat) (cs : List Char) :
    (List.replicate m '0' ++ cs).dropWhile (· == '0') = cs.dropWhile (· == '0') := by
  induction m with
  | zero => rfl
  | succ m ih => exact ih

theorem significant_fixedHex (width n : Nat) :
    significant (fixedHex width n).toList = digits 16 n := by
  rw [toList_fixedHex, List.leftpad, significant, dropWhile_replicate_append]
  by_cases hn : n = 0
  · rw [hn]
    rfl
  · rw [dropWhile_digits hn]
    cases h : digits 16 n with
    | nil => exact absurd h Nat.toDigits_ne_nil
    | cons c cs => rfl

end Numeral

end Vr4300
