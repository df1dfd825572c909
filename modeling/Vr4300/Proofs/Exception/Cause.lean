import Vr4300.Exception.Frame
import Vr4300.Proofs.Cp0.Cause

/-!
# The exception of a frame

A frame keeps the Cause register in 64 bits, of which decoding sees bits 2 to 6 and nothing else
(`Frame.ofCause_congr`, `Frame.exceptionCode?_eq_some_iff`).
-/

namespace Vr4300.Exception.Frame

open Cp0

theorem toUInt32_field (w : UInt64) :
    w.toUInt32.toNat / 2 ^ 2 % 2 ^ 5 = w.toNat / 2 ^ 2 % 2 ^ 5 := by
  rw [UInt64.toNat_toUInt32]
  omega

/-- The Cause word names the exception in bits 2 to 6, whatever its other bits. -/
theorem exceptionCode?_eq_some_iff {f : Frame} {code : ExceptionCode} :
    f.exceptionCode? = some code ↔ code.number.toNat = f.cause.toNat / 2 ^ 2 % 2 ^ 5 := by
  rw [← toUInt32_field, ← ExceptionCode.ofCause_eq_ok_iff, exceptionCode?]
  cases ExceptionCode.ofCause f.cause.toUInt32 with
  | ok c => exact ⟨fun h => congrArg _ (Option.some.inj h), fun h => congrArg _ (Except.ok.inj h)⟩
  | error e => exact ⟨nofun, nofun⟩

/-- Numbers with the same bits 2 to 6 have the same field there. -/
theorem field_congr {n m : Nat} (h : ∀ i, 2 ≤ i → i ≤ 6 → n.testBit i = m.testBit i) :
    n / 2 ^ 2 % 2 ^ 5 = m / 2 ^ 2 % 2 ^ 5 := by
  apply Word.mod_two_pow_eq_iff.mpr
  intro i hi
  rw [Nat.testBit_div_two_pow, Nat.testBit_div_two_pow,
    h (i + 2) (Nat.le_add_left ..) (Nat.le_of_lt_succ (Nat.add_lt_add_right hi 2))]

theorem ofCause_congr {f f' : Frame}
    (h : ∀ i, 2 ≤ i → i ≤ 6 → f.cause.toNat.testBit i = f'.cause.toNat.testBit i) :
    ExceptionCode.ofCause f.cause.toUInt32 = ExceptionCode.ofCause f'.cause.toUInt32 := by
  rw [ExceptionCode.ofCause, ExceptionCode.ofCause, Cause.exceptionCode_eq_ofNat,
    Cause.exceptionCode_eq_ofNat, toUInt32_field, toUInt32_field, field_congr h]

theorem ofCause_of_ne {f : Frame}
    (h : ∀ code : ExceptionCode, code.number.toNat ≠ f.cause.toNat / 2 ^ 2 % 2 ^ 5) :
    ExceptionCode.ofCause f.cause.toUInt32 =
      .error (.unknownExceptionCode (.ofNat (f.cause.toNat / 2 ^ 2 % 2 ^ 5))) := by
  rw [← toUInt32_field] at h ⊢
  exact ExceptionCode.ofCause_of_ne h

theorem exceptionCode?_of_ne {f : Frame}
    (h : ∀ code : ExceptionCode, code.number.toNat ≠ f.cause.toNat / 2 ^ 2 % 2 ^ 5) :
    f.exceptionCode? = none := by
  rw [exceptionCode?, ofCause_of_ne h]
  rfl

/-- **A Cause word is decoded by its field and made by writing it.** Frames whose Cause registers
agree in bits 2 to 6 decode alike. The number there is below 32; it decodes to the exception of that
number, and is refused by that number where there is none. In any word, an exception written to this
field and a branch delay written to bit 31 are read back, and no other bit has changed. -/
theorem cause_field_decides :
    (∀ f f' : Frame,
      (∀ i, 2 ≤ i → i ≤ 6 → f.cause.toNat.testBit i = f'.cause.toNat.testBit i) →
      ExceptionCode.ofCause f.cause.toUInt32 = ExceptionCode.ofCause f'.cause.toUInt32 ∧
        f.exceptionCode? = f'.exceptionCode?) ∧
    (∀ f : Frame,
      let n := f.cause.toNat / 2 ^ 2 % 2 ^ 5
      n < 32 ∧
      (∀ code : ExceptionCode,
        (ExceptionCode.ofCause f.cause.toUInt32 = .ok code ↔ code.number.toNat = n) ∧
        (f.exceptionCode? = some code ↔ code.number.toNat = n)) ∧
      ((∀ code : ExceptionCode, code.number.toNat ≠ n) →
        ExceptionCode.ofCause f.cause.toUInt32 = .error (.unknownExceptionCode (.ofNat n)) ∧
          f.exceptionCode? = none)) ∧
    ∀ (cause : UInt32) (code : ExceptionCode) (delay : Bool),
      let w := Cause.overwrite cause code delay
      ExceptionCode.ofCause w = .ok code ∧ Cause.branchDelay w = delay ∧
        ∀ i, i < 31 → ¬(2 ≤ i ∧ i ≤ 6) → w.toNat.testBit i = cause.toNat.testBit i := by
  refine ⟨fun f f' h => ?_, fun f => ⟨Nat.mod_lt _ (by decide), fun code => ⟨?_, ?_⟩, fun h => ?_⟩,
    fun cause code delay => ?_⟩
  · have hcause := ofCause_congr h
    exact ⟨hcause, congrArg Except.toOption hcause⟩
  · rw [ExceptionCode.ofCause_eq_ok_iff, toUInt32_field]
  · exact exceptionCode?_eq_some_iff
  · exact ⟨ofCause_of_ne h, exceptionCode?_of_ne h⟩
  · exact ⟨ExceptionCode.ofCause_overwrite cause code delay,
      Cause.branchDelay_overwrite cause code delay,
      fun _ => Cause.testBit_overwrite cause code delay⟩

/-- A fault that all other bits are set around, a number without an exception, and a word that is
overwritten from all ones. -/
theorem cause_field_decides_of_full_word :
    let f : Frame := ⟨0xffffffffffffff8f, 0, 0, 0, 0⟩
    let f' : Frame := ⟨0xc, 1, 2, 3, 4⟩
    let unknown : Frame := ⟨0x80000038, 0, 0, 0, 0⟩
    f.exceptionCode? = f'.exceptionCode? ∧ f'.exceptionCode? = some .tlbStore ∧
    ExceptionCode.ofCause unknown.cause.toUInt32 = .error (.unknownExceptionCode 14) ∧
    (Cause.overwrite 0xffffffff .syscall false).toNat.testBit 7 = true := by
  intro f f' unknown
  obtain ⟨hcongr, hdecode, hwrite⟩ := cause_field_decides
  have hagree : ∀ i, 2 ≤ i → i ≤ 6 → f.cause.toNat.testBit i = f'.cause.toNat.testBit i := by
    intro i hlow hhigh
    obtain rfl | rfl | rfl | rfl | rfl : i = 2 ∨ i = 3 ∨ i = 4 ∨ i = 5 ∨ i = 6 := by omega
    all_goals decide
  have hunknown : ∀ code : ExceptionCode,
      code.number.toNat ≠ unknown.cause.toNat / 2 ^ 2 % 2 ^ 5 := by
    intro code
    cases code <;> decide
  have hfield : UInt32.ofNat (unknown.cause.toNat / 2 ^ 2 % 2 ^ 5) = 14 := by decide
  have herror := ((hdecode unknown).2.2 hunknown).1
  rw [hfield] at herror
  exact ⟨(hcongr f f' hagree).2, ((hdecode f').2.1 .tlbStore).2.mpr (by decide), herror,
    ((hwrite 0xffffffff .syscall false).2.2 7 (by decide) (by decide)).trans (by decide)⟩

end Vr4300.Exception.Frame
