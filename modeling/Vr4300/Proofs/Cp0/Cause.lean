import Vr4300.Cp0.Cause
import Vr4300.Proofs.BitField.Write
import Vr4300.Proofs.Numeral

/-!
# The exception that a Cause word names

The exception code is the number in bits 2 to 6 of the word (`Cause.toNat_exceptionCode`), and the
exception is the one of that number, if there is one (`ExceptionCode.ofCause_eq_ok_iff`,
`ExceptionCode.ofCause_of_ne`). A word for any exception is made by writing its number there
(`ExceptionCode.ofCause_overwrite`). No two exceptions have the same short name
(`ExceptionCode.mnemonic_inj`).
-/

namespace Vr4300.Cp0

open BitField

theorem Cause.toNat_exceptionCode (cause : UInt32) :
    (exceptionCode cause).toNat = cause.toNat / 2 ^ 2 % 2 ^ 5 :=
  toNat_read (by decide) cause (codeHigh - codeLow + 1)

theorem Cause.exceptionCode_eq_ofNat (cause : UInt32) :
    exceptionCode cause = .ofNat (cause.toNat / 2 ^ 2 % 2 ^ 5) := by
  rw [← toNat_exceptionCode, UInt32.ofNat_toNat]

theorem Cause.branchDelay_eq_testBit (cause : UInt32) :
    branchDelay cause = cause.toNat.testBit 31 :=
  Except.ok.inj ((isSet_branchDelay cause).symm.trans (isSet_eq cause branchDelayBit))

namespace ExceptionCode

theorem decode_number (c : ExceptionCode) : decode c.number = .ok c := by cases c <;> rfl

/-- The arms for numbers have exceptions of these numbers, and the last one has none. -/
theorem decode_cases (n : UInt32) :
    (∃ c : ExceptionCode, c.number = n ∧ decode n = .ok c) ∨
      decode n = .error (.unknownExceptionCode n) := by
  unfold decode
  split
  case h_17 => exact .inr rfl
  all_goals exact .inl ⟨_, rfl, rfl⟩

theorem decode_eq_ok_iff {n : UInt32} {c : ExceptionCode} : decode n = .ok c ↔ c.number = n := by
  refine ⟨fun h => ?_, fun h => h ▸ decode_number c⟩
  obtain ⟨d, hd, hdecode⟩ | hdecode := decode_cases n
  · obtain rfl : d = c := Except.ok.inj (hdecode.symm.trans h)
    exact hd
  · cases hdecode.symm.trans h

theorem ofCause_eq_ok_iff {cause : UInt32} {c : ExceptionCode} :
    ofCause cause = .ok c ↔ c.number.toNat = cause.toNat / 2 ^ 2 % 2 ^ 5 := by
  rw [ofCause, decode_eq_ok_iff, ← UInt32.toNat_inj, Cause.toNat_exceptionCode]

theorem decode_of_ne {n : UInt32} (h : ∀ c : ExceptionCode, c.number ≠ n) :
    decode n = .error (.unknownExceptionCode n) :=
  (decode_cases n).resolve_left fun ⟨c, hc, _⟩ => h c hc

theorem ofCause_of_ne {cause : UInt32}
    (h : ∀ c : ExceptionCode, c.number.toNat ≠ cause.toNat / 2 ^ 2 % 2 ^ 5) :
    ofCause cause = .error (.unknownExceptionCode (.ofNat (cause.toNat / 2 ^ 2 % 2 ^ 5))) := by
  rw [ofCause, ← Cause.exceptionCode_eq_ofNat]
  refine decode_of_ne fun c hc => h c ?_
  rw [hc, Cause.toNat_exceptionCode]

def all : List ExceptionCode :=
  [interrupt, tlbModification, tlbLoad, tlbStore, addressErrorLoad, addressErrorStore,
    instructionBusError, dataBusError, syscall, breakpoint, reservedInstruction,
    coprocessorUnusable, overflow, trap, floatingPoint, watch]

theorem find?_mnemonic (c : ExceptionCode) :
    all.find? (fun d => d.mnemonic == c.mnemonic) = some c := by
  cases c <;> rfl

theorem mnemonic_inj {c d : ExceptionCode} : c.mnemonic = d.mnemonic ↔ c = d :=
  eq_iff_of_read (fun name => all.find? fun d => d.mnemonic == name) find?_mnemonic

end ExceptionCode

/-! ## Words for an exception -/

/-- The word for an exception, in or not in a branch delay slot, with the other bits of `cause`. -/
def Cause.overwrite (cause : UInt32) (code : ExceptionCode) (delay : Bool) : UInt32 :=
  write (write cause (codeHigh - codeLow + 1) codeLow code.number) 1 branchDelayBit
    (if delay then 1 else 0)

section
variable (cause : UInt32) (code : ExceptionCode) (delay : Bool)

theorem ExceptionCode.number_lt : code.number.toNat < 2 ^ 5 := by cases code <;> decide

theorem ExceptionCode.ofCause_overwrite :
    ofCause (Cause.overwrite cause code delay) = .ok code := by
  have hread : Cause.exceptionCode (Cause.overwrite cause code delay) = code.number := by
    rw [Cause.exceptionCode, Cause.overwrite,
      read_write_of_apart (by decide) _ _ (by decide) (by decide) (by decide)]
    exact read_write (by decide) cause (by decide) code.number_lt
  rw [ofCause, hread]
  exact decode_eq_ok_iff.mpr rfl

theorem Cause.branchDelay_overwrite : branchDelay (overwrite cause code delay) = delay := by
  rw [branchDelay_eq_testBit, overwrite, testBit_write (by decide) _ _ (by decide),
    if_pos (by decide)]
  cases delay <;> rfl

theorem Cause.testBit_overwrite {i : Nat} (hi : i < 31) (hcode : ¬(2 ≤ i ∧ i ≤ 6)) :
    (overwrite cause code delay).toNat.testBit i = cause.toNat.testBit i := by
  have hdelay : ¬(branchDelayBit.toNat ≤ i ∧ i < branchDelayBit.toNat + (1 : UInt32).toNat) :=
    fun h => Nat.not_le_of_lt hi h.1
  have hplace : ¬(codeLow.toNat ≤ i ∧ i < codeLow.toNat + (codeHigh - codeLow + 1).toNat) :=
    fun h => hcode ⟨h.1, Nat.le_of_lt_succ h.2⟩
  rw [overwrite, testBit_write (by decide) _ _ (by omega), if_neg hdelay,
    testBit_write (by decide) _ _ (by omega), if_neg hplace]

end

end Vr4300.Cp0
