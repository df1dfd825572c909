import Mathlib.Logic.Function.Iterate
import Vr4300.Proofs.Cp0.Access
import Vr4300.Proofs.Cp0.Status.Cover
import Vr4300.Proofs.Numeral

/-!
# Status kept while the floating point unit is enabled

`File.status` is the Status register as a set of flags, bits without a name included. Writing a set
replaces it and nothing else (`File.status_set`). `enableFpu` writes back what it has read with two
flags more (`run_enableFpu`), so doing it again changes nothing (`enableFpu_again`), and what later
accesses do to other registers does not matter (`Access.status_finalState`).
-/

namespace Vr4300.Cp0

namespace File

/-- The Status register, as its own reader returns it. -/
def status (f : File) : Status := ⟨(f.get Register.status.slot).toUInt32⟩

theorem status_set (f : File) (s : Status) :
    (f.set Register.status.slot s.bits.toUInt64).status = s := by
  rw [status, get_set, if_pos rfl, UInt32.toUInt32_toUInt64]

theorem get_set_status (f : File) (s : Status) (slot : Fin 32) :
    (f.set Register.status.slot s.bits.toUInt64).get slot =
      if slot = 12 then s.bits.toUInt64 else f.get slot := by
  rw [get_set]
  exact if_congr eq_comm rfl rfl

theorem set_set (f : File) (slot : Fin 32) (w w' : UInt64) :
    (f.set slot w).set slot w' = f.set slot w' := by
  ext slot'
  simp only [get_set]
  split <;> rfl

end File

namespace Status

theorem withFpu_withFpu (s : Status) : s.withFpu.withFpu = s.withFpu := by
  rw [withFpu, withFpu, union, union, UInt32.or_assoc, UInt32.or_self]

/-- The unit has what it needs. -/
theorem contains_withFpu (s : Status) :
    s.withFpu.contains (ofFlag .cu1) = true ∧ s.withFpu.contains (ofFlag .fr) = true := by
  constructor
  all_goals
    rw [contains_iff]
    intro i hi
    simp only [withFpu, union, ofFlag, Flag.mask_fpu, Word.bit_or]
    simp only [ofFlag] at hi
    simp only [hi, Bool.or_true, Bool.true_or]

/-- All other bits are kept. -/
theorem difference_withFpu (s : Status) :
    s.withFpu.difference (ofFlag .fpu) = s.difference (ofFlag .fpu) := by
  refine ext_bit fun i => ?_
  simp only [withFpu, union, difference, Word.bit_and, Word.bit_or, Word.bit_not]
  cases Word.bit (ofFlag .fpu).bits i <;> simp

/-- What fits the register is written alike by either accessor. -/
theorem writeAny_bits (s : Status) : register.writeAny s.bits.toUInt64 = s.write :=
  congrArg register.write (Width.word.truncate_extend s.bits)

end Status

/-! ## Enabling -/

theorem run_enableFpu (f : File) :
    enableFpu.run f =
      ⟨(), f.set Register.status.slot f.status.withFpu.bits.toUInt64,
        [.call ⟨.mfc0, Register.status.slot, f.status.bits.toUInt64⟩,
          .log ⟨.trace, Log.target,
            "enabling FPU, status " ++ Numeral.paddedHex 8 f.status.bits.toNat⟩,
          .call ⟨.mtc0, Register.status.slot, f.status.withFpu.bits.toUInt64⟩]⟩ := by
  simp only [enableFpu, Status.writeAny_bits]
  rfl

theorem status_enableFpu (f : File) : (enableFpu.run f).state.status = f.status.withFpu := by
  rw [run_enableFpu, File.status_set]

theorem enableFpu_again (f : File) :
    (enableFpu.run (enableFpu.run f).state).state = (enableFpu.run f).state := by
  rw [run_enableFpu (enableFpu.run f).state, status_enableFpu, Status.withFpu_withFpu,
    run_enableFpu, File.set_set]

theorem Access.status_finalState {as : List Access} (f : File)
    (h : ∀ a ∈ as, a.target? ≠ some .status) :
    (Action.finalState Access.perform as f).status = f.status := by
  have hslots : ∀ a ∈ as, ∀ r ∈ a.target?, r.slot ≠ Register.status.slot := by
    rintro a ha r hr hslot
    obtain rfl := Register.slot_inj.mp hslot
    exact h a ha hr
  rw [File.status, get_finalState f hslots, File.status]

/-- **Status is kept bit for bit.** The reader of Status returns the low half of its word, named
bits or not, and what its writer is given is what the reader then returns. Writing back what was
read keeps the low half and all other words. `enableFpu` reads the word, logs it in eight digits
from which it can be read back, and writes it with the two flags of the floating point unit; no
other word changes. As long as no access writes Status, both flags stay set and all other bits are
what they were before. Once or several times makes no difference. -/
theorem enableFpu_keeps_status (f : File) :
    let w := f.get 12
    let sr : UInt32 := .ofNat (w.toNat % 2 ^ 32)
    let digits := Numeral.fixedHex 8 sr.toNat
    let enabled := (enableFpu.run f).state
    ((Status.read.run f).value = ⟨sr⟩ ∧ (Status.read.run f).state = f) ∧
    (∀ s : Status, (Status.read.run (s.write.run f).state).value = s) ∧
    (∀ slot, ((Status.read.run f).value.write.run f).state.get slot =
      if slot = 12 then .ofNat (w.toNat % 2 ^ 32) else f.get slot) ∧
    ((enableFpu.run f).events =
        [.call ⟨.mfc0, 12, sr.toUInt64⟩,
          .log ⟨.trace, Log.target, "enabling FPU, status 0x" ++ digits⟩,
          .call ⟨.mtc0, 12, (sr ||| 0x24000000).toUInt64⟩] ∧
      digits.toList.length = 8 ∧ (∀ c ∈ digits.toList, Numeral.IsHexDigit c) ∧
      Numeral.readHex? 0 digits.toList = some sr.toNat) ∧
    (∀ slot, enabled.get slot =
      if slot = 12 then ((⟨sr⟩ : Status).union (.ofFlag .fpu)).bits.toUInt64 else f.get slot) ∧
    (∀ as : List Access, (∀ a ∈ as, a.target? ≠ some .status) →
      let s := (Status.read.run (Action.finalState Access.perform as enabled)).value
      s.contains (.ofFlag .cu1) = true ∧ s.contains (.ofFlag .fr) = true ∧
        s.difference (.ofFlag .fpu) = (⟨sr⟩ : Status).difference (.ofFlag .fpu)) ∧
    ∀ n : Nat, (fun g => (enableFpu.run g).state)^[n + 1] f = enabled := by
  intro w sr digits enabled
  have hstatus : f.status = ⟨sr⟩ := by
    refine congrArg Status.mk (UInt32.toNat_inj.mp ?_)
    rw [UInt64.toNat_toUInt32, UInt32.toNat_ofNat', Nat.mod_mod]
    rfl
  have hwide : sr.toUInt64 = .ofNat (w.toNat % 2 ^ 32) :=
    (congrArg (·.bits.toUInt64) hstatus).symm.trans (Width.word.limit_eq_ofNat w)
  have hdigits : sr.toNat < 16 ^ 8 := sr.toNat_lt
  refine ⟨⟨hstatus, rfl⟩, f.status_set, fun slot => ?_, ⟨?_, ?_, ?_, ?_⟩, fun slot => ?_,
    fun as h => ?_, fun n => ?_⟩
  · have hread : (Status.read.run f).value = ⟨sr⟩ := hstatus
    rw [hread, ← hwide]
    exact f.get_set_status ⟨sr⟩ slot
  · rw [run_enableFpu, hstatus]
    rfl
  · exact Numeral.length_toList_fixedHex (by decide) hdigits
  · exact fun c => Numeral.isHexDigit_of_mem_fixedHex (by decide) hdigits
  · exact Numeral.readHex?_fixedHex 8 sr.toNat
  · simp only [enabled, run_enableFpu, hstatus]
    exact f.get_set_status (Status.withFpu ⟨sr⟩) slot
  · intro s
    have hs : s = Status.withFpu ⟨sr⟩ := by
      rw [← hstatus, ← status_enableFpu]
      exact Access.status_finalState enabled h
    rw [hs]
    exact ⟨(Status.contains_withFpu _).1, (Status.contains_withFpu _).2,
      Status.difference_withFpu _⟩
  · exact Function.iterate_fixed (enableFpu_again f) n

/-- Two bits without a name stay set, and the high half is gone. -/
theorem enableFpu_keeps_status_of_wide_word :
    let f := (File.ofList []).set Register.status.slot 0xdeadbeef10000001
    let as : List Access := [.writeAny ⟨.count, rfl⟩ 0x500000009, .readAny .status]
    let enabled := (enableFpu.run f).state
    let s := (Status.read.run (Action.finalState Access.perform as enabled)).value
    enabled.get 12 = 0x34000001 ∧
    ('1' ∈ (Numeral.fixedHex 8 0x10000001).toList ∧ Numeral.IsHexDigit '1') ∧
    (∀ a ∈ as, a.target? ≠ some .status) ∧
    s.contains (.ofFlag .cu1) = true ∧ s.contains (.ofFlag .fr) = true ∧
    s.difference (.ofFlag .fpu) = ⟨0x10000001⟩ := by
  intro f as enabled s
  have hsr : UInt32.ofNat ((f.get 12).toNat % 2 ^ 32) = 0x10000001 := by decide
  obtain ⟨_, _, _, ⟨_, _, hdigit, _⟩, hword, hrun, _⟩ := enableFpu_keeps_status f
  rw [hsr] at hdigit
  have hmem : '1' ∈ (Numeral.fixedHex 8 0x10000001).toList := by decide +kernel
  have hother : ∀ a ∈ as, a.target? ≠ some .status := by decide
  obtain ⟨hcu1, hfr, hrest⟩ := hrun as hother
  rw [hsr] at hrest
  have henabled := hword 12
  rw [if_pos rfl, hsr] at henabled
  exact ⟨henabled, ⟨hmem, hdigit '1' hmem⟩, hother, hcu1, hfr, hrest⟩

end Vr4300.Cp0
