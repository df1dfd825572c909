import Vr4300.Segment
import Vr4300.Proofs.Bits

/-!
# Addresses in the two windows

The physical address behind any address is its remainder by the size of a window
(`toNat_physicalAddress`). Going uncached joins bits where one would add: bits 29 and 31 become
those of the window whatever they were, and bit 30 stays (`toNat_uncached`). So the alias of a
physical address is in the window if and only if this bit is clear (`inWindow_uncached_iff`), and
two physical addresses have one alias if they differ in the other two bits at most
(`uncached_eq_iff`).
-/

namespace Vr4300

/-- The address is in the window of `2 ^ 29` bytes from `base` on. -/
def Segment.InWindow (base address : UInt64) : Prop :=
  base.toNat ≤ address.toNat ∧ address.toNat < base.toNat + 2 ^ 29

open Segment

theorem toNat_kseg0 : kseg0.toNat = 2 ^ 29 * (2 ^ 35 - 4) := rfl

theorem toNat_kseg1 : kseg1.toNat = 2 ^ 29 * (2 ^ 35 - 3) := rfl

/-! ## Out of a window -/

theorem toNat_physicalAddress (address : UInt64) :
    (physicalAddress address).toNat = address.toNat % 2 ^ 29 := by
  have hmask : (~~~selector).toNat &&& (2 ^ 32 - 1) = 2 ^ 29 - 1 := rfl
  rw [physicalAddress, UInt64.toNat_toUInt32, UInt64.toNat_and, ← Nat.and_two_pow_sub_one_eq_mod,
    Nat.and_assoc, hmask, Nat.and_two_pow_sub_one_eq_mod]

theorem physicalAddress_eq_iff {address address' : UInt64} :
    physicalAddress address = physicalAddress address' ↔
      ∀ i < 29, address.toNat.testBit i = address'.toNat.testBit i := by
  rw [← UInt32.toNat_inj, toNat_physicalAddress, toNat_physicalAddress, Word.mod_two_pow_eq_iff]

/-- The windows are a whole window apart. -/
theorem physicalAddress_add (offset : UInt64) :
    physicalAddress (kseg0 + offset) = physicalAddress (kseg1 + offset) := by
  rw [← UInt32.toNat_inj, toNat_physicalAddress, toNat_physicalAddress, UInt64.toNat_add,
    UInt64.toNat_add, toNat_kseg0, toNat_kseg1]
  omega

/-! ## Into the uncached window -/

/-- Of the three bits that tell segments apart the window sets the outer ones. -/
theorem or_of_lt_eight {high : Nat} (h : high < 8) :
    (2 ^ 35 - 3) ||| high = 2 ^ 35 - 3 + 2 * (high / 2 % 2) :=
  (by decide : ∀ high : Fin 8, (2 ^ 35 - 3) ||| high.val = 2 ^ 35 - 3 + 2 * (high.val / 2 % 2))
    ⟨high, h⟩

theorem two_pow_mul_or (k a b : Nat) : 2 ^ k * (a ||| b) = 2 ^ k * a ||| 2 ^ k * b := by
  rw [Nat.mul_comm, Nat.mul_comm _ a, Nat.mul_comm _ b, ← Nat.shiftLeft_eq, ← Nat.shiftLeft_eq,
    ← Nat.shiftLeft_eq, Nat.shiftLeft_or_distrib]

theorem toNat_uncached_eq_or (p : UInt32) : (uncached p).toNat = kseg1.toNat ||| p.toNat := by
  rw [uncached, UInt64.toNat_or, UInt32.toNat_toUInt64]

theorem toNat_uncached (p : UInt32) :
    (uncached p).toNat = kseg1.toNat + 2 ^ 30 * (p.toNat / 2 ^ 30 % 2) + p.toNat % 2 ^ 29 := by
  have hlow : p.toNat % 2 ^ 29 < 2 ^ 29 := Nat.mod_lt _ (Nat.two_pow_pos 29)
  have hhigh : p.toNat / 2 ^ 29 < 8 := by
    have hp := p.toNat_lt
    omega
  calc (uncached p).toNat
      = kseg1.toNat ||| p.toNat := toNat_uncached_eq_or p
    _ = 2 ^ 29 * (2 ^ 35 - 3) ||| (2 ^ 29 * (p.toNat / 2 ^ 29) ||| p.toNat % 2 ^ 29) := by
        rw [← Nat.two_pow_add_eq_or_of_lt hlow, Nat.div_add_mod, toNat_kseg1]
    _ = 2 ^ 29 * (2 ^ 35 - 3 ||| p.toNat / 2 ^ 29) + p.toNat % 2 ^ 29 := by
        rw [← Nat.or_assoc, ← two_pow_mul_or, Nat.two_pow_add_eq_or_of_lt hlow]
    _ = kseg1.toNat + 2 ^ 30 * (p.toNat / 2 ^ 30 % 2) + p.toNat % 2 ^ 29 := by
        rw [or_of_lt_eight hhigh, toNat_kseg1]
        omega

section
variable {p : UInt32}

theorem toNat_physicalAddress_uncached (p : UInt32) :
    (physicalAddress (uncached p)).toNat = p.toNat % 2 ^ 29 := by
  rw [toNat_physicalAddress, toNat_uncached, toNat_kseg1]
  omega

theorem physicalAddress_uncached_eq_iff : physicalAddress (uncached p) = p ↔ p.toNat < 2 ^ 29 := by
  rw [← UInt32.toNat_inj, toNat_physicalAddress_uncached,
    Nat.mod_eq_iff_lt (Nat.ne_of_gt (Nat.two_pow_pos 29))]

theorem inWindow_uncached_iff :
    InWindow kseg1 (uncached p) ↔ p.toNat.testBit 30 = false := by
  rw [InWindow, toNat_uncached, Nat.testBit_eq_decide_div_mod_eq, decide_eq_false_iff_not]
  omega

theorem toNat_uncached_of_lt (h : p.toNat < 2 ^ 29) :
    (uncached p).toNat = kseg1.toNat + p.toNat := by
  rw [toNat_uncached]
  omega

end

theorem testBit_kseg1 {i : Nat} (h : i < 32) : kseg1.toNat.testBit i = (i == 29 || i == 31) :=
  (by decide : ∀ i : Fin 32, kseg1.toNat.testBit i = (i.val == 29 || i.val == 31)) ⟨i, h⟩

theorem uncached_eq_iff {p q : UInt32} :
    uncached p = uncached q ↔
      ∀ i, i ≠ 29 → i ≠ 31 → p.toNat.testBit i = q.toNat.testBit i := by
  rw [← UInt64.toNat_inj, toNat_uncached_eq_or, toNat_uncached_eq_or, Word.or_eq_or_iff]
  constructor
  · intro h i h29 h31
    rcases Nat.lt_or_ge i 32 with hi | hi
    · apply h i
      rw [testBit_kseg1 hi, beq_false_of_ne h29, beq_false_of_ne h31, Bool.false_or]
    · -- no bit of a word is as high
      have hhigh (w : UInt32) : w.toNat.testBit i = false :=
        Nat.testBit_lt_two_pow (Nat.lt_of_lt_of_le w.toNat_lt (Nat.pow_le_pow_right Nat.two_pos hi))
      rw [hhigh, hhigh]
  · intro h i hi
    apply h i
    · rintro rfl
      cases hi
    · rintro rfl
      cases hi

/-! ## From one window into the other -/

theorem inWindow_uncached_physicalAddress (address : UInt64) :
    InWindow kseg1 (uncached (physicalAddress address)) := by
  rw [InWindow, toNat_uncached, toNat_physicalAddress]
  omega

section
variable {base address : UInt64}

theorem toNat_uncached_physicalAddress (hbase : base = kseg0 ∨ base = kseg1)
    (h : InWindow base address) :
    (uncached (physicalAddress address)).toNat = kseg1.toNat + (address.toNat - base.toNat) := by
  obtain ⟨hlow, hhigh⟩ := h
  rw [toNat_uncached, toNat_physicalAddress]
  rcases hbase with rfl | rfl
  · rw [toNat_kseg0] at *
    omega
  · rw [toNat_kseg1] at *
    omega

theorem uncached_physicalAddress (h : InWindow kseg1 address) :
    uncached (physicalAddress address) = address := by
  rw [← UInt64.toNat_inj, toNat_uncached_physicalAddress (.inr rfl) h]
  exact Nat.add_sub_of_le h.1

end

/-- **The windows alias physical memory.** The physical address of an address is its remainder by
`2 ^ 29`: nothing but the bits below 29 decides it, and one offset in either window gives one
physical address. A physical address below `2 ^ 29` comes back from its uncached alias, which is the
sum with the start of the window, and no other does. The alias is in the window exactly if bit 30 is
clear, and two physical addresses have the same alias exactly if they differ in bits 29 and 31 at
most. An address in a window has its uncached alias at the same distance from the start of the
uncached window, so the addresses there are their own aliases. -/
theorem windows_alias_memory :
    (∀ address : UInt64,
      (physicalAddress address).toNat = address.toNat % 2 ^ 29 ∧
      (∀ address', physicalAddress address = physicalAddress address' ↔
        ∀ i < 29, address.toNat.testBit i = address'.toNat.testBit i) ∧
      physicalAddress (kseg0 + address) = physicalAddress (kseg1 + address)) ∧
    (∀ p : UInt32,
      (physicalAddress (uncached p)).toNat = p.toNat % 2 ^ 29 ∧
      (physicalAddress (uncached p) = p ↔ p.toNat < 2 ^ 29) ∧
      (InWindow kseg1 (uncached p) ↔ p.toNat.testBit 30 = false) ∧
      (p.toNat < 2 ^ 29 → (uncached p).toNat = kseg1.toNat + p.toNat) ∧
      ∀ q, uncached p = uncached q ↔
        ∀ i, i ≠ 29 → i ≠ 31 → p.toNat.testBit i = q.toNat.testBit i) ∧
    (∀ base address, base = kseg0 ∨ base = kseg1 → InWindow base address →
      InWindow kseg1 (uncached (physicalAddress address)) ∧
      (uncached (physicalAddress address)).toNat - kseg1.toNat = address.toNat - base.toNat) ∧
    ∀ address, InWindow kseg1 address → uncached (physicalAddress address) = address := by
  refine ⟨fun address => ⟨toNat_physicalAddress address, fun _ => physicalAddress_eq_iff,
      physicalAddress_add address⟩,
    fun p => ⟨toNat_physicalAddress_uncached p, physicalAddress_uncached_eq_iff,
      inWindow_uncached_iff, toNat_uncached_of_lt, fun _ => uncached_eq_iff⟩,
    fun base address hbase h => ⟨inWindow_uncached_physicalAddress address, ?_⟩,
    fun address => uncached_physicalAddress⟩
  rw [toNat_uncached_physicalAddress hbase h, Nat.add_sub_cancel_left]

/-- The first physical address that is too high, the last address of the cached window, and an
address that the boot loader uses. -/
theorem windows_alias_memory_of_edges :
    (uncached 0x20000000 = uncached 0 ∧ physicalAddress (uncached 0x20000000) ≠ 0x20000000) ∧
    (let last : UInt64 := 0xffffffff9fffffff
     (uncached (physicalAddress last)).toNat - kseg1.toNat = 2 ^ 29 - 1) ∧
    (uncached 0x30c).toNat = kseg1.toNat + 0x30c ∧
    uncached (physicalAddress 0xffffffffa000030c) = 0xffffffffa000030c := by
  obtain ⟨_, halias, hwindow, hself⟩ := windows_alias_memory
  have hsame : ∀ i, i ≠ 29 → i ≠ 31 →
      (0x20000000 : UInt32).toNat.testBit i = (0 : UInt32).toNat.testBit i := by
    intro i h29 _
    change (2 ^ 29).testBit i = (0).testBit i
    rw [Nat.testBit_two_pow_of_ne (Ne.symm h29), Nat.zero_testBit]
  have hlast : InWindow kseg0 0xffffffff9fffffff := ⟨by decide, by decide⟩
  have hboot : InWindow kseg1 0xffffffffa000030c := ⟨by decide, by decide⟩
  refine ⟨⟨((halias 0x20000000).2.2.2.2 0).mpr hsame, ?_⟩,
    (hwindow kseg0 0xffffffff9fffffff (.inl rfl) hlast).2, (halias 0x30c).2.2.2.1 (by decide),
    hself 0xffffffffa000030c hboot⟩
  exact fun h => absurd ((halias 0x20000000).2.1.mp h) (by decide)

end Vr4300
