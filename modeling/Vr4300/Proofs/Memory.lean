import Mathlib.Algebra.Ring.Nat
import Vr4300.Memory

/-!
# Words that lie apart in memory

A store of a word changes the four bytes at its address and no others
(`Memory.byte_writeWord_of_le`), so the other words of a run of words read as before
(`Memory.readWord_writeWord_of_ne`). Distances are taken modulo the size of the address space.
-/

namespace Vr4300.Memory

theorem byte_writeWord_of_le (m : Memory) {address a : UInt64} (w : UInt32)
    (h : 4 ≤ (a - address).toNat) : (m.writeWord address w).byte a = m.byte a :=
  if_neg (UInt64.not_lt.mpr (UInt64.le_iff_toNat_le.mpr (show (4 : UInt64).toNat ≤ _ from h)))

/-- From a place of a run of bytes on, a place behind it comes after their distance, and one before
it only after the whole rest of the address space. -/
theorem le_distance (base : UInt64) {i j n : Nat}
    (h : j + n ≤ i ∧ i < 2 ^ 64 ∨ i < j ∧ j + n ≤ 2 ^ 64) (hn : 0 < n) :
    n ≤ (base + .ofNat i - (base + .ofNat j)).toNat := by
  have hi : i < UInt64.size := by simp only [UInt64.size]; omega
  have hj : j < UInt64.size := by simp only [UInt64.size]; omega
  have := base.toNat_lt
  rw [UInt64.toNat_sub, UInt64.toNat_add, UInt64.toNat_add, UInt64.toNat_ofNat_of_lt' hi,
    UInt64.toNat_ofNat_of_lt' hj]
  omega

theorem readWord_congr {m m' : Memory} {address : UInt64}
    (h : ∀ k < 4, m.byte (address + .ofNat k) = m'.byte (address + .ofNat k)) :
    m.readWord address = m'.readWord address := by
  have h0 := h 0 (by decide)
  rw [show UInt64.ofNat 0 = 0 from rfl, UInt64.add_zero] at h0
  rw [readWord, readWord, h0, show m.byte (address + 1) = _ from h 1 (by decide),
    show m.byte (address + 2) = _ from h 2 (by decide),
    show m.byte (address + 3) = _ from h 3 (by decide)]
  rfl

theorem readWord_writeWord_of_ne (m : Memory) (base : UInt64) {i j : Nat} (w : UInt32)
    (hi : i < 2 ^ 61) (hj : j < 2 ^ 61) (hij : i ≠ j) :
    (m.writeWord (base + .ofNat (4 * j)) w).readWord (base + .ofNat (4 * i)) =
      m.readWord (base + .ofNat (4 * i)) := by
  apply readWord_congr
  intro k hk
  rw [UInt64.add_assoc, ← UInt64.ofNat_add]
  exact byte_writeWord_of_le m w (le_distance base (by omega) (by decide))

end Vr4300.Memory
