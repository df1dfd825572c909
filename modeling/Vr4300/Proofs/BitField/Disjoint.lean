import Mathlib.Algebra.Ring.Nat
import Mathlib.Data.Fintype.Card
import Vr4300.BitField
import Vr4300.Proofs.Bits

/-!
# Masks that do not overlap

One pass over some masks, with the union of those before in hand, decides whether all of them are
non-zero and no two overlap (`disjoint_iff`). The order of the masks is therefore of no importance
(`disjoint_perm`), each of them has a bit of its own (`exists_places`), so there are at most 32
(`length_le_of_disjoint`), and their sum is their union (`toNat_foldl_or`).
-/

namespace Vr4300.BitField

open Word

/-- No mask of the list overlaps `seen`, and no two of them overlap. -/
theorem disjointFrom_iff {seen : UInt32} {ms : List UInt32} :
    disjointFrom seen ms = true ↔
      (∀ m ∈ ms, m ≠ 0 ∧ seen &&& m = 0) ∧ ms.Pairwise fun m m' => m &&& m' = 0 := by
  induction ms generalizing seen with
  | nil => exact ⟨fun _ => ⟨nofun, .nil⟩, fun _ => rfl⟩
  | cons m ms ih =>
    -- `seen` is the union of the masks so far, so the rest is free of both `seen` and `m`
    rw [disjointFrom, Bool.and_eq_true, Bool.and_eq_true, bne_iff_ne, beq_iff_eq, ih,
      List.forall_mem_cons, List.pairwise_cons]
    simp only [or_and, UInt32.or_eq_zero_iff]
    constructor
    · rintro ⟨hm, hms, hpairs⟩
      exact ⟨⟨hm, fun m' hm' => ⟨(hms m' hm').1, (hms m' hm').2.1⟩⟩,
        fun m' hm' => (hms m' hm').2.2, hpairs⟩
    · rintro ⟨⟨hm, hms⟩, hfree, hpairs⟩
      exact ⟨hm, fun m' hm' => ⟨(hms m' hm').1, (hms m' hm').2, hfree m' hm'⟩, hpairs⟩

theorem disjoint_iff {ms : List UInt32} :
    disjoint ms = true ↔ (∀ m ∈ ms, m ≠ 0) ∧ ms.Pairwise fun m m' => m &&& m' = 0 := by
  rw [disjoint, disjointFrom_iff]
  simp only [UInt32.zero_and, and_true]

theorem disjoint_perm {ms ms' : List UInt32} (h : ms.Perm ms') : disjoint ms = disjoint ms' := by
  rw [Bool.eq_iff_iff, disjoint_iff, disjoint_iff]
  refine and_congr (forall_congr' fun m => imp_congr_left h.mem_iff) (h.pairwise_iff ?_)
  intro m m' hand
  rwa [UInt32.and_comm]

theorem disjoint_sublist {ms ms' : List UInt32} (h : ms'.Sublist ms) (hms : disjoint ms = true) :
    disjoint ms' = true := by
  obtain ⟨hzero, hpairs⟩ := disjoint_iff.mp hms
  exact disjoint_iff.mpr ⟨fun m hm => hzero m (h.subset hm), hpairs.sublist h⟩

theorem nodup_of_disjoint {ms : List UInt32} (h : disjoint ms = true) : ms.Nodup := by
  obtain ⟨hzero, hpairs⟩ := disjoint_iff.mp h
  refine List.nodup_iff_pairwise_ne.mpr (hpairs.imp_of_mem fun {m m'} hm _ hand heq => ?_)
  rw [← heq, UInt32.and_self] at hand
  exact hzero m hm hand

/-- Distinct bits in the masks, as many as there are masks: one of each mask. -/
theorem exists_places {ms : List UInt32} (h : disjoint ms = true) :
    ∃ is : List (Fin 32), is.length = ms.length ∧ is.Nodup ∧
      ∀ i ∈ is, ∃ m ∈ ms, bit m i = true := by
  obtain ⟨hzero, hpairs⟩ := disjoint_iff.mp h
  clear h
  induction ms with
  | nil => exact ⟨[], rfl, .nil, nofun⟩
  | cons m ms ih =>
    obtain ⟨hm, hzero⟩ := List.forall_mem_cons.mp hzero
    obtain ⟨hfree, hpairs⟩ := List.pairwise_cons.mp hpairs
    obtain ⟨is, hlength, hnodup, his⟩ := ih hzero hpairs
    obtain ⟨i, hi⟩ := exists_bit_of_ne_zero hm
    refine ⟨i :: is, congrArg (· + 1) hlength, List.nodup_cons.mpr ⟨?_, hnodup⟩, ?_⟩
    · intro hmem
      obtain ⟨m', hm', hi'⟩ := his i hmem
      have hboth : bit (m &&& m') i = true := by rw [bit_and, hi, hi']; rfl
      rw [hfree m' hm', bit_zero] at hboth
      cases hboth
    · rw [List.forall_mem_cons]
      refine ⟨⟨m, List.mem_cons_self, hi⟩, fun j hj => ?_⟩
      obtain ⟨m', hm', hj'⟩ := his j hj
      exact ⟨m', List.mem_cons_of_mem _ hm', hj'⟩

theorem length_le_of_disjoint {ms : List UInt32} (h : disjoint ms = true) : ms.length ≤ 32 := by
  obtain ⟨is, hlength, hnodup, -⟩ := exists_places h
  rw [← hlength]
  exact hnodup.length_le_card

theorem toNat_foldl_or {seen : UInt32} {ms : List UInt32} (h : disjointFrom seen ms = true) :
    (ms.foldl (· ||| ·) seen).toNat = seen.toNat + (ms.map UInt32.toNat).sum := by
  induction ms generalizing seen with
  | nil => rfl
  | cons m ms ih =>
    rw [disjointFrom, Bool.and_eq_true, Bool.and_eq_true, beq_iff_eq] at h
    obtain ⟨⟨_, hfree⟩, hms⟩ := h
    rw [List.foldl_cons, ih hms, toNat_or_of_and_eq_zero hfree, List.map_cons, List.sum_cons,
      Nat.add_assoc]

/-- **One pass decides whether masks overlap.** Masks pass if they are non-zero and no two of them
have a common bit. This depends neither on their order nor on masks that are left out; no more than
32 masks pass and none that occurs twice; and masks that pass are added without a carry. -/
theorem disjoint_decides_overlap (ms : List UInt32) :
    (disjoint ms = true ↔
      (∀ m ∈ ms, m ≠ 0) ∧
        ∀ i j (_ : i < ms.length) (_ : j < ms.length), i < j → ms[i] &&& ms[j] = 0) ∧
    (∀ ms' : List UInt32, ms.Perm ms' → disjoint ms = disjoint ms') ∧
    (∀ ms' : List UInt32, ms'.Sublist ms → disjoint ms = true → disjoint ms' = true) ∧
    (32 < ms.length → disjoint ms = false) ∧
    (¬ ms.Nodup → disjoint ms = false) ∧
    (disjoint ms = true →
      (ms.map UInt32.toNat).sum = (ms.foldl (· ||| ·) 0).toNat ∧
        (ms.map UInt32.toNat).sum < 2 ^ 32) := by
  refine ⟨?_, fun _ => disjoint_perm, fun _ => disjoint_sublist, fun hlength => ?_,
    fun hnodup => ?_, fun h => ?_⟩
  · rw [disjoint_iff, List.pairwise_iff_getElem]
  · exact Bool.eq_false_iff.mpr fun h => Nat.not_lt_of_le (length_le_of_disjoint h) hlength
  · exact Bool.eq_false_iff.mpr fun h => hnodup (nodup_of_disjoint h)
  · have hsum : (ms.foldl (· ||| ·) 0).toNat = (ms.map UInt32.toNat).sum :=
      (toNat_foldl_or h).trans (Nat.zero_add _)
    refine ⟨hsum.symm, ?_⟩
    rw [← hsum]
    exact UInt32.toNat_lt _

/-- Four masks in another order, without two of them and as a sum; too many masks; and one mask that
occurs twice. -/
theorem disjoint_decides_overlap_of_four_masks :
    let ms : List UInt32 := [0x20000000, 0x04000000, 0x00400000, 0x00100000]
    disjoint ms = disjoint [0x00100000, 0x04000000, 0x20000000, 0x00400000] ∧
    disjoint [0x20000000, 0x00100000] = true ∧
    (ms.map UInt32.toNat).sum = (ms.foldl (· ||| ·) 0).toNat ∧
    disjoint (List.replicate 33 1) = false ∧
    disjoint [0x20000000, 0x00100000, 0x20000000] = false := by
  intro ms
  obtain ⟨-, hperm, hsublist, -, -, hsum⟩ := disjoint_decides_overlap ms
  have hms : disjoint ms = true := by decide
  exact ⟨hperm _ (by decide), hsublist _ (by decide) hms, (hsum hms).1,
    (disjoint_decides_overlap _).2.2.2.1 (by decide),
    (disjoint_decides_overlap _).2.2.2.2.1 (by decide)⟩

end Vr4300.BitField
