import Vr4300.Cp0.Status
import Vr4300.Proofs.Bits

/-!
# A word as flags and a rest

Four flags have one bit each and the last one stands for two of them, so a cover of the declared
flags takes exactly those of the four that the word contains (`flags_eq_filter`), and the composite
one never. The flags make up the named bits (`ofFlags_flags`), what they leave are the others
(`unnamed_eq`), and together they are the word (`ofFlags_union_unnamed`).
-/

namespace Vr4300.Cp0.Status

open Word

/-- The set of some flags. -/
def ofFlags (fs : List Flag) : Status := fs.foldr (fun f s => (ofFlag f).union s) empty

namespace Flag

/-- The flags of one bit, in declaration order. -/
def single : List Flag := [cu1, fr, bev, pe]

theorem all_eq : all = single ++ [fpu] := rfl

theorem mask_ne_zero (f : Flag) : f.mask ≠ 0 := by cases f <;> decide

theorem pairwise_single : single.Pairwise fun f g => f.mask &&& g.mask = 0 := by decide

theorem exists_place : ∀ f ∈ single, ∃ p, ∀ i, bit f.mask i = decide (i = p) := by decide

end Flag

theorem named_eq_ofFlags : named = (ofFlags Flag.single).bits := by decide

theorem ext_bit {s t : Status} (h : ∀ i, bit s.bits i = bit t.bits i) : s = t :=
  congrArg Status.mk (Word.ext_bit h)

theorem bit_ofFlags (fs : List Flag) (i : Fin 32) :
    bit (ofFlags fs).bits i = fs.any fun f => bit f.mask i := by
  induction fs with
  | nil => exact bit_zero i
  | cons f fs ih =>
    rw [List.any_cons, ← ih]
    exact bit_or ..

variable {s : Status}

theorem contains_iff {t : Status} :
    s.contains t = true ↔ ∀ i, bit t.bits i = true → bit s.bits i = true := by
  rw [contains, beq_iff_eq]
  constructor
  · intro h i hi
    rw [← h, bit_and, Bool.and_eq_true] at hi
    exact hi.1
  · intro h
    refine Word.ext_bit fun i => ?_
    rw [bit_and, Bool.and_eq_right_iff_imp]
    exact h i

/-- A flag of one bit is contained if its bit is set. -/
theorem contains_and_bit {f : Flag} (hf : f ∈ Flag.single) (i : Fin 32) :
    (s.contains (ofFlag f) && bit f.mask i) = (bit s.bits i && bit f.mask i) := by
  obtain ⟨p, hp⟩ := Flag.exists_place f hf
  cases hi : bit f.mask i with
  | false => rw [Bool.and_false, Bool.and_false]
  | true =>
    obtain rfl : i = p := of_decide_eq_true ((hp i).symm.trans hi)
    rw [Bool.and_true, Bool.and_true, Bool.eq_iff_iff, contains_iff]
    refine ⟨fun h => h i hi, fun h j hj => ?_⟩
    obtain rfl : j = i := of_decide_eq_true ((hp j).symm.trans hj)
    exact h

/-! ## Covers -/

theorem cover_append (fs fs' : List Flag) (rest : UInt32) :
    s.cover (fs ++ fs') rest =
      ((s.cover fs rest).1 ++ (s.cover fs' (s.cover fs rest).2).1,
        (s.cover fs' (s.cover fs rest).2).2) := by
  induction fs generalizing rest with
  | nil => rfl
  | cons f fs ih =>
    rw [List.cons_append, cover, cover]
    split
    · rw [ih]
      rfl
    · exact ih rest

/-- What is left is what no taken flag covers. -/
theorem cover_snd (fs : List Flag) (rest : UInt32) :
    (s.cover fs rest).2 = rest &&& ~~~(ofFlags (s.cover fs rest).1).bits := by
  induction fs generalizing rest with
  | nil => exact Word.ext_bit fun i => by simp [cover, bit_ofFlags]
  | cons f fs ih =>
    rw [cover]
    split
    · refine Word.ext_bit fun i => ?_
      simp [ih, bit_ofFlags, Bool.and_assoc]
    · exact ih rest

/-- Of flags that do not overlap all those are taken that the set contains. -/
theorem cover_fst {fs : List Flag} (hfs : fs.Pairwise fun f g => f.mask &&& g.mask = 0)
    {rest : UInt32} (hrest : ∀ f ∈ fs, rest &&& f.mask = s.bits &&& f.mask) :
    (s.cover fs rest).1 = fs.filter fun f => s.contains (ofFlag f) := by
  induction fs generalizing rest with
  | nil => rfl
  | cons f fs ih =>
    obtain ⟨hf, hfs⟩ := List.pairwise_cons.mp hfs
    obtain ⟨hrestf, hrest⟩ := List.forall_mem_cons.mp hrest
    rw [cover, List.filter_cons]
    by_cases hcontains : s.contains (ofFlag f) = true
    · have hmask : rest &&& f.mask ≠ 0 := by
        have heq : s.bits &&& f.mask = f.mask := beq_iff_eq.mp hcontains
        rw [hrestf, heq]
        exact f.mask_ne_zero
      rw [if_pos ⟨hcontains, hmask⟩, if_pos hcontains]
      refine congrArg (f :: ·) (ih hfs fun g hg => ?_)
      rw [← hrest g hg]
      refine Word.ext_bit fun i => ?_
      have hdisjoint : (bit f.mask i && bit g.mask i) = false := by
        rw [← bit_and, hf g hg, bit_zero]
      simp only [bit_and, bit_not]
      revert hdisjoint
      cases bit rest i <;> cases bit f.mask i <;> cases bit g.mask i <;> decide
    · rw [if_neg (hcontains ·.1), if_neg hcontains]
      exact ih hfs hrest

theorem ofFlags_filter (s : Status) :
    ofFlags (Flag.single.filter fun f => s.contains (ofFlag f)) = s.truncate := by
  refine Status.ext_bit fun i => ?_
  rw [truncate, bit_and, named_eq_ofFlags, bit_ofFlags, bit_ofFlags, List.any_filter,
    List.and_any_distrib_left, Bool.eq_iff_iff, List.any_eq_true, List.any_eq_true]
  exact exists_congr fun f => and_congr_right fun hf => by rw [contains_and_bit hf]

/-- The single flags of a word leave only bits without a name. -/
theorem cover_single (s : Status) :
    s.cover Flag.single s.bits =
      (Flag.single.filter fun f => s.contains (ofFlag f), s.bits &&& ~~~named) := by
  have hfst := s.cover_fst Flag.pairwise_single (fun _ _ => rfl)
  refine Prod.ext hfst ?_
  rw [cover_snd, hfst, ofFlags_filter, truncate]
  refine Word.ext_bit fun i => ?_
  simp only [bit_and, bit_not]
  cases bit s.bits i <;> rfl

theorem cover_all (s : Status) : s.cover Flag.all s.bits = s.cover Flag.single s.bits := by
  -- nothing is left for the composite flag, all of its bits have a name
  have hnone : s.bits &&& ~~~named &&& Flag.fpu.mask = 0 := by
    have hnamed : ~~~named &&& Flag.fpu.mask = 0 := by decide
    rw [UInt32.and_assoc, hnamed, UInt32.and_zero]
  have hskip : s.cover [.fpu] (s.bits &&& ~~~named) = ([], s.bits &&& ~~~named) :=
    if_neg fun h => h.2 hnone
  rw [Flag.all_eq, cover_append, cover_single, hskip, List.append_nil]

/-- The flags in a word are those of one bit that it contains. -/
theorem flags_eq_filter (s : Status) :
    s.flags = Flag.single.filter fun f => s.contains (ofFlag f) := by
  rw [flags, cover_all, cover_single]

theorem unnamed_eq (s : Status) : s.unnamed = s.bits &&& ~~~named := by
  rw [unnamed, cover_all, cover_single]

theorem ofFlags_flags (s : Status) : ofFlags s.flags = s.truncate := by
  rw [flags_eq_filter, ofFlags_filter]

theorem ofFlags_union_unnamed (s : Status) : (ofFlags s.flags).union ⟨s.unnamed⟩ = s := by
  refine Status.ext_bit fun i => ?_
  rw [ofFlags_flags, unnamed_eq, union, truncate, bit_or, bit_and, bit_and, bit_not]
  cases bit s.bits i <;> cases bit named i <;> rfl

end Vr4300.Cp0.Status
