import Vr4300.Cp0.Register

/-!
# Register numbers, decoded and sorted

Decoding is the inverse of `Register.number` (`decode_eq_ok_iff`), also on lists
(`decodeAll_map_number`), where the first number without a register decides the error
(`decodeAll_append_of_notMem`). Registers are in the order of their numbers (`isLE_compare`), so
sorting before or after decoding is the same (`map_number_sort`).
-/

namespace Vr4300.Cp0.Register

/-- The numbers that have a register. -/
def numbers : List UInt32 := all.map number

/-- Why a number without a register is refused. -/
def refusal (n : UInt32) : Error := if slotCount ≤ n then .outOfRange n else .unknownRegister n

theorem mem_numbers {n : UInt32} : n ∈ numbers ↔ ∃ r : Register, r.number = n := by
  rw [numbers, List.mem_map]
  exact exists_congr fun r => and_iff_right r.mem_all

/-! ## Decoding -/

theorem decode_number (r : Register) : decode r.number = .ok r := by
  have hlt : ¬ slotCount ≤ r.number := UInt32.not_le.mpr r.number_lt
  rw [decode, if_neg hlt, ofNumber?_eq_some_iff.mpr rfl]

theorem decode_of_notMem {n : UInt32} (h : n ∉ numbers) : decode n = .error (refusal n) := by
  have hnone : ofNumber? n = none := by
    rw [Option.eq_none_iff_forall_ne_some]
    intro r hr
    exact h (mem_numbers.mpr ⟨r, ofNumber?_eq_some_iff.mp hr⟩)
  rw [decode, refusal, hnone]
  split
  · rfl
  · rfl

theorem decode_eq_ok_iff {n : UInt32} {r : Register} : decode n = .ok r ↔ r.number = n := by
  constructor
  · intro h
    by_cases hn : n ∈ numbers
    · obtain ⟨r', rfl⟩ := mem_numbers.mp hn
      rw [decode_number] at h
      rw [Except.ok.inj h]
    · rw [decode_of_notMem hn] at h
      cases h
  · rintro rfl
    exact decode_number r

/-! ## Lists -/

theorem decodeAll_cons (n : UInt32) (ns : List UInt32) :
    decodeAll (n :: ns) = do return (← decode n) :: (← decodeAll ns) := List.mapM_cons

theorem decodeAll_map_number (rs : List Register) : decodeAll (rs.map number) = .ok rs := by
  induction rs with
  | nil => rfl
  | cons r rs ih =>
    rw [List.map_cons, decodeAll_cons, decode_number, ih]
    rfl

/-- The numbers before the first one without a register do not matter, nor do those behind it. -/
theorem decodeAll_append_of_notMem {ns : List UInt32} (hns : ∀ m ∈ ns, m ∈ numbers) {n : UInt32}
    (hn : n ∉ numbers) (ns' : List UInt32) : decodeAll (ns ++ n :: ns') = .error (refusal n) := by
  induction ns with
  | nil =>
    rw [List.nil_append, decodeAll_cons, decode_of_notMem hn]
    rfl
  | cons m ns ih =>
    obtain ⟨hm, hrest⟩ := List.forall_mem_cons.mp hns
    obtain ⟨r, rfl⟩ := mem_numbers.mp hm
    rw [List.cons_append, decodeAll_cons, decode_number, ih hrest]
    rfl

theorem exists_map_number {ns : List UInt32} (h : ∀ n ∈ ns, n ∈ numbers) :
    ∃ rs : List Register, rs.map number = ns := by
  induction ns with
  | nil => exact ⟨[], rfl⟩
  | cons n ns ih =>
    obtain ⟨hn, hrest⟩ := List.forall_mem_cons.mp h
    obtain ⟨r, rfl⟩ := mem_numbers.mp hn
    obtain ⟨rs, rfl⟩ := ih hrest
    exact ⟨r :: rs, rfl⟩

/-! ## Order -/

theorem isLE_compare (r r' : Register) :
    (Ord.compare r r').isLE = decide (r.number ≤ r'.number) := by
  rw [compare_eq, Bool.eq_iff_iff, decide_eq_true_iff]
  exact Std.isLE_compare

theorem pairwise_all : all.Pairwise fun r r' => Ord.compare r r' = .lt := by decide

theorem sort_perm (rs : List Register) : (sort rs).Perm rs := List.mergeSort_perm ..

theorem pairwise_sort (rs : List Register) :
    (sort rs).Pairwise fun r r' => (Ord.compare r r').isLE = true := by
  apply List.pairwise_mergeSort
  · intro r r' r'' h h'
    rw [isLE_compare, decide_eq_true_iff] at h h' ⊢
    exact UInt32.le_trans h h'
  · intro r r'
    rw [isLE_compare, isLE_compare, Bool.or_eq_true, decide_eq_true_iff, decide_eq_true_iff]
    exact UInt32.le_total ..

theorem map_number_sort (rs : List Register) :
    (sort rs).map number = (rs.map number).mergeSort fun m n => m ≤ n :=
  List.map_mergeSort fun r _ r' _ => isLE_compare r r'

/-- **Decoding and sorting of register numbers.** The first number of a list that has no register
is the error, by its size. Without one the list is decoded to the registers with just these numbers,
and sorting them, in the order of the registers and with repetitions, sorts the numbers. One number
is found in the table if and only if decoding gives the register of that number, and the table of
all registers is strictly ascending. -/
theorem decoding_commutes_with_sorting :
    (∀ ns : List UInt32,
      match ns.find? fun n => n ∉ numbers with
      | some n => decodeAll ns = .error (if 32 ≤ n then .outOfRange n else .unknownRegister n)
      | none => ∃ rs, decodeAll ns = .ok rs ∧ rs.map number = ns ∧
          (sort rs).Perm rs ∧ (sort rs).Pairwise (fun r r' => (Ord.compare r r').isLE = true) ∧
          (sort rs).map number = ns.mergeSort (fun m n => m ≤ n) ∧
          decodeAll (ns.mergeSort fun m n => m ≤ n) = .ok (sort rs)) ∧
    (∀ n r, (ofNumber? n = some r ↔ decode n = .ok r) ∧ (decode n = .ok r ↔ r.number = n)) ∧
    all.Pairwise fun r r' => Ord.compare r r' = .lt := by
  refine ⟨fun ns => ?_, fun n r => ⟨?_, decode_eq_ok_iff⟩, pairwise_all⟩
  · split
    next n h =>
      obtain ⟨hn, ns, ns', rfl, hns⟩ := List.find?_eq_some_iff_append.mp h
      exact decodeAll_append_of_notMem (fun m hm => by simpa using hns m hm) (by simpa using hn) ns'
    next h =>
      obtain ⟨rs, rfl⟩ := exists_map_number fun n hn => by
        simpa using List.find?_eq_none.mp h n hn
      refine ⟨rs, decodeAll_map_number rs, rfl, sort_perm rs, pairwise_sort rs, map_number_sort rs,
        ?_⟩
      rw [← map_number_sort]
      exact decodeAll_map_number (sort rs)
  · rw [ofNumber?_eq_some_iff, decode_eq_ok_iff]

end Vr4300.Cp0.Register
