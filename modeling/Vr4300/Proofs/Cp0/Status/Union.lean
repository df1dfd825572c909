import Vr4300.Cp0.Status
import Vr4300.Proofs.Cp0.Status.Cover

/-!
# The union of several sets

A bit is in the union of several sets if it is in one of them (`bit_unions`), so their order does
not matter nor how often each occurs (`unions_eq_of_mem_iff`). Extending a set by others is the
union with their union (`extend_eq_union`).
-/

namespace Vr4300.Cp0.Status

open Word

theorem bit_extend (s : Status) (ss : List Status) (i : Fin 32) :
    bit (s.extend ss).bits i = (bit s.bits i || ss.any fun t => bit t.bits i) := by
  unfold extend
  induction ss generalizing s with
  | nil => exact (Bool.or_false _).symm
  | cons t ss ih =>
    rw [List.foldl_cons, ih, List.any_cons, ← Bool.or_assoc]
    exact congrArg (· || _) (bit_or ..)

theorem bit_unions (ss : List Status) (i : Fin 32) :
    bit (unions ss).bits i = ss.any fun t => bit t.bits i := by
  have h := bit_extend empty ss i
  rwa [empty, bit_zero, Bool.false_or] at h

theorem extend_eq_union (s : Status) (ss : List Status) : s.extend ss = s.union (unions ss) := by
  apply ext_bit
  intro i
  rw [bit_extend, union, bit_or, bit_unions]

theorem unions_cons (s : Status) (ss : List Status) : unions (s :: ss) = s.union (unions ss) := by
  apply ext_bit
  intro i
  rw [bit_unions, List.any_cons, union, bit_or, bit_unions]

theorem unions_eq_of_mem_iff {ss ts : List Status} (h : ∀ s, s ∈ ss ↔ s ∈ ts) :
    unions ss = unions ts := by
  apply ext_bit
  intro i
  rw [bit_unions, bit_unions, Bool.eq_iff_iff, List.any_eq_true, List.any_eq_true]
  exact exists_congr fun s => and_congr_left fun _ => h s

end Vr4300.Cp0.Status
