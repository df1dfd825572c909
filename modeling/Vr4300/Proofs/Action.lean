import Vr4300.Action

/-!
# Runs, step by step

What a step of a run leaves is what it leaves alone, in the state after the steps before it
(`Action.map_scan`).
-/

namespace Vr4300.Action

variable {κ σ α β ι : Type} (step : ι → Action κ σ α)

theorem map_scan (view : Outcome κ σ α → β) (is : List ι) (s : σ) :
    (scan step is s).map view =
      is.mapIdx fun k i => view ((step i).run (finalState step (is.take k) s)) := by
  induction is generalizing s with
  | nil => rfl
  | cons i is ih =>
    rw [scan, List.map_cons, ih, List.mapIdx_cons]
    rfl

end Vr4300.Action
