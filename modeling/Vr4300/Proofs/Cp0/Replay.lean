import Vr4300.Proofs.Action
import Vr4300.Proofs.Cp0.Access

/-!
# The instructions explain the file

The instructions of an access are at most a load and then at most a store (`Access.calls_perform`).
So what a run has recorded tells the whole story: each load shows what the file held at that moment
(`Access.faithful_transfers`), and the stores alone make the final file
(`Access.replay_transfers`). The accessors of 64-bit words have tables of their own, which agree with
those of the own accessors register by register (`Register.readAny_eq`, `Writable.writeAny_eq`), so
they carry out the very same instructions (`generic_access_replays`).
-/

namespace Vr4300.Cp0

/-! ## Replay of recorded instructions -/

/-- The instruction reads a register and leaves the file alone. -/
def Opcode.loads : Opcode → Bool
  | mfc0 | dmfc0 => true
  | mtc0 | dmtc0 => false

/-- Each instruction that reads shows what a register shows in the file that the instructions before
it have made of `f`. -/
def Faithful (f : File) : List Transfer → Prop
  | [] => True
  | t :: ts =>
    (t.opcode.loads = true → ∃ r : Register, t = r.loadOf (f.visible r)) ∧
      Faithful (t.replay f) ts

theorem replay_append (f : File) (ts ts' : List Transfer) :
    replay f (ts ++ ts') = replay (replay f ts) ts' := List.foldl_append

theorem faithful_append {f : File} {ts ts' : List Transfer} :
    Faithful f (ts ++ ts') ↔ Faithful f ts ∧ Faithful (replay f ts) ts' := by
  induction ts generalizing f with
  | nil => exact ⟨fun h => ⟨trivial, h⟩, And.right⟩
  | cons t ts ih => exact (and_congr_right fun _ => ih).trans and_assoc.symm

section
variable (f : File)

theorem Register.replay_loadOf (r : Register) (v : UInt64) : (r.loadOf v).replay f = f := by
  rw [loadOf, Transfer.replay]
  cases r.width <;> rfl

theorem Register.replay_storeOf (r : Register) (v : UInt64) :
    (r.storeOf v).replay f = f.set r.slot v := by
  rw [storeOf, Transfer.replay]
  cases r.width <;> rfl

theorem Register.loads_storeOpcode (r : Register) : r.width.storeOpcode.loads = false := by
  cases r.width <;> rfl

/-! ## The instructions of an access -/

namespace Access

/-- How many instructions an access carries out. -/
def instructionCount : Access → Nat
  | enableFpu => 2
  | _ => 1

theorem calls_perform (a : Access) :
    (a.perform.run f).calls = (a.source?.map fun r => r.loadOf (f.visible r)).toList ++
      ((a.change? f.visible).map Change.transfer).toList := by
  rw [a.run_perform, Outcome.calls, events]
  cases a <;> rfl

theorem length_calls_perform (a : Access) :
    (a.perform.run f).calls.length = a.instructionCount := by
  rw [calls_perform]
  cases a <;> rfl

theorem replay_calls_perform (a : Access) :
    replay f (a.perform.run f).calls = (a.perform.run f).state := by
  have hload : replay f (a.source?.map fun r => r.loadOf (f.visible r)).toList = f := by
    cases a.source? with
    | none => rfl
    | some r => exact r.replay_loadOf f _
  rw [calls_perform, replay_append, hload, run_perform]
  cases a.change? f.visible with
  | none => rfl
  | some c => exact c.register.replay_storeOf f _

theorem faithful_calls_perform (a : Access) : Faithful f (a.perform.run f).calls := by
  rw [calls_perform, faithful_append]
  constructor
  · cases a.source? with
    | none => trivial
    | some r => exact ⟨fun _ => ⟨r, rfl⟩, trivial⟩
  · cases a.change? f.visible with
    | none => trivial
    | some c =>
      refine ⟨fun h => ?_, trivial⟩
      cases c.register.loads_storeOpcode.symm.trans h

/-! ## Runs -/

/-- The instructions of a run, in order. -/
def transfers (as : List Access) : List Transfer :=
  (Action.scan perform as f).flatMap Outcome.calls

theorem map_length_calls (as : List Access) :
    (Action.scan perform as f).map (·.calls.length) = as.map instructionCount := by
  induction as generalizing f with
  | nil => rfl
  | cons a as ih => rw [Action.scan, List.map_cons, List.map_cons, a.length_calls_perform, ih]

theorem replay_transfers (as : List Access) :
    replay f (transfers f as) = Action.finalState perform as f := by
  induction as generalizing f with
  | nil => rfl
  | cons a as ih =>
    rw [transfers, Action.scan, List.flatMap_cons, replay_append, replay_calls_perform]
    exact ih _

theorem faithful_transfers (as : List Access) : Faithful f (transfers f as) := by
  induction as generalizing f with
  | nil => trivial
  | cons a as ih =>
    rw [transfers, Action.scan, List.flatMap_cons, faithful_append, replay_calls_perform]
    exact ⟨a.faithful_calls_perform f, ih _⟩

end Access

end

/-! ## The accessors of 64-bit words -/

theorem Register.loadOpcode_width (r : Register) :
    r.width.loadOpcode = if r.number ∈ [2, 3, 8, 10, 14] then .dmfc0 else .mfc0 := by
  cases r <;> rfl

theorem Register.storeOpcode_width (r : Register) :
    r.width.storeOpcode = if r.number ∈ [2, 3, 8, 10, 14] then .dmtc0 else .mtc0 := by
  cases r <;> rfl

/-- **One instruction for either accessor, and the instructions explain the file.** Reading a
register as 64-bit word carries out the one instruction of its own reader and extends the value;
writing it so carries out the one of its own writer for the truncated value. The instruction names
the register by its number and is a doubleword one for five registers. In a run every access carries
out one instruction but `enableFpu`, which carries out two; what instructions read is what the file
then held, and what they stored makes the final file of the first one. -/
theorem generic_access_replays :
    (∀ (r : Register) (f : File), Register.ofNumber? r.number = some r ∧
      ∃ t : Transfer, (r.read.run f).events = [.call t] ∧ (r.readAny.run f).events = [.call t] ∧
        (r.readAny.run f).value = r.width.extend (r.read.run f).value ∧
        (r.readAny.run f).state = (r.read.run f).state ∧ t.word = (r.readAny.run f).value ∧
        t.slot.val = r.number.toNat ∧
        t.opcode = if r.number ∈ [2, 3, 8, 10, 14] then .dmfc0 else .mfc0) ∧
    (∀ (r : Writable) (v : UInt64) (f : File),
      let own := r.write (r.register.width.truncate v)
      ∃ t : Transfer, (own.run f).events = [.call t] ∧ ((r.writeAny v).run f).events = [.call t] ∧
        ((r.writeAny v).run f).state = (own.run f).state ∧
        t.slot.val = r.register.number.toNat ∧
        t.opcode = if r.register.number ∈ [2, 3, 8, 10, 14] then .dmtc0 else .mtc0) ∧
    ∀ (f : File) (as : List Access),
      (Action.scan Access.perform as f).map (·.calls.length) = as.map Access.instructionCount ∧
      Faithful f (Access.transfers f as) ∧
      replay f (Access.transfers f as) = Action.finalState Access.perform as f := by
  refine ⟨fun r f => ⟨Register.ofNumber?_eq_some_iff.mpr rfl, r.loadOf (f.visible r), ?_⟩,
    fun r v f => ⟨r.register.storeOf (r.register.width.limit v), ?_⟩, fun f as => ⟨?_, ?_, ?_⟩⟩
  · rw [r.run_read, r.run_readAny]
    exact ⟨rfl, rfl, rfl, rfl, rfl, rfl, r.loadOpcode_width⟩
  · rw [r.run_writeAny, r.run_write]
    exact ⟨rfl, rfl, rfl, rfl, r.register.storeOpcode_width⟩
  · exact Access.map_length_calls f as
  · exact Access.faithful_transfers f as
  · exact Access.replay_transfers f as

end Vr4300.Cp0
