import Vr4300.Code.Script

/-!
# What a sink answers

The operations of a sink in terms of what the sink answers, and two promises about the answers: an
honest sink has the room that it claims (`Sink.Honest`), and a sink may take a fixed number of
words and then none (`Sink.TakesExactly`).
-/

namespace Vr4300.Code

variable {σ : Type} [InstructionSink σ]

theorem accepted_append (calls calls' : List SinkCall) :
    accepted (calls ++ calls') = accepted calls ++ accepted calls' := List.filterMap_append

namespace Sink

theorem run_remaining {s t : σ} {n : Nat} (h : InstructionSink.remaining s = (n, t)) :
    (remaining : Action SinkCall σ Nat).run s = ⟨n, t, [.call (.remaining n)]⟩ := by
  rw [remaining, Action.run_call, h]

theorem run_emit {s t : σ} {word : UInt32} {r : Except Error Unit}
    (h : InstructionSink.emit word s = (r, t)) :
    (emit word).run s = ⟨r, t, [.call (.emit word r)]⟩ := by
  rw [emit, Action.run_call, h]

theorem run_emitAll_of_ok {s t : σ} {word : UInt32} (words : List UInt32)
    (h : InstructionSink.emit word s = (.ok (), t)) :
    (emitAll (word :: words)).run s =
      ⟨((emitAll words).run t).value, ((emitAll words).run t).state,
        .call (.emit word (.ok ())) :: ((emitAll words).run t).events⟩ := by
  rw [emitAll, Action.run_bind, run_emit h]
  rfl

theorem run_emitAll_of_error {s t : σ} {word : UInt32} {e : Error} (words : List UInt32)
    (h : InstructionSink.emit word s = (.error e, t)) :
    (emitAll (word :: words)).run s = ⟨.error e, t, [.call (.emit word (.error e))]⟩ := by
  rw [emitAll, Action.run_bind, run_emit h]
  rfl

/-- Where the sink says that it has room for two words, it takes any two. -/
def Honest (s : σ) : Prop :=
  2 ≤ (InstructionSink.remaining s).1 → ∀ word word',
    (InstructionSink.emit word s).1 = .ok () ∧
      (InstructionSink.emit word' (InstructionSink.emit word s).2).1 = .ok ()

/-- Of any words emitted from now on, the sink takes the first `a` and refuses all the others. -/
def TakesExactly (a : Nat) (s : σ) : Prop :=
  ∀ words word, ((emit word).run (Action.finalState emit words s)).value = .ok () ↔
    words.length < a

end Sink

/-- A scripted sink takes as many words as it is told to. -/
theorem ScriptedSink.takesExactly (s : ScriptedSink) : Sink.TakesExactly s.accepts s := by
  intro words word
  induction words generalizing s with
  | nil =>
    obtain ⟨answers, accepts, failure⟩ := s
    cases accepts with
    | zero => exact ⟨nofun, nofun⟩
    | succ a => exact ⟨fun _ => Nat.succ_pos a, fun _ => rfl⟩
  | cons w ws ih =>
    obtain ⟨answers, accepts, failure⟩ := s
    cases accepts with
    | zero => exact (ih ⟨answers, 0, failure⟩).trans ⟨nofun, nofun⟩
    | succ a => exact (ih ⟨answers, a, failure⟩).trans Nat.succ_lt_succ_iff.symm

end Vr4300.Code
