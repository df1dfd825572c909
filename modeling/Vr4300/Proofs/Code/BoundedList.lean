import Vr4300.Proofs.Code.TlbWrite

/-!
# A code buffer is a bounded list

Seen through `CodeBuffer.words`, a code buffer is a list that holds at most as many words as there
are slots: a step adds all its words if they fit, and nothing otherwise (`Step.append`). The steps
of a run correspond one by one (`CodeBuffer.Extends.perform`, `CodeBuffer.Extends.scan`), so the
words, results and records do not depend on what the storage held at first
(`CodeBuffer.refines_bounded_list`). The words in the buffer are those that it accepted, in order
(`CodeBuffer.words_finalState`).
-/

namespace Vr4300.Code

namespace Step

/-- The words that a step emits. -/
def words : Step → List UInt32
  | emit word => [word]
  | tlbWrite => [Instruction.nop, Instruction.tlbwi]

/-- The records of a step that does not fit into `room` words. -/
def refusalLogs (room : Nat) : Step → List Log.Record
  | emit _ => []
  | tlbWrite => [TlbWrite.noRoomRecord room]

/-- A step on a list of at most `capacity` words. -/
def append (capacity : Nat) (step : Step) : Action Empty (List UInt32) (Except Error Unit) :=
  fun ws =>
    if ws.length + step.words.length ≤ capacity then ⟨.ok (), ws ++ step.words, []⟩
    else ⟨.error .bufferFull, ws, (step.refusalLogs (capacity - ws.length)).map .log⟩

end Step

namespace CodeBuffer

theorem perform_of_room (step : Step) (b : CodeBuffer)
    (h : b.length + step.words.length ≤ b.storage.size) :
    (step.perform.run b).value = .ok () ∧ (step.perform.run b).logs = [] ∧
      b.Extends step.words (step.perform.run b).state := by
  cases step with
  | emit word =>
    have hlt : b.length < b.storage.size := h
    exact ⟨(b.emit_eq_ok word hlt).1, rfl, b.extends_emit word hlt⟩
  | tlbWrite =>
    have htwo : b.length + 2 ≤ b.storage.size := h
    have hroom : 2 ≤ b.remaining := by
      have := b.length_add_remaining
      omega
    have hlt : b.length < b.storage.size := by omega
    have hnop : InstructionSink.emit Instruction.nop b = (.ok (), (b.emit Instruction.nop).2) :=
      Prod.ext (b.emit_eq_ok _ hlt).1 rfl
    have hext := b.extends_emit Instruction.nop hlt
    have hlt' : (b.emit Instruction.nop).2.length < (b.emit Instruction.nop).2.storage.size := by
      rw [hext.length, hext.size]
      exact htwo
    have htlbwi : InstructionSink.emit Instruction.tlbwi (b.emit Instruction.nop).2 =
        (.ok (), ((b.emit Instruction.nop).2.emit Instruction.tlbwi).2) :=
      Prod.ext (emit_eq_ok _ _ hlt').1 rfl
    rw [Step.perform, TlbWrite.run_emit_of_le (n := b.remaining) rfl hroom, TlbWrite.sequence,
      Sink.run_emitAll_of_ok _ hnop, Sink.run_emitAll_of_ok _ htlbwi]
    exact ⟨rfl, rfl, hext.trans (extends_emit _ _ hlt')⟩

theorem perform_of_full (step : Step) (b : CodeBuffer)
    (h : b.storage.size < b.length + step.words.length) :
    (step.perform.run b).value = .error .bufferFull ∧
      (step.perform.run b).logs = step.refusalLogs b.remaining ∧
      (step.perform.run b).state = b := by
  have hsize := b.length_add_remaining
  cases step with
  | emit word =>
    have heq : b.length = b.storage.size := Nat.le_antisymm b.length_le (Nat.le_of_lt_succ h)
    have hemit : InstructionSink.emit word b = (.error .bufferFull, b) := b.emit_eq_error word heq
    rw [Step.perform, Sink.run_emit hemit]
    exact ⟨rfl, rfl, rfl⟩
  | tlbWrite =>
    have hlt : b.remaining < 2 := by
      change b.storage.size < b.length + 2 at h
      omega
    rw [Step.perform, TlbWrite.run_emit_of_lt (n := b.remaining) rfl hlt rfl]
    exact ⟨rfl, rfl, rfl⟩

/-- A refused step changes nothing. -/
theorem perform_eq_error (step : Step) (b : CodeBuffer)
    (h : (step.perform.run b).value ≠ .ok ()) :
    (step.perform.run b).value = .error .bufferFull ∧ (step.perform.run b).state = b := by
  by_cases hroom : b.length + step.words.length ≤ b.storage.size
  · exact absurd (perform_of_room step b hroom).1 h
  · obtain ⟨hv, _, hs⟩ := perform_of_full step b (Nat.lt_of_not_le hroom)
    exact ⟨hv, hs⟩

namespace Extends

variable {storage : Array UInt32} {b : CodeBuffer} {ws : List UInt32}

/-- A buffer over `storage` and the list of its words take a step together. -/
theorem perform (h : (ofStorage storage).Extends ws b) (step : Step) :
    (step.perform.run b).value = ((step.append storage.size).run ws).value ∧
      (step.perform.run b).logs = ((step.append storage.size).run ws).logs ∧
      (ofStorage storage).Extends ((step.append storage.size).run ws).state
        (step.perform.run b).state := by
  have hsize : b.storage.size = storage.size := h.size
  have hlength : b.length = ws.length := h.length.trans (Nat.zero_add _)
  by_cases hroom : ws.length + step.words.length ≤ storage.size
  · obtain ⟨hv, hl, hext⟩ := perform_of_room step b (by rw [hlength, hsize]; exact hroom)
    have hrun : (step.append storage.size).run ws = ⟨.ok (), ws ++ step.words, []⟩ :=
      if_pos hroom
    rw [hrun, hv, hl]
    exact ⟨rfl, rfl, h.trans hext⟩
  · have hfull : b.storage.size < b.length + step.words.length := by
      rw [hlength, hsize]
      exact Nat.lt_of_not_le hroom
    obtain ⟨hv, hl, hs⟩ := perform_of_full step b hfull
    have hrun : (step.append storage.size).run ws =
        ⟨.error .bufferFull, ws, (step.refusalLogs (storage.size - ws.length)).map .log⟩ :=
      if_neg hroom
    have hremaining : b.remaining = storage.size - ws.length := by
      rw [CodeBuffer.remaining, hlength, hsize]
    rw [hrun, hv, hl, hs, hremaining]
    refine ⟨rfl, ?_, h⟩
    cases step <;> rfl

/-- A buffer over `storage` and the list of its words take a run of steps together. -/
theorem scan (h : (ofStorage storage).Extends ws b) (steps : List Step) :
    (Action.scan Step.perform steps b).map (fun o => (o.value, o.logs, o.state.words)) =
        (Action.scan (Step.append storage.size) steps ws).map
          (fun o => (o.value, o.logs, o.state)) ∧
      (ofStorage storage).Extends (Action.finalState (Step.append storage.size) steps ws)
        (Action.finalState Step.perform steps b) := by
  induction steps generalizing b ws with
  | nil => exact ⟨rfl, h⟩
  | cons step steps ih =>
    obtain ⟨hv, hl, hext⟩ := h.perform step
    obtain ⟨hscan, hfinal⟩ := ih hext
    refine ⟨?_, hfinal⟩
    simp only [Action.scan, List.map_cons, hscan, hv, hl, hext.words, words_ofStorage,
      List.nil_append]

end Extends

/-- The words in a buffer after a step are those that the step got accepted, behind the old ones. -/
theorem words_perform (step : Step) (b : CodeBuffer) :
    (step.perform.run b).state.words = b.words ++ accepted (step.perform.run b).calls := by
  by_cases hroom : b.length + step.words.length ≤ b.storage.size
  · obtain ⟨hv, _, hext⟩ := perform_of_room step b hroom
    rw [hext.words]
    cases step with
    | emit word =>
      have hemit : (InstructionSink.emit word b).1 = .ok () := hv
      rw [Step.accepted_emit, hemit]
      rfl
    | tlbWrite =>
      rw [Step.accepted_tlbWrite b hv]
      rfl
  · obtain ⟨hv, _, hs⟩ := perform_of_full step b (Nat.lt_of_not_le hroom)
    have hnone : accepted (step.perform.run b).calls = [] := by
      cases step with
      | emit word =>
        have hemit : (InstructionSink.emit word b).1 = .error .bufferFull := hv
        rw [Step.accepted_emit, hemit]
        rfl
      | tlbWrite =>
        obtain ⟨hok, _⟩ | ⟨_, ha, _⟩ := (TlbWrite.course_emit b).all_or_nothing rfl b.honest
        · cases hok.symm.trans hv
        · exact ha
    rw [hs, hnone, List.append_nil]

theorem words_finalState (steps : List Step) (b : CodeBuffer) :
    (Action.finalState Step.perform steps b).words = b.words ++ accepted (runCalls steps b) := by
  induction steps generalizing b with
  | nil => exact (List.append_nil _).symm
  | cons step steps ih =>
    rw [Action.finalState, ih, words_perform, accepted_runCalls_cons, List.append_assoc]

/-- Words that stand in the buffer are never changed. -/
theorem words_prefix_finalState (steps : List Step) (b : CodeBuffer) :
    b.words <+: (Action.finalState Step.perform steps b).words := by
  rw [words_finalState]
  exact List.prefix_append ..

/-- **A code buffer refines a bounded list.** Over a storage of any size and contents, every run
of steps gives the results, records and words of the run on the list; a refused step changes
nothing, no word that was emitted changes, and the slots behind the words are as they were. -/
theorem refines_bounded_list (storage : Array UInt32) (steps : List Step) :
    let b := Action.finalState Step.perform steps (ofStorage storage)
    let ws := Action.finalState (Step.append storage.size) steps []
    (Action.scan Step.perform steps (ofStorage storage)).map
        (fun o => (o.value, o.logs, o.state.words)) =
      (Action.scan (Step.append storage.size) steps []).map
        (fun o => (o.value, o.logs, o.state)) ∧
    b.words = ws ∧ b.length = ws.length ∧ (b.isEmpty = true ↔ ws = []) ∧
    b.storage.size = storage.size ∧ b.length + b.remaining = storage.size ∧
    (∀ i, b.length ≤ i → b.storage[i]? = storage[i]?) ∧
    (∀ step : Step, (step.perform.run b).value ≠ .ok () →
      (step.perform.run b).value = .error .bufferFull ∧ (step.perform.run b).state = b) ∧
    (∀ more, b.words <+: (Action.finalState Step.perform more b).words) ∧
    ∀ storage' : Array UInt32, storage'.size = storage.size →
      (Action.scan Step.perform steps (ofStorage storage')).map
          (fun o => (o.value, o.logs, o.state.length, o.state.words)) =
        (Action.scan Step.perform steps (ofStorage storage)).map
          (fun o => (o.value, o.logs, o.state.length, o.state.words)) := by
  intro b ws
  obtain ⟨hscan, hext⟩ := (Extends.refl (ofStorage storage)).scan steps
  have hwords : b.words = ws := hext.words
  have hlength : b.length = ws.length := hext.length.trans (Nat.zero_add _)
  have hsize : b.storage.size = storage.size := hext.size
  refine ⟨hscan, hwords, hlength, ?_, hsize, hsize ▸ b.length_add_remaining, hext.tail,
    fun step => perform_eq_error step b, fun more => words_prefix_finalState more b, ?_⟩
  · rw [isEmpty, beq_iff_eq, hlength, List.length_eq_zero_iff]
  · intro storage' hsize'
    obtain ⟨hscan', _⟩ := (Extends.refl (ofStorage storage')).scan steps
    rw [hsize', ← hscan] at hscan'
    have hview : (fun o : Outcome SinkCall CodeBuffer (Except Error Unit) =>
          (o.value, o.logs, o.state.length, o.state.words)) =
        (fun p => (p.1, p.2.1, p.2.2.length, p.2.2)) ∘
          fun o => (o.value, o.logs, o.state.words) := by
      funext o
      rw [Function.comp_apply, o.state.length_words]
    rw [hview, ← List.map_map, hscan', List.map_map]

end CodeBuffer

end Vr4300.Code
