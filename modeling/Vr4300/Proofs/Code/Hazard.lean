import Vr4300.Proofs.Code.BoundedList

/-!
# No TLB write without its nop

In a run of steps none of which emits the bare instruction, whatever the sink answers, the
instruction gets into the sink only as the second word of a `TlbWrite.emit` that succeeded. One
step is `Step.tlbwi_notMem_of_not_done`, the run is `exists_tlbWrite_of_accepted`, and for a code
buffer the accepted words are those in the buffer (`CodeBuffer.words_finalState`).
-/

namespace Vr4300.Code

variable {σ : Type} [InstructionSink σ]

/-- How many TLB writes of a run succeed. -/
def completed (steps : List Step) (s : σ) : Nat :=
  (steps.zip (Action.scan Step.perform steps s)).countP fun p =>
    p.1 = .tlbWrite ∧ p.2.value.isOk

/-! ## One step -/

namespace Step

/-- A step other than a successful TLB write leaves no such instruction in the sink. -/
theorem tlbwi_notMem_of_not_done {step : Step} {s : σ} (hstep : step ≠ .emit Instruction.tlbwi)
    (h : ¬(step = .tlbWrite ∧ (step.perform.run s).value = .ok ())) :
    Instruction.tlbwi ∉ accepted (step.perform.run s).calls := by
  cases step with
  | emit word =>
    have hword : Instruction.tlbwi ≠ word := fun h => hstep (h ▸ rfl)
    rw [accepted_emit]
    split
    · exact fun hmem => hword (List.mem_singleton.mp hmem)
    · exact List.not_mem_nil
  | tlbWrite =>
    obtain ⟨hv, _⟩ | ⟨_, ha | ha⟩ := (TlbWrite.course_emit s).accepted_cases
    · exact absurd ⟨rfl, hv⟩ h
    · rw [perform, ha]
      exact List.not_mem_nil
    · rw [perform, ha]
      decide

end Step

/-! ## Runs -/

/-- A place in a concatenation is in its second or in its first part. -/
private theorem append_eq_append_cons {α : Type} {as bs ws ws' : List α} {x : α}
    (h : as ++ bs = ws ++ x :: ws') :
    (∃ vs, ws = as ++ vs ∧ bs = vs ++ x :: ws') ∨ ∃ vs, as = ws ++ x :: vs := by
  obtain ⟨vs, h1, h2⟩ | ⟨_ | ⟨y, vs⟩, h1, h2⟩ := List.append_eq_append_iff.mp h
  · exact .inl ⟨vs, h1, h2⟩
  · rw [List.append_nil] at h1
    exact .inl ⟨[], by rw [h1, List.append_nil], h2.symm⟩
  · obtain ⟨rfl, _⟩ := List.cons.inj h2
    exact .inr ⟨vs, h1⟩

private theorem eq_nop_of_append_eq_sequence {ws vs : List UInt32}
    (h : ws ++ Instruction.tlbwi :: vs = TlbWrite.sequence) : ws = [Instruction.nop] := by
  obtain _ | ⟨w, _ | ⟨w', ws⟩⟩ := ws
  · exact absurd (List.cons.inj h).1 (by decide)
  · rw [(List.cons.inj h).1]
  · have := congrArg List.length h
    simp only [List.length_append, List.length_cons, TlbWrite.sequence, List.length_nil] at this
    omega

/-- Wherever the instruction stands among the accepted words, a successful TLB write of the run
has just put it there, behind the nop that it emitted first. -/
theorem exists_tlbWrite_of_accepted {steps : List Step} {s : σ} {ws ws' : List UInt32}
    (hsteps : .emit Instruction.tlbwi ∉ steps)
    (h : accepted (runCalls steps s) = ws ++ Instruction.tlbwi :: ws') :
    ∃ before after, steps = before ++ .tlbWrite :: after ∧
      let o := Step.tlbWrite.perform.run (Action.finalState Step.perform before s)
      o.value = .ok () ∧ accepted o.calls = TlbWrite.sequence ∧
      ws = accepted (runCalls before s) ++ [Instruction.nop] := by
  induction steps generalizing s ws with
  | nil => exact absurd h.symm (List.append_ne_nil_of_right_ne_nil _ nofun)
  | cons step steps ih =>
    rw [List.mem_cons, not_or] at hsteps
    rw [accepted_runCalls_cons] at h
    obtain ⟨vs, rfl, hrest⟩ | ⟨vs, hfirst⟩ := append_eq_append_cons h
    · obtain ⟨before, after, rfl, hv, ha, rfl⟩ := ih hsteps.2 hrest
      refine ⟨step :: before, after, rfl, hv, ha, ?_⟩
      rw [accepted_runCalls_cons, List.append_assoc]
    · -- the step itself put the instruction there
      by_cases hdone : step = .tlbWrite ∧ (step.perform.run s).value = .ok ()
      · obtain ⟨rfl, hv⟩ := hdone
        have ha := Step.accepted_tlbWrite s hv
        refine ⟨[], steps, rfl, hv, ha, ?_⟩
        rw [hfirst] at ha
        exact eq_nop_of_append_eq_sequence ha
      · refine absurd ?_ (Step.tlbwi_notMem_of_not_done (Ne.symm hsteps.1) hdone)
        rw [hfirst]
        exact List.mem_append_right _ List.mem_cons_self

theorem completed_cons (step : Step) (steps : List Step) (s : σ) :
    completed (step :: steps) s = completed steps (step.perform.run s).state +
      if step = .tlbWrite ∧ (step.perform.run s).value.isOk then 1 else 0 := by
  simp [completed, Action.scan, List.countP_cons]

theorem isOk_iff {r : Except Error Unit} : r.isOk = true ↔ r = .ok () := by
  cases r with
  | error => exact ⟨nofun, nofun⟩
  | ok => exact ⟨fun _ => rfl, fun _ => rfl⟩

theorem count_accepted_runCalls {steps : List Step} (s : σ)
    (hsteps : .emit Instruction.tlbwi ∉ steps) :
    (accepted (runCalls steps s)).count Instruction.tlbwi = completed steps s := by
  induction steps generalizing s with
  | nil => rfl
  | cons step steps ih =>
    rw [List.mem_cons, not_or] at hsteps
    rw [accepted_runCalls_cons, List.count_append, ih _ hsteps.2, completed_cons, Nat.add_comm]
    congr 1
    split
    next hdone =>
      obtain ⟨rfl, hv⟩ := hdone
      rw [Step.accepted_tlbWrite s (isOk_iff.mp hv)]
      decide
    next hdone =>
      rw [isOk_iff] at hdone
      exact List.count_eq_zero.mpr (Step.tlbwi_notMem_of_not_done (Ne.symm hsteps.1) hdone)

/-- **No TLB write without its nop.** In a run whose own emitted words are other ones, on any sink,
stopped after any call: where the instruction stands among the accepted words, a TLB write that
succeeded put it there, and its nop stands before it. There are as many such words as TLB writes
that succeed. The words of a code buffer are the accepted ones. -/
theorem tlbwi_behind_nop (steps : List Step) (s : σ)
    (hsteps : .emit Instruction.tlbwi ∉ steps) :
    (∀ calls ws ws', calls <+: runCalls steps s →
      accepted calls = ws ++ Instruction.tlbwi :: ws' →
      ∃ before after, steps = before ++ .tlbWrite :: after ∧
        let o := Step.tlbWrite.perform.run (Action.finalState Step.perform before s)
        o.value = .ok () ∧ accepted o.calls = TlbWrite.sequence ∧
        ws = accepted (runCalls before s) ++ [Instruction.nop]) ∧
    (accepted (runCalls steps s)).count Instruction.tlbwi = completed steps s ∧
    ∀ storage : Array UInt32,
      let b := Action.finalState Step.perform steps (CodeBuffer.ofStorage storage)
      accepted (runCalls steps (CodeBuffer.ofStorage storage)) = b.words ∧
      ∀ ws ws', b.words = ws ++ Instruction.tlbwi :: ws' →
        ∃ ws₀, ws = ws₀ ++ [Instruction.nop] := by
  refine ⟨?_, count_accepted_runCalls s hsteps, ?_⟩
  · rintro calls ws ws' ⟨rest, hrest⟩ hcalls
    have hall : accepted (runCalls steps s) =
        ws ++ Instruction.tlbwi :: (ws' ++ accepted rest) := by
      rw [← hrest, accepted_append, hcalls, List.append_assoc, List.cons_append]
    exact exists_tlbWrite_of_accepted hsteps hall
  · intro storage b
    have hwords : accepted (runCalls steps (CodeBuffer.ofStorage storage)) = b.words :=
      (CodeBuffer.words_finalState steps (CodeBuffer.ofStorage storage)).symm
    refine ⟨hwords, fun ws ws' h => ?_⟩
    obtain ⟨before, _, _, _, _, hws⟩ := exists_tlbWrite_of_accepted hsteps (hwords.trans h)
    exact ⟨_, hws⟩

/-- A sink that promises five words and takes four gets one complete write and a lone nop. -/
theorem tlbwi_behind_nop_of_lone_nop :
    let steps : List Step := [.emit 0x24080001, .tlbWrite, .tlbWrite]
    let s : ScriptedSink := ⟨[5], 4, .outputRefused⟩
    .emit Instruction.tlbwi ∉ steps ∧
      accepted (runCalls steps s) =
        [0x24080001, Instruction.nop] ++ Instruction.tlbwi :: [Instruction.nop] ∧
      (∃ before after, steps = before ++ .tlbWrite :: after ∧
        [0x24080001, Instruction.nop] = accepted (runCalls before s) ++ [Instruction.nop]) ∧
      completed steps s = 1 := by
  intro steps s
  have hsteps : .emit Instruction.tlbwi ∉ steps := by decide
  have haccepted : accepted (runCalls steps s) =
      [0x24080001, Instruction.nop] ++ Instruction.tlbwi :: [Instruction.nop] := rfl
  obtain ⟨hnop, hcount, _⟩ := tlbwi_behind_nop steps s hsteps
  obtain ⟨before, after, hsplit, _, _, hws⟩ := hnop _ _ _ (List.prefix_refl _) haccepted
  refine ⟨hsteps, haccepted, ⟨before, after, hsplit, hws⟩, ?_⟩
  rw [← hcount, haccepted]
  decide

end Vr4300.Code
