import Vr4300.Code.TlbWrite
import Vr4300.Proofs.Code.Buffer
import Vr4300.Proofs.Code.Sink

/-!
# The write of a TLB entry into any sink

`TlbWrite.Course` has the four ways in which `TlbWrite.emit` goes, with all that happens on each,
and `TlbWrite.course_emit` says that there are no others. From it follow the exact failure
behaviour (`TlbWrite.emit_atomic`), and in particular that a write is all or nothing in a sink
that keeps its word (`Sink.Honest`), while a sink that promises two words and takes one
(`Sink.TakesExactly`) is left with a lone nop.
-/

namespace Vr4300.Code

variable {σ : Type} [InstructionSink σ]

namespace TlbWrite

/-- The record of a sink without room. -/
def noRoomRecord (left : Nat) : Log.Record :=
  ⟨.debug, Log.target, "no room for tlbwi sequence (" ++ Numeral.decimal left ++ " words left)"⟩

/-- The ways in which the write of a TLB entry goes: the sink has no room, it refuses the nop, it
refuses the write behind the nop, or it takes both words. -/
inductive Course (s : σ) : Outcome SinkCall σ (Except Error Unit) → Prop
  | noRoom {n m : Nat} {t u : σ} : InstructionSink.remaining s = (n, t) → n < 2 →
      InstructionSink.remaining t = (m, u) →
      Course s ⟨.error .bufferFull, u,
        [.call (.remaining n), .call (.remaining m), .log (noRoomRecord m)]⟩
  | nopRefused {n : Nat} {t u : σ} {e : Error} : InstructionSink.remaining s = (n, t) → 2 ≤ n →
      InstructionSink.emit Instruction.nop t = (.error e, u) →
      Course s ⟨.error e, u, [.call (.remaining n), .call (.emit Instruction.nop (.error e))]⟩
  | tlbwiRefused {n : Nat} {t u v : σ} {e : Error} :
      InstructionSink.remaining s = (n, t) → 2 ≤ n →
      InstructionSink.emit Instruction.nop t = (.ok (), u) →
      InstructionSink.emit Instruction.tlbwi u = (.error e, v) →
      Course s ⟨.error e, v, [.call (.remaining n), .call (.emit Instruction.nop (.ok ())),
        .call (.emit Instruction.tlbwi (.error e))]⟩
  | complete {n : Nat} {t u v : σ} : InstructionSink.remaining s = (n, t) → 2 ≤ n →
      InstructionSink.emit Instruction.nop t = (.ok (), u) →
      InstructionSink.emit Instruction.tlbwi u = (.ok (), v) →
      Course s ⟨.ok (), v, [.call (.remaining n), .call (.emit Instruction.nop (.ok ())),
        .call (.emit Instruction.tlbwi (.ok ()))]⟩

theorem run_emit_of_lt {s t u : σ} {n m : Nat} (hn : InstructionSink.remaining s = (n, t))
    (hlt : n < 2) (hm : InstructionSink.remaining t = (m, u)) :
    (emit : Action SinkCall σ _).run s =
      ⟨.error .bufferFull, u,
        [.call (.remaining n), .call (.remaining m), .log (noRoomRecord m)]⟩ := by
  rw [emit, Action.run_bind, Sink.run_remaining hn]
  simp only [if_pos (show n < sequence.length from hlt), Action.run_bind, Sink.run_remaining hm]
  rfl

theorem run_emit_of_le {s t : σ} {n : Nat} (hn : InstructionSink.remaining s = (n, t))
    (hle : 2 ≤ n) :
    (emit : Action SinkCall σ _).run s =
      ⟨((Sink.emitAll sequence).run t).value, ((Sink.emitAll sequence).run t).state,
        .call (.remaining n) :: ((Sink.emitAll sequence).run t).events⟩ := by
  rw [emit, Action.run_bind, Sink.run_remaining hn]
  simp only [if_neg (show ¬n < sequence.length from Nat.not_lt.mpr hle)]
  rfl

theorem course_emit (s : σ) : Course s ((emit : Action SinkCall σ _).run s) := by
  rcases hn : InstructionSink.remaining s with ⟨n, t⟩
  by_cases hlt : n < 2
  · rcases hm : InstructionSink.remaining t with ⟨m, u⟩
    rw [run_emit_of_lt hn hlt hm]
    exact .noRoom hn hlt hm
  · have hle : 2 ≤ n := Nat.le_of_not_lt hlt
    rw [run_emit_of_le hn hle, sequence]
    rcases hnop : InstructionSink.emit Instruction.nop t with ⟨_ | _, u⟩
    · rw [Sink.run_emitAll_of_error _ hnop]
      exact .nopRefused hn hle hnop
    · rw [Sink.run_emitAll_of_ok _ hnop]
      rcases htlbwi : InstructionSink.emit Instruction.tlbwi u with ⟨_ | _, v⟩
      · rw [Sink.run_emitAll_of_error _ htlbwi]
        exact .tlbwiRefused hn hle hnop htlbwi
      · rw [Sink.run_emitAll_of_ok _ htlbwi]
        exact .complete hn hle hnop htlbwi

/-- Both words got into the sink if the write succeeds, and at most the nop if it does not. -/
theorem Course.accepted_cases {s : σ} {o : Outcome SinkCall σ (Except Error Unit)}
    (h : Course s o) :
    o.value = .ok () ∧ accepted o.calls = sequence ∨
      o.value ≠ .ok () ∧ (accepted o.calls = [] ∨ accepted o.calls = [Instruction.nop]) := by
  cases h with
  | noRoom | nopRefused => exact .inr ⟨nofun, .inl rfl⟩
  | tlbwiRefused => exact .inr ⟨nofun, .inr rfl⟩
  | complete => exact .inl ⟨rfl, rfl⟩

/-! ## Exact failure behaviour -/

section
variable {s : σ} {o : Outcome SinkCall σ (Except Error Unit)}

theorem Course.of_lt (hs : (InstructionSink.remaining s).2 = s) (h : Course s o)
    (hlt : (InstructionSink.remaining s).1 < 2) :
    let n := (InstructionSink.remaining s).1
    o.value = .error .bufferFull ∧ o.state = s ∧ o.calls = [.remaining n, .remaining n] ∧
      o.logs = [noRoomRecord n] := by
  cases h with
  | noRoom hn _ hm =>
    rw [hn] at hs
    cases hs
    cases hn.symm.trans hm
    rw [hn]
    exact ⟨rfl, rfl, rfl, rfl⟩
  | nopRefused hn hle | tlbwiRefused hn hle | complete hn hle =>
    rw [hn] at hlt
    exact absurd hlt (Nat.not_lt.mpr hle)

theorem Course.of_le (hs : (InstructionSink.remaining s).2 = s) (h : Course s o)
    (hle : 2 ≤ (InstructionSink.remaining s).1) :
    let first := InstructionSink.emit Instruction.nop s
    let second := InstructionSink.emit Instruction.tlbwi first.2
    o.logs = [] ∧
      o.calls = .remaining (InstructionSink.remaining s).1 :: .emit Instruction.nop first.1 ::
        (if first.1.isOk then [.emit Instruction.tlbwi second.1] else []) ∧
      o.state = (if first.1.isOk then second.2 else first.2) ∧
      (o.value = .ok () ↔ first.1 = .ok () ∧ second.1 = .ok ()) ∧
      ∀ e, o.value = .error e ↔ first.1 = .error e ∨ first.1 = .ok () ∧ second.1 = .error e := by
  cases h with
  | noRoom hn hlt _ =>
    rw [hn] at hle
    exact absurd hlt (Nat.not_lt.mpr hle)
  | nopRefused hn _ hnop =>
    rw [hn] at hs
    cases hs
    simp only [hn, hnop]
    exact ⟨rfl, rfl, rfl, by simp, by simp⟩
  | tlbwiRefused hn _ hnop htlbwi | complete hn _ hnop htlbwi =>
    rw [hn] at hs
    cases hs
    simp only [hn, hnop, htlbwi]
    exact ⟨rfl, rfl, rfl, by simp, by simp⟩

/-- A write that fails leaves a proper initial part of the sequence in the sink. -/
theorem Course.accepted_prefix_sequence (h : Course s o) :
    accepted o.calls <+: sequence ∧ (o.value = .ok () ↔ accepted o.calls = sequence) := by
  obtain ⟨hv, ha⟩ | ⟨hv, ha | ha⟩ := h.accepted_cases
  · rw [ha]
    exact ⟨List.prefix_refl _, fun _ => rfl, fun _ => hv⟩
  · rw [ha]
    exact ⟨List.nil_prefix, fun h => absurd h hv, nofun⟩
  · rw [ha]
    exact ⟨List.prefix_append .., fun h => absurd h hv, nofun⟩

theorem Course.all_or_nothing (hs : (InstructionSink.remaining s).2 = s) (h : Course s o)
    (honest : Sink.Honest s) :
    o.value = .ok () ∧ accepted o.calls = sequence ∨
      o.value = .error .bufferFull ∧ accepted o.calls = [] ∧ o.state = s := by
  by_cases hlt : (InstructionSink.remaining s).1 < 2
  · obtain ⟨hv, hst, hcalls, _⟩ := h.of_lt hs hlt
    rw [hcalls]
    exact .inr ⟨hv, rfl, hst⟩
  · have hle := Nat.le_of_not_lt hlt
    obtain ⟨_, _, _, hok, _⟩ := h.of_le hs hle
    have hv := hok.mpr (honest hle _ _)
    exact .inl ⟨hv, h.accepted_prefix_sequence.2.mp hv⟩

theorem Course.lone_nop_iff (hs : (InstructionSink.remaining s).2 = s) (h : Course s o)
    {a : Nat} (ha : Sink.TakesExactly a s) :
    accepted o.calls = [Instruction.nop] ↔ 2 ≤ (InstructionSink.remaining s).1 ∧ a = 1 := by
  have hfirst : (InstructionSink.emit Instruction.nop s).1 = .ok () ↔ 0 < a :=
    ha [] Instruction.nop
  have hsecond : (InstructionSink.emit Instruction.tlbwi
      (InstructionSink.emit Instruction.nop s).2).1 = .ok () ↔ 1 < a :=
    ha [Instruction.nop] Instruction.tlbwi
  cases h with
  | noRoom hn hlt _ =>
    rw [hn]
    exact ⟨nofun, fun h => absurd hlt (Nat.not_lt.mpr h.1)⟩
  | nopRefused hn _ hnop =>
    rw [hn] at hs
    cases hs
    rw [hnop] at hfirst
    have ha0 : ¬0 < a := fun h => nomatch hfirst.mpr h
    exact ⟨nofun, fun h => absurd (h.2 ▸ Nat.one_pos) ha0⟩
  | tlbwiRefused hn hle hnop htlbwi =>
    rw [hn] at hs
    cases hs
    rw [hnop] at hfirst hsecond
    rw [htlbwi] at hsecond
    have ha0 : 0 < a := hfirst.mp rfl
    have ha1 : ¬1 < a := fun h => nomatch hsecond.mpr h
    rw [hn]
    exact ⟨fun _ => ⟨hle, by omega⟩, fun _ => rfl⟩
  | complete hn _ hnop htlbwi =>
    rw [hn] at hs
    cases hs
    rw [hnop, htlbwi] at hsecond
    have ha1 : 1 < a := hsecond.mp rfl
    exact ⟨nofun, fun h => absurd h.2 (Nat.ne_of_gt ha1)⟩

end

/-- **The write is atomic up to the word of the sink.** Without room it changes nothing and leaves
one record; with room it emits the two words, stops at the first error and returns that error. So
an honest sink gets both words or none, and exactly a sink that promises two words but takes one
is left with a lone nop. -/
theorem emit_atomic (s : σ) (hs : (InstructionSink.remaining s).2 = s) :
    let n := (InstructionSink.remaining s).1
    let first := InstructionSink.emit Instruction.nop s
    let second := InstructionSink.emit Instruction.tlbwi first.2
    let o := (emit : Action SinkCall σ _).run s
    (n < 2 →
      o.value = .error .bufferFull ∧ o.state = s ∧ o.calls = [.remaining n, .remaining n] ∧
        o.logs = [noRoomRecord n]) ∧
    (2 ≤ n →
      (o.logs = [] ∧
        o.calls = .remaining n :: .emit Instruction.nop first.1 ::
          (if first.1.isOk then [.emit Instruction.tlbwi second.1] else []) ∧
        o.state = (if first.1.isOk then second.2 else first.2) ∧
        (o.value = .ok () ↔ first.1 = .ok () ∧ second.1 = .ok ()) ∧
        ∀ e, o.value = .error e ↔ first.1 = .error e ∨ first.1 = .ok () ∧ second.1 = .error e) ∧
      accepted o.calls <+: sequence ∧ (o.value = .ok () ↔ accepted o.calls = sequence)) ∧
    (Sink.Honest s →
      o.value = .ok () ∧ accepted o.calls = sequence ∨
        o.value = .error .bufferFull ∧ accepted o.calls = [] ∧ o.state = s) ∧
    ∀ a, Sink.TakesExactly a s → (accepted o.calls = [Instruction.nop] ↔ 2 ≤ n ∧ a = 1) := by
  intro n first second o
  have h : Course s o := course_emit s
  exact ⟨h.of_lt hs, fun hle => ⟨h.of_le hs hle, h.accepted_prefix_sequence⟩, h.all_or_nothing hs,
    fun _ => h.lone_nop_iff hs⟩

end TlbWrite

/-- A sink that promises five words and takes one is left with a lone nop; a buffer of three words
gets both. -/
theorem TlbWrite.emit_atomic_of_overstated :
    let s : ScriptedSink := ⟨[5], 1, .outputRefused⟩
    let o := (TlbWrite.emit : Action SinkCall ScriptedSink _).run s
    let b := CodeBuffer.ofStorage #[7, 7, 7]
    let o' := (TlbWrite.emit : Action SinkCall CodeBuffer _).run b
    ((InstructionSink.remaining s).2 = s ∧ Sink.TakesExactly 1 s ∧
      o.value = .error .outputRefused ∧ accepted o.calls = [Instruction.nop]) ∧
    (InstructionSink.remaining b).2 = b ∧ Sink.Honest b ∧
      o'.value = .ok () ∧ accepted o'.calls = sequence := by
  intro s o b o'
  obtain ⟨_, hroom, _, hlone⟩ := TlbWrite.emit_atomic s rfl
  obtain ⟨_, _, honest, _⟩ := TlbWrite.emit_atomic b rfl
  have ha : Sink.TakesExactly 1 s := ScriptedSink.takesExactly s
  refine ⟨⟨rfl, ha, ?_, ?_⟩, rfl, b.honest, ?_⟩
  · exact ((hroom (by decide)).1.2.2.2.2 _).mpr (.inr ⟨rfl, rfl⟩)
  · exact (hlone 1 ha).mpr ⟨by decide, rfl⟩
  · exact (honest b.honest).resolve_right fun h => nomatch h.1

/-! ## Steps and runs -/

namespace Step

theorem accepted_tlbWrite (s : σ)
    (h : (Step.tlbWrite.perform.run s).value = .ok ()) :
    accepted (Step.tlbWrite.perform.run s).calls = TlbWrite.sequence :=
  (TlbWrite.course_emit s).accepted_prefix_sequence.2.mp h

theorem accepted_emit (word : UInt32) (s : σ) :
    accepted ((Step.emit word).perform.run s).calls =
      if (InstructionSink.emit word s).1.isOk then [word] else [] := by
  rcases h : InstructionSink.emit word s with ⟨_ | _, t⟩ <;> rw [perform, Sink.run_emit h] <;> rfl

end Step

/-- The calls that a run of steps makes on the sink. -/
def runCalls (steps : List Step) (s : σ) : List SinkCall :=
  (Action.scan Step.perform steps s).flatMap Outcome.calls

theorem accepted_runCalls_cons (step : Step) (steps : List Step) (s : σ) :
    accepted (runCalls (step :: steps) s) =
      accepted (step.perform.run s).calls ++ accepted (runCalls steps (step.perform.run s).state) :=
  accepted_append ..

end Vr4300.Code
