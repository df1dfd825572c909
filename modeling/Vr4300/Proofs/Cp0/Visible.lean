import Mathlib.Data.List.Forall2
import Vr4300.Proofs.Cp0.Access

/-!
# Hidden halves never leak

Of a narrow register only the low half of its word can be read. Two files are alike if they agree in
all that can be read (`File.Alike`). An access keeps files alike and tells them apart neither by its
answer nor by what it records (`File.Alike.perform`), so a run does not either
(`File.Alike.scan`); nor does it depend on the high half of a value for a narrow register
(`Access.perform_writeAny_congr`).
-/

namespace Vr4300.Cp0

/-- The files agree in the whole words of the registers that hold an address and in the low halves
of the other named ones. -/
structure File.Alike (f f' : File) : Prop where
  whole : ∀ r ∈ Register.addresses, f.get r.slot = f'.get r.slot
  low : ∀ r ∉ Register.addresses, (f.get r.slot).toNat % 2 ^ 32 = (f'.get r.slot).toNat % 2 ^ 32

theorem File.alike_iff {f f' : File} : f.Alike f' ↔ f.visible = f'.visible := by
  have hvisible (r : Register) : f.visible r = f'.visible r ↔
      (f.get r.slot).toNat % 2 ^ r.width.bits = (f'.get r.slot).toNat % 2 ^ r.width.bits :=
    Width.limit_eq_limit_iff
  have hwhole (w : UInt64) : w.toNat % 2 ^ 64 = w.toNat := Nat.mod_eq_of_lt w.toNat_lt
  constructor
  · intro h
    funext r
    rw [hvisible, r.bits_width]
    split
    next hr => rw [h.whole r hr]
    next hr => exact h.low r hr
  · intro h
    refine ⟨fun r hr => ?_, fun r hr => ?_⟩
    · have heq := (hvisible r).mp (congrFun h r)
      rw [r.bits_width, if_pos hr, hwhole, hwhole] at heq
      exact UInt64.toNat_inj.mp heq
    · have heq := (hvisible r).mp (congrFun h r)
      rwa [r.bits_width, if_neg hr] at heq

namespace File.Alike

variable {f f' : File}

theorem put (h : f.Alike f') (change : Option Change) : (f.put change).Alike (f'.put change) := by
  cases change with
  | none => exact h
  | some c => rw [alike_iff, visible_put, visible_put, alike_iff.mp h]

theorem perform (h : f.Alike f') (a : Access) :
    (a.perform.run f).value = (a.perform.run f').value ∧
      (a.perform.run f).events = (a.perform.run f').events ∧
      (a.perform.run f).state.Alike (a.perform.run f').state := by
  rw [a.run_perform, a.run_perform, alike_iff.mp h]
  exact ⟨rfl, rfl, h.put _⟩

theorem scan (h : f.Alike f') (as : List Access) :
    List.Forall₂ (fun o o' => o.value = o'.value ∧ o.events = o'.events ∧ o.state.Alike o'.state)
        (Action.scan Access.perform as f) (Action.scan Access.perform as f') ∧
      (Action.finalState Access.perform as f).Alike (Action.finalState Access.perform as f') := by
  induction as generalizing f f' with
  | nil => exact ⟨.nil, h⟩
  | cons a as ih =>
    have hstep := h.perform a
    obtain ⟨hscan, hfinal⟩ := ih hstep.2.2
    exact ⟨.cons hstep hscan, hfinal⟩

end File.Alike

/-- What does not fit a register makes no difference. -/
theorem Access.perform_writeAny_congr {r : Writable} {v v' : UInt64}
    (h : v.toNat % 2 ^ r.register.width.bits = v'.toNat % 2 ^ r.register.width.bits) :
    (Access.writeAny r v).perform = (Access.writeAny r v').perform := by
  have htruncate : r.register.width.truncate v = r.register.width.truncate v' := by
    rw [← Width.truncate_limit, Width.limit_eq_limit_iff.mpr h, Width.truncate_limit]
  rw [Access.perform, Access.perform, r.writeAny_eq, r.writeAny_eq, htruncate]

/-- **Hidden halves never leak.** Runs of the same accesses from files that agree in all that can be
read give the same answers and the same records, step by step, and the files stay alike. In any run,
a value for a narrow register can be exchanged for one with the same low half: no answer, no record
and no word of the file changes. -/
theorem hidden_halves_never_leak {f f' : File} (h : f.Alike f') (as : List Access) :
    List.Forall₂ (fun o o' => o.value = o'.value ∧ o.events = o'.events ∧ o.state.Alike o'.state)
        (Action.scan Access.perform as f) (Action.scan Access.perform as f') ∧
      (Action.finalState Access.perform as f).Alike (Action.finalState Access.perform as f') ∧
      ∀ (g : File) (before after : List Access) (r : Writable) (v v' : UInt64),
        r.register ∉ Register.addresses → v.toNat % 2 ^ 32 = v'.toNat % 2 ^ 32 →
          Action.scan Access.perform (before ++ .writeAny r v :: after) g =
            Action.scan Access.perform (before ++ .writeAny r v' :: after) g ∧
          Action.finalState Access.perform (before ++ .writeAny r v :: after) g =
            Action.finalState Access.perform (before ++ .writeAny r v' :: after) g := by
  obtain ⟨hscan, hfinal⟩ := h.scan as
  refine ⟨hscan, hfinal, fun g before after r v v' hr hv => ?_⟩
  have hperform : (Access.writeAny r v).perform = (Access.writeAny r v').perform := by
    apply Access.perform_writeAny_congr
    rwa [Register.bits_width, if_neg hr]
  rw [Action.scan_append, Action.scan_append, Action.finalState_append, Action.finalState_append]
  simp only [Action.scan, Action.finalState, hperform, and_self]

/-- Neither the high half of Status nor an unnamed word shows in a run, and the high half of a value
for Compare makes no difference. -/
theorem hidden_halves_never_leak_of_status :
    let f := (File.ofList []).set Register.status.slot 0xdeadbeef10000001
    let f' := ((File.ofList []).set Register.status.slot 0x10000001).set 31 7
    let compare : Writable := ⟨.compare, rfl⟩
    (f.Alike f' ∧ f.get Register.status.slot ≠ f'.get Register.status.slot) ∧
      List.Forall₂ (fun o o' => o.value = o'.value ∧ o.events = o'.events ∧ o.state.Alike o'.state)
        (Action.scan Access.perform [.enableFpu, .readAny .status] f)
        (Action.scan Access.perform [.enableFpu, .readAny .status] f') ∧
      (compare.register ∉ Register.addresses ∧
        (0x500000009 : UInt64).toNat % 2 ^ 32 = (9 : UInt64).toNat % 2 ^ 32) ∧
      Action.finalState Access.perform [.status, .writeAny compare 0x500000009, .enableFpu] f =
        Action.finalState Access.perform [.status, .writeAny compare 9, .enableFpu] f := by
  intro f f' compare
  have halike : f.Alike f' := by
    refine ⟨by decide, fun r hr => ?_⟩
    have hlow : ∀ r ∈ Register.all, r ∉ Register.addresses →
        (f.get r.slot).toNat % 2 ^ 32 = (f'.get r.slot).toNat % 2 ^ 32 := by decide
    exact hlow r r.mem_all hr
  obtain ⟨hscan, _, hexchange⟩ := hidden_halves_never_leak halike [.enableFpu, .readAny .status]
  have hnarrow : compare.register ∉ Register.addresses := by decide
  have hvalue : (0x500000009 : UInt64).toNat % 2 ^ 32 = (9 : UInt64).toNat % 2 ^ 32 := rfl
  exact ⟨⟨halike, by decide⟩, hscan, ⟨hnarrow, hvalue⟩,
    (hexchange f [.status] [.enableFpu] compare _ _ hnarrow hvalue).2⟩

end Vr4300.Cp0
