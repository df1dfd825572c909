import Vr4300.Cp0.Status.Command
import Vr4300.Proofs.Cp0.Status.Union

/-!
# Bits through a run of updates

An update sets, clears or flips the bits that its argument names, and leaves all others as they are
(`Command.bit_run`). So after a run of updates a bit is what those that name it have made of it, one
after the other (`bit_finalSet`), and one that no argument names is what it was
(`bit_finalSet_of_not_touched`). The complement is no such update: it drops the bits without a name
(`complement_complement`, `difference_eq_intersection_complement_iff`).
-/

namespace Vr4300.Cp0.Status

open Word

/-- What becomes of a bit that an argument names. -/
inductive Change where
  | set | clear | flip
  deriving DecidableEq, Repr

def Change.apply : Change → Bool → Bool
  | set, _ => true
  | clear, _ => false
  | flip, b => !b

structure Update where
  /-- The argument names the bit. -/
  touches : Fin 32 → Bool
  change : Change

namespace Update

/-- The bit after the update. -/
def apply (u : Update) (i : Fin 32) (b : Bool) : Bool := if u.touches i then u.change.apply b else b

/-- The bit after those of the updates that touch it. -/
def applyAll (us : List Update) (i : Fin 32) (b : Bool) : Bool :=
  (us.filter (·.touches i)).foldl (fun b u => u.change.apply b) b

theorem applyAll_cons (u : Update) (us : List Update) (i : Fin 32) (b : Bool) :
    applyAll (u :: us) i b = applyAll us i (u.apply i b) := by
  unfold applyAll apply
  rw [List.filter_cons]
  split
  · rfl
  · rfl

theorem applyAll_of_not_touched {us : List Update} {i : Fin 32}
    (h : ∀ u ∈ us, u.touches i = false) (b : Bool) : applyAll us i b = b := by
  have hnone : us.filter (·.touches i) = [] := by
    rw [List.filter_eq_nil_iff]
    intro u hu
    rw [h u hu]
    exact Bool.false_ne_true
  rw [applyAll, hnone, List.foldl_nil]

end Update

/-- The update that a command makes, if it is one. -/
def Command.update? : Command → Option Update
  | union t => some ⟨bit t.bits, .set⟩
  | difference t => some ⟨bit t.bits, .clear⟩
  | symmetricDifference t => some ⟨bit t.bits, .flip⟩
  | set t true => some ⟨bit t.bits, .set⟩
  | set t false => some ⟨bit t.bits, .clear⟩
  | extend ts => some ⟨fun i => ts.any fun t => bit t.bits i, .set⟩
  | withFpu => some ⟨bit Flag.fpu.mask, .set⟩
  | _ => none

/-! ## One update -/

section
variable (s t : Status) (i : Fin 32)

theorem bit_union : bit (s.union t).bits i = if bit t.bits i then true else bit s.bits i := by
  rw [union, bit_or]
  cases bit t.bits i
  · exact Bool.or_false _
  · exact Bool.or_true _

theorem bit_difference :
    bit (s.difference t).bits i = if bit t.bits i then false else bit s.bits i := by
  rw [difference, bit_and, bit_not]
  cases bit t.bits i
  · exact Bool.and_true _
  · exact Bool.and_false _

theorem bit_symmetricDifference :
    bit (s.symmetricDifference t).bits i = if bit t.bits i then !bit s.bits i else bit s.bits i := by
  rw [symmetricDifference, bit_xor]
  cases bit t.bits i
  · exact Bool.xor_false _
  · exact Bool.xor_true _

theorem bit_complement : bit s.complement.bits i = (!bit s.bits i && bit named i) := by
  rw [complement, truncate, bit_and, bit_not]

end

theorem Command.bit_run {c : Command} {u : Update} (h : c.update? = some u) (s : Status)
    (i : Fin 32) : bit (c.run s).1.bits i = u.apply i (bit s.bits i) := by
  cases c with
  | union t =>
    cases h
    exact bit_union s t i
  | difference t =>
    cases h
    exact bit_difference s t i
  | symmetricDifference t =>
    cases h
    exact bit_symmetricDifference s t i
  | set t on =>
    cases on <;> cases h
    · exact bit_difference s t i
    · exact bit_union s t i
  | extend ts =>
    cases h
    change bit (s.extend ts).bits i = _
    rw [extend_eq_union, bit_union, bit_unions]
    rfl
  | withFpu =>
    cases h
    exact bit_union s (ofFlag .fpu) i
  | _ => cases h

/-! ## A run of updates -/

section
variable {cs : List Command}

theorem Command.bit_finalSet (h : ∀ c ∈ cs, c.update?.isSome = true) (s : Status) (i : Fin 32) :
    bit (finalSet s cs).bits i = Update.applyAll (cs.filterMap update?) i (bit s.bits i) := by
  induction cs generalizing s with
  | nil => rfl
  | cons c cs ih =>
    obtain ⟨hc, hcs⟩ := List.forall_mem_cons.mp h
    obtain ⟨u, hu⟩ := Option.isSome_iff_exists.mp hc
    rw [List.filterMap_cons_some hu, Update.applyAll_cons, ← bit_run hu]
    exact ih hcs (c.run s).1

theorem Command.bit_finalSet_of_not_touched (h : ∀ c ∈ cs, c.update?.isSome = true) (s : Status)
    {i : Fin 32} (hi : ∀ u ∈ cs.filterMap update?, u.touches i = false) :
    bit (finalSet s cs).bits i = bit s.bits i := by
  rw [bit_finalSet h, Update.applyAll_of_not_touched hi]

end

/-! ## The complement -/

theorem complement_complement (s : Status) : s.complement.complement = s.truncate := by
  apply ext_bit
  intro i
  rw [bit_complement, bit_complement, truncate, bit_and]
  cases bit s.bits i <;> cases bit named i <;> rfl

/-- Taking away is keeping the complement only if no bit without a name is kept. -/
theorem difference_eq_intersection_complement_iff {s t : Status} :
    s.difference t = s.intersection t.complement ↔
      ∀ i, bit s.bits i = true → bit named i = false → bit t.bits i = true := by
  have hbits (i : Fin 32) :
      bit (s.difference t).bits i = bit (s.intersection t.complement).bits i ↔
        (bit s.bits i = true → bit named i = false → bit t.bits i = true) := by
    rw [difference, intersection, bit_and, bit_and, bit_not, bit_complement]
    cases bit s.bits i <;> cases bit t.bits i <;> cases bit named i <;> decide
  constructor
  · intro h i
    exact (hbits i).mp (congrArg (bit ·.bits i) h)
  · intro h
    apply ext_bit
    intro i
    exact (hbits i).mpr (h i)

/-- **Updates touch the bits that they name.** Through any run of updates each bit of the set is
what the updates whose argument has the bit make of it in order: adding sets it, taking away clears
it, the symmetric difference flips it. A bit that no argument has, with a name or without, keeps its
value. The complement however drops the bits without a name, so that twice the complement leaves
the named ones, and it stands in for taking away only where no bit without a name is to be kept. -/
theorem updates_touch_named_bits :
    (∀ (s : Status) (cs : List Command), (∀ c ∈ cs, c.update?.isSome = true) →
      ∀ i, bit (Command.finalSet s cs).bits i =
          ((cs.filterMap Command.update?).filter (·.touches i)).foldl
            (fun b u => u.change.apply b) (bit s.bits i) ∧
        ((∀ u ∈ cs.filterMap Command.update?, u.touches i = false) →
          bit (Command.finalSet s cs).bits i = bit s.bits i)) ∧
    (∀ s : Status, s.complement.complement = ⟨s.bits &&& named⟩) ∧
    ∀ s t : Status, s.difference t = s.intersection t.complement ↔
      ∀ i, bit s.bits i = true → bit named i = false → bit t.bits i = true := by
  refine ⟨?_, complement_complement, fun _ _ => difference_eq_intersection_complement_iff⟩
  intro s cs h i
  exact ⟨Command.bit_finalSet h s i, Command.bit_finalSet_of_not_touched h s⟩

/-- Bit 29 is set, flipped and set again, bit 0 is flipped, and bit 28 is named by no argument. -/
theorem updates_touch_named_bits_of_mixed_run :
    let s : Status := ⟨0x10000001⟩
    let cs : List Command := [.union ⟨0x20000000⟩, .symmetricDifference ⟨0x20000001⟩,
      .set ⟨0x00400000⟩ true, .difference ⟨0x00400000⟩, .extend [⟨0x8⟩, ⟨0x80⟩], .withFpu]
    (∀ c ∈ cs, c.update?.isSome = true) ∧
    bit (Command.finalSet s cs).bits 29 = true ∧ bit (Command.finalSet s cs).bits 0 = false ∧
    (∀ u ∈ cs.filterMap Command.update?, u.touches 28 = false) ∧
    bit (Command.finalSet s cs).bits 28 = bit s.bits 28 ∧
    (⟨0x10000001⟩ : Status).difference ⟨1⟩ ≠ Status.intersection ⟨0x10000001⟩ (complement ⟨1⟩) := by
  intro s cs
  obtain ⟨hrun, _, hdifference⟩ := updates_touch_named_bits
  have hcs : ∀ c ∈ cs, c.update?.isSome = true := by decide
  have hplace : ∀ u ∈ cs.filterMap Command.update?, u.touches 28 = false := by decide
  refine ⟨hcs, (hrun s cs hcs 29).1.trans (by decide), (hrun s cs hcs 0).1.trans (by decide),
    hplace, (hrun s cs hcs 28).2 hplace, fun h => ?_⟩
  have hbit := (hdifference _ _).mp h 28 (by decide) (by decide)
  exact absurd hbit (by decide)

end Vr4300.Cp0.Status
