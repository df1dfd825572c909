import Vr4300.Proofs.Action
import Vr4300.Proofs.Cp0.Access

/-!
# A register holds what was last written to it

A `Ledger` says what each register was last given in a run. With the file before the run it explains
every word after it (`Ledger.Explains`): a register that was given a value holds that value modulo
its range, every other word is still the first one. One access keeps this (`Ledger.Explains.enter`),
so it holds after every run (`Ledger.explains_ofRun`), and each reader returns what the ledger of
the accesses before it says (`reads_last_write`).
-/

namespace Vr4300.Cp0

/-- The value that each register was last given, if any was. -/
abbrev Ledger : Type := Register → Option UInt64

namespace Ledger

variable (f : File)

/-- The word of a register after a run from `f`: the value that it was last given modulo its range,
or else its word in `f`. -/
def word (last : Ledger) (r : Register) : UInt64 :=
  match last r with
  | some v => .ofNat (v.toNat % 2 ^ r.width.bits)
  | none => f.get r.slot

/-- What a register shows after a run from `f`: the value that it was last given, or else its word
in `f`, modulo its range. -/
def shown (last : Ledger) (r : Register) : UInt64 :=
  .ofNat (((last r).getD (f.get r.slot)).toNat % 2 ^ r.width.bits)

/-- One more access. -/
def enter (last : Ledger) (a : Access) : Ledger :=
  match a.change? (last.shown f) with
  | some c => Function.update last c.register (some c.value)
  | none => last

/-- The values that the registers were last given in a run from `f`. -/
def ofRun (as : List Access) : Ledger := as.foldl (enter f) fun _ => none

section
variable {f} {last : Ledger} {r : Register}

theorem word_of_eq_some {v : UInt64} (h : last r = some v) : last.word f r = r.width.limit v := by
  rw [word, h, Width.limit_eq_ofNat]

theorem word_of_eq_none (h : last r = none) : last.word f r = f.get r.slot := by
  rw [word, h]

theorem shown_eq_limit (last : Ledger) (r : Register) :
    last.shown f r = r.width.limit (last.word f r) := by
  rw [shown, ← Width.limit_eq_ofNat]
  cases h : last r with
  | none => rw [word_of_eq_none h, Option.getD_none]
  | some v => rw [word_of_eq_some h, Width.limit_limit, Option.getD_some]

end

/-- The file `g` is what `f` has become after a run in which the registers were last given
`last`. -/
structure Explains (last : Ledger) (g : File) : Prop where
  named : ∀ r : Register, g.get r.slot = last.word f r
  unnamed : ∀ slot, (∀ r : Register, r.slot ≠ slot) → g.get slot = f.get slot
  readOnly : ∀ r : Register, r.isReadOnly = true → last r = none

namespace Explains

variable {f} {last : Ledger} {g : File}

theorem visible_eq (h : last.Explains f g) : g.visible = last.shown f := by
  funext r
  rw [shown_eq_limit, ← h.named]
  rfl

/-- A write and its place in the ledger. -/
theorem update (h : last.Explains f g) (c : Change) :
    Ledger.Explains f (Function.update last c.register (some c.value)) (g.put (some c)) := by
  refine ⟨fun r => ?_, fun slot hslot => ?_, fun r hr => ?_⟩
  · by_cases hc : r = c.register
    · rw [hc, g.get_put_self, word_of_eq_some (Function.update_self ..)]
      rfl
    · have hslot : c.register.slot ≠ r.slot := fun heq => hc (Register.slot_inj.mp heq).symm
      rw [g.get_put, if_neg hslot, h.named, word, word, Function.update_of_ne hc]
  · rw [g.get_put, if_neg (hslot c.register)]
    exact h.unnamed slot hslot
  · have hc : r ≠ c.register := by
      rintro rfl
      cases hr.symm.trans c.target.writable
    rw [Function.update_of_ne hc]
    exact h.readOnly r hr

/-- An access and its place in the ledger. -/
theorem enter (h : last.Explains f g) (a : Access) :
    (a.perform.run g).value = a.reply (last.shown f) ∧
      (last.enter f a).Explains f (a.perform.run g).state := by
  rw [a.run_perform, h.visible_eq, Ledger.enter]
  refine ⟨rfl, ?_⟩
  cases a.change? (last.shown f) with
  | none => exact h
  | some c => exact h.update c

theorem run (h : last.Explains f g) (as : List Access) :
    (as.foldl (Ledger.enter f) last).Explains f (Action.finalState Access.perform as g) := by
  induction as generalizing last g with
  | nil => exact h
  | cons a as ih => exact ih (h.enter a).2

end Explains

theorem explains_ofRun (as : List Access) :
    (ofRun f as).Explains f (Action.finalState Access.perform as f) :=
  Explains.run ⟨fun _ => rfl, fun _ _ => rfl, fun _ _ => rfl⟩ as

end Ledger

/-- **A register holds what was last written to it.** In a run of accesses from any file, each
reader returns the value that its register was last given, modulo the range of the register, or what
the file held at first; after the run every register that was written holds that value and every
other word is untouched. The two read-only registers and the 18 words without a name never
change. -/
theorem reads_last_write (f : File) (as : List Access) :
    let g := Action.finalState Access.perform as f
    (∀ r : Register, r.width.bits =
      if r ∈ [.entryLo0, .entryLo1, .badVAddr, .entryHi, .epc] then 64 else 32) ∧
    (Action.scan Access.perform as f).map Outcome.value =
      as.mapIdx (fun k a => a.reply ((Ledger.ofRun f (as.take k)).shown f)) ∧
    (∀ r : Register, g.get r.slot = (Ledger.ofRun f as).word f r) ∧
    (∀ (a : Access) (h : File), a.target? = none → (a.perform.run h).state = h) ∧
    (∀ (a : Access) (h : File) (slot : Fin 32), (∀ r ∈ a.target?, r.slot ≠ slot) →
      (a.perform.run h).state.get slot = h.get slot) ∧
    (∀ r ∈ [Register.badVAddr, .prId], g.get r.slot = f.get r.slot) ∧
    (∀ slot, (∀ r : Register, r.slot ≠ slot) → g.get slot = f.get slot) ∧
    ((List.finRange 32).filter fun slot => ∀ r ∈ Register.all, r.slot ≠ slot).length = 18 := by
  intro g
  have hg : (Ledger.ofRun f as).Explains f g := Ledger.explains_ofRun f as
  refine ⟨Register.bits_width, ?_, hg.named, ?_, fun a h slot => a.get_state_perform h, ?_,
    hg.unnamed, by decide⟩
  · rw [Action.map_scan]
    congr 1
    funext k a
    exact ((Ledger.explains_ofRun f (as.take k)).enter a).1
  · intro a h ha
    refine File.ext fun slot => a.get_state_perform h fun r hr => ?_
    rw [ha] at hr
    cases hr
  · intro r hr
    have hreadOnly : r.isReadOnly = true := by
      simp only [List.mem_cons, List.not_mem_nil, or_false] at hr
      obtain rfl | rfl := hr <;> rfl
    rw [hg.named, Ledger.word, hg.readOnly r hreadOnly]

/-- Count keeps the low half of what was written to it and BadVAddr its first word, a reader
changes nothing, `enableFpu` leaves Count alone, and no register has the last slot. -/
theorem reads_last_write_of_wide_value :
    let f := (File.ofList []).set Register.badVAddr.slot 0x700000001
    let as : List Access := [.writeAny ⟨.count, rfl⟩ 0x500000009, .readAny .badVAddr, .enableFpu]
    let g := Action.finalState Access.perform as f
    (Ledger.ofRun f as .count = some 0x500000009 ∧ g.get Register.count.slot = 9) ∧
    (Access.status.target? = none ∧ (Access.status.perform.run g).state = g) ∧
    ((∀ r ∈ Access.enableFpu.target?, r.slot ≠ Register.count.slot) ∧
      (Access.enableFpu.perform.run g).state.get Register.count.slot = 9) ∧
    (Register.badVAddr ∈ [Register.badVAddr, .prId] ∧
      g.get Register.badVAddr.slot = 0x700000001) ∧
    ((∀ r : Register, r.slot ≠ 31) ∧ g.get 31 = 0) := by
  intro f as g
  obtain ⟨_, _, hword, hreader, hother, hreadOnly, hunnamed, _⟩ := reads_last_write f as
  have hcount : g.get Register.count.slot = 9 := hword .count
  have htarget : ∀ r ∈ Access.enableFpu.target?, r.slot ≠ Register.count.slot := by decide
  have hbadVAddr : Register.badVAddr ∈ [Register.badVAddr, .prId] := List.mem_cons_self
  have hnone : ∀ r : Register, r.slot ≠ 31 := fun r => by cases r <;> decide
  exact ⟨⟨rfl, hcount⟩, ⟨rfl, hreader .status g rfl⟩,
    ⟨htarget, (hother .enableFpu g _ htarget).trans hcount⟩,
    ⟨hbadVAddr, hreadOnly .badVAddr hbadVAddr⟩, hnone, hunnamed 31 hnone⟩

end Vr4300.Cp0
