import Mathlib.Algebra.Ring.Nat
import Mathlib.Logic.Function.Basic
import Vr4300.Cp0.Access

/-!
# What one access does

An access sees of the file only what its registers show (`File.visible`). It reads at most one
register (`Access.source?`), may log, and then writes at most one (`Access.change?`). Which ones
these are, what it answers and what stays on record are functions of what the registers show
(`Access.run_perform`), and whatever holds of runs of accesses follows from that.
-/

namespace Vr4300.Cp0

/-! ## What a register holds of a value -/

namespace Width

def bits : Width → Nat
  | word => 32
  | doubleword => 64

/-- What is left of a value in a register of this width. -/
def limit (w : Width) (v : UInt64) : UInt64 := w.extend (w.truncate v)

theorem toNat_limit (w : Width) (v : UInt64) : (w.limit v).toNat = v.toNat % 2 ^ w.bits := by
  cases w with
  | word => exact (UInt32.toNat_toUInt64 _).trans (UInt64.toNat_toUInt32 v)
  | doubleword => exact (Nat.mod_eq_of_lt v.toNat_lt).symm

theorem limit_eq_ofNat (w : Width) (v : UInt64) : w.limit v = .ofNat (v.toNat % 2 ^ w.bits) := by
  rw [← toNat_limit, UInt64.ofNat_toNat]

theorem limit_eq_limit_iff {w : Width} {v v' : UInt64} :
    w.limit v = w.limit v' ↔ v.toNat % 2 ^ w.bits = v'.toNat % 2 ^ w.bits := by
  rw [← UInt64.toNat_inj, toNat_limit, toNat_limit]

theorem limit_extend (w : Width) (v : w.Value) : w.limit (w.extend v) = w.extend v := by
  rw [limit, truncate_extend]

theorem limit_limit (w : Width) (v : UInt64) : w.limit (w.limit v) = w.limit v :=
  w.limit_extend _

theorem truncate_limit (w : Width) (v : UInt64) : w.truncate (w.limit v) = w.truncate v :=
  w.truncate_extend _

end Width

namespace Register

/-- The registers that hold an address. -/
def addresses : List Register := [entryLo0, entryLo1, badVAddr, entryHi, epc]

theorem bits_width (r : Register) : r.width.bits = if r ∈ addresses then 64 else 32 := by
  cases r <;> decide

theorem slot_inj {r r' : Register} : r.slot = r'.slot ↔ r = r' := by
  rw [← number_inj, ← UInt32.toNat_inj]
  exact Fin.ext_iff

/-- The instruction that reads the register where it shows `v`. -/
def loadOf (r : Register) (v : UInt64) : Transfer := ⟨r.width.loadOpcode, r.slot, v⟩

/-- The instruction that stores `v` into the register. -/
def storeOf (r : Register) (v : UInt64) : Transfer := ⟨r.width.storeOpcode, r.slot, v⟩

end Register

/-! ## The parts of an access -/

/-- A register that is to be written and the value that it is given. -/
structure Change where
  target : Writable
  value : UInt64

namespace Change

def register (c : Change) : Register := c.target.register

/-- What the register takes of the value. -/
def stored (c : Change) : UInt64 := c.register.width.limit c.value

/-- The instruction that carries the change out. -/
def transfer (c : Change) : Transfer := c.register.storeOf c.stored

end Change

namespace File

/-- The file with the change carried out, if there is one. -/
def put (f : File) (change : Option Change) : File :=
  change.elim f fun c => f.set c.register.slot c.stored

variable (f : File)

theorem get_put (c : Change) (slot : Fin 32) :
    (f.put (some c)).get slot = if c.register.slot = slot then c.stored else f.get slot :=
  f.get_set ..

theorem get_put_self (c : Change) : (f.put (some c)).get c.register.slot = c.stored := by
  rw [get_put, if_pos rfl]

theorem get_put_of_ne {change : Option Change} {slot : Fin 32}
    (h : ∀ c ∈ change, c.register.slot ≠ slot) : (f.put change).get slot = f.get slot := by
  cases change with
  | none => rfl
  | some c => rw [get_put, if_neg (h c rfl)]

theorem visible_put (c : Change) :
    (f.put (some c)).visible = Function.update f.visible c.register c.stored := by
  funext r
  by_cases h : r = c.register
  · rw [h, Function.update_self, visible, get_put_self]
    exact Width.limit_limit ..
  · have hslot : c.register.slot ≠ r.slot := fun heq => h (Register.slot_inj.mp heq).symm
    rw [Function.update_of_ne h, visible, get_put, if_neg hslot]
    rfl

end File

namespace Access

section
variable (shown : Register → UInt64)

/-- The register that an access reads. -/
def source? : Access → Option Register
  | read r | readAny r => some r
  | status | enableFpu => some .status
  | write .. | writeAny .. | setStatus _ => none

/-- The register that an access writes. -/
def target? : Access → Option Register
  | write r _ | writeAny r _ => some r.register
  | setStatus _ | enableFpu => some .status
  | read _ | readAny _ | status => none

/-- What an access writes where the registers show `shown`. -/
def change? : Access → Option Change
  | write r v => some ⟨r, r.register.width.extend v⟩
  | writeAny r v => some ⟨r, v⟩
  | setStatus s => some ⟨Status.register, s.bits.toUInt64⟩
  | enableFpu => some ⟨Status.register, shown .status ||| Status.Flag.fpu.mask.toUInt64⟩
  | read _ | readAny _ | status => none

/-- What an access returns: readers what their register shows, in their own type. -/
def reply : Access → Reply
  | read r => .value r.width (r.width.truncate (shown r))
  | readAny r => .word (shown r)
  | status => .status ⟨(shown .status).toUInt32⟩
  | write .. | writeAny .. | setStatus _ | enableFpu => .done

def records : Access → List Log.Record
  | enableFpu =>
    [⟨.trace, Log.target, "enabling FPU, status " ++ Numeral.paddedHex 8 (shown .status).toNat⟩]
  | _ => []

/-- What an access leaves on record: the read, the log, the write. -/
def events (a : Access) : List (Event Transfer) :=
  (a.source?.map fun r => .call (r.loadOf (shown r))).toList ++ (a.records shown).map .log ++
    ((a.change? shown).map fun c => .call c.transfer).toList

theorem map_change? (a : Access) : (a.change? shown).map Change.register = a.target? := by
  cases a <;> rfl

end

/-- **What an access does** is determined by what the registers show. -/
theorem run_perform (a : Access) (f : File) :
    a.perform.run f =
      ⟨a.reply f.visible, f.put (a.change? f.visible), a.events f.visible⟩ := by
  cases a with
  | read r =>
    have h : r.width.truncate (f.visible r) = r.width.truncate (f.get r.slot) :=
      r.width.truncate_limit _
    rw [reply, h, perform, Action.run_map, r.run_read]
    rfl
  | readAny r =>
    rw [perform, Action.run_map, r.run_readAny]
    rfl
  | status =>
    have h : (f.visible .status).toUInt32 = (f.get Register.status.slot).toUInt32 :=
      Width.word.truncate_limit _
    rw [reply, h, perform, Action.run_map, Status.run_read]
    rfl
  | write r v =>
    have h : Change.stored ⟨r, r.register.width.extend v⟩ = r.register.width.extend v :=
      r.register.width.limit_extend v
    simp only [change?, events, File.put, Option.elim_some, Option.map_some, Change.transfer, h]
    rw [perform, Action.run_map, r.run_write]
    rfl
  | writeAny r v =>
    rw [perform, Action.run_map, r.run_writeAny]
    rfl
  | setStatus s =>
    have h : Change.stored ⟨Status.register, s.bits.toUInt64⟩ = s.bits.toUInt64 :=
      Width.word.limit_extend s.bits
    simp only [change?, events, File.put, Option.elim_some, Option.map_some, Change.transfer, h]
    rw [perform, Action.run_map, Status.run_write]
    rfl
  | enableFpu =>
    -- the mask joins the word before it is stored, and here the doubleword that readers see
    have h : f.visible .status ||| Status.Flag.fpu.mask.toUInt64 =
        ((f.get Register.status.slot).toUInt32 ||| Status.Flag.fpu.mask).toUInt64 :=
      (UInt32.toUInt64_or _ _).symm
    have hlog : (f.visible .status).toNat = (f.get Register.status.slot).toUInt32.toNat :=
      UInt32.toNat_toUInt64 _
    simp only [change?, events, records, h, hlog]
    rfl

/-- An access changes no word but that of the register that it writes. -/
theorem get_state_perform {a : Access} {slot : Fin 32} (f : File)
    (h : ∀ r ∈ a.target?, r.slot ≠ slot) : (a.perform.run f).state.get slot = f.get slot := by
  rw [a.run_perform]
  refine f.get_put_of_ne fun c hc => h c.register ?_
  rw [← a.map_change? f.visible, hc]
  rfl

/-- A run changes no word but those of the registers that its accesses write. -/
theorem get_finalState {as : List Access} {slot : Fin 32} (f : File)
    (h : ∀ a ∈ as, ∀ r ∈ a.target?, r.slot ≠ slot) :
    (Action.finalState perform as f).get slot = f.get slot := by
  induction as generalizing f with
  | nil => rfl
  | cons a as ih =>
    obtain ⟨ha, has⟩ := List.forall_mem_cons.mp h
    exact (ih _ has).trans (get_state_perform f ha)

end Access

end Vr4300.Cp0
