import Vr4300.Cp0.File
import Vr4300.Cp0.Status.Text

/-! Access to the named registers.

Each register has its own reader and, unless it is read-only, its own writer: one instruction with
the number of the register in it, of the register's width. `readAny` and `writeAny` move 64-bit
words through them, with zeros above a narrow register and the excess dropped. All four are tables
of the registers. Register by register, the own accessors have the width and the number of the
register (`Register.read_eq`, `Writable.write_eq`), and the others extend and truncate as this width
says (`Register.readAny_eq`, `Writable.writeAny_eq`). The Status register is read and written as a
set of flags, and `enableFpu` makes the floating point unit usable. -/

namespace Vr4300.Cp0

/-! ## Own accessors -/

def Register.read : (r : Register) → Action Transfer File r.width.Value
  | index => Width.word.load 0
  | entryLo0 => Width.doubleword.load 2
  | entryLo1 => Width.doubleword.load 3
  | pageMask => Width.word.load 5
  | badVAddr => Width.doubleword.load 8
  | count => Width.word.load 9
  | entryHi => Width.doubleword.load 10
  | compare => Width.word.load 11
  | status => Width.word.load 12
  | cause => Width.word.load 13
  | epc => Width.doubleword.load 14
  | prId => Width.word.load 15
  | config => Width.word.load 16
  | watchLo => Width.word.load 18

def Writable.write : (r : Writable) → r.register.width.Value → Action Transfer File Unit
  | ⟨.index, _⟩ => Width.word.store 0
  | ⟨.entryLo0, _⟩ => Width.doubleword.store 2
  | ⟨.entryLo1, _⟩ => Width.doubleword.store 3
  | ⟨.pageMask, _⟩ => Width.word.store 5
  | ⟨.count, _⟩ => Width.word.store 9
  | ⟨.entryHi, _⟩ => Width.doubleword.store 10
  | ⟨.compare, _⟩ => Width.word.store 11
  | ⟨.status, _⟩ => Width.word.store 12
  | ⟨.cause, _⟩ => Width.word.store 13
  | ⟨.epc, _⟩ => Width.doubleword.store 14
  | ⟨.config, _⟩ => Width.word.store 16
  | ⟨.watchLo, _⟩ => Width.word.store 18

theorem Register.read_eq (r : Register) : r.read = r.width.load r.slot := by cases r <;> rfl

theorem Writable.write_eq (r : Writable) (v : r.register.width.Value) :
    r.write v = r.register.width.store r.register.slot v := by
  obtain ⟨r, h⟩ := r
  cases r with
  | badVAddr | prId => cases h
  | _ => rfl

/-! ## Accessors of 64-bit words -/

/-- The value with zeros above. -/
def Register.readAny : Register → Action Transfer File UInt64
  | index => UInt32.toUInt64 <$> read index
  | entryLo0 => read entryLo0
  | entryLo1 => read entryLo1
  | pageMask => UInt32.toUInt64 <$> read pageMask
  | badVAddr => read badVAddr
  | count => UInt32.toUInt64 <$> read count
  | entryHi => read entryHi
  | compare => UInt32.toUInt64 <$> read compare
  | status => UInt32.toUInt64 <$> read status
  | cause => UInt32.toUInt64 <$> read cause
  | epc => read epc
  | prId => UInt32.toUInt64 <$> read prId
  | config => UInt32.toUInt64 <$> read config
  | watchLo => UInt32.toUInt64 <$> read watchLo

/-- Drops what does not fit the register. A register that cannot be written is left alone. -/
def Register.writeAny (v : UInt64) : Register → Action Transfer File Unit
  | index => Writable.write ⟨.index, rfl⟩ v.toUInt32
  | entryLo0 => Writable.write ⟨.entryLo0, rfl⟩ v
  | entryLo1 => Writable.write ⟨.entryLo1, rfl⟩ v
  | pageMask => Writable.write ⟨.pageMask, rfl⟩ v.toUInt32
  | count => Writable.write ⟨.count, rfl⟩ v.toUInt32
  | entryHi => Writable.write ⟨.entryHi, rfl⟩ v
  | compare => Writable.write ⟨.compare, rfl⟩ v.toUInt32
  | status => Writable.write ⟨.status, rfl⟩ v.toUInt32
  | cause => Writable.write ⟨.cause, rfl⟩ v.toUInt32
  | epc => Writable.write ⟨.epc, rfl⟩ v
  | config => Writable.write ⟨.config, rfl⟩ v.toUInt32
  | watchLo => Writable.write ⟨.watchLo, rfl⟩ v.toUInt32
  | badVAddr | prId => return ()

/-- Only registers that can be written may be named. -/
def Writable.writeAny (r : Writable) (v : UInt64) : Action Transfer File Unit :=
  r.register.writeAny v

theorem Register.readAny_eq (r : Register) : r.readAny = r.width.extend <$> r.read := by
  cases r <;> rfl

theorem Writable.writeAny_eq (r : Writable) (v : UInt64) :
    r.writeAny v = r.write (r.register.width.truncate v) := by
  obtain ⟨r, h⟩ := r
  cases r with
  | badVAddr | prId => cases h
  | _ => rfl

/-! ## Status -/

namespace Status

def register : Writable := ⟨.status, rfl⟩

def read : Action Transfer File Status := do
  return ⟨← Register.read .status⟩

def write (s : Status) : Action Transfer File Unit := register.write s.bits

end Status

/-- Sets the two flags that the floating point unit needs and keeps all other bits. -/
def enableFpu : Action Transfer File Unit := do
  let s ← Status.read
  .log .trace ("enabling FPU, status " ++ Numeral.paddedHex 8 s.bits.toNat)
  Status.register.writeAny s.withFpu.bits.toUInt64

theorem Register.run_read (r : Register) (f : File) :
    r.read.run f =
      ⟨r.width.truncate (f.get r.slot), f, [.call ⟨r.width.loadOpcode, r.slot, f.visible r⟩]⟩ := by
  rw [read_eq]
  exact r.width.run_load r.slot f

theorem Writable.run_write (r : Writable) (v : r.register.width.Value) (f : File) :
    let w := r.register.width
    (r.write v).run f =
      ⟨(), f.set r.register.slot (w.extend v),
        [.call ⟨w.storeOpcode, r.register.slot, w.extend v⟩]⟩ := by
  rw [write_eq]
  exact r.register.width.run_store r.register.slot v f

theorem Register.run_readAny (r : Register) (f : File) :
    r.readAny.run f =
      ⟨f.visible r, f, [.call ⟨r.width.loadOpcode, r.slot, f.visible r⟩]⟩ := by
  rw [readAny_eq, Action.run_map, run_read]
  rfl

theorem Writable.run_writeAny (r : Writable) (v : UInt64) (f : File) :
    let w := r.register.width
    (r.writeAny v).run f =
      ⟨(), f.set r.register.slot (w.extend (w.truncate v)),
        [.call ⟨w.storeOpcode, r.register.slot, w.extend (w.truncate v)⟩]⟩ := by
  rw [writeAny_eq]
  exact r.run_write _ f

theorem Status.run_read (f : File) :
    Status.read.run f =
      ⟨⟨(f.get Register.status.slot).toUInt32⟩, f,
        [.call ⟨.mfc0, Register.status.slot, f.visible .status⟩]⟩ := rfl

theorem Status.run_write (s : Status) (f : File) :
    s.write.run f =
      ⟨(), f.set Register.status.slot s.bits.toUInt64,
        [.call ⟨.mtc0, Register.status.slot, s.bits.toUInt64⟩]⟩ := rfl

/-! ## Runs -/

inductive Access where
  | read (r : Register)
  | write (r : Writable) (v : r.register.width.Value)
  | readAny (r : Register)
  | writeAny (r : Writable) (v : UInt64)
  | status
  | setStatus (s : Status)
  | enableFpu

/-- What an access returns. -/
inductive Reply where
  | done
  | value (w : Width) (v : w.Value)
  | word (v : UInt64)
  | status (s : Status)

def Access.perform : Access → Action Transfer File Reply
  | read r => .value r.width <$> r.read
  | write r v => (fun () => .done) <$> r.write v
  | readAny r => .word <$> r.readAny
  | writeAny r v => (fun () => .done) <$> r.writeAny v
  | status => .status <$> Status.read
  | setStatus s => (fun () => .done) <$> s.write
  | enableFpu => (fun () => .done) <$> Cp0.enableFpu

end Vr4300.Cp0
