import Vr4300.Action
import Vr4300.Cp0.Register

/-! The register file of coprocessor 0 and the four instructions that move its words.

`mfc0` and `mtc0` move the low half of a word, `dmfc0` and `dmtc0` all of it; storing a half clears
the other. Each instruction is one recorded `Transfer`, and `replay` applies only what the
transfers store. `File.visible` is the part of a file that its readers can see. -/

namespace Vr4300.Cp0

/-- 32 words of 64 bits. -/
structure File where
  words : Vector UInt64 32
  deriving DecidableEq

namespace File

def ofList (ws : List UInt64) : File := ⟨.ofFn fun i => ws.getD i 0⟩

def get (f : File) (slot : Fin 32) : UInt64 := f.words[slot]

def set (f : File) (slot : Fin 32) (w : UInt64) : File := ⟨f.words.set slot w⟩

theorem get_set (f : File) (slot slot' : Fin 32) (w : UInt64) :
    (f.set slot w).get slot' = if slot = slot' then w else f.get slot' := by
  simp [get, set, Vector.getElem_set, Fin.ext_iff]

@[ext] theorem ext {f f' : File} (h : ∀ slot, f.get slot = f'.get slot) : f = f' := by
  cases f; cases f'
  congr 1
  exact Vector.ext fun i hi => h ⟨i, hi⟩

end File

/-- What a reader of the register can see of its word. -/
def File.visible (f : File) (r : Register) : UInt64 :=
  r.width.extend (r.width.truncate (f.get r.slot))

inductive Opcode where
  | mfc0 | dmfc0 | mtc0 | dmtc0
  deriving DecidableEq, Repr

def Opcode.mnemonic : Opcode → String
  | mfc0 => "mfc0"
  | dmfc0 => "dmfc0"
  | mtc0 => "mtc0"
  | dmtc0 => "dmtc0"

/-- An instruction that was carried out, with the word it read or stored. -/
structure Transfer where
  opcode : Opcode
  slot : Fin 32
  word : UInt64
  deriving DecidableEq, Repr

/-- What the instruction stored, without running it again. -/
def Transfer.replay (f : File) (t : Transfer) : File :=
  match t.opcode with
  | .mfc0 | .dmfc0 => f
  | .mtc0 | .dmtc0 => f.set t.slot t.word

def replay (f : File) (ts : List Transfer) : File := ts.foldl Transfer.replay f

namespace Width

def loadOpcode : Width → Opcode
  | word => .mfc0
  | doubleword => .dmfc0

def storeOpcode : Width → Opcode
  | word => .mtc0
  | doubleword => .dmtc0

/-- Reads the low part of a word of the file. -/
def load (w : Width) (slot : Fin 32) : Action Transfer File w.Value :=
  .call (fun f => ⟨w.loadOpcode, slot, w.extend (w.truncate (f.get slot))⟩)
    fun f => (w.truncate (f.get slot), f)

/-- Stores a value into a word of the file, with zeros above it. -/
def store (w : Width) (slot : Fin 32) (v : w.Value) : Action Transfer File Unit :=
  .call (fun _ => ⟨w.storeOpcode, slot, w.extend v⟩) fun f => ((), f.set slot (w.extend v))

theorem run_load (w : Width) (slot : Fin 32) (f : File) :
    (w.load slot).run f =
      ⟨w.truncate (f.get slot), f,
        [.call ⟨w.loadOpcode, slot, w.extend (w.truncate (f.get slot))⟩]⟩ := rfl

theorem run_store (w : Width) (slot : Fin 32) (v : w.Value) (f : File) :
    (w.store slot v).run f =
      ⟨(), f.set slot (w.extend v), [.call ⟨w.storeOpcode, slot, w.extend v⟩]⟩ := rfl

end Width

end Vr4300.Cp0
