import Vr4300.Cp0.Status.Text

/-! Commands on one status set, each with an answer.

Commands that take the new value from a word, a name or a text may fail, and then the set stays as
it was (`Command.run_parse_of_eq_error` and its neighbours). Commands that only ask never change it
(`Command.run_of_asks`). -/

namespace Vr4300.Cp0.Status

/-- The base in which the bits are written as one number. -/
inductive Radix where
  | lowerHex | upperHex | octal | binary
  deriving DecidableEq, Repr

def Radix.text : Radix → Nat → String
  | lowerHex => Numeral.hex
  | upperHex => Numeral.upperHex
  | octal => Numeral.octal
  | binary => Numeral.binary

inductive Command where
  | assign (s : Status)
  | assignTruncated (s : Status)
  | clear
  | fill
  | truncate
  | withFpu
  | union (s : Status)
  | difference (s : Status)
  | symmetricDifference (s : Status)
  | intersection (s : Status)
  | set (s : Status) (on : Bool)
  | complement
  | extend (ss : List Status)
  | collect (ss : List Status)
  /-- Assigns a word of named bits only. -/
  | assignBits (bits : UInt32)
  /-- Assigns one flag. -/
  | assignName (name : String)
  | parse (form : Form) (text : String)
  | contains (s : Status)
  | intersects (s : Status)
  | equals (s : Status)
  | isEmpty
  | isAll
  | namedBits
  | unnamedBits
  | flags
  | parts
  | text (form : Form)
  | describe
  | number (radix : Radix)
  deriving DecidableEq, Repr

inductive Answer where
  | done
  | truth (b : Bool)
  | word (w : UInt32)
  | words (ws : List UInt32)
  | flags (fs : List Flag) (rest : UInt32)
  | text (t : String)
  | parsed (r : Except ParseError Unit)
  deriving Repr

namespace Command

/-- A new value if there is one, and whether there was. -/
def assignIfSome (s : Status) : Option Status → Status × Answer
  | some t => (t, .truth true)
  | none => (s, .truth false)

def run (s : Status) : Command → Status × Answer
  | assign t => (t, .done)
  | assignTruncated t => (t.truncate, .done)
  | clear => (empty, .done)
  | fill => (all, .done)
  | truncate => (s.truncate, .done)
  | withFpu => (s.withFpu, .done)
  | union t => (s.union t, .done)
  | difference t => (s.difference t, .done)
  | symmetricDifference t => (s.symmetricDifference t, .done)
  | intersection t => (s.intersection t, .done)
  | set t on => (s.set t on, .done)
  | complement => (s.complement, .done)
  | extend ts => (s.extend ts, .done)
  | collect ts => (unions ts, .done)
  | assignBits bits => assignIfSome s (ofBits? bits)
  | assignName name => assignIfSome s (ofName? name)
  | parse form t =>
    match Status.parse form t with
    | .ok t => (t, .parsed (.ok ()))
    | .error e => (s, .parsed (.error e))
  | contains t => (s, .truth (s.contains t))
  | intersects t => (s, .truth (s.intersects t))
  | equals t => (s, .truth (s = t))
  | isEmpty => (s, .truth s.isEmpty)
  | isAll => (s, .truth s.isAll)
  | namedBits => (s, .word s.truncate.bits)
  | unnamedBits => (s, .word (s.difference all).bits)
  | flags => (s, .flags s.flags s.unnamed)
  | parts => (s, .words s.parts)
  | text form => (s, .text (s.text form))
  | describe => (s, .text s.describe)
  | number radix => (s, .text (radix.text s.bits.toNat))

/-- The set and the answer after each command. -/
def runAll (s : Status) : List Command → List (Status × Answer)
  | [] => []
  | c :: cs => c.run s :: runAll (c.run s).1 cs

/-- The set after all commands. -/
def finalSet (s : Status) : List Command → Status
  | [] => s
  | c :: cs => finalSet (c.run s).1 cs

/-- The command only asks. -/
def asks : Command → Bool
  | contains _ | intersects _ | equals _ | isEmpty | isAll | namedBits | unnamedBits | flags | parts
  | text _ | describe | number _ => true
  | _ => false

theorem run_of_asks {c : Command} (s : Status) (h : c.asks) : (c.run s).1 = s := by
  cases c <;> simp_all [asks, run]

theorem run_assignBits_of_eq_none {s : Status} {bits : UInt32} (h : ofBits? bits = none) :
    (assignBits bits).run s = (s, .truth false) := by
  simp [run, h, assignIfSome]

theorem run_assignName_of_eq_none {s : Status} {name : String} (h : ofName? name = none) :
    (assignName name).run s = (s, .truth false) := by
  simp [run, h, assignIfSome]

theorem run_parse_of_eq_error {s : Status} {form : Form} {t : String} {e : ParseError}
    (h : Status.parse form t = .error e) :
    (parse form t).run s = (s, .parsed (.error e)) := by
  simp [run, h]

end Command

end Vr4300.Cp0.Status
