import Vr4300.Cp0.Status
import Vr4300.Numeral
import Vr4300.Text.Blank

/-! Status sets as text: flag names and marked hexadecimal words, separated by bars.

`Status.text` writes the flags by name and the rest as one word. `Status.parse` reads such a text,
with the pieces in any order, repeated, and with white space around each. A `Form` says what
happens to bits without a name, in either direction. -/

namespace Vr4300.Cp0.Status

/-- What to do with bits that have no name. -/
inductive Form where
  /-- Keep them, as a hexadecimal word. -/
  | full
  /-- Drop them from the value. -/
  | truncated
  /-- Write names only, and read names only. -/
  | strict
  deriving DecidableEq, Repr

/-! ## Writing -/

def names (s : Status) : List String := s.flags.map Flag.name

/-- The names of the flags, then the bits without a name as a word if there are any. -/
def pieces (s : Status) : List String :=
  s.names ++ if s.unnamed = 0 then [] else [Numeral.markedHex s.unnamed.toNat]

def text (form : Form) (s : Status) : String :=
  " | ".intercalate <| match form with
    | .full => s.pieces
    | .truncated => s.truncate.pieces
    | .strict => s.names

/-- The full text, or a zero where it is empty, in parentheses. -/
def describe (s : Status) : String :=
  "StatusFlags(" ++ (if s.isEmpty then "0x0" else s.text .full) ++ ")"

/-! ## Reading -/

inductive ParseError where
  | emptyFlag | invalidHex | unknownName
  deriving DecidableEq, Repr

def ParseError.message : ParseError → String
  | emptyFlag => "encountered empty flag"
  | invalidHex => "invalid hex flag"
  | unknownName => "unrecognized named flag"

/-- A piece without white space around it: a word after `0x`, or else the name of a flag. -/
def parsePiece (form : Form) : List Char → Except ParseError Status
  | [] => .error .emptyFlag
  | '0' :: 'x' :: cs =>
    match form, Numeral.wordOfHex? cs with
    | .strict, _ | _, none => .error .invalidHex
    | _, some w => .ok ⟨w⟩
  | cs =>
    match ofName? (.ofList cs) with
    | some s => .ok s
    | none => .error .unknownName

/-- All pieces in turn; the first that fails decides the error. -/
def parsePieces (form : Form) : List (List Char) → Except ParseError Status
  | [] => .ok empty
  | cs :: css =>
    match parsePiece form (Text.trim cs) with
    | .error e => .error e
    | .ok s =>
      match parsePieces form css with
      | .error e => .error e
      | .ok t => .ok (s.union t)

/-- A blank text is the empty set. -/
def parse (form : Form) (text : String) : Except ParseError Status :=
  let cs := Text.trim text.toList
  if cs.isEmpty then .ok empty
  else
    match form, parsePieces form (cs.splitOn '|') with
    | _, .error e => .error e
    | .truncated, .ok s => .ok s.truncate
    | _, .ok s => .ok s

end Vr4300.Cp0.Status
