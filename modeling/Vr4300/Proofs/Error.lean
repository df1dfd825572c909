import Vr4300.Error
import Vr4300.Proofs.Text.Words

/-!
# What a message and a code tell about an error

The text of an error is read back to the error, its payload included (`Error.ofMessage?_message`):
it is a list of words (`Error.message_eq_intercalate`) whose fixed ones tell the kind and whose
remaining one is the numeral of the payload. So errors with the same text are the same
(`Error.message_inj`), while their codes tell the kind alone, which is the constructor
(`Error.returnCode_eq_iff`).
-/

namespace Vr4300

namespace Numeral

/-- At least one decimal digit, with a value that fits a word. -/
def wordOfDecimal? (cs : List Char) : Option UInt32 :=
  if cs.isEmpty || !cs.all Char.isDigit then none
  else
    let n := Nat.ofDigitChars 10 cs 0
    if n < UInt32.size then some (.ofNat n) else none

/-- A hexadecimal word after its mark. -/
def wordOfMarkedHex? : List Char → Option UInt32
  | '0' :: 'x' :: cs => wordOfHex? cs
  | _ => none

theorem wordOfDecimal?_decimal (w : UInt32) :
    wordOfDecimal? (decimal w.toNat).toList = some w := by
  have hempty : (digits 10 w.toNat).isEmpty = false := List.isEmpty_eq_false_iff.mpr
    Nat.toDigits_ne_nil
  have hdigits : (digits 10 w.toNat).all Char.isDigit = true := List.all_eq_true.mpr fun _ =>
    Nat.isDigit_of_mem_toDigits (Nat.succ_pos 9) (Nat.le_refl 10)
  have hvalue : Nat.ofDigitChars 10 (digits 10 w.toNat) 0 = w.toNat := Nat.ofDigitChars_ten_toDigits
  rw [toList_decimal, wordOfDecimal?, hempty, hdigits, hvalue, Bool.not_true, Bool.false_or,
    if_neg Bool.false_ne_true]
  exact (if_pos w.toNat_lt_size).trans (congrArg some UInt32.ofNat_toNat)

theorem wordOfMarkedHex?_markedHex (w : UInt32) :
    wordOfMarkedHex? (markedHex w.toNat).toList = some w := by
  rw [toList_markedHex]
  exact wordOfHex?_digits w

end Numeral

namespace Error

/-! ## The words of a message -/

def words : Error → List String
  | unknownRegister number =>
    ["no", "CP0", "register", "named", "for", "index", Numeral.decimal number.toNat]
  | outOfRange value => ["value", Numeral.markedHex value.toNat, "out", "of", "range"]
  | unknownExceptionCode code => ["unknown", "exception", "code", Numeral.decimal code.toNat]
  | invalidBootInfo word => ["invalid", "boot", "info", "word", Numeral.markedHex word.toNat]
  | bufferFull => ["instruction", "buffer", "full"]
  | outputRefused => ["output", "error"]

theorem message_eq_intercalate (e : Error) : e.message = " ".intercalate e.words := by
  unfold message words
  apply String.toList_inj.mp
  cases e <;> simp

theorem words_ne_nil (e : Error) : e.words ≠ [] := by cases e <;> nofun

theorem space_notMem_words (e : Error) : ∀ w ∈ e.words, ' ' ∉ w.toList := by
  cases e <;> simp [words, Text.space_notMem_digits, Text.space_notMem_decimalDigits]

theorem words_message (e : Error) : Text.words e.message = e.words := by
  rw [message_eq_intercalate]
  exact Text.words_intercalate e.words_ne_nil e.space_notMem_words

/-! ## Reading -/

/-- The error that a message of these words is about. -/
def ofWords? : List String → Option Error
  | ["no", "CP0", "register", "named", "for", "index", number] =>
    (Numeral.wordOfDecimal? number.toList).map unknownRegister
  | ["value", value, "out", "of", "range"] => (Numeral.wordOfMarkedHex? value.toList).map outOfRange
  | ["unknown", "exception", "code", code] =>
    (Numeral.wordOfDecimal? code.toList).map unknownExceptionCode
  | ["invalid", "boot", "info", "word", word] =>
    (Numeral.wordOfMarkedHex? word.toList).map invalidBootInfo
  | ["instruction", "buffer", "full"] => some bufferFull
  | ["output", "error"] => some outputRefused
  | _ => none

def ofMessage? (text : String) : Option Error := ofWords? (Text.words text)

theorem ofWords?_words (e : Error) : ofWords? e.words = some e := by
  cases e with
  | unknownRegister number => exact congrArg (Option.map _) (Numeral.wordOfDecimal?_decimal number)
  | outOfRange value => exact congrArg (Option.map _) (Numeral.wordOfMarkedHex?_markedHex value)
  | unknownExceptionCode code => exact congrArg (Option.map _) (Numeral.wordOfDecimal?_decimal code)
  | invalidBootInfo word => exact congrArg (Option.map _) (Numeral.wordOfMarkedHex?_markedHex word)
  | bufferFull => rfl
  | outputRefused => rfl

theorem ofMessage?_message (e : Error) : ofMessage? e.message = some e := by
  rw [ofMessage?, words_message, ofWords?_words]

theorem message_inj {e e' : Error} : e.message = e'.message ↔ e = e' :=
  eq_iff_of_read ofMessage? ofMessage?_message

/-! ## Codes -/

/-- Of one kind, whatever the payloads. -/
inductive SameKind : Error → Error → Prop
  | unknownRegister (number number' : UInt32) :
    SameKind (.unknownRegister number) (.unknownRegister number')
  | outOfRange (value value' : UInt32) : SameKind (.outOfRange value) (.outOfRange value')
  | unknownExceptionCode (code code' : UInt32) :
    SameKind (.unknownExceptionCode code) (.unknownExceptionCode code')
  | invalidBootInfo (word word' : UInt32) :
    SameKind (.invalidBootInfo word) (.invalidBootInfo word')
  | bufferFull : SameKind .bufferFull .bufferFull
  | outputRefused : SameKind .outputRefused .outputRefused

section
variable {e e' : Error}

theorem kind_eq_iff : e.kind = e'.kind ↔ SameKind e e' := by
  constructor
  · intro h
    cases e <;> cases e' <;> first | constructor | cases h
  · intro h
    cases h <;> rfl

theorem returnCode_eq_iff : e.returnCode = e'.returnCode ↔ SameKind e e' := by
  constructor
  · intro h
    -- of the 36 pairs, those with two constructors have two codes
    cases e <;> cases e' <;>
      first
      | constructor
      | exact absurd h (by simp only [returnCode]; decide)
  · intro h
    cases h <;> rfl

end

theorem returnCode_ne_zero (e : Error) : e.returnCode ≠ 0 := by
  intro h
  have hok := returnCode_eq_zero_iff.mp (show Vr4300.returnCode (.error e) = 0 from h)
  cases hok

/-- **Texts and codes identify errors.** Two errors have the same text exactly if they are equal,
and from the text the error is read with its kind and its payload. They have the same code exactly
if they are of one kind, which is what `Error.kind` names. Codes are negative, so they differ from
the code of success, and a caller gets the code of the error itself. -/
theorem message_and_code_identify :
    (∀ e e' : Error,
      (e.message = e'.message ↔ e = e') ∧ (e.returnCode = e'.returnCode ↔ SameKind e e') ∧
      (e.kind = e'.kind ↔ SameKind e e')) ∧
    ∀ e : Error,
      ofMessage? e.message = some e ∧
      e.returnCode < 0 ∧ e.returnCode ≠ Vr4300.returnCode (.ok ()) ∧
      Vr4300.returnCode (.error e) = e.returnCode :=
  ⟨fun _ _ => ⟨message_inj, returnCode_eq_iff, kind_eq_iff⟩,
    fun e => ⟨e.ofMessage?_message, e.returnCode_neg, e.returnCode_ne_zero, rfl⟩⟩

end Error

end Vr4300
