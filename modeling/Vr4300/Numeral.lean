/-! Positional numerals of natural numbers and the reader of hexadecimal words.

`digits` gives the digits of a number in a base, most significant first and without leading zeros.
`decimal`, `hex`, `upperHex`, `octal` and `binary` are their texts; `fixedHex` fills up with zeros,
`markedHex` carries the `0x` mark and `paddedHex` does both. `wordOfHex?` reads what `hex` writes
(`wordOfHex?_digits`), and besides accepts a leading `+`, either letter case and any number of
leading zeros. -/

namespace Vr4300.Numeral

/-! ## Writing -/

/-- Digits in a base up to 16, most significant first; zero has one digit. -/
abbrev digits (base n : Nat) : List Char := Nat.toDigits base n

def decimal (n : Nat) : String := .ofList (digits 10 n)

def hex (n : Nat) : String := .ofList (digits 16 n)

def upperHex (n : Nat) : String := .ofList ((digits 16 n).map Char.toUpper)

def octal (n : Nat) : String := .ofList (digits 8 n)

def binary (n : Nat) : String := .ofList (digits 2 n)

def markedHex (n : Nat) : String := "0x" ++ hex n

/-- At least `width` digits. -/
def fixedHex (width n : Nat) : String := .ofList ((digits 16 n).leftpad width '0')

/-- At least `width` digits after the mark. -/
def paddedHex (width n : Nat) : String := "0x" ++ fixedHex width n

@[simp] theorem toList_decimal (n : Nat) : (decimal n).toList = digits 10 n := String.toList_ofList

@[simp] theorem toList_hex (n : Nat) : (hex n).toList = digits 16 n := String.toList_ofList

@[simp] theorem toList_markedHex (n : Nat) :
    (markedHex n).toList = '0' :: 'x' :: digits 16 n := by
  simp [markedHex]

/-! ## Reading -/

def hexDigitValue? (c : Char) : Option Nat :=
  if '0' ≤ c ∧ c ≤ '9' then some (c.toNat - '0'.toNat)
  else if 'a' ≤ c ∧ c ≤ 'f' then some (c.toNat - 'a'.toNat + 10)
  else if 'A' ≤ c ∧ c ≤ 'F' then some (c.toNat - 'A'.toNat + 10)
  else none

/-- The value of hexadecimal digits that continue a number read so far as `value`. -/
def readHex? (value : Nat) : List Char → Option Nat
  | [] => some value
  | c :: cs => (hexDigitValue? c).bind fun d => readHex? (16 * value + d) cs

/-- At least one hexadecimal digit, after an optional `+`, with a value that fits a word. -/
def wordOfHex? (cs : List Char) : Option UInt32 :=
  let body := match cs with
    | '+' :: cs => cs
    | cs => cs
  if body.isEmpty then none
  else (readHex? 0 body).bind fun n => if n < UInt32.size then some (.ofNat n) else none

theorem hexDigitValue?_digitChar (n : Nat) (h : n < 16) :
    hexDigitValue? n.digitChar = some n :=
  (by decide : ∀ k : Fin 16, hexDigitValue? k.val.digitChar = some k.val) ⟨n, h⟩

theorem readHex?_append (value : Nat) (cs cs' : List Char) :
    readHex? value (cs ++ cs') = (readHex? value cs).bind (readHex? · cs') := by
  induction cs generalizing value with
  | nil => rfl
  | cons c cs ih => cases h : hexDigitValue? c <;> simp [readHex?, h, ih]

theorem readHex?_digits (n : Nat) : readHex? 0 (digits 16 n) = some n := by
  induction n using Nat.strongRecOn with
  | ind n ih =>
    unfold digits
    rw [Nat.toDigits_eq_if (by decide)]
    split
    next h => simp [readHex?, hexDigitValue?_digitChar n h]
    next h =>
      rw [readHex?_append, show readHex? 0 (Nat.toDigits 16 (n / 16)) = _ from ih _ (by omega)]
      simp [readHex?, hexDigitValue?_digitChar _ (Nat.mod_lt n (by decide : 16 > 0)),
        Nat.div_add_mod]

theorem wordOfHex?_digits (w : UInt32) : wordOfHex? (digits 16 w.toNat) = some w := by
  have hread := readHex?_digits w.toNat
  cases hd : digits 16 w.toNat with
  | nil => exact absurd hd Nat.toDigits_ne_nil
  | cons c cs =>
    have hplus : hexDigitValue? '+' = none := rfl
    have hc : c ≠ '+' := by rintro rfl; simp [hd, readHex?, hplus] at hread
    rw [hd] at hread
    simp [wordOfHex?, hc, hread, w.toNat_lt_size]

end Vr4300.Numeral
