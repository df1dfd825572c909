import Vr4300.Proofs.Exception.Report

/-!
# The report read back

The text of a report has a line for each field, which ends in the digits of the field
(`Frame.lines_reportText`). A reader that takes the number behind the mark `0x` of a line finds
the field (`Frame.afterMark_line`, `Frame.readHex?_digitsOf`), so the text determines the frame
(`Frame.report_lossless`).
-/

namespace Vr4300.Exception

/-! ## The reader -/

def lines (text : String) : List (List Char) := text.toList.splitOn '\n'

/-- What stands behind the first mark of a hexadecimal number. -/
def afterMark : List Char → List Char
  | '0' :: 'x' :: cs => cs
  | _ :: cs => afterMark cs
  | [] => []

namespace Frame

open Text

/-- The line that shows the field; the title is line 0. -/
def Field.line : Field → Nat
  | cause => 1
  | epc => 2
  | status => 3
  | badVAddr => 4
  | sp => 5

/-! ## The lines of a report -/

/-- The label of a field, from the start of its line on. -/
def Field.stem (field : Field) : List Char := field.label.toList.tail

theorem Field.toList_label (field : Field) : field.label.toList = '\n' :: field.stem := by
  cases field <;> rfl

/-- The digits of a field. -/
def digitsOf (f : Frame) (field : Field) : List Char :=
  (Numeral.fixedHex 16 (f.get field).toNat).toList

section
variable (f : Frame) (field : Field)

theorem length_digitsOf : (f.digitsOf field).length = 16 :=
  Numeral.length_toList_fixedHex (by decide) (f.get field).toNat_lt

theorem isHexDigit_of_mem_digitsOf {c : Char} (hc : c ∈ f.digitsOf field) :
    Numeral.IsHexDigit c :=
  Numeral.isHexDigit_of_mem_fixedHex (by decide) (f.get field).toNat_lt hc

theorem not_mem_digitsOf {c : Char} (hc : ∀ d : Fin 16, c ≠ d.val.digitChar) :
    c ∉ f.digitsOf field := by
  intro hmem
  obtain ⟨d, hd, hdigit⟩ := f.isHexDigit_of_mem_digitsOf field hmem
  exact hc ⟨d, hd⟩ hdigit

theorem afterMark_line : afterMark (field.stem ++ f.digitsOf field) = f.digitsOf field := by
  cases field <;> rfl

end

theorem intercalate_cons_eq_flatMap {α : Type} (a : α) (l : List α) (ls : List (List α)) :
    [a].intercalate (l :: ls) = l ++ ls.flatMap (a :: ·) := by
  induction ls generalizing l with
  | nil => simp
  | cons l' ls ih => rw [List.intercalate_cons_cons, ih, List.flatMap_cons]; simp

theorem toList_reportText (f : Frame) :
    f.reportText.toList =
      ['\n'].intercalate
        (title.toList :: Field.all.map fun field => field.stem ++ f.digitsOf field) := by
  rw [intercalate_cons_eq_flatMap, reportText, String.toList_append, String.toList_join,
    List.flatMap_map, List.flatMap_map]
  simp only [String.toList_append, Field.toList_label]
  rfl

theorem lines_reportText (f : Frame) :
    lines f.reportText =
      title.toList :: Field.all.map fun field => field.stem ++ f.digitsOf field := by
  have hstem : ∀ field : Field, '\n' ∉ field.stem := by
    intro field
    cases field <;> decide
  rw [lines, toList_reportText]
  -- the only line ends are those in front of the labels
  refine List.splitOn_intercalate '\n' (List.forall_mem_cons.mpr ⟨by decide, ?_⟩) (by simp)
  intro line hline
  obtain ⟨field, _, rfl⟩ := List.mem_map.mp hline
  rw [List.mem_append, not_or]
  exact ⟨hstem field, f.not_mem_digitsOf field (by decide)⟩

theorem length_lines (f : Frame) : (lines f.reportText).length = 6 := by
  rw [lines_reportText]
  rfl

theorem getElem?_lines (f : Frame) (field : Field) :
    (lines f.reportText)[field.line]? = some (field.stem ++ f.digitsOf field) := by
  rw [lines_reportText]
  cases field <;> rfl

theorem readHex?_digitsOf (f : Frame) (field : Field) :
    Numeral.readHex? 0 (f.digitsOf field) = some (f.get field).toNat := Numeral.readHex?_fixedHex ..

theorem digitsOf_inj {f f' : Frame} {field : Field} :
    f.digitsOf field = f'.digitsOf field ↔ f.get field = f'.get field := by
  rw [digitsOf, digitsOf, String.toList_inj, Numeral.fixedHex_inj, UInt64.toNat_inj]

theorem reportText_inj {f f' : Frame} : f.reportText = f'.reportText ↔ f = f' := by
  refine ⟨fun h => Frame.ext fun field => ?_, fun h => h ▸ rfl⟩
  have hline := f.getElem?_lines field
  rw [h, getElem?_lines, Option.some.injEq, List.append_cancel_left_eq] at hline
  exact digitsOf_inj.mp hline.symm

/-- A property of the title, the labels and the digits is one of the whole text. -/
theorem all_reportText {p : Char → Bool} (f : Frame) (htitle : title.toList.all p = true)
    (hlabel : ∀ field : Field, field.label.toList.all p = true)
    (hdigit : ∀ d : Fin 16, p d.val.digitChar = true) : f.reportText.toList.all p = true := by
  have hdigits (field : Field) : (f.digitsOf field).all p = true := by
    rw [List.all_eq_true]
    intro c hc
    obtain ⟨d, hd, rfl⟩ := f.isHexDigit_of_mem_digitsOf field hc
    exact hdigit ⟨d, hd⟩
  rw [reportText, String.toList_append, String.toList_join, List.flatMap_map, List.all_append,
    htitle, Bool.true_and, List.all_flatMap, List.all_eq_true]
  intro field _
  rw [String.toList_append, List.all_append, hlabel field, Bool.true_and]
  exact hdigits field

/-- An ASCII character that is no part of the placeholder. -/
def isPlain (c : Char) : Bool := c.toNat < 128 && c != '?'

theorem isPlain_of_mem_reportText (f : Frame) {c : Char} (hc : c ∈ f.reportText.toList) :
    isPlain c = true := by
  have hall : f.reportText.toList.all isPlain = true := by
    refine f.all_reportText rfl ?_ (by decide)
    intro field
    cases field <;> rfl
  exact List.all_eq_true.mp hall c hc

theorem isAscii_reportText (f : Frame) : IsAscii f.reportText := by
  intro c hc
  have hplain := f.isPlain_of_mem_reportText hc
  rw [isPlain, Bool.and_eq_true] at hplain
  exact of_decide_eq_true hplain.1

theorem not_placeholder_infix (f : Frame) :
    ¬"????????????????".toList <:+: f.reportText.toList := by
  have hmark : '?' ∈ "????????????????".toList := by decide
  intro h
  exact absurd (f.isPlain_of_mem_reportText (h.subset hmark)) (by decide)

/-! ## Two reports -/

/-- Frames that differ in one field have the same lines but that of the field. -/
theorem getElem?_lines_eq {f f' : Frame} {field : Field}
    (h : ∀ other, other ≠ field → f.get other = f'.get other) {k : Nat} (hk : k ≠ field.line) :
    (lines f.reportText)[k]? = (lines f'.reportText)[k]? := by
  have hline : ∀ other : Field, other.line = k → (lines f.reportText)[k]? =
      (lines f'.reportText)[k]? := by
    rintro other rfl
    have hother : other ≠ field := fun heq => hk (heq ▸ rfl)
    rw [getElem?_lines, getElem?_lines, digitsOf_inj.mpr (h other hother)]
  match k with
  | 0 => rw [lines_reportText, lines_reportText, List.getElem?_cons_zero, List.getElem?_cons_zero]
  | 1 => exact hline .cause rfl
  | 2 => exact hline .epc rfl
  | 3 => exact hline .status rfl
  | 4 => exact hline .badVAddr rfl
  | 5 => exact hline .sp rfl
  | k + 6 =>
    have hnone (f : Frame) : (lines f.reportText)[k + 6]? = none := by
      apply List.getElem?_eq_none
      rw [length_lines]
      omega
    rw [hnone, hnone]

/-- **The report is lossless.** A writer that refuses nothing gets one text of 159 ASCII bytes in
six lines, without the placeholder for digits that are no text; behind the mark of each line stand
the 16 lowercase digits of its field. So the text determines the frame, and a change of one field
changes digits of its own line only. -/
theorem report_lossless (f : Frame) :
    (∀ (ω : Type) [TextWriter ω] (w : ω), (∀ before piece, Takes piece (handed before w)) →
      let o := f.report.run w
      o.value = .ok () ∧ String.join o.calls = f.reportText ∧
        ∀ held : ω → List UInt8, Appends held w →
          held o.state = held w ++ Text.bytes f.reportText) ∧
    (Text.bytes f.reportText).length = 159 ∧ (∀ b ∈ Text.bytes f.reportText, b.toNat < 128) ∧
    (lines f.reportText).length = 6 ∧ ¬"????????????????".toList <:+: f.reportText.toList ∧
    (∀ field : Field, ∃ line, (lines f.reportText)[field.line]? = some line ∧
      (afterMark line).length = 16 ∧ (∀ c ∈ afterMark line, c ∈ "0123456789abcdef".toList) ∧
      Numeral.readHex? 0 (afterMark line) = some (f.get field).toNat) ∧
    ∀ f' : Frame, (f.reportText = f'.reportText ↔ f = f') ∧
      ∀ field, (∀ other, other ≠ field → f.get other = f'.get other) →
        (∀ k, k ≠ field.line → (lines f.reportText)[k]? = (lines f'.reportText)[k]?) ∧
        ∃ stem line line', (lines f.reportText)[field.line]? = some line ∧
          (lines f'.reportText)[field.line]? = some line' ∧
          line = stem ++ afterMark line ∧ line' = stem ++ afterMark line' ∧
          (afterMark line).length = 16 ∧ (afterMark line').length = 16 := by
  have hchars : ∀ d : Fin 16, d.val.digitChar ∈ "0123456789abcdef".toList := by decide
  refine ⟨?_, utf8ByteSize_reportText f, fun b => f.isAscii_reportText.lt_of_mem_bytes,
    f.length_lines, f.not_placeholder_infix, ?_, fun f' => ⟨reportText_inj, ?_⟩⟩
  · intro ω _ w htakes o
    obtain ⟨hall, hvalue, hcalls, hstate⟩ := f.run_report_of_takes htakes
    refine ⟨hvalue, hcalls, fun held happends => ?_⟩
    rw [← join_reportPieces, ← happends.held_handed hall]
    exact congrArg held hstate
  · intro field
    refine ⟨_, f.getElem?_lines field, ?_⟩
    rw [afterMark_line]
    refine ⟨f.length_digitsOf field, ?_, f.readHex?_digitsOf field⟩
    intro c hc
    obtain ⟨d, hd, rfl⟩ := f.isHexDigit_of_mem_digitsOf field hc
    exact hchars ⟨d, hd⟩
  · intro field h
    refine ⟨fun k hk => getElem?_lines_eq h hk, field.stem, _, _, f.getElem?_lines field,
      f'.getElem?_lines field, ?_⟩
    rw [afterMark_line, afterMark_line]
    exact ⟨rfl, rfl, f.length_digitsOf field, f'.length_digitsOf field⟩

/-- A writer without limits gets the report of a fault, and the report of the same fault at another
place differs from it in the line of that place. -/
theorem report_lossless_of_other_epc :
    let f : Frame := ⟨0xc, 0xffffffff80001234, 0x24400003, 0, 0xffffffff803fff00⟩
    let f' : Frame := { f with epc := 0xffffffff80001238 }
    let w := LimitedWriter.make none none
    ((∀ before piece, Takes piece (handed before w)) ∧ Appends LimitedWriter.held w ∧
      (f.report.run w).state.held = Text.bytes ("UNHANDLED EXCEPTION\n" ++
        "cause    0x000000000000000c\n" ++ "epc      0xffffffff80001234\n" ++
        "status   0x0000000024400003\n" ++ "badvaddr 0x0000000000000000\n" ++
        "sp       0xffffffff803fff00")) ∧
    (∀ other, other ≠ Field.epc → f.get other = f'.get other) ∧
      (lines f.reportText)[5]? = (lines f'.reportText)[5]? ∧ f.reportText ≠ f'.reportText := by
  intro f f' w
  obtain ⟨hwriter, _, _, _, _, _, hother⟩ := report_lossless f
  have htakes : ∀ before piece, Takes piece (handed before w) := LimitedWriter.takes_handed_make
  have hsame : ∀ other, other ≠ Field.epc → f.get other = f'.get other := by
    intro other hne
    cases other with
    | epc => exact absurd rfl hne
    | cause | status | badVAddr | sp => rfl
  obtain ⟨_, _, hheld⟩ := hwriter LimitedWriter w htakes
  refine ⟨⟨htakes, w.appends, ?_⟩, hsame, ?_, ?_⟩
  · rw [hheld LimitedWriter.held w.appends]
    decide +kernel
  · exact ((hother f').2 .epc hsame).1 5 (by decide)
  · intro h
    exact absurd ((hother f').1.mp h) (by decide)

end Frame

end Vr4300.Exception
