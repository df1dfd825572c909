import Vr4300.Proofs.Exception.Digits
import Vr4300.Proofs.Text.Writer

/-!
# The report and its writer

`Frame.reportText` is the text of a report, with the fields as hexadecimal numerals of 16 digits;
the eleven pieces of the report are this text cut up (`Frame.reportPieces_eq`,
`Frame.join_reportPieces`). A writer of any kind is handed the pieces up to the first that it
refuses and nothing after that (`Frame.report_to_any_writer`).
-/

namespace Vr4300.Exception.Frame

open Text

/-- The title, then one line for each field. -/
def reportText (f : Frame) : String :=
  title ++ String.join (Field.all.map fun field =>
    field.label ++ Numeral.fixedHex 16 (f.get field).toNat)

theorem reportPieces_eq (f : Frame) :
    f.reportPieces =
      ["UNHANDLED EXCEPTION",
        "\ncause    0x", Numeral.fixedHex 16 f.cause.toNat,
        "\nepc      0x", Numeral.fixedHex 16 f.epc.toNat,
        "\nstatus   0x", Numeral.fixedHex 16 f.status.toNat,
        "\nbadvaddr 0x", Numeral.fixedHex 16 f.badVAddr.toNat,
        "\nsp       0x", Numeral.fixedHex 16 f.sp.toNat] := by
  simp only [reportPieces, digitText_eq]
  rfl

theorem join_reportPieces (f : Frame) : String.join f.reportPieces = f.reportText := by
  have hfields (fields : List Field) :
      String.join (fields.flatMap fun field => [field.label, digitText (f.get field)]) =
        String.join (fields.map fun field =>
          field.label ++ Numeral.fixedHex 16 (f.get field).toNat) := by
    induction fields with
    | nil => rfl
    | cons field fields ih =>
      rw [List.flatMap_cons, List.map_cons, String.join_append, ih, String.join_cons,
        String.join_cons, String.join_cons, digitText_eq]
      simp
  rw [reportPieces, String.join_cons, hfields, reportText]

theorem utf8ByteSize_fixedHex (w : UInt64) : (Numeral.fixedHex 16 w.toNat).utf8ByteSize = 16 := by
  rw [(isAscii_fixedHex w).utf8ByteSize, Numeral.length_toList_fixedHex (by decide) w.toNat_lt]

theorem map_utf8ByteSize_reportPieces (f : Frame) :
    f.reportPieces.map String.utf8ByteSize = [19, 12, 16, 12, 16, 12, 16, 12, 16, 12, 16] := by
  rw [reportPieces_eq]
  simp only [List.map_cons, List.map_nil, utf8ByteSize_fixedHex]
  rfl

theorem utf8ByteSize_reportText (f : Frame) : f.reportText.utf8ByteSize = 159 := by
  rw [← join_reportPieces, reportPieces_eq]
  simp only [String.join_cons, String.utf8ByteSize_append, utf8ByteSize_fixedHex]
  rfl

/-! ## Into any writer -/

section
variable {ω : Type} [TextWriter ω]

/-- After its log record the report is the writing of its pieces. -/
theorem run_report (f : Frame) (w : ω) :
    f.report.run w =
      let o := (Writer.writeAll f.reportPieces).run w
      ⟨o.value, o.state, .log ⟨.error, Log.target, f.logMessage⟩ :: o.events⟩ := rfl

theorem course_report (f : Frame) (w : ω) :
    ∃ o, Writer.Course f.reportPieces w o ∧ (f.report.run w).value = o.value ∧
      (f.report.run w).calls = o.calls ∧ (f.report.run w).state = o.state := by
  rw [run_report]
  exact ⟨_, Writer.course_writeAll f.reportPieces w, rfl, rfl, rfl⟩

/-- A writer that refuses nothing is handed the whole report. -/
theorem run_report_of_takes (f : Frame) {w : ω}
    (h : ∀ before piece, Takes piece (handed before w)) :
    TakesAll f.reportPieces w ∧ (f.report.run w).value = .ok () ∧
      String.join (f.report.run w).calls = f.reportText ∧
      (f.report.run w).state = handed f.reportPieces w := by
  obtain ⟨o, hcourse, hvalue, hcalls, hstate⟩ := course_report f w
  obtain ⟨hv, hall, hc, hs⟩ | ⟨before, piece, _, _, _, hpiece, _⟩ := hcourse.calls_cases
  · refine ⟨hall, hvalue.trans hv, ?_, hstate.trans hs⟩
    rw [hcalls, hc, join_reportPieces]
  · exact absurd (h before piece) hpiece

end

/-- **The report to any writer.** The writer is handed the eleven pieces one by one, up to the first
that it refuses and none after it; the report succeeds if it takes all of them, and fails with the
one error of output otherwise. A writer that keeps nothing of the refused piece is left with the
pieces in front of it, and one with a capacity with as many whole pieces as fit, which are all of
them from 159 bytes on. -/
theorem report_to_any_writer (f : Frame) :
    f.reportPieces =
      ["UNHANDLED EXCEPTION",
        "\ncause    0x", Numeral.fixedHex 16 f.cause.toNat,
        "\nepc      0x", Numeral.fixedHex 16 f.epc.toNat,
        "\nstatus   0x", Numeral.fixedHex 16 f.status.toNat,
        "\nbadvaddr 0x", Numeral.fixedHex 16 f.badVAddr.toNat,
        "\nsp       0x", Numeral.fixedHex 16 f.sp.toNat] ∧
    ∀ (ω : Type) [TextWriter ω] (w : ω),
      let o := f.report.run w
      (o.value = .ok () ↔ TakesAll f.reportPieces w) ∧
      (o.value = .ok () ∧ o.calls = f.reportPieces ∧ o.state = handed f.reportPieces w ∨
        ∃ before piece after, f.reportPieces = before ++ piece :: after ∧ TakesAll before w ∧
          ¬Takes piece (handed before w) ∧ o.value = .error .outputRefused ∧
          o.calls = before ++ [piece] ∧ o.state = handed (before ++ [piece]) w) ∧
      ∀ held : ω → List UInt8,
        (Appends held w → ∀ before piece after, f.reportPieces = before ++ piece :: after →
          TakesAll before w → ¬Takes piece (handed before w) →
          held (handed (before ++ [piece]) w) = held (handed before w) →
          held o.state = held w ++ Text.bytes (String.join before)) ∧
        ∀ capacity, Bounded held capacity w → held w = [] →
          (∃ before, before <+: f.reportPieces ∧
            held o.state = Text.bytes (String.join before) ∧
            ∀ ps, ps <+: f.reportPieces →
              ((String.join ps).utf8ByteSize ≤ capacity ↔ ps <+: before)) ∧
          (o.value = .ok () ↔ 159 ≤ capacity) := by
  refine ⟨reportPieces_eq f, ?_⟩
  intro ω _ w o
  obtain ⟨o', hcourse, hvalue, hcalls, hstate⟩ := course_report f w
  change o.value = _ at hvalue
  change o.calls = _ at hcalls
  change o.state = _ at hstate
  rw [hvalue, hcalls, hstate]
  refine ⟨hcourse.value_eq_ok_iff, ?_, fun held => ⟨?_, ?_⟩⟩
  · obtain ⟨hv, _, hc, hs⟩ | hrefused := hcourse.calls_cases
    · exact .inl ⟨hv, hc, hs⟩
    · exact .inr hrefused
  · intro happends before piece after hsplit hall hpiece hnothing
    exact hcourse.held_of_refused happends hsplit hall hpiece hnothing
  · intro capacity hbounded hw
    refine ⟨hcourse.longest_fitting hbounded hw, ?_⟩
    rw [hcourse.value_eq_ok_iff, hbounded.takesAll_iff (by rw [hw]; exact Nat.zero_le _), hw,
      join_reportPieces, utf8ByteSize_reportText, List.length_nil, Nat.zero_add]

/-- A writer that refuses its third call, one that is a byte too small and one that just holds the
report. -/
theorem report_to_any_writer_of_limits :
    let f : Frame := ⟨0xc, 0xffffffff80001234, 0x24400003, 0, 0xffffffff803fff00⟩
    let before := ["UNHANDLED EXCEPTION", "\ncause    0x"]
    let third := LimitedWriter.make (some 2) none
    let short := LimitedWriter.make none (some 158)
    let full := LimitedWriter.make none (some 159)
    (TakesAll before third ∧ ¬Takes "000000000000000c" (handed before third) ∧
      (f.report.run third).state.held = Text.bytes "UNHANDLED EXCEPTION\ncause    0x") ∧
    (Bounded LimitedWriter.held 158 short ∧ short.held = [] ∧ (f.report.run short).value ≠ .ok ()) ∧
    Bounded LimitedWriter.held 159 full ∧ full.held = [] ∧ (f.report.run full).value = .ok () := by
  intro f before third short full
  obtain ⟨hpieces, hwriter⟩ := report_to_any_writer f
  have hsplit : f.reportPieces = before ++ "000000000000000c" :: f.reportPieces.drop 3 := by
    rw [hpieces]
    decide
  have hall : TakesAll before third := ⟨rfl, rfl, trivial⟩
  have hpiece : ¬Takes "000000000000000c" (handed before third) := nofun
  have hshort : Bounded LimitedWriter.held 158 short := LimitedWriter.bounded rfl rfl
  have hfull : Bounded LimitedWriter.held 159 full := LimitedWriter.bounded rfl rfl
  refine ⟨⟨hall, hpiece, ?_⟩, ⟨hshort, rfl, ?_⟩, hfull, rfl, ?_⟩
  · obtain ⟨_, _, hheld⟩ := hwriter LimitedWriter third
    exact (hheld _).1 third.appends before _ _ hsplit hall hpiece rfl
  · obtain ⟨_, _, hheld⟩ := hwriter LimitedWriter short
    intro hok
    exact absurd (((hheld _).2 158 hshort rfl).2.mp hok) (by decide)
  · obtain ⟨_, _, hheld⟩ := hwriter LimitedWriter full
    exact ((hheld _).2 159 hfull rfl).2.mpr (by decide)

end Vr4300.Exception.Frame
