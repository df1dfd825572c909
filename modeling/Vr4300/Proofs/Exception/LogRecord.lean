import Vr4300.Proofs.Exception.Cause
import Vr4300.Proofs.Exception.ReadBack
import Vr4300.Proofs.Text.Words

/-!
# The log record of a report

A report logs its one record before the writer sees anything (`Frame.events_report`). The message
is a list of words with spaces between (`Frame.logMessage_eq_intercalate`), so it can be taken apart
again, and two frames have the same message only if they are of the same fault
(`Frame.logMessage_eq_iff`). Its numbers are those of the report without leading zeros
(`Frame.logMessage_eq_shown`).
-/

namespace Vr4300.Exception.Frame

open Text

/-! ## The words of the message -/

def logWords (f : Frame) : List String :=
  match f.exceptionCode? with
  | some code =>
    ["unhandled", "exception", code.mnemonic, "at", "epc", Numeral.markedHex f.epc.toNat]
  | none =>
    ["unhandled", "exception,", "cause", Numeral.markedHex f.cause.toNat, "at", "epc",
      Numeral.markedHex f.epc.toNat]

theorem logMessage_eq_intercalate (f : Frame) : f.logMessage = " ".intercalate f.logWords := by
  unfold logMessage logWords
  apply String.toList_inj.mp
  cases f.exceptionCode? with
  | some code => simp
  | none => simp

theorem space_notMem_logWords (f : Frame) : ∀ w ∈ f.logWords, ' ' ∉ w.toList := by
  have hmnemonic (code : Cp0.ExceptionCode) : ' ' ∉ code.mnemonic.toList := by
    cases code <;> decide
  unfold logWords
  cases f.exceptionCode? with
  | some code => simp [hmnemonic code, space_notMem_digits]
  | none => simp [space_notMem_digits]

theorem logWords_ne_nil (f : Frame) : f.logWords ≠ [] := by
  unfold logWords
  cases f.exceptionCode? <;> nofun

theorem words_logMessage (f : Frame) : words f.logMessage = f.logWords := by
  rw [logMessage_eq_intercalate]
  exact words_intercalate f.logWords_ne_nil f.space_notMem_logWords

/-! ## Two messages -/

section
variable {f f' : Frame}

theorem logMessage_eq_iff_logWords : f.logMessage = f'.logMessage ↔ f.logWords = f'.logWords := by
  constructor
  · intro h
    rw [← words_logMessage, h, words_logMessage]
  · intro h
    rw [logMessage_eq_intercalate, logMessage_eq_intercalate, h]

/-- At the same place and by the same exception or, if it has no name, with the same Cause word. -/
def SameFault (f f' : Frame) : Prop :=
  f.epc = f'.epc ∧
    ((∃ code, f.exceptionCode? = some code ∧ f'.exceptionCode? = some code) ∨
      f.exceptionCode? = none ∧ f'.exceptionCode? = none ∧ f.cause = f'.cause)

theorem logMessage_eq_iff : f.logMessage = f'.logMessage ↔ SameFault f f' := by
  rw [logMessage_eq_iff_logWords, logWords, logWords, SameFault]
  cases f.exceptionCode? with
  | some code =>
    cases f'.exceptionCode? with
    | some code' =>
      simp only [List.cons.injEq, true_and, and_true, Cp0.ExceptionCode.mnemonic_inj,
        Numeral.markedHex_inj, UInt64.toNat_inj]
      constructor
      · rintro ⟨rfl, hepc⟩
        exact ⟨hepc, .inl ⟨code, rfl, rfl⟩⟩
      · rintro ⟨hepc, ⟨c, hc, hc'⟩ | ⟨hnone, _⟩⟩
        · exact ⟨Option.some.inj (hc.trans hc'.symm), hepc⟩
        · cases hnone
    | none => simp
  | none =>
    cases f'.exceptionCode? with
    | some code' => simp
    | none =>
      simp only [List.cons.injEq, true_and, and_true, Numeral.markedHex_inj, UInt64.toNat_inj]
      constructor
      · rintro ⟨hcause, hepc⟩
        exact ⟨hepc, .inr hcause⟩
      · rintro ⟨hepc, ⟨_, hnone, _⟩ | hcause⟩
        · cases hnone
        · exact ⟨hcause, hepc⟩

end

/-! ## The numbers of the message -/

/-- What stands behind the mark of a number is what the line of the field shows, without leading
zeros. -/
theorem exists_line_markedHex (f : Frame) (field : Field) :
    ∃ line, (lines f.reportText)[field.line]? = some line ∧ (afterMark line).length = 16 ∧
      Numeral.markedHex (f.get field).toNat =
        "0x" ++ .ofList (Numeral.significant (afterMark line)) := by
  refine ⟨field.stem ++ f.digitsOf field, f.getElem?_lines field, ?_, ?_⟩
  · rw [afterMark_line, length_digitsOf]
  · rw [afterMark_line, digitsOf, Numeral.significant_fixedHex]
    rfl

theorem logMessage_eq_shown (f : Frame) :
    ∃ cause epc, (lines f.reportText)[Field.cause.line]? = some cause ∧
      (lines f.reportText)[Field.epc.line]? = some epc ∧
      (afterMark cause).length = 16 ∧ (afterMark epc).length = 16 ∧
      f.logMessage =
        match f.exceptionCode? with
        | some code => "unhandled exception " ++ code.mnemonic ++ " at epc " ++
          ("0x" ++ .ofList (Numeral.significant (afterMark epc)))
        | none => "unhandled exception, cause " ++
          ("0x" ++ .ofList (Numeral.significant (afterMark cause))) ++ " at epc " ++
          ("0x" ++ .ofList (Numeral.significant (afterMark epc))) := by
  obtain ⟨cause, hcause, hcauseLength, hcauseHex⟩ := f.exists_line_markedHex .cause
  obtain ⟨epc, hepc, hepcLength, hepcHex⟩ := f.exists_line_markedHex .epc
  refine ⟨cause, epc, hcause, hepc, hcauseLength, hepcLength, ?_⟩
  rw [← hcauseHex, ← hepcHex]
  rfl

/-! ## The record -/

section
variable {ω : Type} [TextWriter ω]

/-- First the record, then the calls on the writer. -/
theorem events_report (f : Frame) (w : ω) :
    (f.report.run w).events =
      .log ⟨.error, Log.target, f.logMessage⟩ :: (f.report.run w).calls.map .call := by
  have hcalls := (Writer.course_writeAll f.reportPieces w).events_eq
  rw [run_report]
  exact congrArg (.log ⟨.error, Log.target, f.logMessage⟩ :: ·) hcalls

theorem logs_report (f : Frame) (w : ω) :
    (f.report.run w).logs = [⟨.error, Log.target, f.logMessage⟩] := by
  have hcalls := Writer.filterMap_log?_map_call (f.report.run w).calls
  rw [Outcome.logs, events_report]
  exact congrArg (⟨.error, Log.target, f.logMessage⟩ :: ·) hcalls

end

/-- **The log record of a report.** With any writer, whether it fails or not, the report logs one
record, at the level of errors and with the target of the library, and it does so before the writer
is handed anything. The message depends on the fault alone: the reports of two frames to any two
writers log the same exactly if the frames agree in `epc` and either both name one exception, in
bits 2 to 6 of their Cause words, or both name none and their Cause words are equal. The numbers in
the message are those that a writer is handed which refuses nothing, without leading zeros. -/
theorem report_logs_fault (f : Frame) :
    (∀ (ω : Type) [TextWriter ω] (w : ω),
      let o := f.report.run w
      o.logs = [⟨.error, "n64_machine", f.logMessage⟩] ∧
        o.events = .log ⟨.error, "n64_machine", f.logMessage⟩ :: o.calls.map .call) ∧
    Log.Level.error.name = "ERROR" ∧
    (∀ code, f.exceptionCode? = some code ↔
      code.number.toNat = f.cause.toNat / 2 ^ 2 % 2 ^ 5) ∧
    (∀ (f' : Frame) (ω ω' : Type) [TextWriter ω] [TextWriter ω'] (w : ω) (w' : ω'),
      (f.report.run w).logs = (f'.report.run w').logs ↔
        f.epc = f'.epc ∧
          ((∃ code, f.exceptionCode? = some code ∧ f'.exceptionCode? = some code) ∨
            f.exceptionCode? = none ∧ f'.exceptionCode? = none ∧ f.cause = f'.cause)) ∧
    ∀ (ω : Type) [TextWriter ω] (w : ω), (∀ before piece, Takes piece (handed before w)) →
      let shown := lines (String.join (f.report.run w).calls)
      ∃ cause epc, shown[Field.cause.line]? = some cause ∧ shown[Field.epc.line]? = some epc ∧
        (afterMark cause).length = 16 ∧ (afterMark epc).length = 16 ∧
        (f.report.run w).logs = [⟨.error, "n64_machine",
          match f.exceptionCode? with
          | some code => "unhandled exception " ++ code.mnemonic ++ " at epc " ++
            ("0x" ++ .ofList (Numeral.significant (afterMark epc)))
          | none => "unhandled exception, cause " ++
            ("0x" ++ .ofList (Numeral.significant (afterMark cause))) ++ " at epc " ++
            ("0x" ++ .ofList (Numeral.significant (afterMark epc)))⟩] := by
  refine ⟨fun ω _ w => ⟨logs_report f w, events_report f w⟩, rfl,
    fun _ => exceptionCode?_eq_some_iff, fun f' ω ω' _ _ w w' => ?_, fun ω _ w htakes => ?_⟩
  · rw [logs_report, logs_report, List.singleton_inj, Log.Record.mk.injEq, and_iff_right rfl,
      and_iff_right rfl]
    exact logMessage_eq_iff
  · obtain ⟨_, _, hcalls, _⟩ := f.run_report_of_takes htakes
    obtain ⟨cause, epc, hcause, hepc, hcauseLength, hepcLength, hmessage⟩ := f.logMessage_eq_shown
    rw [hcalls, logs_report, hmessage]
    exact ⟨cause, epc, hcause, hepc, hcauseLength, hepcLength, rfl⟩

/-- A writer without limits shows the whole Cause word of a fault that has no name, and so does the
record; of one with a name neither the high half of the word nor another register matters. -/
theorem report_logs_fault_of_unknown_code :
    let unknown : Frame := ⟨0x8000000000000038, 0xffffffff80001234, 0, 0, 0⟩
    let store : Frame := ⟨0xc, 0, 0, 0, 0⟩
    let store' : Frame := ⟨0xffffffff0000000c, 0, 1, 2, 3⟩
    let w := LimitedWriter.make none none
    ((∀ before piece, Takes piece (handed before w)) ∧
      ∃ cause epc, (lines (String.join (unknown.report.run w).calls))[1]? = some cause ∧
        (lines (String.join (unknown.report.run w).calls))[2]? = some epc ∧
        (unknown.report.run w).logs = [⟨.error, "n64_machine",
          "unhandled exception, cause " ++
            ("0x" ++ .ofList (Numeral.significant (afterMark cause))) ++ " at epc " ++
            ("0x" ++ .ofList (Numeral.significant (afterMark epc)))⟩]) ∧
    (store.report.run w).logs = (store'.report.run w).logs := by
  intro unknown store store' w
  have htakes : ∀ before piece, Takes piece (handed before w) := LimitedWriter.takes_handed_make
  obtain ⟨_, _, _, _, hshown⟩ := report_logs_fault unknown
  obtain ⟨_, _, _, hsame, _⟩ := report_logs_fault store
  obtain ⟨cause, epc, hcause, hepc, _, _, hlogs⟩ := hshown LimitedWriter w htakes
  have hnone : unknown.exceptionCode? = none := by decide
  have hstore : store.exceptionCode? = some .tlbStore := by decide
  have hstore' : store'.exceptionCode? = some .tlbStore := by decide
  rw [hnone] at hlogs
  exact ⟨⟨htakes, cause, epc, hcause, hepc, hlogs⟩,
    (hsame store' LimitedWriter LimitedWriter w w).mpr ⟨rfl, .inl ⟨.tlbStore, hstore, hstore'⟩⟩⟩

end Vr4300.Exception.Frame
