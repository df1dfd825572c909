import Vr4300.Cp0.Status.Text
import Vr4300.Proofs.Text.Blank

/-!
# Reading a list of flags

A text that is not blank is read piece by piece between its bars (`parse_eq`). The reading of two
texts with a bar between them is that of the one and then of the other
(`readBars_append_bar`), and white space around a text does not count (`readBars_trim`). So pieces
joined by bars are read as the pieces themselves (`parse_intercalate`).
-/

namespace Vr4300.Cp0.Status

open Text

/-- What a form does to the set that was read. -/
def Form.finish : Form → Status → Status
  | truncated, s => s.truncate
  | full, s | strict, s => s

/-- The set that the pieces between the bars of a text make up. -/
def readBars (form : Form) (cs : List Char) : Except ParseError Status :=
  parsePieces form (cs.splitOn '|')

theorem empty_union (s : Status) : empty.union s = s := congrArg Status.mk (UInt32.zero_or)

theorem union_empty (s : Status) : s.union empty = s := congrArg Status.mk (UInt32.or_zero)

theorem union_assoc (s t u : Status) : (s.union t).union u = s.union (t.union u) :=
  congrArg Status.mk (UInt32.or_assoc ..)

variable (form : Form)

/-! ## Pieces -/

theorem parsePieces_cons (cs : List Char) (css : List (List Char)) :
    parsePieces form (cs :: css) =
      (parsePiece form (trim cs)).bind fun s => (parsePieces form css).map s.union := by
  rw [parsePieces]
  cases parsePiece form (trim cs) with
  | error e => rfl
  | ok s => cases parsePieces form css <;> rfl

theorem parsePieces_append (css css' : List (List Char)) :
    parsePieces form (css ++ css') =
      (parsePieces form css).bind fun s => (parsePieces form css').map s.union := by
  induction css with
  | nil =>
    change parsePieces form css' = (parsePieces form css').map empty.union
    cases parsePieces form css' with
    | error e => rfl
    | ok s => exact congrArg Except.ok (empty_union s).symm
  | cons cs css ih =>
    rw [List.cons_append, parsePieces_cons, parsePieces_cons, ih]
    cases parsePiece form (trim cs) with
    | error e => rfl
    | ok s =>
      cases parsePieces form css with
      | error e => rfl
      | ok t =>
        cases parsePieces form css' with
        | error e => rfl
        | ok u => exact congrArg Except.ok (union_assoc s t u).symm

/-! ## Bars and white space -/

theorem readBars_append_bar (cs cs' : List Char) :
    readBars form (cs ++ '|' :: cs') =
      (readBars form cs).bind fun s => (readBars form cs').map s.union := by
  rw [readBars, List.splitOn_append_cons_self, parsePieces_append]
  rfl

theorem readBars_of_notMem {cs : List Char} (h : '|' ∉ cs) :
    readBars form cs = parsePieces form [cs] := by
  rw [readBars, List.splitOn_eq_singleton h]

theorem readBars_cons_of_blank {c : Char} (hc : isBlank c = true) (cs : List Char) :
    readBars form (c :: cs) = readBars form cs := by
  have hbar : ¬(c == '|') = true := by
    rw [beq_iff_eq]
    rintro rfl
    cases hc
  obtain ⟨p, ps, hsplit⟩ := List.exists_cons_of_ne_nil (List.splitOn_ne_nil '|' cs)
  rw [readBars, readBars, List.splitOn_cons_eq_if_modifyHead, if_neg hbar, hsplit,
    List.modifyHead_cons, parsePieces_cons, parsePieces_cons, trim_cons_of_blank hc]

theorem readBars_append_of_blank {c : Char} (hc : isBlank c = true) (cs : List Char) :
    readBars form (cs ++ [c]) = readBars form cs := by
  by_cases hbar : '|' ∈ cs
  · -- the blank character is in the last piece, so the pieces before a bar are not concerned
    obtain ⟨before, after, rfl⟩ := List.append_of_mem hbar
    rw [List.append_assoc, List.cons_append, readBars_append_bar, readBars_append_bar,
      readBars_append_of_blank hc after]
  · have hbar' : '|' ∉ cs ++ [c] := by
      rw [List.mem_append, List.mem_singleton, not_or]
      refine ⟨hbar, ?_⟩
      rintro rfl
      cases hc
    rw [readBars_of_notMem form hbar, readBars_of_notMem form hbar', parsePieces_cons,
      parsePieces_cons, trim_append_of_blank hc]
termination_by cs.length
decreasing_by
  subst_vars
  simp only [List.length_append, List.length_cons]
  omega

theorem readBars_trim (cs : List Char) : readBars form (trim cs) = readBars form cs := by
  obtain ⟨before, after, hbefore, hafter, hcs⟩ := exists_trim cs
  calc readBars form (trim cs)
    _ = readBars form (before ++ trim cs ++ after) :=
      (eq_between_of_blank (fun _ cs hc => readBars_cons_of_blank form hc cs)
        (fun _ cs hc => readBars_append_of_blank form hc cs) hbefore hafter _).symm
    _ = readBars form cs := by rw [← hcs]

/-! ## Texts -/

/-- A blank text is the empty set, any other one is what its pieces make up. -/
theorem parse_eq (text : String) :
    parse form text =
      if trim text.toList = [] then .ok empty else (readBars form text.toList).map form.finish := by
  unfold parse
  rw [← readBars_trim form text.toList, readBars]
  refine ite_congr (propext List.isEmpty_iff) (fun _ => rfl) fun _ => ?_
  generalize parsePieces form ((trim text.toList).splitOn '|') = result
  cases form <;> cases result <;> rfl

/-- A text that can stand between two bars. -/
def IsPiece (text : String) : Prop := '|' ∉ text.toList ∧ trim text.toList ≠ []

theorem readBars_intercalate {p : String} {ps : List String}
    (h : ∀ q ∈ p :: ps, '|' ∉ q.toList) :
    readBars form (" | ".intercalate (p :: ps)).toList =
      parsePieces form ((p :: ps).map String.toList) := by
  induction ps generalizing p with
  | nil =>
    rw [String.intercalate_singleton]
    exact readBars_of_notMem form (h p List.mem_cons_self)
  | cons q ps ih =>
    obtain ⟨hp, hps⟩ := List.forall_mem_cons.mp h
    have htext : (" | ".intercalate (p :: q :: ps)).toList =
        p.toList ++ [' '] ++ '|' :: ' ' :: (" | ".intercalate (q :: ps)).toList := by
      rw [String.intercalate_cons_cons, String.toList_append, String.toList_append,
        List.append_assoc, List.append_assoc]
      rfl
    rw [htext, readBars_append_bar, readBars_append_of_blank form (by decide),
      readBars_cons_of_blank form (by decide), ih hps, readBars_of_notMem form hp,
      ← parsePieces_append]
    rfl

/-- Pieces joined by bars are read as the pieces. -/
theorem parse_intercalate {ps : List String} (h : ∀ p ∈ ps, IsPiece p) :
    parse form (" | ".intercalate ps) =
      (parsePieces form (ps.map String.toList)).map form.finish := by
  cases ps with
  | nil => cases form <;> rfl
  | cons p ps =>
    have hmem {c : Char} (hc : c ∈ p.toList) : c ∈ (" | ".intercalate (p :: ps)).toList := by
      cases ps with
      | nil => rwa [String.intercalate_singleton]
      | cons q ps =>
        rw [String.intercalate_cons_cons, String.toList_append, String.toList_append]
        exact List.mem_append_left _ (List.mem_append_left _ hc)
    have hne : trim (" | ".intercalate (p :: ps)).toList ≠ [] := by
      intro hnil
      refine (h p List.mem_cons_self).2 (trim_eq_nil_iff.mpr fun c hc => ?_)
      exact trim_eq_nil_iff.mp hnil c (hmem hc)
    rw [parse_eq, if_neg hne, readBars_intercalate form fun q hq => (h q hq).1]

end Vr4300.Cp0.Status
