import Vr4300.Proofs.Numeral
import Vr4300.Proofs.Cp0.Status.Cover
import Vr4300.Proofs.Cp0.Status.Reading

/-!
# Reading what was written

The text of a status set consists of pieces that are read one by one: the name of a flag gives the
flag (`parsePiece_name`), a marked word gives the word unless only names are allowed
(`parsePiece_markedHex`). Together they give the set (`parsePieces_pieces`), so the full text reads
back as the set and the texts without unnamed bits as the named part of it (`text_round_trip`).
-/

namespace Vr4300.Cp0.Status

open Text

/-! ## The pieces of a text -/

/-- A character that can stand in a piece: no bar and no white space. -/
def IsPlain (c : Char) : Prop := c ≠ '|' ∧ isBlank c = false

theorem isPiece_of_plain {p : String} (hne : p.toList ≠ []) (h : ∀ c ∈ p.toList, IsPlain c) :
    IsPiece p := by
  refine ⟨fun hbar => (h _ hbar).1 rfl, ?_⟩
  rwa [trim_of_not_blank fun c hc => (h c hc).2]

theorem isPlain_of_mem_name {f : Flag} {c : Char} (hc : c ∈ f.name.toList) : IsPlain c := by
  have hname : f.name.toList.all fun c => c != '|' && !isBlank c := by cases f <;> rfl
  simpa [IsPlain] using List.all_eq_true.mp hname c hc

theorem isPlain_of_mem_markedHex {n : Nat} {c : Char} (hc : c ∈ (Numeral.markedHex n).toList) :
    IsPlain c := by
  have hdigit : ∀ d : Fin 16, d.val.digitChar ≠ '|' ∧ isBlank d.val.digitChar = false := by decide
  rw [Numeral.toList_markedHex, List.mem_cons, List.mem_cons] at hc
  obtain rfl | rfl | hc := hc
  · exact ⟨by decide, by decide⟩
  · exact ⟨by decide, by decide⟩
  · obtain ⟨d, hd, rfl⟩ := Numeral.isHexDigit_of_mem_digits hc
    exact hdigit ⟨d, hd⟩

theorem isPiece_name (f : Flag) : IsPiece f.name :=
  isPiece_of_plain (by cases f <;> decide) fun _ => isPlain_of_mem_name

theorem isPiece_markedHex (n : Nat) : IsPiece (Numeral.markedHex n) :=
  isPiece_of_plain (by simp) fun _ => isPlain_of_mem_markedHex

theorem isPiece_of_mem_names {s : Status} {p : String} (hp : p ∈ s.names) : IsPiece p := by
  obtain ⟨f, _, rfl⟩ := List.mem_map.mp hp
  exact isPiece_name f

theorem isPiece_of_mem_pieces {s : Status} {p : String} (hp : p ∈ s.pieces) : IsPiece p := by
  obtain hp | hp := List.mem_append.mp hp
  · exact isPiece_of_mem_names hp
  · split at hp
    · cases hp
    · obtain rfl := List.mem_singleton.mp hp
      exact isPiece_markedHex _

/-! ## The set that the pieces make up -/

theorem parsePiece_name (form : Form) (f : Flag) :
    parsePiece form (trim f.name.toList) = .ok (ofFlag f) := by
  cases form <;> cases f <;> rfl

/-- A piece with the mark of a word is read as the rest of it says. -/
theorem parsePiece_marked (form : Form) (cs : List Char) :
    parsePiece form ('0' :: 'x' :: cs) =
      match form, Numeral.wordOfHex? cs with
      | .strict, _ | _, none => .error .invalidHex
      | _, some w => .ok ⟨w⟩ := rfl

theorem parsePiece_markedHex (form : Form) (w : UInt32) :
    parsePiece form (trim (Numeral.markedHex w.toNat).toList) =
      if form = .strict then .error .invalidHex else .ok ⟨w⟩ := by
  rw [trim_of_not_blank fun c hc => (isPlain_of_mem_markedHex hc).2, Numeral.toList_markedHex,
    parsePiece_marked, Numeral.wordOfHex?_digits]
  cases form <;> rfl

theorem parsePieces_names (form : Form) (fs : List Flag) :
    parsePieces form ((fs.map Flag.name).map String.toList) = .ok (ofFlags fs) := by
  induction fs with
  | nil => rfl
  | cons f fs ih =>
    rw [List.map_cons, List.map_cons, parsePieces_cons, parsePiece_name, ih]
    rfl

theorem parsePieces_markedHex (form : Form) (w : UInt32) :
    parsePieces form [(Numeral.markedHex w.toNat).toList] =
      if form = .strict then .error .invalidHex else .ok ⟨w⟩ := by
  rw [parsePieces_cons, parsePiece_markedHex]
  split
  · rfl
  · exact congrArg Except.ok (union_empty ⟨w⟩)

/-- The pieces of a set give the set, except that the strict form reads no word. -/
theorem parsePieces_pieces (form : Form) (s : Status) :
    parsePieces form (s.pieces.map String.toList) =
      if form = .strict ∧ s.unnamed ≠ 0 then .error .invalidHex else .ok s := by
  have hset := s.ofFlags_union_unnamed
  unfold pieces names
  by_cases hnamed : s.unnamed = 0
  · rw [if_pos hnamed, List.append_nil, parsePieces_names, if_neg fun h => h.2 hnamed]
    rw [hnamed] at hset
    exact congrArg Except.ok ((union_empty _).symm.trans hset)
  · rw [if_neg hnamed, List.map_append, parsePieces_append, parsePieces_names, List.map_singleton,
      parsePieces_markedHex]
    by_cases hform : form = .strict
    · rw [if_pos hform, if_pos ⟨hform, hnamed⟩]
      rfl
    · rw [if_neg hform, if_neg fun h => hform h.1]
      exact congrArg Except.ok hset

/-! ## Texts -/

theorem parse_text_full (form : Form) (s : Status) :
    parse form (s.text .full) =
      if form = .strict ∧ s.unnamed ≠ 0 then .error .invalidHex else .ok (form.finish s) := by
  change parse form (" | ".intercalate s.pieces) = _
  rw [parse_intercalate form fun _ => isPiece_of_mem_pieces, parsePieces_pieces]
  split <;> rfl

theorem parse_text_strict (form : Form) (s : Status) :
    parse form (s.text .strict) = .ok (form.finish s.truncate) := by
  change parse form (" | ".intercalate s.names) = _
  rw [parse_intercalate form fun _ => isPiece_of_mem_names, names, parsePieces_names,
    ofFlags_flags]
  rfl

theorem parse_full_text_full (s : Status) : parse .full (s.text .full) = .ok s := by
  rw [parse_text_full, if_neg (nomatch ·.1)]
  rfl

theorem text_full_inj {s t : Status} : s.text .full = t.text .full ↔ s = t := by
  refine ⟨fun h => ?_, congrArg _⟩
  have hread := s.parse_full_text_full
  rw [h, parse_full_text_full] at hread
  exact (Except.ok.inj hread).symm

/-- The names alone are the full text if there is nothing else. -/
theorem text_full_eq_text_strict {s : Status} :
    s.text .full = s.text .strict ↔ s.unnamed = 0 := by
  constructor
  · intro h
    have hread := s.parse_full_text_full
    -- the names alone are read as the named part, which must then be everything
    rw [h, parse_text_strict] at hread
    have htruncate : s.truncate = s := Except.ok.inj hread
    rw [unnamed_eq, ← htruncate, truncate, UInt32.and_assoc, UInt32.and_not_self, UInt32.and_zero]
  · intro h
    change " | ".intercalate s.pieces = " | ".intercalate s.names
    rw [pieces, if_pos h, List.append_nil]

theorem parse_full_describe (s : Status) :
    ∃ text, s.describe = "StatusFlags(" ++ text ++ ")" ∧ parse .full text = .ok s := by
  refine ⟨_, rfl, ?_⟩
  split
  next h =>
    -- the zero that stands for the empty text is read as a word
    have hs : s = empty := congrArg Status.mk (beq_iff_eq.mp h)
    rw [hs]
    rfl
  next => exact s.parse_full_text_full

/-- The texts of a set and what each form reads in them: the full text and the described one give
the set, and without the unnamed bits, dropped on either side, it is the named part. The strict
form reads a full text only if all of its bits have names, and then that text is the strict one. -/
theorem text_round_trip (s : Status) :
    named = Flag.cu1.mask ||| Flag.fr.mask ||| Flag.bev.mask ||| Flag.pe.mask ∧
    parse .full (s.text .full) = .ok s ∧
    (∃ text, s.describe = "StatusFlags(" ++ text ++ ")" ∧ parse .full text = .ok s) ∧
    parse .truncated (s.text .full) = .ok ⟨s.bits &&& named⟩ ∧
    parse .full (s.text .truncated) = .ok ⟨s.bits &&& named⟩ ∧
    parse .strict (s.text .strict) = .ok ⟨s.bits &&& named⟩ ∧
    parse .strict (s.text .full) =
      (if s.bits &&& ~~~named = 0 then .ok s else .error .invalidHex) ∧
    ParseError.invalidHex.message = "invalid hex flag" ∧
    (∀ t : Status, s.text .full = t.text .full ↔ s = t) ∧
    (s.text .full = s.text .strict ↔ s.bits &&& ~~~named = 0) := by
  have htruncated : parse .truncated (s.text .full) = .ok s.truncate := by
    rw [parse_text_full, if_neg (nomatch ·.1)]
    rfl
  have hstrict : parse .strict (s.text .full) =
      if s.bits &&& ~~~named = 0 then .ok s else .error .invalidHex := by
    rw [parse_text_full, unnamed_eq]
    by_cases h : s.bits &&& ~~~named = 0
    · rw [if_pos h, if_neg (·.2 h)]
      rfl
    · rw [if_neg h, if_pos ⟨rfl, h⟩]
  refine ⟨by decide, s.parse_full_text_full, s.parse_full_describe, htruncated,
    s.truncate.parse_full_text_full, parse_text_strict .strict s, hstrict, rfl,
    fun _ => text_full_inj, ?_⟩
  rw [text_full_eq_text_strict, unnamed_eq]

end Vr4300.Cp0.Status
