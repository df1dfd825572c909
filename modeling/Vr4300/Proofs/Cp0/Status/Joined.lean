import Vr4300.Cp0.Status.Command
import Vr4300.Proofs.Cp0.Status.RoundTrip
import Vr4300.Proofs.Cp0.Status.Union

/-!
# Texts joined by bars

Next to a bar a text is read as it is alone, except that a blank one is an error there and not the
empty set (`readPart`). The reading of two texts with a bar between them is the reading of the one
and then of the other (`parse_append_bar`), so texts joined by bars are read as the union of what
they are read as alone (`parse_intercalate_bar`). Of the three forms the truncated one is the full
one with bits dropped (`parse_truncated`), and the strict one is the full one on texts without a
marked word (`parse_strict_eq_ok_iff`).
-/

namespace Vr4300.Cp0.Status

open Text

/-! ## Next to a bar -/

/-- The reading of a text that stands next to a bar. -/
def readPart (form : Form) (text : String) : Except ParseError Status :=
  (readBars form text.toList).map form.finish

theorem truncate_union (s t : Status) : (s.union t).truncate = s.truncate.union t.truncate := by
  apply ext_bit
  intro i
  simp only [truncate, union, Word.bit_and, Word.bit_or, Bool.and_or_distrib_right]

/-- A text with a bar in it is not blank. -/
theorem bar_notMem_of_blank {cs : List Char} (h : trim cs = []) : '|' ∉ cs := by
  intro hbar
  cases trim_eq_nil_iff.mp h '|' hbar

section
variable (form : Form)

theorem Form.finish_union (s t : Status) :
    form.finish (s.union t) = (form.finish s).union (form.finish t) := by
  cases form with
  | full | strict => rfl
  | truncated => exact truncate_union s t

theorem readPart_of_blank {text : String} (h : trim text.toList = []) :
    readPart form text = .error .emptyFlag := by
  rw [readPart, ← readBars_trim, h]
  rfl

theorem readPart_eq_parse {text : String} (h : trim text.toList ≠ []) :
    readPart form text = parse form text := by
  rw [parse_eq, if_neg h, readPart]

theorem parse_of_readPart {text : String} {s : Status} (h : readPart form text = .ok s) :
    parse form text = .ok s := by
  by_cases hblank : trim text.toList = []
  · rw [readPart_of_blank form hblank] at h
    cases h
  · rwa [readPart_eq_parse form hblank] at h

theorem readPart_append_bar (a b : String) :
    readPart form (a ++ "|" ++ b) =
      (readPart form a).bind fun s => (readPart form b).map s.union := by
  have hbar : (a ++ "|" ++ b).toList = a.toList ++ '|' :: b.toList := by simp
  rw [readPart, hbar, readBars_append_bar, readPart, readPart]
  cases readBars form a.toList with
  | error e => rfl
  | ok s =>
    cases readBars form b.toList with
    | error e => rfl
    | ok t => exact congrArg Except.ok (form.finish_union s t)

theorem parse_append_bar (a b : String) :
    parse form (a ++ "|" ++ b) =
      (readPart form a).bind fun s => (readPart form b).map s.union := by
  rw [← readPart_append_bar, readPart_eq_parse]
  intro hblank
  exact bar_notMem_of_blank hblank (by simp)

theorem readPart_intercalate {value : String → Status} {t : String} {ts : List String}
    (h : ∀ u ∈ t :: ts, readPart form u = .ok (value u)) :
    readPart form ("|".intercalate (t :: ts)) = .ok (unions ((t :: ts).map value)) := by
  induction ts generalizing t with
  | nil =>
    rw [String.intercalate_singleton, h t List.mem_cons_self, List.map_singleton, unions_cons]
    exact congrArg Except.ok (union_empty _).symm
  | cons u ts ih =>
    obtain ⟨ht, hts⟩ := List.forall_mem_cons.mp h
    rw [String.intercalate_cons_cons, readPart_append_bar, ht, ih hts]
    exact congrArg Except.ok (unions_cons (value t) _).symm

theorem parse_intercalate_bar {value : String → Status} {ts : List String} (hne : ts ≠ [])
    (h : ∀ t ∈ ts, trim t.toList ≠ [] ∧ parse form t = .ok (value t)) :
    parse form ("|".intercalate ts) = .ok (unions (ts.map value)) := by
  cases ts with
  | nil => exact absurd rfl hne
  | cons t ts =>
    apply parse_of_readPart
    apply readPart_intercalate
    intro u hu
    rw [readPart_eq_parse form (h u hu).1, (h u hu).2]

end

/-! ## White space around a text -/

/-- A text with white space, or nothing, on either side. -/
def Padded (p text : String) : Prop :=
  ∃ before after : List Char, (∀ c ∈ before, isBlank c = true) ∧ (∀ c ∈ after, isBlank c = true) ∧
    text.toList = before ++ p.toList ++ after

theorem Padded.trim_eq {p text : String} (h : Padded p text) :
    trim text.toList = trim p.toList := by
  obtain ⟨before, after, hbefore, hafter, htext⟩ := h
  rw [htext, trim_between hbefore hafter]

theorem Padded.parse_eq {p text : String} (h : Padded p text) (form : Form) :
    parse form text = parse form p := by
  simp only [parse, h.trim_eq]

/-- What a text is read as, and the empty set if it cannot be read. -/
def readD (form : Form) (text : String) : Status := (parse form text).toOption.getD empty

theorem readD_of_parse {form : Form} {text : String} {s : Status} (h : parse form text = .ok s) :
    readD form text = s := by
  rw [readD, h]
  rfl

theorem Padded.readD_eq {p text : String} (h : Padded p text) (form : Form) :
    readD form text = readD form p := by
  rw [readD, readD, h.parse_eq]

/-- Which texts are joined counts, not in what order, how often or with what around them. -/
theorem parse_intercalate_padded {form : Form} {value : String → Status} {ps texts : List String}
    (hne : ps ≠ []) (h : ∀ p ∈ ps, trim p.toList ≠ [] ∧ parse form p = .ok (value p))
    (hps : ∀ p ∈ ps, ∃ t ∈ texts, Padded p t) (htexts : ∀ t ∈ texts, ∃ p ∈ ps, Padded p t) :
    parse form ("|".intercalate texts) = .ok (unions (ps.map value)) := by
  have htexts_ne : texts ≠ [] := by
    obtain ⟨p, hp⟩ := List.exists_mem_of_ne_nil ps hne
    obtain ⟨t, ht, _⟩ := hps p hp
    exact List.ne_nil_of_mem ht
  have hvalue : ps.map value = ps.map (readD form) :=
    List.map_congr_left fun p hp => (readD_of_parse (h p hp).2).symm
  have hunions : unions (texts.map (readD form)) = unions (ps.map (readD form)) := by
    apply unions_eq_of_mem_iff
    intro s
    rw [List.mem_map, List.mem_map]
    constructor
    · rintro ⟨t, ht, rfl⟩
      obtain ⟨p, hp, hpad⟩ := htexts t ht
      exact ⟨p, hp, (hpad.readD_eq form).symm⟩
    · rintro ⟨p, hp, rfl⟩
      obtain ⟨t, ht, hpad⟩ := hps p hp
      exact ⟨t, ht, hpad.readD_eq form⟩
  rw [hvalue, ← hunions]
  apply parse_intercalate_bar form htexts_ne
  intro t ht
  obtain ⟨p, hp, hpad⟩ := htexts t ht
  obtain ⟨hblank, hparse⟩ := h p hp
  rw [← hpad.parse_eq form] at hparse
  rw [hpad.trim_eq, readD_of_parse hparse]
  exact ⟨hblank, hparse⟩

/-! ## The three forms -/

theorem parsePiece_unmarked (form : Form) {cs : List Char} (hne : cs ≠ [])
    (h : ¬['0', 'x'] <+: cs) :
    parsePiece form cs =
      match ofName? (.ofList cs) with
      | some s => .ok s
      | none => .error .unknownName := by
  unfold parsePiece
  split
  · exact absurd rfl hne
  · exact absurd (List.prefix_append ['0', 'x'] _) h
  · rfl

/-- Dropping bits is left to the end of a reading. -/
theorem parsePiece_truncated (cs : List Char) :
    parsePiece .truncated cs = parsePiece .full cs := by
  by_cases hmarked : ['0', 'x'] <+: cs
  · obtain ⟨ds, rfl⟩ := hmarked
    change parsePiece .truncated ('0' :: 'x' :: ds) = parsePiece .full ('0' :: 'x' :: ds)
    rw [parsePiece_marked, parsePiece_marked]
    cases Numeral.wordOfHex? ds <;> rfl
  · by_cases hne : cs = []
    · rw [hne]
      rfl
    · rw [parsePiece_unmarked .truncated hne hmarked, parsePiece_unmarked .full hne hmarked]

theorem parsePieces_truncated (css : List (List Char)) :
    parsePieces .truncated css = parsePieces .full css := by
  induction css with
  | nil => rfl
  | cons cs css ih => rw [parsePieces_cons, parsePieces_cons, parsePiece_truncated, ih]

theorem parse_truncated (text : String) :
    parse .truncated text = (parse .full text).map truncate := by
  rw [parse_eq, parse_eq, readBars, readBars, parsePieces_truncated]
  split
  · rfl
  · cases parsePieces .full (text.toList.splitOn '|') <;> rfl

theorem parsePiece_strict (cs : List Char) :
    parsePiece .strict cs =
      if ['0', 'x'] <+: cs then .error .invalidHex else parsePiece .full cs := by
  split
  next hmarked =>
    obtain ⟨ds, rfl⟩ := hmarked
    exact parsePiece_marked .strict ds
  next hmarked =>
    by_cases hne : cs = []
    · rw [hne]
      rfl
    · rw [parsePiece_unmarked .strict hne hmarked, parsePiece_unmarked .full hne hmarked]

theorem map_union_eq_ok_iff {r : Except ParseError Status} {s t : Status} :
    r.map s.union = .ok t ↔ ∃ u, r = .ok u ∧ s.union u = t := by
  cases r <;> simp [Except.map]

theorem parsePieces_strict_eq_ok_iff {css : List (List Char)} {s : Status} :
    parsePieces .strict css = .ok s ↔
      parsePieces .full css = .ok s ∧ ∀ cs ∈ css, ¬['0', 'x'] <+: trim cs := by
  induction css generalizing s with
  | nil => exact ⟨fun h => ⟨h, nofun⟩, And.left⟩
  | cons cs css ih =>
    rw [parsePieces_cons, parsePieces_cons, parsePiece_strict, List.forall_mem_cons]
    by_cases hmarked : ['0', 'x'] <+: trim cs
    · rw [if_pos hmarked]
      exact ⟨nofun, fun h => absurd hmarked h.2.1⟩
    · rw [if_neg hmarked]
      cases parsePiece .full (trim cs) with
      | error e => exact ⟨nofun, fun h => nomatch h.1⟩
      | ok t =>
        change Except.map t.union _ = _ ↔ Except.map t.union _ = _ ∧ _
        simp only [map_union_eq_ok_iff, ih]
        constructor
        · rintro ⟨u, ⟨hu, hcss⟩, hs⟩
          exact ⟨⟨u, hu, hs⟩, hmarked, hcss⟩
        · rintro ⟨⟨u, hu, hs⟩, _, hcss⟩
          exact ⟨u, ⟨hu, hcss⟩, hs⟩

theorem exists_ofFlag_of_parsePiece_strict {cs : List Char} {s : Status}
    (h : parsePiece .strict cs = .ok s) : ∃ f : Flag, s = ofFlag f := by
  rw [parsePiece_strict] at h
  by_cases hmarked : ['0', 'x'] <+: cs
  · rw [if_pos hmarked] at h
    cases h
  · rw [if_neg hmarked] at h
    by_cases hne : cs = []
    · rw [hne] at h
      cases h
    · rw [parsePiece_unmarked .full hne hmarked, ofName?] at h
      cases hname : Flag.ofName? (.ofList cs) with
      | none =>
        rw [hname] at h
        cases h
      | some f =>
        rw [hname] at h
        exact ⟨f, (Except.ok.inj h).symm⟩

/-- Names alone make up a set of flags. -/
theorem exists_ofFlags_of_parsePieces_strict {css : List (List Char)} {s : Status}
    (h : parsePieces .strict css = .ok s) : ∃ fs : List Flag, s = ofFlags fs := by
  induction css generalizing s with
  | nil => exact ⟨[], (Except.ok.inj h).symm⟩
  | cons cs css ih =>
    rw [parsePieces_cons] at h
    cases hpiece : parsePiece .strict (trim cs) with
    | error e =>
      rw [hpiece] at h
      cases h
    | ok t =>
      rw [hpiece] at h
      obtain ⟨u, hu, rfl⟩ := map_union_eq_ok_iff.mp h
      obtain ⟨fs, rfl⟩ := ih hu
      obtain ⟨f, rfl⟩ := exists_ofFlag_of_parsePiece_strict hpiece
      exact ⟨f :: fs, rfl⟩

theorem truncate_ofFlags (fs : List Flag) : (ofFlags fs).truncate = ofFlags fs := by
  induction fs with
  | nil => rfl
  | cons f fs ih =>
    have hflag : (ofFlag f).truncate = ofFlag f := by cases f <;> rfl
    change ((ofFlag f).union (ofFlags fs)).truncate = (ofFlag f).union (ofFlags fs)
    rw [truncate_union, hflag, ih]

theorem parse_eq_parsePieces (form : Form) (hform : form ≠ .truncated) {text : String}
    (h : trim text.toList ≠ []) :
    parse form text = parsePieces form (text.toList.splitOn '|') := by
  rw [parse_eq, if_neg h, readBars]
  cases form with
  | truncated => exact absurd rfl hform
  | full | strict => cases parsePieces _ (text.toList.splitOn '|') <;> rfl

theorem parse_strict_eq_ok_iff {text : String} {s : Status} :
    parse .strict text = .ok s ↔
      parse .full text = .ok s ∧ ∀ piece ∈ text.toList.splitOn '|', ¬['0', 'x'] <+: trim piece := by
  by_cases hblank : trim text.toList = []
  · have hpieces : ∀ piece ∈ text.toList.splitOn '|', ¬['0', 'x'] <+: trim piece := by
      rw [List.splitOn_eq_singleton (bar_notMem_of_blank hblank)]
      intro piece hpiece
      rw [List.mem_singleton.mp hpiece, hblank]
      nofun
    rw [parse_eq, parse_eq, if_pos hblank, if_pos hblank]
    exact (and_iff_left hpieces).symm
  · rw [parse_eq_parsePieces .strict nofun hblank, parse_eq_parsePieces .full nofun hblank]
    exact parsePieces_strict_eq_ok_iff

theorem truncate_of_parse_strict {text : String} {s : Status} (h : parse .strict text = .ok s) :
    s.truncate = s := by
  by_cases hblank : trim text.toList = []
  · rw [parse_eq, if_pos hblank] at h
    rw [← Except.ok.inj h]
    rfl
  · rw [parse_eq_parsePieces .strict nofun hblank] at h
    obtain ⟨fs, rfl⟩ := exists_ofFlags_of_parsePieces_strict h
    exact truncate_ofFlags fs

/-- **Joined texts are read part by part.** Of two texts with a bar between them the first error
counts, a blank text being an error there, and without one the values are united. So pieces that
can be read are read as the union of their values however they are joined: in any order, repeated,
with white space around each. The truncated form reads what the full one does, and drops bits; the
strict one reads what the full one does where no piece is a marked word, and then all bits have
names. A command that fails to read a new value leaves the set as it was. -/
theorem parse_joined :
    ParseError.emptyFlag.message = "encountered empty flag" ∧
    (∀ (form : Form) (a b : String),
      (trim a.toList ≠ [] → trim b.toList ≠ [] → parse form (a ++ "|" ++ b) =
        (parse form a).bind fun s => (parse form b).map fun t => ⟨s.bits ||| t.bits⟩) ∧
      (trim a.toList = [] → parse form (a ++ "|" ++ b) = .error .emptyFlag) ∧
      (trim a.toList ≠ [] → trim b.toList = [] → parse form (a ++ "|" ++ b) =
        (parse form a).bind fun _ => .error .emptyFlag)) ∧
    (∀ (form : Form) (value : String → Status) (ps texts : List String), ps ≠ [] →
      (∀ p ∈ ps, trim p.toList ≠ [] ∧ parse form p = .ok (value p)) →
      (∀ p ∈ ps, ∃ t ∈ texts, Padded p t) → (∀ t ∈ texts, ∃ p ∈ ps, Padded p t) →
      parse form ("|".intercalate texts) = .ok (unions (ps.map value))) ∧
    (∀ text, parse .truncated text = (parse .full text).map fun s => ⟨s.bits &&& named⟩) ∧
    (∀ text s,
      (parse .strict text = .ok s ↔
        parse .full text = .ok s ∧
          ∀ piece ∈ text.toList.splitOn '|', ¬"0x".toList <+: trim piece) ∧
      (parse .strict text = .ok s → s.bits &&& named = s.bits)) ∧
    ∀ s : Status,
      (∀ form text e, parse form text = .error e →
        (Command.parse form text).run s = (s, .parsed (.error e))) ∧
      (∀ name, ofName? name = none → (Command.assignName name).run s = (s, .truth false)) ∧
      ∀ bits, ofBits? bits = none → (Command.assignBits bits).run s = (s, .truth false) := by
  refine ⟨rfl, fun form a b => ⟨fun ha hb => ?_, fun ha => ?_, fun ha hb => ?_⟩, ?_,
    parse_truncated, fun text s => ⟨parse_strict_eq_ok_iff, fun h => ?_⟩, fun s => ⟨?_, ?_, ?_⟩⟩
  · rw [parse_append_bar, readPart_eq_parse form ha, readPart_eq_parse form hb]
    rfl
  · rw [parse_append_bar, readPart_of_blank form ha]
    rfl
  · rw [parse_append_bar, readPart_eq_parse form ha, readPart_of_blank form hb]
    rfl
  · intro form value ps texts hne h hps htexts
    exact parse_intercalate_padded hne h hps htexts
  · exact congrArg bits (truncate_of_parse_strict h)
  · exact fun _ _ _ => Command.run_parse_of_eq_error
  · exact fun _ => Command.run_assignName_of_eq_none
  · exact fun _ => Command.run_assignBits_of_eq_none

/-- A name and a word joined, a blank text on either side of a bar, two pieces of which one occurs
twice with white space around it, and readings that fail. -/
theorem parse_joined_of_padded_pieces :
    let value (p : String) : Status := if p = "FR" then ofFlag .fr else ⟨0x10⟩
    let ps := ["FR", "0x10"]
    let texts := [" 0x10", "\u2003FR", "0x10\t"]
    (trim "CU1".toList ≠ [] ∧ trim "0x+fF".toList ≠ [] ∧
      parse .full "CU1|0x+fF" = .ok ⟨0x200000ff⟩) ∧
    (trim " \t".toList = [] ∧ parse .full " \t|CU1" = .error .emptyFlag ∧
      parse .full "CU2| \t" = .error .unknownName) ∧
    ((∀ p ∈ ps, trim p.toList ≠ [] ∧ parse .full p = .ok (value p)) ∧
      (∀ p ∈ ps, ∃ t ∈ texts, Padded p t) ∧ (∀ t ∈ texts, ∃ p ∈ ps, Padded p t) ∧
      parse .full " 0x10|\u2003FR|0x10\t" = .ok ⟨0x04000010⟩) ∧
    (parse .strict "FR|PE" = .ok ⟨0x04100000⟩ ∧ (0x04100000 : UInt32) &&& named = 0x04100000) ∧
    (parse .strict "0x1" = .error .invalidHex ∧
      (Command.parse .strict "0x1").run ⟨7⟩ = (⟨7⟩, .parsed (.error .invalidHex))) ∧
    (ofName? "fpu" = none ∧ (Command.assignName "fpu").run ⟨7⟩ = (⟨7⟩, .truth false)) ∧
    ofBits? 1 = none ∧ (Command.assignBits 1).run ⟨7⟩ = (⟨7⟩, .truth false) := by
  intro value ps texts
  obtain ⟨_, hbar, hpieces, _, hstrict, hfails⟩ := parse_joined
  obtain ⟨hparse, hname, hbits⟩ := hfails ⟨7⟩
  have hcu1 : trim "CU1".toList ≠ [] := by decide
  have hcu2 : trim "CU2".toList ≠ [] := by decide
  have hword : trim "0x+fF".toList ≠ [] := by decide
  have hblank : trim " \t".toList = [] := by decide
  have hread : ∀ p ∈ ps, trim p.toList ≠ [] ∧ parse .full p = .ok (value p) :=
    List.forall_mem_cons.mpr
      ⟨⟨by decide, rfl⟩, List.forall_mem_singleton.mpr ⟨by decide, rfl⟩⟩
  have hfr : Padded "FR" "\u2003FR" :=
    ⟨['\u2003'], [], List.forall_mem_singleton.mpr rfl, List.forall_mem_nil _, rfl⟩
  have hfront : Padded "0x10" " 0x10" :=
    ⟨[' '], [], List.forall_mem_singleton.mpr rfl, List.forall_mem_nil _, rfl⟩
  have hback : Padded "0x10" "0x10\t" :=
    ⟨[], ['\t'], List.forall_mem_nil _, List.forall_mem_singleton.mpr rfl, rfl⟩
  have hps : ∀ p ∈ ps, ∃ t ∈ texts, Padded p t :=
    List.forall_mem_cons.mpr
      ⟨⟨_, by decide, hfr⟩, List.forall_mem_singleton.mpr ⟨_, by decide, hback⟩⟩
  have htexts : ∀ t ∈ texts, ∃ p ∈ ps, Padded p t :=
    List.forall_mem_cons.mpr ⟨⟨_, by decide, hfront⟩, List.forall_mem_cons.mpr
      ⟨⟨_, by decide, hfr⟩, List.forall_mem_singleton.mpr ⟨_, by decide, hback⟩⟩⟩
  have hjoined : parse .full " 0x10|\u2003FR|0x10\t" = .ok ⟨0x04000010⟩ := by
    have htext : "|".intercalate texts = " 0x10|\u2003FR|0x10\t" := by decide
    have hunion : unions (ps.map value) = ⟨0x04000010⟩ := by decide
    rw [← htext, ← hunion]
    exact hpieces .full value ps texts (by decide) hread hps htexts
  have hnames : parse .strict "FR|PE" = .ok ⟨0x04100000⟩ :=
    (hstrict "FR|PE" _).1.mpr ⟨rfl, by decide⟩
  refine ⟨⟨hcu1, hword, (hbar .full "CU1" "0x+fF").1 hcu1 hword⟩,
    ⟨hblank, (hbar .full " \t" "CU1").2.1 hblank, (hbar .full "CU2" " \t").2.2 hcu2 hblank⟩,
    ⟨hread, hps, htexts, hjoined⟩,
    ⟨hnames, (hstrict _ _).2 hnames⟩, ⟨rfl, hparse _ _ _ rfl⟩, ⟨rfl, hname _ rfl⟩, rfl, hbits _ rfl⟩

end Vr4300.Cp0.Status
