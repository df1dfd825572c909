import Vr4300.Boot

/-!
# Boot words, decoded exactly

The decoders of the three words have one law, `Boot.Exact`: a word of the type is decoded to its
value, and any other is refused by itself. Three words are either those of some boot information,
which they decode to (`BootInfo.decode_word`), or there is a first among them that has no value, and
the error carries that one (`BootInfo.decode_of_firstRefused`).
-/

namespace Vr4300

open Boot

namespace Boot

/-- `decode` inverts `word`, and what is the word of no value it refuses. -/
structure Exact {α : Type} (word : α → UInt32) (decode : UInt32 → Except Error α) : Prop where
  accepts : ∀ a, decode (word a) = .ok a
  refuses : ∀ w, (∀ a, word a ≠ w) → decode w = .error (.invalidBootInfo w)

theorem ResetType.exact : Exact ResetType.word ResetType.decode where
  accepts r := by cases r <;> rfl
  refuses _ h := (if_neg (h cold).symm).trans (if_neg (h warm).symm)

theorem VideoType.exact : Exact VideoType.word VideoType.decode where
  accepts v := by cases v <;> rfl
  refuses _ h :=
    (if_neg (h pal).symm).trans ((if_neg (h ntsc).symm).trans (if_neg (h mpal).symm))

theorem PakType.exact : Exact PakType.word PakType.decode where
  accepts p := by cases p <;> rfl
  refuses _ h := (if_neg (h jumper).symm).trans (if_neg (h expansion).symm)

end Boot

namespace BootInfo

/-- In the order in which they are decoded. -/
def words (b : BootInfo) : UInt32 × UInt32 × UInt32 := (b.reset.word, b.video.word, b.pak.word)

/-- The last of the four words is the first of the others that is the word of no value. Nothing is
said about the words behind it. -/
inductive FirstRefused : UInt32 → UInt32 → UInt32 → UInt32 → Prop
  | reset {reset video pak : UInt32} :
      (∀ r : ResetType, r.word ≠ reset) → FirstRefused reset video pak reset
  | video (r : ResetType) {video pak : UInt32} :
      (∀ v : VideoType, v.word ≠ video) → FirstRefused r.word video pak video
  | pak (r : ResetType) (v : VideoType) {pak : UInt32} :
      (∀ p : PakType, p.word ≠ pak) → FirstRefused r.word v.word pak pak

theorem words_or_firstRefused (reset video pak : UInt32) :
    (∃ b : BootInfo, b.words = (reset, video, pak)) ∨ ∃ w, FirstRefused reset video pak w := by
  rcases Classical.em (∃ r : ResetType, r.word = reset) with ⟨r, rfl⟩ | hreset
  · rcases Classical.em (∃ v : VideoType, v.word = video) with ⟨v, rfl⟩ | hvideo
    · rcases Classical.em (∃ p : PakType, p.word = pak) with ⟨p, rfl⟩ | hpak
      · exact .inl ⟨⟨r, v, p⟩, rfl⟩
      · exact .inr ⟨pak, .pak r v fun p hp => hpak ⟨p, hp⟩⟩
    · exact .inr ⟨video, .video r fun v hv => hvideo ⟨v, hv⟩⟩
  · exact .inr ⟨reset, .reset fun r hr => hreset ⟨r, hr⟩⟩

theorem decode_word (b : BootInfo) : decode b.reset.word b.video.word b.pak.word = .ok b := by
  rw [decode, ResetType.exact.accepts, VideoType.exact.accepts, PakType.exact.accepts]
  rfl

variable {reset video pak : UInt32}

theorem decode_of_firstRefused {w : UInt32} (h : FirstRefused reset video pak w) :
    decode reset video pak = .error (.invalidBootInfo w) := by
  cases h with
  | reset h =>
    rw [decode, ResetType.exact.refuses _ h]
    rfl
  | video r h =>
    rw [decode, ResetType.exact.accepts, VideoType.exact.refuses _ h]
    rfl
  | pak r v h =>
    rw [decode, ResetType.exact.accepts, VideoType.exact.accepts, PakType.exact.refuses _ h]
    rfl

theorem decode_eq_ok_iff {b : BootInfo} :
    decode reset video pak = .ok b ↔ b.words = (reset, video, pak) := by
  constructor
  · intro h
    obtain ⟨b', hwords⟩ | ⟨w, hw⟩ := words_or_firstRefused reset video pak
    · cases hwords
      rw [decode_word] at h
      rw [← Except.ok.inj h]
      rfl
    · rw [decode_of_firstRefused hw] at h
      cases h
  · intro h
    cases h
    exact decode_word b

theorem decode_eq_error_iff {e : Error} :
    decode reset video pak = .error e ↔
      ∃ w, FirstRefused reset video pak w ∧ e = .invalidBootInfo w := by
  constructor
  · intro h
    obtain ⟨b, hwords⟩ | ⟨w, hw⟩ := words_or_firstRefused reset video pak
    · rw [decode_eq_ok_iff.mpr hwords] at h
      cases h
    · rw [decode_of_firstRefused hw] at h
      exact ⟨w, hw, (Except.error.inj h).symm⟩
  · rintro ⟨w, hw, rfl⟩
    exact decode_of_firstRefused hw

/-- **Boot words are decoded exactly, and the first bad one is reported.** Each decoder accepts the
words of its type and no other word. Three words are accepted as an information if and only if they
are its words, so an accepted triple is written back as it was and no two triples give the same
information. All other triples are refused by their first word that has no value. -/
theorem first_refused_word_decides :
    (Exact ResetType.word ResetType.decode ∧ Exact VideoType.word VideoType.decode ∧
      Exact PakType.word PakType.decode) ∧
    ∀ reset video pak : UInt32,
      (∀ b, decode reset video pak = .ok b ↔ b.words = (reset, video, pak)) ∧
      (∀ b reset' video' pak', decode reset video pak = .ok b →
        (reset', video', pak') ≠ (reset, video, pak) → decode reset' video' pak' ≠ .ok b) ∧
      ∀ e, decode reset video pak = .error e ↔
        ∃ w, FirstRefused reset video pak w ∧ e = .invalidBootInfo w := by
  refine ⟨⟨ResetType.exact, VideoType.exact, PakType.exact⟩, fun reset video pak =>
    ⟨fun b => decode_eq_ok_iff, fun b reset' video' pak' h hne h' => ?_,
      fun e => decode_eq_error_iff⟩⟩
  exact hne ((decode_eq_ok_iff.mp h').symm.trans (decode_eq_ok_iff.mp h))

/-- Three bad words, a memory size in the place of the region, and two triples that are accepted. -/
theorem first_refused_word_decides_of_misplaced_words :
    decode 2 3 0 = .error (.invalidBootInfo 2) ∧
    decode 1 0x800000 0x800000 = .error (.invalidBootInfo 0x800000) ∧
    (∃ b, decode 1 2 0x800000 = .ok b ∧ decode 0 2 0x800000 ≠ .ok b) := by
  obtain ⟨_, h⟩ := first_refused_word_decides
  have hbad : ∀ r : ResetType, r.word ≠ 2 := by
    intro r
    cases r <;> decide
  have hmisplaced : ∀ v : VideoType, v.word ≠ 0x800000 := by
    intro v
    cases v <;> decide
  refine ⟨((h 2 3 0).2.2 _).mpr ⟨2, .reset hbad, rfl⟩,
    ((h 1 0x800000 0x800000).2.2 _).mpr ⟨0x800000, .video .warm hmisplaced, rfl⟩,
    ⟨.warm, .mpal, .expansion⟩, ?_⟩
  have haccepted : decode 1 2 0x800000 = .ok ⟨.warm, .mpal, .expansion⟩ :=
    ((h 1 2 0x800000).1 _).mpr rfl
  exact ⟨haccepted, (h 1 2 0x800000).2.1 _ 0 2 0x800000 haccepted (by decide)⟩

end BootInfo

end Vr4300
