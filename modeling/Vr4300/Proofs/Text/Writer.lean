import Vr4300.Text.Bytes
import Vr4300.Text.Writer

/-!
# Pieces handed to a writer

`Writer.Course` has the two ways in which `Writer.writeAll` goes with a writer of any kind: all
pieces are taken, or one is refused and the writer is not called again. `Writer.course_writeAll`
says that there are no others. For a writer that appends what it takes (`Appends`) this gives what
it holds in the end, and for one with a capacity (`Bounded`) it is the longest part of the text, in
whole pieces, that fits (`Writer.Course.longest_fitting`).
-/

namespace Vr4300.Text

variable {ω : Type} [TextWriter ω]

/-- The writer takes the piece. -/
def Takes (piece : String) (w : ω) : Prop := (TextWriter.write piece w).1 = .ok ()

/-- The writer after it was handed pieces, whatever it made of them. -/
def handed (pieces : List String) (w : ω) : ω :=
  pieces.foldl (fun w piece => (TextWriter.write piece w).2) w

/-- The writer takes one piece after the other. -/
def TakesAll : List String → ω → Prop
  | [], _ => True
  | piece :: pieces, w => Takes piece w ∧ TakesAll pieces (handed [piece] w)

theorem handed_append (before after : List String) (w : ω) :
    handed (before ++ after) w = handed after (handed before w) := List.foldl_append

theorem takesAll_append {before after : List String} {w : ω} :
    TakesAll (before ++ after) w ↔ TakesAll before w ∧ TakesAll after (handed before w) := by
  induction before generalizing w with
  | nil => exact ⟨fun h => ⟨trivial, h⟩, And.right⟩
  | cons piece before ih =>
    rw [List.cons_append, TakesAll, ih, TakesAll, and_assoc]
    rfl

theorem TakesAll.of_prefix {ps qs : List String} {w : ω} (hqs : TakesAll qs w) (h : ps <+: qs) :
    TakesAll ps w := by
  obtain ⟨rest, rfl⟩ := h
  exact (takesAll_append.mp hqs).1

/-- The pieces that the writer takes, from the first one on, are those in front of the refused
one. -/
theorem takesAll_prefix_iff {before after ps : List String} {piece : String} {w : ω}
    (hall : TakesAll before w) (hpiece : ¬Takes piece (handed before w))
    (hps : ps <+: before ++ piece :: after) : TakesAll ps w ↔ ps <+: before := by
  have hrefused : ¬TakesAll (before ++ [piece]) w := fun h => hpiece (takesAll_append.mp h).2.1
  have hprefix : before ++ [piece] <+: before ++ piece :: after :=
    ⟨after, by rw [List.append_assoc, List.singleton_append]⟩
  refine ⟨fun h => ?_, hall.of_prefix⟩
  -- a prefix that goes past `before` has the refused piece in it
  rcases List.prefix_or_prefix_of_prefix hps hprefix with hle | hle
  · rcases List.prefix_concat_iff.mp hle with rfl | hle
    · exact absurd h hrefused
    · exact hle
  · exact absurd (h.of_prefix hle) hrefused

namespace Writer

/-- The ways in which pieces are written. -/
inductive Course (pieces : List String) (w : ω) : Outcome String ω (Except Error Unit) → Prop
  | complete : TakesAll pieces w → Course pieces w ⟨.ok (), handed pieces w, pieces.map .call⟩
  | refused (before : List String) (piece : String) (after : List String) :
      pieces = before ++ piece :: after → TakesAll before w → ¬Takes piece (handed before w) →
      Course pieces w ⟨.error .outputRefused, handed (before ++ [piece]) w,
        (before ++ [piece]).map .call⟩

theorem run_writeAll_of_takes {piece : String} {w : ω} (pieces : List String)
    (h : Takes piece w) :
    (writeAll (piece :: pieces)).run w =
      ⟨((writeAll pieces).run (handed [piece] w)).value,
        ((writeAll pieces).run (handed [piece] w)).state,
        .call piece :: ((writeAll pieces).run (handed [piece] w)).events⟩ := by
  have hwrite : (write piece).run w = ⟨.ok (), handed [piece] w, [.call piece]⟩ := by
    rw [write, Action.run_call]
    simp only [show (TextWriter.write piece w).1 = .ok () from h]
    rfl
  rw [writeAll, Action.run_bind, hwrite]
  rfl

theorem run_writeAll_of_not_takes {piece : String} {w : ω} (pieces : List String)
    (h : ¬Takes piece w) :
    (writeAll (piece :: pieces)).run w =
      ⟨.error .outputRefused, handed [piece] w, [.call piece]⟩ := by
  have hwrite : (write piece).run w = ⟨.error .outputRefused, handed [piece] w, [.call piece]⟩ := by
    rw [write, Action.run_call]
    cases hr : (TextWriter.write piece w).1 with
    | ok => exact absurd hr h
    | error =>
      simp only [hr]
      rfl
  rw [writeAll, Action.run_bind, hwrite]
  rfl

theorem course_writeAll (pieces : List String) (w : ω) :
    Course pieces w ((writeAll pieces).run w) := by
  induction pieces generalizing w with
  | nil => exact .complete trivial
  | cons piece pieces ih =>
    by_cases h : Takes piece w
    · rw [run_writeAll_of_takes pieces h]
      have hrest := ih (handed [piece] w)
      generalize (writeAll pieces).run (handed [piece] w) = o at hrest ⊢
      cases hrest with
      | complete hall => exact .complete ⟨h, hall⟩
      | refused before last after hsplit hall hlast =>
        rw [hsplit]
        exact .refused (piece :: before) last after rfl ⟨h, hall⟩ hlast
    · rw [run_writeAll_of_not_takes pieces h]
      exact .refused [] piece pieces rfl trivial h

theorem filterMap_call?_map_call (pieces : List String) :
    (pieces.map Event.call).filterMap Event.call? = pieces := by
  rw [List.filterMap_map]
  exact List.filterMap_some

theorem filterMap_log?_map_call (pieces : List String) :
    (pieces.map Event.call).filterMap Event.log? = [] := by
  induction pieces with
  | nil => rfl
  | cons _ _ ih => exact ih

namespace Course

variable {pieces : List String} {w : ω} {o : Outcome String ω (Except Error Unit)}

/-- Nothing is logged while the pieces are written. -/
theorem events_eq (h : Course pieces w o) : o.events = o.calls.map .call := by
  cases h with
  | complete => exact congrArg (List.map _) (filterMap_call?_map_call _).symm
  | refused => exact congrArg (List.map _) (filterMap_call?_map_call _).symm

/-- The calls are the pieces up to the first that is refused, and the writer is as they leave
it. -/
theorem calls_cases (h : Course pieces w o) :
    (o.value = .ok () ∧ TakesAll pieces w ∧ o.calls = pieces ∧ o.state = handed pieces w) ∨
      ∃ before piece after, pieces = before ++ piece :: after ∧ TakesAll before w ∧
        ¬Takes piece (handed before w) ∧ o.value = .error .outputRefused ∧
        o.calls = before ++ [piece] ∧ o.state = handed (before ++ [piece]) w := by
  cases h with
  | complete hall => exact .inl ⟨rfl, hall, filterMap_call?_map_call _, rfl⟩
  | refused before piece after hsplit hall hpiece =>
    exact .inr ⟨before, piece, after, hsplit, hall, hpiece, rfl, filterMap_call?_map_call _, rfl⟩

theorem value_eq_ok_iff (h : Course pieces w o) : o.value = .ok () ↔ TakesAll pieces w := by
  cases h with
  | complete hall => exact ⟨fun _ => hall, fun _ => rfl⟩
  | refused before piece after hsplit hall hpiece =>
    refine ⟨nofun, fun h => absurd ?_ hpiece⟩
    rw [hsplit, takesAll_append] at h
    exact h.2.1

/-- Only one piece can be the first that is refused. -/
theorem state_of_refused (h : Course pieces w o) {before after : List String} {piece : String}
    (hsplit : pieces = before ++ piece :: after) (hall : TakesAll before w)
    (hpiece : ¬Takes piece (handed before w)) : o.state = handed (before ++ [piece]) w := by
  obtain ⟨_, hpieces, _⟩ | ⟨before', piece', after', hsplit', hall', hpiece', _, _, hstate⟩ :=
    h.calls_cases
  · rw [hsplit, takesAll_append] at hpieces
    exact absurd hpieces.2.1 hpiece
  · -- the writer takes both parts, so neither goes past the other
    have hle : before' <+: before := (takesAll_prefix_iff hall hpiece
      (hsplit ▸ hsplit' ▸ List.prefix_append ..)).mp hall'
    have hge : before <+: before' := (takesAll_prefix_iff hall' hpiece'
      (hsplit' ▸ hsplit ▸ List.prefix_append ..)).mp hall
    obtain rfl := hge.eq_of_length_le hle.length_le
    rw [hsplit, List.append_cancel_left_eq, List.cons.injEq] at hsplit'
    rw [hstate, hsplit'.1]

end Course

end Writer

/-! ## What a writer holds -/

section
variable {held : ω → List UInt8} {w : ω}

/-- From `w` on, a piece that the writer takes is added to what it holds. -/
def Appends (held : ω → List UInt8) (w : ω) : Prop :=
  ∀ before piece, Takes piece (handed before w) →
    held (handed (before ++ [piece]) w) = held (handed before w) ++ bytes piece

theorem Appends.next (h : Appends held w) (before : List String) :
    Appends held (handed before w) := by
  intro before' piece hpiece
  rw [← handed_append] at hpiece ⊢
  rw [← handed_append, ← List.append_assoc]
  exact h (before ++ before') piece hpiece

theorem Appends.held_handed (h : Appends held w) {pieces : List String}
    (hall : TakesAll pieces w) :
    held (handed pieces w) = held w ++ bytes (String.join pieces) := by
  induction pieces generalizing w with
  | nil => exact (List.append_nil _).symm
  | cons piece pieces ih =>
    obtain ⟨hpiece, hall⟩ := hall
    have hfirst : held (handed [piece] w) = held w ++ bytes piece := h [] piece hpiece
    rw [String.join_cons, bytes_append, ← List.append_assoc, ← hfirst]
    exact ih (h.next [piece]) hall

/-- From `w` on, the writer takes what fits into `capacity` bytes and keeps nothing of a piece that
it refuses. -/
structure Bounded (held : ω → List UInt8) (capacity : Nat) (w : ω) : Prop where
  appends : Appends held w
  takes_iff : ∀ before piece, Takes piece (handed before w) ↔
    (held (handed before w)).length + piece.utf8ByteSize ≤ capacity
  refuses : ∀ before piece, ¬Takes piece (handed before w) →
    held (handed (before ++ [piece]) w) = held (handed before w)

namespace Bounded

variable {capacity : Nat}

theorem next (h : Bounded held capacity w) (before : List String) :
    Bounded held capacity (handed before w) where
  appends := h.appends.next before
  takes_iff before' piece := by
    rw [← handed_append]
    exact h.takes_iff (before ++ before') piece
  refuses before' piece := by
    rw [← handed_append, ← handed_append, ← List.append_assoc]
    exact h.refuses (before ++ before') piece

/-- Pieces are taken if they fit all together. -/
theorem takesAll_iff (h : Bounded held capacity w) (hw : (held w).length ≤ capacity)
    {pieces : List String} :
    TakesAll pieces w ↔ (held w).length + (String.join pieces).utf8ByteSize ≤ capacity := by
  induction pieces generalizing w with
  | nil => exact ⟨fun _ => hw, fun _ => trivial⟩
  | cons piece pieces ih =>
    have htakes : Takes piece w ↔ (held w).length + piece.utf8ByteSize ≤ capacity :=
      h.takes_iff [] piece
    rw [TakesAll, String.join_cons, String.utf8ByteSize_append]
    by_cases hpiece : Takes piece w
    · have hfirst : held (handed [piece] w) = held w ++ bytes piece :=
        h.appends [] piece hpiece
      have hlength : (held (handed [piece] w)).length =
          (held w).length + piece.utf8ByteSize := by
        rw [hfirst, List.length_append, length_bytes]
      have hfits := htakes.mp hpiece
      rw [ih (h.next [piece]) (hlength ▸ hfits), hlength, Nat.add_assoc]
      exact ⟨And.right, fun h => ⟨hpiece, h⟩⟩
    · have hlong := mt htakes.mpr hpiece
      exact ⟨fun h => absurd h.1 hpiece, fun h => absurd (by omega) hlong⟩

end Bounded

namespace Writer.Course

variable {pieces : List String} {o : Outcome String ω (Except Error Unit)}

/-- A writer that keeps nothing of the piece that it refuses holds the pieces in front of it. -/
theorem held_of_refused (hcourse : Course pieces w o) (h : Appends held w)
    {before after : List String} {piece : String} (hsplit : pieces = before ++ piece :: after)
    (hall : TakesAll before w) (hpiece : ¬Takes piece (handed before w))
    (hnothing : held (handed (before ++ [piece]) w) = held (handed before w)) :
    held o.state = held w ++ bytes (String.join before) := by
  rw [hcourse.state_of_refused hsplit hall hpiece, hnothing, h.held_handed hall]

/-- A writer with a capacity that starts empty holds the longest part of the text, in whole
pieces, that fits. -/
theorem longest_fitting (hcourse : Course pieces w o) {capacity : Nat}
    (h : Bounded held capacity w) (hw : held w = []) :
    ∃ before, before <+: pieces ∧ held o.state = bytes (String.join before) ∧
      ∀ ps, ps <+: pieces → ((String.join ps).utf8ByteSize ≤ capacity ↔ ps <+: before) := by
  have hfits : ∀ ps, TakesAll ps w ↔ (String.join ps).utf8ByteSize ≤ capacity := by
    intro ps
    rw [h.takesAll_iff (by rw [hw]; exact Nat.zero_le _), hw, List.length_nil, Nat.zero_add]
  cases hcourse with
  | complete hall =>
    refine ⟨pieces, List.prefix_refl _, ?_, fun ps hps => ⟨fun _ => hps, fun _ => ?_⟩⟩
    · rw [h.appends.held_handed hall, hw, List.nil_append]
    · exact (hfits ps).mp (hall.of_prefix hps)
  | refused before piece after hsplit hall hpiece =>
    refine ⟨before, hsplit ▸ List.prefix_append .., ?_, fun ps hps => ?_⟩
    · rw [h.refuses before piece hpiece, h.appends.held_handed hall, hw, List.nil_append]
    · rw [← hfits]
      exact takesAll_prefix_iff hall hpiece (hsplit ▸ hps)

end Writer.Course

end

/-! ## The writer with limits -/

namespace LimitedWriter

def held (w : LimitedWriter) : List UInt8 := bytes (String.join w.pieces)

theorem length_held (w : LimitedWriter) : w.held.length = w.size := rfl

theorem handed_singleton (piece : String) (w : LimitedWriter) :
    handed [piece] w = (w.write piece).2 := rfl

theorem takes_iff (piece : String) (w : LimitedWriter) :
    Takes piece w ↔
      ¬(w.refuses = some w.calls ∨ ∃ c ∈ w.capacity, c < w.size + piece.utf8ByteSize) := by
  change (w.write piece).1 = .ok () ↔ _
  rw [write]
  split
  next h => exact ⟨nofun, fun hno => absurd h hno⟩
  next h => exact ⟨fun _ => h, fun _ => rfl⟩

theorem held_write (piece : String) (w : LimitedWriter) :
    (Takes piece w → (w.write piece).2.held = w.held ++ bytes piece) ∧
      (¬Takes piece w → (w.write piece).2.held = w.held) := by
  rw [takes_iff]
  constructor
  · intro h
    rw [write, if_neg h]
    simp [held, String.join_append]
  · intro h
    rw [write, if_pos (Decidable.not_not.mp h)]
    rfl

theorem limits_handed (pieces : List String) (w : LimitedWriter) :
    (handed pieces w).refuses = w.refuses ∧ (handed pieces w).capacity = w.capacity := by
  induction pieces generalizing w with
  | nil => exact ⟨rfl, rfl⟩
  | cons piece pieces ih =>
    have hwrite : (w.write piece).2.refuses = w.refuses ∧
        (w.write piece).2.capacity = w.capacity := by
      rw [write]
      split <;> exact ⟨rfl, rfl⟩
    obtain ⟨hrefuses, hcapacity⟩ := ih (w.write piece).2
    exact ⟨hrefuses.trans hwrite.1, hcapacity.trans hwrite.2⟩

/-- A writer without limits refuses nothing. -/
theorem takes_handed_make (before : List String) (piece : String) :
    Takes piece (handed before (make none none)) := by
  obtain ⟨hrefuses, hcapacity⟩ := limits_handed before (make none none)
  rw [takes_iff, hrefuses, hcapacity]
  simp [make]

theorem appends (w : LimitedWriter) : Appends held w := by
  intro before piece hpiece
  rw [handed_append, handed_singleton]
  exact (held_write piece _).1 hpiece

theorem bounded {w : LimitedWriter} {c : Nat} (hrefuses : w.refuses = none)
    (hcapacity : w.capacity = some c) : Bounded held c w where
  appends := w.appends
  takes_iff before piece := by
    obtain ⟨hr, hc⟩ := limits_handed before w
    rw [takes_iff, hr, hc, hrefuses, hcapacity, length_held]
    simp
  refuses before piece hpiece := by
    rw [handed_append, handed_singleton]
    exact (held_write piece _).2 hpiece

end LimitedWriter

end Vr4300.Text
