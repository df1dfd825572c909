import Mathlib.Data.List.TakeWhile
import Vr4300.Text.Blank

/-!
# Trimmed text

Blank characters at the ends do not change what `trim` leaves (`trim_cons_of_blank`,
`trim_append_of_blank`, `trim_between`), a text is what it leaves between blank characters
(`exists_trim`), and nothing is left exactly of a blank text (`trim_eq_nil_iff`).
-/

namespace Vr4300.Text

theorem trim_cons_of_blank {c : Char} (hc : isBlank c = true) (cs : List Char) :
    trim (c :: cs) = trim cs := by
  rw [trim, List.dropWhile_cons_of_pos hc, trim]

theorem trim_append_of_blank {c : Char} (hc : isBlank c = true) (cs : List Char) :
    trim (cs ++ [c]) = trim cs := by
  rw [trim, trim, List.dropWhile_append]
  split
  next hnil =>
    rw [List.isEmpty_iff.mp hnil, List.dropWhile_cons_of_pos hc]
    rfl
  next =>
    rw [List.reverse_append, List.reverse_singleton, List.singleton_append,
      List.dropWhile_cons_of_pos hc]

/-- What does not depend on one blank character at either end depends on none of them. -/
theorem eq_between_of_blank {α : Type} {f : List Char → α}
    (hcons : ∀ c cs, isBlank c = true → f (c :: cs) = f cs)
    (happend : ∀ c cs, isBlank c = true → f (cs ++ [c]) = f cs) {before after : List Char}
    (hbefore : ∀ c ∈ before, isBlank c = true) (hafter : ∀ c ∈ after, isBlank c = true)
    (cs : List Char) : f (before ++ cs ++ after) = f cs := by
  have hfront : f (before ++ cs) = f cs := by
    induction before with
    | nil => rfl
    | cons c before ih =>
      obtain ⟨hc, hbefore⟩ := List.forall_mem_cons.mp hbefore
      rw [List.cons_append, hcons _ _ hc, ih hbefore]
  rw [← hfront]
  generalize before ++ cs = cs
  induction after generalizing cs with
  | nil => rw [List.append_nil]
  | cons c after ih =>
    obtain ⟨hc, hafter⟩ := List.forall_mem_cons.mp hafter
    rw [List.append_cons, ih hafter, happend _ _ hc]

theorem trim_between {before after : List Char} (hbefore : ∀ c ∈ before, isBlank c = true)
    (hafter : ∀ c ∈ after, isBlank c = true) (cs : List Char) :
    trim (before ++ cs ++ after) = trim cs :=
  eq_between_of_blank (fun _ cs hc => trim_cons_of_blank hc cs)
    (fun _ cs hc => trim_append_of_blank hc cs) hbefore hafter cs

theorem exists_trim (cs : List Char) : ∃ before after,
    (∀ c ∈ before, isBlank c = true) ∧ (∀ c ∈ after, isBlank c = true) ∧
      cs = before ++ trim cs ++ after := by
  let rest := cs.dropWhile isBlank
  refine ⟨cs.takeWhile isBlank, (rest.reverse.takeWhile isBlank).reverse,
    fun c hc => ?_, fun c hc => ?_, ?_⟩
  · exact List.all_eq_true.mp List.all_takeWhile c hc
  · exact List.all_eq_true.mp List.all_takeWhile c (List.mem_reverse.mp hc)
  · rw [List.append_assoc, trim, ← List.reverse_append, List.takeWhile_append_dropWhile,
      List.reverse_reverse, List.takeWhile_append_dropWhile]

theorem trim_eq_nil_iff {cs : List Char} : trim cs = [] ↔ ∀ c ∈ cs, isBlank c = true := by
  rw [trim, List.reverse_eq_nil_iff, List.dropWhile_eq_nil_iff]
  simp only [List.mem_reverse]
  constructor
  · intro h c hc
    rw [← List.takeWhile_append_dropWhile (p := isBlank) (l := cs), List.mem_append] at hc
    obtain hc | hc := hc
    · exact List.all_eq_true.mp List.all_takeWhile c hc
    · exact h c hc
  · intro h c hc
    exact h c (List.dropWhile_subset _ hc)

end Vr4300.Text
