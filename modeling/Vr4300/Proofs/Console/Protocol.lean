import Vr4300.Proofs.Console.Payload
import Vr4300.Proofs.Console.Block

/-!
# The protocol of the register block

A host can follow stores that fill the buffer word by word from its start and then give the number
of bytes that these words hold. `Framed k xs` says that the stores `xs` go on in this way after `k`
such words. A packet is framed (`framed_packet`), and so is what any run of commands stores
(`Command.framed_stores`). From this follows what is stored where (`Framed.registers`), which words
a length closes (`Framed.map_offset`) and that none is left over (`Framed.closed`).
-/

namespace Vr4300.Console

/-- Words fill the buffer one behind the other; a length closes exactly the words that its bytes
need, and the buffer is filled from its start again. No word is left unclosed at the end. -/
inductive Framed : Nat → List Store → Prop
  | nil : Framed 0 []
  | word {k : Nat} {x : Store} {xs : List Store} : x.offset = bufferOffset + 4 * k →
      4 * k < bufferSize → Framed (k + 1) xs → Framed k (x :: xs)
  | length {k : Nat} {x : Store} {xs : List Store} : x.offset = lengthOffset →
      x.value.toNat ≤ bufferSize → k = (x.value.toNat + 3) / 4 → Framed 0 xs → Framed k (x :: xs)

/-- No word of the buffer waits for its length. -/
def Closed (xs : List Store) : Prop := xs = [] ∨ ∃ x, xs.getLast? = some x ∧ x.offset = lengthOffset

namespace Framed

theorem append {k : Nat} {xs ys : List Store} (hxs : Framed k xs) (hys : Framed 0 ys) :
    Framed k (xs ++ ys) := by
  induction hxs with
  | nil => exact hys
  | word hx hk _ ih => exact .word hx hk ih
  | length hx hn hk _ ih => exact .length hx hn hk ih

/-- Every store is a length that fits the buffer or a word of the buffer. -/
theorem registers {k : Nat} {xs : List Store} (h : Framed k xs) :
    ∀ x ∈ xs, x.offset = lengthOffset ∧ x.value.toNat ≤ bufferSize ∨
      ∃ i < bufferSize / 4, x.offset = bufferOffset + 4 * i := by
  induction h with
  | nil => exact fun _ hx => nomatch hx
  | word hx hk _ ih =>
    refine List.forall_mem_cons.mpr ⟨.inr ⟨_, ?_, hx⟩, ih⟩
    simp only [bufferSize] at hk ⊢
    omega
  | length hx hn _ _ ih => exact List.forall_mem_cons.mpr ⟨.inl ⟨hx, hn⟩, ih⟩

theorem not_word {x : Store} {k : Nat} (hx : x.offset = lengthOffset) :
    x.offset ≠ bufferOffset + 4 * k := by
  simp only [hx, lengthOffset, bufferOffset]
  omega

/-- The words that a length closes are as many as its bytes need and lie one behind the other. -/
theorem map_offset {k : Nat} {xs ys : List Store} {x : Store} (h : Framed k (xs ++ x :: ys))
    (hx : x.offset = lengthOffset) (hxs : ∀ y ∈ xs, y.offset ≠ lengthOffset) :
    k + xs.length = (x.value.toNat + 3) / 4 ∧
      xs.map Store.offset = (List.range' k xs.length).map (bufferOffset + 4 * ·) := by
  induction xs generalizing k with
  | nil =>
    cases h with
    | word hword => exact absurd hword (not_word hx)
    | length _ _ hk _ => exact ⟨hk, rfl⟩
  | cons y xs ih =>
    obtain ⟨hy, hxs⟩ := List.forall_mem_cons.mp hxs
    cases h with
    | length hlength => exact absurd hlength hy
    | word hword _ h =>
      obtain ⟨hlength, hoffset⟩ := ih h hxs
      rw [List.length_cons, List.map_cons, hoffset, hword, List.range'_succ, List.map_cons]
      exact ⟨by omega, rfl⟩

theorem closed {k : Nat} {xs : List Store} (h : Framed k xs) : Closed xs := by
  induction h with
  | nil => exact .inl rfl
  | word _ _ h ih =>
    obtain rfl | ⟨x, hlast, hx⟩ := ih
    · cases h
    · exact .inr ⟨x, by rw [List.getLast?_cons, hlast]; rfl, hx⟩
  | length hx _ _ _ ih =>
    obtain rfl | ⟨x, hlast, hx⟩ := ih
    · exact .inr ⟨_, rfl, hx⟩
    · exact .inr ⟨x, by rw [List.getLast?_cons, hlast]; rfl, hx⟩

/-- Behind a length the buffer is filled from its start. -/
theorem of_append_length {k : Nat} {xs ys : List Store} {x : Store}
    (h : Framed k (xs ++ x :: ys)) (hx : x.offset = lengthOffset) : Framed 0 ys := by
  induction xs generalizing k with
  | nil =>
    cases h with
    | word hword => exact absurd hword (not_word hx)
    | length _ _ _ h => exact h
  | cons y xs ih =>
    cases h with
    | word _ _ h | length _ _ _ h => exact ih h

theorem of_append_closed {xs ys : List Store} (h : Framed 0 (xs ++ ys)) (hxs : Closed xs) :
    Framed 0 ys := by
  obtain rfl | ⟨x, hlast, hx⟩ := hxs
  · exact h
  · obtain ⟨before, rfl⟩ := List.getLast?_eq_some_iff.mp hlast
    rw [List.append_assoc] at h
    exact h.of_append_length hx

end Framed

/-! ## What a viewer stores -/

theorem framed_storesFrom {ws : List UInt32} {k : Nat} {n : UInt32} (hn : n.toNat ≤ bufferSize)
    (hk : k + ws.length = (n.toNat + 3) / 4) :
    Framed k (storesFrom k ws ++ [⟨lengthOffset, n⟩]) := by
  induction ws generalizing k with
  | nil => exact .length rfl hn hk .nil
  | cons w ws ih =>
    rw [List.length_cons] at hk
    rw [storesFrom_cons, List.cons_append]
    refine .word rfl ?_ (ih (by omega))
    simp only [bufferSize] at hn ⊢
    omega

theorem framed_packet {p : List UInt8} (hp : p.length ≤ bufferSize) : Framed 0 (packet p) := by
  rw [packet, dataStores_eq_storesFrom]
  refine framed_storesFrom ((toNat_count hp).symm ▸ hp) ?_
  rw [Nat.zero_add, Word.length_packAll, toNat_count hp]

theorem framed_packets {ps : List (List UInt8)} (hps : ∀ p ∈ ps, p.length ≤ bufferSize) :
    Framed 0 (ps.flatMap packet) := by
  induction ps with
  | nil => exact .nil
  | cons p ps ih =>
    obtain ⟨hp, hps⟩ := List.forall_mem_cons.mp hps
    rw [List.flatMap_cons]
    exact (framed_packet hp).append (ih hps)

theorem Command.framed_stores (cs : List Command) : Framed 0 (cs.flatMap Command.stores) := by
  induction cs with
  | nil => exact .nil
  | cons c cs ih =>
    rw [List.flatMap_cons]
    exact (framed_packets fun _ => length_le_of_mem_payloads).append ih

end Vr4300.Console
