import Vr4300.Proofs.Console.Delivery
import Vr4300.Proofs.Console.Packing

/-!
# Text written in two parts

The lengths among the stores of a text tell where its packets end (`Viewer.lengths_recorded`), so
two parts make the stores of the whole text only if the first one ends where a packet does
(`Viewer.split_invisible_iff`). What the host reads from the stores is the text
(`Host.output_recorded`), so no two texts make the same ones (`Viewer.recorded_injective`).
-/

namespace Vr4300.Console

/-! ## The last packet -/

section
variable {n : Nat} (h : ¬bufferSize ∣ n)
include h

theorem div_lt_packetCount (m : Nat) : n / bufferSize < packetCount (n + m) := by
  simp only [bufferSize, Nat.dvd_iff_mod_eq_zero] at h
  simp only [bufferSize, packetCount]
  omega

/-- The last packet of `n` bytes has room left, so any more bytes make it longer. -/
theorem eq_zero_of_packetSize_add {m : Nat}
    (hsize : packetSize (n + m) (n / bufferSize) = packetSize n (n / bufferSize)) : m = 0 := by
  simp only [bufferSize, Nat.dvd_iff_mod_eq_zero] at h
  simp only [bufferSize, packetSize] at hsize
  omega

end

/-! ## The stores of a text -/

/-- A host has the whole text behind what it had before. -/
theorem Host.output_recorded (text : String) (h : Host) :
    (storeAll (Viewer.recorded text) h).output = h.output ++ Text.bytes text := by
  have hfits : ∀ p ∈ payloads (Text.bytes text), p.length ≤ bufferSize :=
    fun _ => length_le_of_mem_payloads
  rw [Viewer.recorded_eq, output_packets hfits, flatten_payloads]

namespace Viewer

theorem recorded_injective : Function.Injective recorded := by
  intro a b hab
  let h : Host := ⟨⟨.replicate blockSize 0⟩, []⟩
  have hbytes : h.output ++ Text.bytes a = h.output ++ Text.bytes b := by
    rw [← h.output_recorded, hab, h.output_recorded]
  exact Text.bytes_inj.mp (List.append_cancel_left hbytes)

theorem recorded_append {a : String} (h : bufferSize ∣ a.utf8ByteSize) (b : String) :
    recorded (a ++ b) = recorded a ++ recorded b := by
  simp only [recorded_eq, packets_eq_plainStores, Text.bytes_append]
  exact plainStores_append h _

theorem lengths_recorded (text : String) :
    (recorded text).filter (·.offset = lengthOffset) =
      (List.range (packetCount text.utf8ByteSize)).map (sizeStore text.utf8ByteSize) := by
  rw [recorded_eq]
  exact filter_packets _

/-- Parts that make the stores of the whole text leave the packet alone in which the first one
ends, so there is no second one if that packet has room left. -/
theorem eq_empty_of_recorded_append {a b : String} (h : ¬bufferSize ∣ a.utf8ByteSize)
    (hab : recorded (a ++ b) = recorded a ++ recorded b) : b = "" := by
  have hlengths := congrArg (List.filter (·.offset = lengthOffset)) hab
  rw [List.filter_append, lengths_recorded, lengths_recorded, lengths_recorded,
    String.utf8ByteSize_append] at hlengths
  have hstore := congrArg (·[a.utf8ByteSize / bufferSize]?) hlengths
  have hlast := div_lt_packetCount h 0
  rw [Nat.add_zero] at hlast
  simp only [List.getElem?_append, List.length_map, List.length_range, hlast, ↓reduceIte,
    List.getElem?_map, List.getElem?_range (div_lt_packetCount h _), List.getElem?_range hlast,
    Option.map_some, Option.some.injEq] at hstore
  apply String.utf8ByteSize_eq_zero_iff.mp
  apply eq_zero_of_packetSize_add h
  rw [← toNat_sizeStore, hstore, toNat_sizeStore]

/-- **Where a text can be cut without a trace.** Two parts of a text make the stores of the whole
exactly if the first part fills its packets or the second one is empty. The stores tell the text,
zeros in its last word and NUL bytes included. -/
theorem split_invisible_iff :
    (∀ a b : String, recorded (a ++ b) = recorded a ++ recorded b ↔
      512 ∣ a.utf8ByteSize ∨ b = "") ∧
    Function.Injective recorded := by
  refine ⟨fun a b => ⟨fun hab => ?_, fun h => ?_⟩, recorded_injective⟩
  · by_cases h : bufferSize ∣ a.utf8ByteSize
    · exact .inl h
    · exact .inr (eq_empty_of_recorded_append h hab)
  · obtain h | rfl := h
    · exact recorded_append h b
    · rw [String.append_empty, recorded_eq "", Text.bytes_empty, payloads_nil]
      exact (List.append_nil _).symm

end Viewer

end Vr4300.Console
