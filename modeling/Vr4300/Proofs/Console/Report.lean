import Vr4300.Proofs.Console.Delivery
import Vr4300.Proofs.Exception.Report

/-!
# A report on the console

Text whose pieces all fit the buffer makes one packet for each piece (`run_writeAll_of_fits`), and
a host has the pieces one by one (`Host.output_textPackets`). The pieces of a report are such text,
of the same sizes for every frame, so the host gets the whole report whatever was written before
(`Host.output_of_report`).
-/

namespace Vr4300.Console

open Exception

/-- Every piece has a byte, and no more than the buffer holds. -/
def Fits (pieces : List String) : Prop :=
  ∀ piece ∈ pieces, 0 < piece.utf8ByteSize ∧ piece.utf8ByteSize ≤ bufferSize

/-- One packet for each piece. -/
def textPackets (pieces : List String) : List Store :=
  pieces.flatMap fun piece => packet (Text.bytes piece)

theorem Fits.take {pieces : List String} (h : Fits pieces) (k : Nat) : Fits (pieces.take k) :=
  fun piece hpiece => h piece (List.mem_of_mem_take hpiece)

theorem Fits.textPayloads_eq {pieces : List String} (h : Fits pieces) :
    textPayloads pieces = pieces.map Text.bytes := by
  induction pieces with
  | nil => rfl
  | cons piece pieces ih =>
    obtain ⟨⟨hpos, hle⟩, h⟩ := List.forall_mem_cons.mp h
    have hpiece : payloads (Text.bytes piece) = [Text.bytes piece] :=
      payloads_of_length_le (List.length_pos_iff.mp hpos) hle
    rw [textPayloads_cons, hpiece, ih h]
    rfl

theorem Fits.flatMap_packet_textPayloads {pieces : List String} (h : Fits pieces) :
    (textPayloads pieces).flatMap packet = textPackets pieces := by
  rw [h.textPayloads_eq, List.flatMap_map]
  rfl

/-- A viewer makes one packet of each piece. -/
theorem Viewer.run_writeAll_of_fits {σ : Type} [WordStore σ] {pieces : List String}
    (h : Fits pieces) (v : Viewer σ) :
    (Text.Writer.writeAll pieces).run v =
      ⟨.ok (), ⟨storeAll (textPackets pieces) v.regs⟩, pieces.map .call⟩ := by
  rw [run_writeAll, h.flatMap_packet_textPayloads]

/-! ## Counting -/

theorem length_packet (p : List UInt8) : (packet p).length = (p.length + 3) / 4 + 1 := by
  simp [packet, dataStores, Word.length_packAll]

theorem length_textPackets (pieces : List String) :
    (textPackets pieces).length =
      ((pieces.map String.utf8ByteSize).map fun n => (n + 3) / 4 + 1).sum := by
  simp only [textPackets, List.length_flatMap, length_packet, Text.length_bytes, List.map_map]
  rfl

/-- The lengths that the host is told are the sizes of the pieces. -/
theorem Fits.lengths_textPackets {pieces : List String} (h : Fits pieces) :
    ((textPackets pieces).filter (·.offset = lengthOffset)).map (·.value.toNat) =
      pieces.map String.utf8ByteSize := by
  induction pieces with
  | nil => rfl
  | cons piece pieces ih =>
    obtain ⟨⟨_, hle⟩, h⟩ := List.forall_mem_cons.mp h
    rw [textPackets, List.flatMap_cons, List.filter_append, List.map_append, filter_packet,
      List.map_cons, List.map_cons]
    exact congr (congrArg List.cons (toNat_count hle)) (ih h)

/-! ## Reports -/

theorem fits_reportPieces (f : Frame) : Fits f.reportPieces := by
  have hsizes : ∀ n ∈ [19, 12, 16, 12, 16, 12, 16, 12, 16, 12, 16], 0 < n ∧ n ≤ bufferSize := by
    decide
  intro piece hpiece
  apply hsizes
  rw [← f.map_utf8ByteSize_reportPieces]
  exact List.mem_map_of_mem hpiece

theorem Viewer.run_report {σ : Type} [WordStore σ] (f : Frame) (v : Viewer σ) :
    (f.report.run v).value = .ok () ∧
      (f.report.run v).state = ⟨storeAll (textPackets f.reportPieces) v.regs⟩ := by
  rw [Frame.run_report, run_writeAll_of_fits (fits_reportPieces f)]
  exact ⟨rfl, rfl⟩

namespace Host

theorem output_textPackets {pieces : List String} (h : Fits pieces) (host : Host) :
    (storeAll (textPackets pieces) host).output =
      host.output ++ Text.bytes (String.join pieces) := by
  rw [← h.flatMap_packet_textPayloads, ← flatten_textPayloads]
  refine output_packets ?_ host
  intro p hp
  obtain ⟨piece, _, hp⟩ := List.mem_flatMap.mp hp
  exact length_le_of_mem_payloads hp

/-- **A report reaches the host.** After any run of commands on a block with any content, the
report of a frame succeeds. It makes 51 stores, a packet for each of its eleven pieces, and a host
that takes them has the pieces packet by packet, and in the end the 159 bytes of the report behind
what it had before. -/
theorem output_of_report (cs : List Command) (host : Host) (f : Frame) :
    let stores := textPackets f.reportPieces
    let recorder := Action.finalState Command.perform cs (⟨⟨#[]⟩⟩ : Viewer Recorder)
    let v := Action.finalState Command.perform cs (⟨host⟩ : Viewer Host)
    (∀ (σ : Type) [WordStore σ] (w : Viewer σ), (f.report.run w).value = .ok () ∧
      (f.report.run w).state.regs = storeAll stores w.regs) ∧
    (f.report.run recorder).state.regs.stores.toList = recorder.regs.stores.toList ++ stores ∧
    stores.length = 51 ∧ f.reportPieces.length = 11 ∧
    (stores.filter (·.offset = lengthOffset)).map (·.value.toNat) =
      [19, 12, 16, 12, 16, 12, 16, 12, 16, 12, 16] ∧
    (∀ k, (storeAll (textPackets (f.reportPieces.take k)) v.regs).output =
      v.regs.output ++ Text.bytes (String.join (f.reportPieces.take k))) ∧
    (f.report.run v).state.regs.output = v.regs.output ++ Text.bytes f.reportText ∧
    (Text.bytes f.reportText).length = 159 := by
  intro stores recorder v
  have hfits := fits_reportPieces f
  have hsizes := f.map_utf8ByteSize_reportPieces
  have hregs {σ : Type} [WordStore σ] (w : Viewer σ) :
      (f.report.run w).state.regs = storeAll stores w.regs := by
    rw [(Viewer.run_report f w).2]
  refine ⟨fun σ _ w => ⟨(Viewer.run_report f w).1, hregs w⟩, ?_, ?_, ?_, ?_, ?_, ?_,
    Frame.utf8ByteSize_reportText f⟩
  · rw [hregs, Recorder.toList_storeAll]
  · rw [length_textPackets, hsizes]
    rfl
  · rw [← List.length_map String.utf8ByteSize, hsizes]
    rfl
  · rw [hfits.lengths_textPackets, hsizes]
  · intro k
    exact output_textPackets (hfits.take k) v.regs
  · rw [hregs, output_textPackets hfits, Frame.join_reportPieces]

end Host

end Vr4300.Console
