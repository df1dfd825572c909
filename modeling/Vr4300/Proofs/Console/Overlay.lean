import Vr4300.Proofs.Console.Mmio
import Vr4300.Proofs.Console.Packing

/-!
# What a text leaves in the block

A packet lays its words over the first ones of the buffer (`Block.buffer_packet`), and one of a full
buffer over all of them. So of a text no more than its last two packets can be seen in the end: the
last one, and behind its words those of the one before (`Viewer.block_after_write`).
-/

namespace Vr4300.Console

/-- The words of a packet laid over those of the buffer. -/
def overlay (p : List UInt8) (ws : List UInt32) : List UInt32 :=
  ws.mapIdx fun i w => if i < wordCount p.length then Word.wordAt p i else w

theorem overlay_eq_append {p : List UInt8} {ws : List UInt32} (h : wordCount p.length ≤ ws.length) :
    overlay p ws = Word.packAll p ++ ws.drop (Word.packAll p).length := by
  have hlength : (Word.packAll p).length = wordCount p.length := Word.length_packAll p
  rw [overlay, List.mapIdx_eq_iff, hlength]
  intro i
  rw [List.getElem?_append, hlength]
  by_cases hi : i < wordCount p.length
  · rw [if_pos hi, Word.getElem?_packAll hi, List.getElem?_eq_getElem (Nat.lt_of_lt_of_le hi h),
      Option.map_some, if_pos hi]
  · rw [if_neg hi, List.getElem?_drop, Nat.add_sub_of_le (Nat.le_of_not_lt hi)]
    simp only [hi, ↓reduceIte, Option.map_id']

/-- Behind the words of a packet those of a full one before it are left, and nothing older. -/
theorem overlay_overlay {p : List UInt8} {ws ws' : List UInt32} (hp : p.length = bufferSize)
    (hws : ws.length = bufferWords) (hws' : ws'.length = bufferWords) (p' : List UInt8) :
    overlay p' (overlay p ws) =
      ws'.mapIdx fun i _ => if i < wordCount p'.length then Word.wordAt p' i else Word.wordAt p i := by
  apply List.ext_getElem
  · simp only [overlay, List.length_mapIdx, hws, hws']
  · intro i hi _
    simp only [overlay, List.length_mapIdx, hws] at hi
    have hfull : i < wordCount p.length := by
      rw [hp]
      exact hi
    simp only [overlay, List.getElem_mapIdx, hfull, ↓reduceIte]

namespace Block

variable (b : Block)

theorem length_buffer : b.buffer.length = bufferWords := by
  rw [buffer, List.length_drop, length_toList]
  rfl

theorem buffer_packet {p : List UInt8} (hp : p.length ≤ bufferSize) :
    (storeAll (packet p) b).buffer = overlay p b.buffer := by
  have hpacket : (storeAll (packet p) b).buffer = (storeAll (dataStores p) b).buffer := by
    rw [packet, storeAll_append]
    exact buffer_store_length ..
  have hcount : wordCount p.length ≤ b.buffer.length := by
    rw [length_buffer]
    exact wordCount_le hp
  rw [hpacket, buffer_dataStores b hp, overlay_eq_append hcount]

theorem length_store_length (w : UInt32) : (b.store ⟨lengthOffset, w⟩).length = w := by
  have hset : b.store ⟨lengthOffset, w⟩ = ⟨b.words.set 0 w⟩ :=
    b.store_register (i := 0) w (by decide)
  rw [hset]
  exact Vector.getElem_set_self ..

theorem length_storeAll_packet (p : List UInt8) :
    (storeAll (packet p) b).length = .ofNat p.length := by
  rw [packet, storeAll_append]
  exact length_store_length ..

theorem reserved_store {x : Store} (h : x.offset ≠ 4 ∧ x.offset ≠ 8) :
    (b.store x).reserved = b.reserved := by
  rw [store]
  split
  next hx =>
    have hplace : x.offset / 4 < 1 ∨ 3 ≤ x.offset / 4 := by omega
    simp only [reserved, Vector.toList_set, List.drop_set]
    split
    next => rfl
    next => rw [List.take_set_of_le (by omega)]
  next => rfl

end Block

theorem Framed.reserved_storeAll {k : Nat} {xs : List Store} (h : Framed k xs) (b : Block) :
    (storeAll xs b).reserved = b.reserved := by
  have hplace : ∀ x ∈ xs, x.offset ≠ 4 ∧ x.offset ≠ 8 := fun x hx => (h.place x hx).2.2
  clear h
  induction xs generalizing b with
  | nil => rfl
  | cons x xs ih =>
    obtain ⟨hx, hxs⟩ := List.forall_mem_cons.mp hplace
    exact (ih (b.store x) hxs).trans (b.reserved_store hx)

namespace Viewer

theorem framed_payloads (bs : List UInt8) : Framed 0 ((payloads bs).flatMap packet) :=
  framed_packets fun _ => length_le_of_mem_payloads

/-- The bytes before the last packet. -/
def front (bs : List UInt8) : List UInt8 := bs.take (bufferSize * (packetCount bs.length - 1))

/-- The bytes of the last packet. -/
def last (bs : List UInt8) : List UInt8 := bs.drop (bufferSize * (packetCount bs.length - 1))

section
variable {bs : List UInt8} (hne : bs ≠ [])
include hne

theorem length_front : (front bs).length = bufferSize * (packetCount bs.length - 1) := by
  have hpos := List.length_pos_iff.mpr hne
  simp only [front, List.length_take, packetCount, bufferSize]
  omega

theorem length_last : 0 < (last bs).length ∧ (last bs).length ≤ bufferSize := by
  have hpos := List.length_pos_iff.mpr hne
  simp only [last, List.length_drop, packetCount, bufferSize]
  omega

/-- The last packet comes after all the others. -/
theorem writeAll_eq_last {σ : Type} [WordStore σ] (v : Viewer σ) :
    v.writeAll bs = ⟨storeAll (packet (last bs)) (v.writeAll (front bs)).regs⟩ := by
  obtain ⟨hpos, hle⟩ := length_last hne
  have hsplit : bs = front bs ++ last bs := (List.take_append_drop ..).symm
  have hlast : plainStores (last bs) = packet (last bs) :=
    plainStores_of_length_le (List.length_pos_iff.mp hpos) hle
  have hstores : (payloads bs).flatMap packet =
      (payloads (front bs)).flatMap packet ++ packet (last bs) := by
    rw [packets_eq_plainStores, packets_eq_plainStores, ← hlast,
      ← plainStores_append ⟨_, length_front hne⟩, ← hsplit]
  rw [writeAll_eq_storeAll, hstores, storeAll_append, writeAll_eq_storeAll]

theorem packetCount_front : packetCount (front bs).length = packetCount bs.length - 1 := by
  rw [length_front hne]
  simp only [packetCount, bufferSize]
  omega

/-- The packet before the last one is full. -/
theorem last_front (hmany : packetCount bs.length ≠ 1) :
    last (front bs) = (bs.drop (bufferSize * (packetCount bs.length - 2))).take bufferSize ∧
      (last (front bs)).length = bufferSize := by
  have hpos := List.length_pos_iff.mpr hne
  have htake : bufferSize * (packetCount bs.length - 1) - bufferSize * (packetCount bs.length - 2) =
      bufferSize := by
    simp only [packetCount, bufferSize] at hmany ⊢
    omega
  constructor
  · rw [last, packetCount_front hne, front, List.drop_take, Nat.sub_sub, htake]
  · rw [last, packetCount_front hne, List.length_drop, length_front hne, Nat.sub_sub, htake]

theorem buffer_writeAll (b : Block) :
    ((⟨b⟩ : Viewer Block).writeAll bs).regs.buffer = b.buffer.mapIdx fun i w =>
      if i < wordCount (last bs).length then Word.wordAt (last bs) i
      else if packetCount bs.length = 1 then w
      else Word.wordAt ((bs.drop (bufferSize * (packetCount bs.length - 2))).take bufferSize) i := by
  rw [writeAll_eq_last hne, Block.buffer_packet _ (length_last hne).2]
  by_cases hone : packetCount bs.length = 1
  · have hfront : front bs = [] := by
      rw [← List.length_eq_zero_iff, length_front hne, hone, Nat.sub_self, Nat.mul_zero]
    simp only [hfront, writeAll_nil, overlay, hone, ↓reduceIte]
  · have hfront : front bs ≠ [] := by
      have hpos := List.length_pos_iff.mpr hne
      rw [← List.length_pos_iff, length_front hne]
      simp only [packetCount, bufferSize] at hone ⊢
      omega
    obtain ⟨hprevious, hfull⟩ := last_front hne hone
    rw [writeAll_eq_last hfront, Block.buffer_packet _ (Nat.le_of_eq hfull),
      overlay_overlay hfull (Block.length_buffer _) b.length_buffer]
    simp only [hone, hprevious, ↓reduceIte]

end

/-- **What a text leaves in the block.** After a text that is not empty, the length register holds
the size of the last packet and the reserved words are the first ones. The buffer starts with the
words of the last packet, the last of them filled up with zeros, and goes on with those of the full
packet before it, or with its first words if there was none. The empty text changes nothing, and a
byte string is handed over as one packet, so that an empty one only clears the length register. A
block in memory is left as one that takes the stores by itself. -/
theorem block_after_write {text : String} (h : text ≠ "") (b : Block) :
    let bytes := Text.bytes text
    let packets := (bytes.length + 511) / 512
    let rest := bytes.length - 512 * (packets - 1)
    let last := bytes.drop (512 * (packets - 1))
    let previous := (bytes.drop (512 * (packets - 2))).take 512
    let after := ((⟨b⟩ : Viewer Block).write text).2.regs
    b.buffer.length = 128 ∧
    (after.length.toNat = rest ∧ after.reserved = b.reserved ∧
      after.buffer = b.buffer.mapIdx fun i w =>
        if i < (rest + 3) / 4 then Word.pack ((last.drop (4 * i)).take 4)
        else if packets = 1 then w else Word.pack ((previous.drop (4 * i)).take 4)) ∧
    ((⟨b⟩ : Viewer Block).write "").2.regs = b ∧
    (∀ p : List UInt8,
      let size := min 512 p.length
      let after := ((⟨b⟩ : Viewer Block).writeBytes p).2.regs
      after.length.toNat = size ∧ after.reserved = b.reserved ∧
        after.buffer = b.buffer.mapIdx fun i w =>
          if i < (size + 3) / 4 then Word.pack (((p.take 512).drop (4 * i)).take 4) else w) ∧
    ((⟨b⟩ : Viewer Block).writeBytes []).2.regs = ⟨b.words.set 0 0⟩ ∧
    ∀ m : Mmio,
      ((⟨m⟩ : Viewer Mmio).write text).2.regs.block =
        ((⟨m.block⟩ : Viewer Block).write text).2.regs ∧
      ∀ p : List UInt8, ((⟨m⟩ : Viewer Mmio).writeBytes p).2.regs.block =
        ((⟨m.block⟩ : Viewer Block).writeBytes p).2.regs := by
  intro bytes packets rest last previous after
  have hne : bytes ≠ [] := fun hnil => h (Text.bytes_inj.mp hnil)
  have hrest : (Viewer.last bytes).length = rest := List.length_drop
  have hafter : after = storeAll ((payloads bytes).flatMap packet) b :=
    congrArg Viewer.regs (writeAll_eq_storeAll bytes (⟨b⟩ : Viewer Block))
  refine ⟨b.length_buffer, ⟨?_, ?_, ?_⟩, ?_, fun p => ?_, ?_, fun m => ⟨?_, fun p => ?_⟩⟩
  · have hlast : after = storeAll (packet (Viewer.last bytes)) _ :=
      congrArg Viewer.regs (writeAll_eq_last hne (⟨b⟩ : Viewer Block))
    rw [hlast, Block.length_storeAll_packet, toNat_count (length_last hne).2, hrest]
  · rw [hafter, (framed_payloads bytes).reserved_storeAll]
  · rw [← hrest]
    exact buffer_writeAll hne b
  · rw [write, Text.bytes_empty, writeAll_nil]
  · intro size after
    have hp : (p.take bufferSize).length ≤ bufferSize := List.length_take_le ..
    have hsize : (p.take bufferSize).length = size := List.length_take
    refine ⟨?_, (framed_packet hp).reserved_storeAll b, ?_⟩
    · rw [← hsize, ← toNat_count hp]
      exact congrArg UInt32.toNat (b.length_storeAll_packet _)
    · rw [← hsize]
      exact b.buffer_packet hp
  · exact b.store_register (i := 0) 0 (by decide)
  · rw [write, write, writeAll_eq_storeAll, writeAll_eq_storeAll]
    exact Mmio.block_storeAll (framed_payloads bytes).inBlock m
  · exact Mmio.block_storeAll (framed_packet (List.length_take_le ..)).inBlock m

/-- Two letters lie over the first word that the full packet before them has left. -/
theorem block_after_write_of_two_packets :
    let text := String.ofList (List.replicate 512 'y') ++ "ab"
    let b : Block := ⟨.replicate blockSize 0xdeadbeef⟩
    let after := ((⟨b⟩ : Viewer Block).write text).2.regs
    text ≠ "" ∧ after.length.toNat = 2 ∧ after.reserved = [0xdeadbeef, 0xdeadbeef] ∧
      after.buffer[0]? = some 0x61620000 ∧ after.buffer[1]? = some 0x79797979 := by
  intro text b after
  have hbytes : Text.bytes text = List.replicate 512 0x79 ++ [0x61, 0x62] := by decide +kernel
  have hne : text ≠ "" := by
    intro hempty
    rw [hempty] at hbytes
    cases hbytes
  obtain ⟨_, ⟨hlength, hreserved, hbuffer⟩, _⟩ := block_after_write hne b
  rw [hbytes] at hlength hbuffer
  have hword (i : Nat) := (congrArg (·[i]?) hbuffer).trans List.getElem?_mapIdx
  refine ⟨hne, hlength.trans ?_, hreserved.trans ?_, (hword 0).trans ?_, (hword 1).trans ?_⟩
  all_goals decide +kernel

end Viewer

end Vr4300.Console
