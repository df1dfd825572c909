import Mathlib.Data.List.Basic
import Mathlib.Logic.Function.Iterate
import Vr4300.Proofs.Console.Block
import Vr4300.Proofs.Console.Payload

/-!
# A text as one string of words

The packets of a text are a plain packing of all its bytes: the `j`-th word of the text goes to the
`j`-th place of the buffer, counted around its end, and behind the last word of each packet comes
the length of the packet (`packets_eq_plainStores`). A plain packing of full packets goes on with
that of the bytes behind them (`plainStores_append`). The loop of a viewer makes one turn for each
packet (`Viewer.iterate_turn`).
-/

namespace Vr4300.Console

/-- The words that `n` bytes need. -/
def wordCount (n : Nat) : Nat := (n + 3) / 4

/-- The words that the buffer holds. -/
def bufferWords : Nat := bufferSize / 4

/-- The packets that `n` bytes need. -/
def packetCount (n : Nat) : Nat := (n + (bufferSize - 1)) / bufferSize

/-- The bytes in the `k`-th packet of `n` bytes. -/
def packetSize (n k : Nat) : Nat := min bufferSize (n - bufferSize * k)

/-- The store of the `j`-th word. -/
def wordStore (bs : List UInt8) (j : Nat) : Store :=
  ⟨bufferOffset + 4 * (j % bufferWords), Word.wordAt bs j⟩

/-- The store that closes the `k`-th packet of `n` bytes. -/
def sizeStore (n k : Nat) : Store := ⟨lengthOffset, .ofNat (packetSize n k)⟩

/-- The `j`-th of the words of `n` bytes is the last one of its packet. -/
def ClosesPacket (n j : Nat) : Prop := j % bufferWords = bufferWords - 1 ∨ j + 1 = wordCount n

instance (n j : Nat) : Decidable (ClosesPacket n j) := inferInstanceAs (Decidable (_ ∨ _))

/-- The store of the `j`-th word, and that of the length if the word is the last one of a packet. -/
def storesAt (bs : List UInt8) (j : Nat) : List Store :=
  wordStore bs j :: if ClosesPacket bs.length j then [sizeStore bs.length (j / bufferWords)] else []

/-- Word by word, without cutting the bytes into packets first. -/
def plainStores (bs : List UInt8) : List Store :=
  (List.range (wordCount bs.length)).flatMap (storesAt bs)

/-! ## Packets as plain packing -/

section
variable {bs : List UInt8}

/-- Full packets do not see the bytes behind them. -/
theorem storesAt_append_left {q j : Nat} (h : bs.length = bufferSize * q)
    (hj : j < bufferWords * q) (bs' : List UInt8) : storesAt (bs ++ bs') j = storesAt bs j := by
  simp only [bufferSize] at h
  simp only [bufferWords, bufferSize] at hj
  have hword : wordStore (bs ++ bs') j = wordStore bs j := by
    rw [wordStore, Word.wordAt_append_left (by omega), wordStore]
  have hcloses : ClosesPacket (bs ++ bs').length j ↔ ClosesPacket bs.length j := by
    simp only [ClosesPacket, wordCount, bufferWords, bufferSize, List.length_append]
    omega
  have hsize : packetSize (bs ++ bs').length (j / bufferWords) =
      packetSize bs.length (j / bufferWords) := by
    simp only [packetSize, bufferWords, bufferSize, List.length_append]
    omega
  simp only [storesAt, sizeStore, hword, hcloses, hsize]

/-- Bytes behind full packets are packed as they are alone. -/
theorem storesAt_append_right {q : Nat} (h : bs.length = bufferSize * q) (bs' : List UInt8)
    (j : Nat) : storesAt (bs ++ bs') (bufferWords * q + j) = storesAt bs' j := by
  simp only [bufferSize] at h
  have hplace : bs.length = 4 * (bufferWords * q) := by
    simp only [bufferWords, bufferSize]
    omega
  have hword : wordStore (bs ++ bs') (bufferWords * q + j) = wordStore bs' j := by
    rw [wordStore, Word.wordAt_append_right hplace, Nat.mul_add_mod, wordStore]
  have hcloses : ClosesPacket (bs ++ bs').length (bufferWords * q + j) ↔
      ClosesPacket bs'.length j := by
    simp only [ClosesPacket, wordCount, bufferWords, bufferSize, List.length_append]
    omega
  have hsize : packetSize (bs ++ bs').length ((bufferWords * q + j) / bufferWords) =
      packetSize bs'.length (j / bufferWords) := by
    simp only [packetSize, bufferWords, bufferSize, List.length_append]
    omega
  simp only [storesAt, sizeStore, hword, hcloses, hsize]

theorem plainStores_append (h : bufferSize ∣ bs.length) (bs' : List UInt8) :
    plainStores (bs ++ bs') = plainStores bs ++ plainStores bs' := by
  obtain ⟨q, hq⟩ := h
  have hcount : wordCount bs.length = bufferWords * q := by
    simp only [wordCount, hq, bufferWords, bufferSize]
    omega
  have hsum : wordCount (bs ++ bs').length = bufferWords * q + wordCount bs'.length := by
    simp only [wordCount, List.length_append, hq, bufferWords, bufferSize]
    omega
  have hleft : ∀ j ∈ List.range (bufferWords * q), storesAt (bs ++ bs') j = storesAt bs j :=
    fun j hj => storesAt_append_left hq (List.mem_range.mp hj) bs'
  have hright : ∀ j ∈ List.range (wordCount bs'.length),
      storesAt (bs ++ bs') (bufferWords * q + j) = storesAt bs' j :=
    fun j _ => storesAt_append_right hq bs' j
  rw [plainStores, hsum, List.range_add, List.flatMap_append, List.flatMap_map,
    List.flatMap_congr hleft, List.flatMap_congr hright, plainStores, hcount, plainStores]

/-- What fits the buffer needs no more words than it has. -/
theorem wordCount_le {n : Nat} (h : n ≤ bufferSize) : wordCount n ≤ bufferWords := by
  simp only [wordCount, bufferWords, bufferSize] at *
  omega

theorem dataStores_eq_map (h : bs.length ≤ bufferSize) :
    dataStores bs = (List.range (wordCount bs.length)).map (wordStore bs) := by
  rw [dataStores, Word.packAll_eq_map]
  apply List.ext_getElem
  · simp only [List.length_mapIdx, List.length_map, List.length_range, wordCount]
  · intro j hj _
    simp only [List.length_mapIdx, List.length_map, List.length_range] at hj
    have hplace : j % bufferWords = j := Nat.mod_eq_of_lt (Nat.lt_of_lt_of_le hj (wordCount_le h))
    simp only [List.getElem_mapIdx, List.getElem_map, List.getElem_range, wordStore, hplace]

/-- Bytes that fit the buffer are packed as one packet. -/
theorem plainStores_of_length_le (hne : bs ≠ []) (h : bs.length ≤ bufferSize) :
    plainStores bs = packet bs := by
  have hpos := List.length_pos_iff.mpr hne
  have hcount : wordCount bs.length ≠ 0 := by
    simp only [wordCount]
    omega
  obtain ⟨m, hm⟩ := Nat.exists_eq_add_one_of_ne_zero hcount
  have hlt := wordCount_le h
  rw [hm] at hlt
  have hinner : ∀ j ∈ List.range m, storesAt bs j = [wordStore bs j] := by
    intro j hj
    have hopen : ¬ClosesPacket bs.length j := by
      simp only [ClosesPacket, hm, List.mem_range, bufferWords, bufferSize] at hj hlt ⊢
      omega
    rw [storesAt, if_neg hopen]
  have hlast : storesAt bs m = [wordStore bs m, ⟨lengthOffset, .ofNat bs.length⟩] := by
    rw [storesAt, if_pos (.inr hm.symm), sizeStore, packetSize, Nat.div_eq_of_lt hlt, Nat.mul_zero,
      Nat.sub_zero, Nat.min_eq_right h]
  rw [plainStores, packet, dataStores_eq_map h, hm, List.range_succ, List.flatMap_append,
    List.flatMap_congr hinner, ← List.map_eq_flatMap, List.flatMap_singleton, hlast,
    List.map_append, List.append_assoc]
  rfl

end

/-- **The packets of a byte string are its plain packing.** -/
theorem packets_eq_plainStores (bs : List UInt8) :
    (payloads bs).flatMap packet = plainStores bs := by
  fun_induction payloads bs with
  | case1 => rfl
  | case2 bs hne ih =>
    rw [List.flatMap_cons, ih]
    by_cases hle : bs.length ≤ bufferSize
    · rw [List.take_of_length_le hle, List.drop_eq_nil_of_le hle, plainStores_of_length_le hne hle]
      exact List.append_nil _
    · have hlength : (bs.take bufferSize).length = bufferSize :=
        List.length_take_of_le (Nat.le_of_not_le hle)
      have hpos : 0 < (bs.take bufferSize).length := by
        rw [hlength]
        decide
      have hpacket : plainStores (bs.take bufferSize) = packet (bs.take bufferSize) :=
        plainStores_of_length_le (List.ne_nil_of_length_pos hpos) (Nat.le_of_eq hlength)
      rw [← hpacket, ← plainStores_append ⟨1, hlength⟩, List.take_append_drop]

/-! ## Words and lengths on their own -/

section
variable (bs : List UInt8)

theorem filter_plainStores :
    (plainStores bs).filter (·.offset ≠ lengthOffset) =
      (List.range (wordCount bs.length)).map (wordStore bs) := by
  have hword (j : Nat) : (storesAt bs j).filter (·.offset ≠ lengthOffset) = [wordStore bs j] := by
    have hoffset : (wordStore bs j).offset ≠ lengthOffset := by
      simp only [wordStore, bufferOffset, lengthOffset]
      omega
    rw [storesAt, List.filter_cons, if_pos (decide_eq_true hoffset)]
    by_cases hcloses : ClosesPacket bs.length j
    · rw [if_pos hcloses]
      rfl
    · rw [if_neg hcloses]
      rfl
  rw [plainStores, List.filter_flatMap]
  simp only [hword]
  exact List.map_eq_flatMap.symm

variable {bs} in
theorem packetCount_of_ne_nil (h : bs ≠ []) :
    packetCount bs.length = packetCount (bs.drop bufferSize).length + 1 := by
  have hpos := List.length_pos_iff.mpr h
  simp only [packetCount, List.length_drop, bufferSize]
  omega

/-- The lengths that the host is told are the sizes of the packets. -/
theorem filter_packets :
    ((payloads bs).flatMap packet).filter (·.offset = lengthOffset) =
      (List.range (packetCount bs.length)).map (sizeStore bs.length) := by
  fun_induction payloads bs with
  | case1 => rfl
  | case2 bs hne ih =>
    have hfirst : sizeStore bs.length 0 = ⟨lengthOffset, .ofNat (bs.take bufferSize).length⟩ := by
      rw [sizeStore, packetSize, Nat.mul_zero, Nat.sub_zero, List.length_take]
    have hnext (k : Nat) : sizeStore bs.length (k + 1) =
        sizeStore (bs.drop bufferSize).length k := by
      rw [sizeStore, packetSize, sizeStore, packetSize, List.length_drop, Nat.mul_succ,
        Nat.add_comm, Nat.sub_add_eq]
    rw [List.flatMap_cons, List.filter_append, filter_packet, ih, packetCount_of_ne_nil hne,
      List.range_succ_eq_map, List.map_cons, List.map_map, hfirst]
    exact congrArg _ (List.map_congr_left fun k _ => (hnext k).symm)

theorem length_packets :
    ((payloads bs).flatMap packet).length = wordCount bs.length + packetCount bs.length := by
  have hwords := congrArg List.length (filter_plainStores bs)
  have hsizes := congrArg List.length (filter_packets bs)
  rw [← packets_eq_plainStores, List.length_map, List.length_range] at hwords
  rw [List.length_map, List.length_range] at hsizes
  rw [List.length_eq_length_filter_add (·.offset = lengthOffset), hsizes, ← hwords, Nat.add_comm]
  simp only [ne_eq, decide_not]

theorem toNat_sizeStore (n k : Nat) : (sizeStore n k).value.toNat = packetSize n k :=
  toNat_count (Nat.min_le_left ..)

/-- All packets are full but the last one. -/
theorem packetSize_eq {n k : Nat} (h : k < packetCount n) :
    packetSize n k =
      if k + 1 = packetCount n then n - bufferSize * (packetCount n - 1) else bufferSize := by
  split
  all_goals
    simp only [packetCount, packetSize, bufferSize] at *
    omega

theorem packetSize_pos {n k : Nat} (h : k < packetCount n) : 0 < packetSize n k := by
  simp only [packetCount, packetSize, bufferSize] at h ⊢
  omega

theorem no_empty_packet : ⟨lengthOffset, 0⟩ ∉ (payloads bs).flatMap packet := by
  intro hmem
  have hsize : (⟨lengthOffset, 0⟩ : Store) ∈
      (List.range (packetCount bs.length)).map (sizeStore bs.length) := by
    rw [← filter_packets]
    exact List.mem_filter.mpr ⟨hmem, rfl⟩
  obtain ⟨k, hk, hzero⟩ := List.mem_map.mp hsize
  have hcount : packetSize bs.length k = 0 := by
    rw [← toNat_sizeStore, hzero]
    rfl
  exact Nat.ne_of_gt (packetSize_pos (List.mem_range.mp hk)) hcount

end

/-! ## The loop -/

namespace Viewer

section
variable {σ : Type} [WordStore σ]

/-- One turn of the loop that writes a byte string: a packet, and what is left behind it. -/
def turn (s : List UInt8 × Viewer σ) : List UInt8 × Viewer σ :=
  let r := s.2.writeBytes s.1
  (s.1.drop r.1, r.2)

theorem turn_eq (bs : List UInt8) (v : Viewer σ) :
    turn (bs, v) = (bs.drop bufferSize, (v.writeBytes bs).2) := by
  rw [turn, drop_writeBytes_fst]

theorem fst_iterate_turn (bs : List UInt8) (v : Viewer σ) (k : Nat) :
    (turn^[k] (bs, v)).1 = bs.drop (bufferSize * k) := by
  induction k generalizing bs v with
  | zero => rfl
  | succ k ih =>
    rw [Function.iterate_succ_apply, turn_eq, ih, List.drop_drop, Nat.mul_succ, Nat.add_comm]

/-- The loop is over after one turn for each packet. -/
theorem iterate_turn (bs : List UInt8) (v : Viewer σ) :
    turn^[packetCount bs.length] (bs, v) = ([], v.writeAll bs) := by
  fun_induction payloads bs generalizing v with
  | case1 => rw [writeAll_nil]; rfl
  | case2 bs hne ih =>
    rw [packetCount_of_ne_nil hne, Function.iterate_succ_apply, turn_eq, ih, writeAll_of_ne_nil hne]

/-- The loop is not over before. -/
theorem fst_iterate_turn_ne_nil {bs : List UInt8} {k : Nat} (v : Viewer σ)
    (h : k < packetCount bs.length) : (turn^[k] (bs, v)).1 ≠ [] := by
  rw [fst_iterate_turn, ne_eq, List.drop_eq_nil_iff]
  simp only [packetCount, bufferSize] at *
  omega

end

/-- The stores that a text makes. -/
def recorded (text : String) : List Store :=
  ((⟨⟨#[]⟩⟩ : Viewer Recorder).write text).2.regs.stores.toList

theorem recorded_eq (text : String) :
    recorded text = (payloads (Text.bytes text)).flatMap packet := by
  rw [recorded, write, writeAll_eq_storeAll, Recorder.toList_storeAll]
  rfl

/-- **A text is packed as one string of words.** What a viewer stores for a text of `n` bytes are
its words in order, the `j`-th one in the `j`-th place of the buffer counted around its end, and a
length behind every 128th word and behind the last one: that of a full buffer, or of what is left
for the last packet. No packet is empty, and nothing is stored for the empty text, whereas an empty
byte string is handed over as a length of zero. The loop ends after one turn for each packet,
whatever takes the stores. -/
theorem packs_text_as_words (text : String) :
    let bytes := Text.bytes text
    let n := bytes.length
    let words := (n + 3) / 4
    let packets := (n + 511) / 512
    let word (j : Nat) : Store := ⟨0x0c + 4 * (j % 128), Word.pack ((bytes.drop (4 * j)).take 4)⟩
    let size (k : Nat) : Store :=
      ⟨0x00, .ofNat (if k + 1 = packets then n - 512 * (packets - 1) else 512)⟩
    (recorded text = (List.range words).flatMap fun j =>
      word j :: if j % 128 = 127 ∨ j + 1 = words then [size (j / 128)] else []) ∧
    (recorded text).filter (·.offset ≠ lengthOffset) = (List.range words).map word ∧
    (recorded text).filter (·.offset = lengthOffset) = (List.range packets).map size ∧
    (recorded text).length = words + packets ∧
    (recorded text = [] ↔ text = "") ∧ ⟨0x00, 0⟩ ∉ recorded text ∧
    ((⟨⟨#[]⟩⟩ : Viewer Recorder).writeBytes []).2.regs.stores.toList = [⟨0x00, 0⟩] ∧
    ∀ (σ : Type) [WordStore σ] (v : Viewer σ),
      v.write text = (.ok (), ⟨storeAll (recorded text) v.regs⟩) ∧
      turn^[packets] (bytes, v) = ([], (v.write text).2) ∧
      ∀ k : Fin packets, (turn^[k] (bytes, v)).1 ≠ [] := by
  intro bytes n words packets word size
  have hrecorded : recorded text = (payloads bytes).flatMap packet := recorded_eq text
  have hplain : recorded text = plainStores bytes := hrecorded.trans (packets_eq_plainStores bytes)
  have hsize {k : Nat} (hk : k < packets) : sizeStore n k = size k :=
    congrArg (Store.mk lengthOffset <| .ofNat ·) (packetSize_eq hk)
  have hlength : (recorded text).length = words + packets := hrecorded ▸ length_packets bytes
  refine ⟨?_, hplain ▸ filter_plainStores bytes, ?_, hlength, ?_, hrecorded ▸ no_empty_packet bytes,
    rfl, fun σ _ v => ⟨?_, iterate_turn bytes v, fun k => fst_iterate_turn_ne_nil v k.isLt⟩⟩
  · rw [hplain]
    refine List.flatMap_congr fun j hj => ?_
    have hk : j / 128 < packets := by
      have hj : j < (n + 3) / 4 := List.mem_range.mp hj
      omega
    have hclosed : sizeStore n (j / bufferWords) = size (j / 128) := hsize hk
    rw [storesAt, hclosed]
    rfl
  · rw [hrecorded, filter_packets]
    exact List.map_congr_left fun k hk => hsize (List.mem_range.mp hk)
  · have hnil : bytes = Text.bytes "" ↔ text = "" := Text.bytes_inj
    rw [← List.length_eq_zero_iff, hlength, ← hnil, Text.bytes_empty, ← List.length_eq_zero_iff]
    omega
  · rw [write, writeAll_eq_storeAll, hrecorded]

end Viewer

end Vr4300.Console
