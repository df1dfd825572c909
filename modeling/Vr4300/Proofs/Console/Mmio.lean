import Vr4300.Proofs.Memory
import Vr4300.Proofs.Console.Protocol

/-!
# Stores into memory

A register block in memory takes a store as the block itself does (`Mmio.block_storeAll`), and
memory that no store hits stays as it is (`Mmio.byte_storeAll`). What a viewer stores hits the
length register and the buffer only, so it never leaves the block
(`Mmio.viewer_stays_in_block`).
-/

namespace Vr4300.Console

/-- The stores into registers of the block. -/
def InBlock (x : Store) : Prop := ∃ i < blockSize, x.offset = 4 * i

/-- A register is aligned and ends inside the block, and it is none of the reserved words. -/
theorem Framed.place {k : Nat} {xs : List Store} (h : Framed k xs) : ∀ x ∈ xs,
    4 ∣ x.offset ∧ x.offset + 4 ≤ 4 * blockSize ∧ x.offset ≠ 4 ∧ x.offset ≠ 8 := by
  intro x hx
  rcases h.registers x hx with ⟨hlength, _⟩ | ⟨i, hi, hword⟩
  · rw [hlength]
    decide
  · simp only [bufferSize] at hi
    simp only [hword, bufferOffset, blockSize]
    omega

theorem Framed.inBlock {k : Nat} {xs : List Store} (h : Framed k xs) : ∀ x ∈ xs, InBlock x := by
  intro x hx
  obtain ⟨⟨i, hoffset⟩, hend, _⟩ := h.place x hx
  exact ⟨i, by omega, hoffset⟩

theorem Block.store_register {i : Nat} (b : Block) (value : UInt32) (hi : i < blockSize) :
    b.store ⟨4 * i, value⟩ = ⟨b.words.set i value hi⟩ := by
  simp [store, hi]

namespace Mmio

/-- Where a store goes. -/
def address (m : Mmio) (x : Store) : UInt64 := m.base + .ofNat x.offset

theorem memory_store (x : Store) (m : Mmio) :
    (WordStore.store x m).memory = m.memory.writeWord (m.address x) x.value := rfl

theorem storeAll_eq (xs : List Store) (m : Mmio) :
    storeAll xs m =
      ⟨m.base, xs.foldl (fun memory x => memory.writeWord (m.address x) x.value) m.memory⟩ := by
  induction xs generalizing m with
  | nil => rfl
  | cons x xs ih => rw [storeAll_cons, ih]; rfl

/-! ## The block -/

theorem block_eq (m : Mmio) :
    m.block = ⟨.ofFn fun i => m.memory.readWord (m.base + .ofNat (4 * i))⟩ := by
  simp only [block, UInt64.ofNat_mul]
  rfl

theorem block_store {x : Store} (m : Mmio) (hx : InBlock x) :
    (WordStore.store x m).block = WordStore.store x m.block := by
  obtain ⟨offset, value⟩ := x
  obtain ⟨i, hi, rfl⟩ := hx
  have hset : WordStore.store ⟨4 * i, value⟩ m.block = ⟨m.block.words.set i value hi⟩ :=
    Block.store_register m.block value hi
  have hsize : ∀ j < blockSize, j < 2 ^ 61 := fun j hj => Nat.lt_trans hj (by decide)
  rw [hset, block_eq, block_eq, Block.mk.injEq]
  apply Vector.ext
  intro j hj
  rw [Vector.getElem_ofFn, Vector.getElem_set, memory_store, address]
  split
  next hij =>
    cases hij
    exact Memory.readWord_writeWord ..
  next hij =>
    rw [Vector.getElem_ofFn]
    exact Memory.readWord_writeWord_of_ne _ _ _ (hsize j hj) (hsize i hi) (Ne.symm hij)

/-- A block in memory goes through the same states as the block itself. -/
theorem block_storeAll {xs : List Store} (hxs : ∀ x ∈ xs, InBlock x) (m : Mmio) :
    (storeAll xs m).block = storeAll xs m.block := by
  induction xs generalizing m with
  | nil => rfl
  | cons x xs ih =>
    obtain ⟨hx, hxs⟩ := List.forall_mem_cons.mp hxs
    rw [storeAll_cons, storeAll_cons, ih hxs, block_store m hx]

/-! ## The rest of memory -/

/-- A byte keeps its value if the four bytes of every store lie elsewhere. -/
theorem byte_storeAll {xs : List Store} {a : UInt64} (m : Mmio)
    (ha : ∀ x ∈ xs, 4 ≤ (a - m.address x).toNat) :
    (storeAll xs m).memory.byte a = m.memory.byte a := by
  induction xs generalizing m with
  | nil => rfl
  | cons x xs ih =>
    obtain ⟨hx, hxs⟩ := List.forall_mem_cons.mp ha
    rw [storeAll_cons, ih (WordStore.store x m) hxs, memory_store]
    exact Memory.byte_writeWord_of_le _ _ hx

/-- In a block that does not wrap around the end of the address space the registers lie in
order. -/
theorem toNat_address {x : Store} {m : Mmio} (hx : InBlock x)
    (hend : m.base.toNat + 4 * blockSize ≤ 2 ^ 64) :
    (m.address x).toNat = m.base.toNat + x.offset := by
  obtain ⟨i, hi, hoffset⟩ := hx
  simp only [blockSize] at hi hend
  have hlt : x.offset < UInt64.size := by simp only [UInt64.size]; omega
  rw [address, UInt64.toNat_add, UInt64.toNat_ofNat_of_lt' hlt]
  omega

/-- Outside the length register and the buffer, framed stores change no byte of memory. -/
theorem byte_storeAll_framed {k : Nat} {xs : List Store} {a : UInt64} {m : Mmio}
    (h : Framed k xs) (hend : m.base.toNat + 4 * blockSize ≤ 2 ^ 64)
    (ha : a.toNat < m.base.toNat ∨ m.base.toNat + 4 * blockSize ≤ a.toNat ∨
      m.base.toNat + 4 ≤ a.toNat ∧ a.toNat < m.base.toNat + bufferOffset) :
    (storeAll xs m).memory.byte a = m.memory.byte a := by
  apply byte_storeAll
  intro x hx
  have haddress := toNat_address (h.inBlock x hx) hend
  obtain ⟨⟨i, hoffset⟩, hlast, hfirst, hsecond⟩ := h.place x hx
  -- a store behind `a` counts as far away, by the rest of the address space
  have hlt := a.toNat_lt
  rw [UInt64.toNat_sub, haddress]
  simp only [bufferOffset, blockSize] at ha hend hlast
  omega

/-- **A viewer stays inside its register block.** Whatever is written, every store is a length of
at most a buffer of bytes or a word of the buffer, so it is aligned, ends inside the block and
spares the reserved words; the words that a length closes are as many as its bytes need and lie
one behind the other from the start of the buffer. A block in memory at an aligned address that
does not wrap around is written at these places only, and ends up as a block does that takes the
stores on record. -/
theorem viewer_stays_in_block (cs : List Command) :
    let trace :=
      (Action.finalState Command.perform cs (⟨⟨#[]⟩⟩ : Viewer Recorder)).regs.stores.toList
    (∀ x ∈ trace,
      (x.offset = lengthOffset ∧ x.value.toNat ≤ bufferSize ∨
        ∃ i < 128, x.offset = bufferOffset + 4 * i) ∧
      4 ∣ x.offset ∧ x.offset + 4 ≤ 524 ∧ x.offset ≠ 4 ∧ x.offset ≠ 8) ∧
    (∀ before words n after, trace = before ++ words ++ ⟨lengthOffset, n⟩ :: after →
      Closed before → (∀ x ∈ words, x.offset ≠ lengthOffset) →
      words.length = (n.toNat + 3) / 4 ∧
        words.map Store.offset = (List.range words.length).map (bufferOffset + 4 * ·)) ∧
    Closed trace ∧
    ∀ m : Mmio, 4 ∣ m.base.toNat → m.base.toNat + 524 ≤ 2 ^ 64 →
      let final := (Action.finalState Command.perform cs (⟨m⟩ : Viewer Mmio)).regs
      final = ⟨m.base,
        trace.foldl (fun memory x => memory.writeWord (m.address x) x.value) m.memory⟩ ∧
      (∀ x ∈ trace, (m.address x).toNat = m.base.toNat + x.offset ∧ 4 ∣ (m.address x).toNat ∧
        (m.address x).toNat + 4 ≤ m.base.toNat + 524) ∧
      (∀ a : UInt64, a.toNat < m.base.toNat ∨ m.base.toNat + 524 ≤ a.toNat ∨
          m.base.toNat + 4 ≤ a.toNat ∧ a.toNat < m.base.toNat + 12 →
        final.memory.byte a = m.memory.byte a) ∧
      final.block = storeAll trace m.block := by
  intro trace
  have htrace : trace = cs.flatMap Command.stores := Command.toList_recorded cs
  have hframed : Framed 0 trace := htrace ▸ Command.framed_stores cs
  refine ⟨fun x hx => ⟨hframed.registers x hx, hframed.place x hx⟩, ?_, hframed.closed, ?_⟩
  · intro before words n after hsplit hbefore hwords
    rw [hsplit, List.append_assoc] at hframed
    obtain ⟨hlength, hoffset⟩ := (hframed.of_append_closed hbefore).map_offset rfl hwords
    rw [Nat.zero_add] at hlength
    rw [List.range_eq_range']
    exact ⟨hlength, hoffset⟩
  · intro m haligned hend final
    have hfinal : final = storeAll trace m := by
      rw [htrace]
      exact congrArg Viewer.regs (Command.finalState_perform cs ⟨m⟩)
    refine ⟨hfinal.trans (storeAll_eq trace m), ?_, ?_, ?_⟩
    · intro x hx
      have haddress := toNat_address (hframed.inBlock x hx) hend
      obtain ⟨hdvd, hin, _⟩ := hframed.place x hx
      have hlast : x.offset + 4 ≤ 524 := hin
      rw [haddress]
      exact ⟨rfl, Nat.dvd_add haligned hdvd, by omega⟩
    · intro a ha
      rw [hfinal]
      exact byte_storeAll_framed hframed hend ha
    · rw [hfinal]
      exact block_storeAll hframed.inBlock m

/-- Nine bytes, then a text of two, on the block of a development cartridge over memory that holds
`0xde` everywhere: the second packet leaves the reserved words and the end of the first one. -/
theorem viewer_stays_in_block_of_two_packets :
    let cs : List Command :=
      [.writeBytes [0x55, 0x4e, 0x48, 0x41, 0x4e, 0x44, 0x4c, 0x45, 0x44], .write "ab"]
    let trace :=
      (Action.finalState Command.perform cs (⟨⟨#[]⟩⟩ : Viewer Recorder)).regs.stores.toList
    let m : Mmio := ⟨Console.base, ⟨fun _ => 0xde⟩⟩
    let final := (Action.finalState Command.perform cs (⟨m⟩ : Viewer Mmio)).regs
    let first : List Store := [⟨0x0c, 0x554e4841⟩, ⟨0x10, 0x4e444c45⟩, ⟨0x14, 0x44000000⟩, ⟨0, 9⟩]
    let second : List Store := [⟨0x0c, 0x61620000⟩]
    (trace = first ++ second ++ [⟨lengthOffset, 2⟩] ∧ Closed first ∧
      second.length = ((2 : UInt32).toNat + 3) / 4) ∧
    (4 ∣ m.base.toNat ∧ m.base.toNat + 524 ≤ 2 ^ 64) ∧
    final.memory.byte (Console.base + 0x04) = 0xde ∧ final.memory.byte (Console.base + 0x0d) = 0x62 ∧
      final.memory.byte (Console.base + 0x14) = 0x44 ∧ final.block = storeAll trace m.block := by
  intro cs trace m final first second
  have htrace : trace = first ++ second ++ [⟨lengthOffset, 2⟩] := by
    have hab : payloads (Text.bytes "ab") = [Text.bytes "ab"] :=
      payloads_of_length_le (by decide) (by decide)
    have hstores : trace = cs.flatMap Command.stores := Command.toList_recorded cs
    simp only [cs, List.flatMap_cons, List.flatMap_nil, Command.stores, Command.payloads, hab]
      at hstores
    rw [hstores]
    decide
  have haligned : 4 ∣ m.base.toNat := by decide
  have hend : m.base.toNat + 524 ≤ 2 ^ 64 := by decide
  have hclosed : Closed first := .inr ⟨⟨0, 9⟩, rfl, rfl⟩
  obtain ⟨_, hwords, _, hmemory⟩ := viewer_stays_in_block cs
  obtain ⟨hfinal, _, hbyte, hblock⟩ := hmemory m haligned hend
  have hfinal : final = ⟨m.base, (first ++ second ++ [(⟨lengthOffset, 2⟩ : Store)]).foldl
      (fun memory x => memory.writeWord (m.address x) x.value) m.memory⟩ := htrace ▸ hfinal
  refine ⟨⟨htrace, hclosed, ?_⟩, ⟨haligned, hend⟩, ?_, ?_, ?_, hblock⟩
  · exact (hwords first second 2 [] htrace hclosed (by decide)).1
  · exact hbyte (Console.base + 4) (.inr (.inr (by decide)))
  · rw [hfinal]
    decide +kernel
  · rw [hfinal]
    decide +kernel

end Mmio

end Vr4300.Console
