import Vr4300.Proofs.Console.Block
import Vr4300.Proofs.Console.Payload

/-!
# What reaches the host

The host takes bytes only at a store into the length register, and at the end of a packet it takes
the payload of that packet, whatever the buffer held before (`Host.output_packet`). Its output
grows with every store (`Host.output_prefix_storeAll`), so at any stop it is an initial part of
the bytes that the commands deliver (`Host.output_of_commands`).
-/

namespace Vr4300.Console

namespace Host

/-- What the host has taken stays taken. -/
theorem output_prefix_storeAll (xs : List Store) (h : Host) :
    h.output <+: (storeAll xs h).output := by
  induction xs generalizing h with
  | nil => exact List.prefix_refl _
  | cons x xs ih =>
    refine List.IsPrefix.trans ?_ (ih (h.store x))
    by_cases hx : x.offset = lengthOffset
    · rw [store, if_pos hx]
      exact List.prefix_append ..
    · have heq := output_store_of_ne h hx
      exact heq.symm ▸ List.prefix_refl h.output

theorem output_storeAll_of_ne {xs : List Store} (hxs : ∀ x ∈ xs, x.offset ≠ lengthOffset)
    (h : Host) : (storeAll xs h).output = h.output := by
  induction xs generalizing h with
  | nil => rfl
  | cons x xs ih =>
    obtain ⟨hx, hxs⟩ := List.forall_mem_cons.mp hxs
    exact (ih hxs (h.store x)).trans (output_store_of_ne h hx)

/-- A packet adds its payload to the output. -/
theorem output_packet {p : List UInt8} (hp : p.length ≤ bufferSize) (h : Host) :
    (storeAll (packet p) h).output = h.output ++ p := by
  have hdata : (storeAll (dataStores p) h).output = h.output :=
    output_storeAll_of_ne (fun _ => offset_ne_of_mem_dataStores) h
  rw [packet, storeAll_append]
  change ((storeAll (dataStores p) h).store _).output = _
  rw [store, if_pos rfl, hdata, block_storeAll, Block.bytes, Block.buffer_store_length,
    toNat_count hp]
  exact congrArg (h.output ++ ·) (Block.take_bytes_dataStores h.block hp)

theorem output_packets {ps : List (List UInt8)} (hps : ∀ p ∈ ps, p.length ≤ bufferSize)
    (h : Host) : (storeAll (ps.flatMap packet) h).output = h.output ++ ps.flatten := by
  induction ps generalizing h with
  | nil => exact (List.append_nil _).symm
  | cons p ps ih =>
    obtain ⟨hp, hps⟩ := List.forall_mem_cons.mp hps
    rw [List.flatMap_cons, storeAll_append, ih hps, output_packet hp, List.flatten_cons,
      List.append_assoc]

theorem output_stores (cs : List Command) (h : Host) :
    (storeAll (cs.flatMap Command.stores) h).output =
      h.output ++ cs.flatMap Command.delivered := by
  have hps : ∀ p ∈ cs.flatMap Command.payloads, p.length ≤ bufferSize := by
    intro p hp
    obtain ⟨c, _, hp⟩ := List.mem_flatMap.mp hp
    exact Command.length_le_of_mem_payloads hp
  have hstores : cs.flatMap Command.stores = (cs.flatMap Command.payloads).flatMap packet :=
    List.flatMap_assoc.symm
  rw [hstores, output_packets hps, Command.flatten_flatMap_payloads]

/-- **The console is a faithful stream.** A run of commands on one viewer makes the same stores
whatever takes them, and a host that takes them has in the end, after what it had, the bytes that
each command delivers, in order; every command gives its answer. Stopped after any number of the
stores, the host has an initial part of that. -/
theorem output_of_commands (cs : List Command) (h : Host) :
    let trace :=
      (Action.finalState Command.perform cs (⟨⟨#[]⟩⟩ : Viewer Recorder)).regs.stores.toList
    let final := (Action.finalState Command.perform cs (⟨h⟩ : Viewer Host)).regs
    final = storeAll trace h ∧
      final.output = h.output ++ cs.flatMap Command.delivered ∧
      (Action.scan Command.perform cs (⟨h⟩ : Viewer Host)).map Outcome.value =
        cs.map Command.answer ∧
      ∀ stop, stop <+: trace →
        h.output <+: (storeAll stop h).output ∧ (storeAll stop h).output <+: final.output := by
  intro trace final
  have htrace : trace = cs.flatMap Command.stores := Command.toList_recorded cs
  have hfinal : final = storeAll trace h := by
    rw [htrace]
    exact congrArg Viewer.regs (Command.finalState_perform cs ⟨h⟩)
  refine ⟨hfinal, ?_, Command.map_value_scan_perform cs ⟨h⟩, ?_⟩
  · rw [hfinal, htrace]
    exact output_stores cs h
  · rintro stop ⟨rest, hrest⟩
    refine ⟨output_prefix_storeAll stop h, ?_⟩
    rw [hfinal, ← hrest, storeAll_append]
    exact output_prefix_storeAll rest _

end Host

end Vr4300.Console
