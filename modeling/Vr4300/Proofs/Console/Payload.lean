import Vr4300.Console.Host

/-!
# The stores that commands make

A viewer cuts a byte string into `payloads`, none empty and none longer than the buffer, and stores
one packet for each. The stores of a command are the packets of its payloads (`Command.stores`):
they do not depend on what takes them, and neither does the answer (`Command.run_perform`,
`Command.finalState_perform`). So the stores that a `Recorder` lists are those that any other
destination sees (`Command.toList_recorded`).
-/

namespace Vr4300.Console

/-- The pieces in which a viewer hands over a byte string. -/
def payloads (bytes : List UInt8) : List (List UInt8) :=
  if _h : bytes = [] then [] else bytes.take bufferSize :: payloads (bytes.drop bufferSize)
termination_by bytes.length
decreasing_by
  have := List.length_pos_iff.mpr _h
  simp only [List.length_drop, bufferSize]
  omega

@[simp] theorem payloads_nil : payloads [] = [] := by rw [payloads, dif_pos rfl]

theorem payloads_of_ne_nil {bytes : List UInt8} (h : bytes ≠ []) :
    payloads bytes = bytes.take bufferSize :: payloads (bytes.drop bufferSize) := by
  rw [payloads, dif_neg h]

/-- What fits the buffer is handed over in one piece. -/
theorem payloads_of_length_le {bytes : List UInt8} (h : bytes ≠ [])
    (hle : bytes.length ≤ bufferSize) : payloads bytes = [bytes] := by
  rw [payloads_of_ne_nil h, List.take_of_length_le hle, List.drop_eq_nil_of_le hle, payloads_nil]

theorem flatten_payloads (bytes : List UInt8) : (payloads bytes).flatten = bytes := by
  fun_induction payloads bytes with
  | case1 => rfl
  | case2 bytes h ih => rw [List.flatten_cons, ih, List.take_append_drop]

theorem length_le_of_mem_payloads {bytes p : List UInt8} (hp : p ∈ payloads bytes) :
    p.length ≤ bufferSize := by
  fun_induction payloads bytes with
  | case1 => cases hp
  | case2 bytes h ih =>
    rcases List.mem_cons.mp hp with rfl | hp
    · exact List.length_take_le ..
    · exact ih hp

/-- The pieces in which a text is handed over that is written in several parts. -/
def textPayloads (texts : List String) : List (List UInt8) :=
  texts.flatMap fun text => payloads (Text.bytes text)

theorem textPayloads_cons (text : String) (texts : List String) :
    textPayloads (text :: texts) = payloads (Text.bytes text) ++ textPayloads texts :=
  List.flatMap_cons

theorem flatten_textPayloads (texts : List String) :
    (textPayloads texts).flatten = Text.bytes (String.join texts) := by
  induction texts with
  | nil => rfl
  | cons text texts ih =>
    rw [String.join_cons, Text.bytes_append, textPayloads_cons, List.flatten_append,
      flatten_payloads, ih]

/-! ## Viewers -/

namespace Viewer

variable {σ : Type} [WordStore σ]

theorem writeAll_eq_storeAll (bytes : List UInt8) (v : Viewer σ) :
    v.writeAll bytes = ⟨storeAll ((payloads bytes).flatMap packet) v.regs⟩ := by
  fun_induction payloads bytes generalizing v with
  | case1 => rw [writeAll_nil]; rfl
  | case2 bytes h ih =>
    rw [writeAll_of_ne_nil h, ih, List.flatMap_cons, storeAll_append]
    rfl

/-- A viewer refuses no piece of a text. -/
theorem run_writeAll (texts : List String) (v : Viewer σ) :
    (Text.Writer.writeAll texts).run v =
      ⟨.ok (), ⟨storeAll ((textPayloads texts).flatMap packet) v.regs⟩, texts.map .call⟩ := by
  induction texts generalizing v with
  | nil => rfl
  | cons text texts ih =>
    have hwrite : (Text.Writer.write text).run v =
        ⟨.ok (), v.writeAll (Text.bytes text), [.call text]⟩ := rfl
    rw [Text.Writer.writeAll, Action.run_bind, hwrite]
    simp only [ih]
    rw [writeAll_eq_storeAll, textPayloads_cons, List.flatMap_append, storeAll_append]
    rfl

end Viewer

/-! ## Commands -/

namespace Command

/-- The pieces in which the bytes of a command are handed over. -/
def payloads : Command → List (List UInt8)
  | writeBytes bytes => [bytes.take bufferSize]
  | write text => Console.payloads (Text.bytes text)
  | writeChar c => Console.payloads (Text.bytes (.singleton c))
  | report frame => textPayloads frame.reportPieces

def stores (c : Command) : List Store := c.payloads.flatMap packet

/-- What the caller hears: how many bytes were taken, or that all went well. -/
def answer : Command → Answer
  | writeBytes bytes => .count (min bufferSize bytes.length)
  | write _ | writeChar _ => .written (.ok ())
  | report _ => .reported (.ok ())

theorem length_le_of_mem_payloads {c : Command} {p : List UInt8} (hp : p ∈ c.payloads) :
    p.length ≤ bufferSize := by
  cases c with
  | writeBytes bytes =>
    cases List.mem_singleton.mp hp
    exact List.length_take_le ..
  | write | writeChar => exact Console.length_le_of_mem_payloads hp
  | report =>
    obtain ⟨text, _, hp⟩ := List.mem_flatMap.mp hp
    exact Console.length_le_of_mem_payloads hp

theorem flatten_payloads (c : Command) : c.payloads.flatten = c.delivered := by
  cases c with
  | writeBytes => exact List.append_nil _
  | write => exact Console.flatten_payloads _
  | writeChar => exact (Console.flatten_payloads _).trans (Text.bytes_singleton _)
  | report => exact flatten_textPayloads _

theorem flatten_flatMap_payloads (cs : List Command) :
    (cs.flatMap payloads).flatten = cs.flatMap delivered := by
  induction cs with
  | nil => rfl
  | cons c cs ih => simp only [List.flatMap_cons, List.flatten_append, flatten_payloads, ih]

variable {σ : Type} [WordStore σ]

theorem run_perform (c : Command) (v : Viewer σ) :
    (c.perform.run v).value = c.answer ∧ (c.perform.run v).state = ⟨storeAll c.stores v.regs⟩ := by
  cases c with
  | writeBytes bytes =>
    refine ⟨congrArg Answer.count (Viewer.writeBytes_fst bytes v), ?_⟩
    rw [stores, payloads, List.flatMap_singleton]
    rfl
  | write | writeChar => exact ⟨rfl, Viewer.writeAll_eq_storeAll _ v⟩
  | report frame =>
    have hrun := Viewer.run_writeAll frame.reportPieces v
    rw [perform, Action.run_map, Exception.Frame.report, Action.run_bind, Action.run_log]
    simp only [hrun]
    exact ⟨rfl, rfl⟩

theorem finalState_perform (cs : List Command) (v : Viewer σ) :
    Action.finalState perform cs v = ⟨storeAll (cs.flatMap stores) v.regs⟩ := by
  induction cs generalizing v with
  | nil => rfl
  | cons c cs ih =>
    rw [Action.finalState, (run_perform c v).2, ih, List.flatMap_cons, storeAll_append]

theorem map_value_scan_perform (cs : List Command) (v : Viewer σ) :
    (Action.scan perform cs v).map Outcome.value = cs.map answer := by
  induction cs generalizing v with
  | nil => rfl
  | cons c cs ih => simp only [Action.scan, List.map_cons, (run_perform c v).1, ih]

theorem toList_recorded (cs : List Command) :
    (Action.finalState perform cs (⟨⟨#[]⟩⟩ : Viewer Recorder)).regs.stores.toList =
      cs.flatMap stores := by
  rw [finalState_perform, Recorder.toList_storeAll]
  rfl

end Command

end Vr4300.Console
