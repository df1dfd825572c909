import Vr4300.Cp0.Status.Command
import Vr4300.Proofs.Cp0.Status.Union

/-!
# The parts of a word

The flags of a word and its rest are disjoint and make up the word (`foldr_mask_flags`,
`pairwise_mask_flags`, `mask_and_unnamed`). The word is therefore the union of its parts, collected
in any order (`unions_parts`, `flags_partition_word`).
-/

namespace Vr4300.Cp0.Status

open Word

theorem Flag.mask_and_not_named (f : Flag) : f.mask &&& ~~~named = 0 := by cases f <;> decide

theorem ofName?_name (f : Flag) : ofName? f.name = some (ofFlag f) := by
  rw [ofName?, Flag.ofName?_name, Option.map_some]

theorem unions_append (ss ts : List Status) :
    unions (ss ++ ts) = (unions ss).union (unions ts) := by
  apply ext_bit
  intro i
  rw [bit_unions, List.any_append, union, bit_or, bit_unions, bit_unions]

theorem unions_map_ofFlag (fs : List Flag) : unions (fs.map ofFlag) = ofFlags fs := by
  induction fs with
  | nil => rfl
  | cons f fs ih =>
    rw [List.map_cons, unions_cons, ih]
    rfl

theorem foldr_mask (fs : List Flag) (rest : UInt32) :
    fs.foldr (fun f w => f.mask ||| w) rest = (ofFlags fs).bits ||| rest := by
  induction fs with
  | nil => exact UInt32.zero_or.symm
  | cons f fs ih =>
    rw [List.foldr_cons, ih, ← UInt32.or_assoc]
    rfl

variable {s : Status}

/-- A flag of one bit is in a word that has the bit. -/
theorem contains_eq_bne {f : Flag} (hf : f ∈ Flag.single) :
    s.contains (ofFlag f) = (s.bits &&& f.mask != 0) := by
  cases h : s.contains (ofFlag f) with
  | true =>
    have hmask : s.bits &&& f.mask = f.mask := beq_iff_eq.mp h
    rw [hmask]
    exact (bne_iff_ne.mpr f.mask_ne_zero).symm
  | false =>
    have hzero : s.bits &&& f.mask = 0 := by
      apply Word.ext_bit
      intro i
      rw [bit_and, ← contains_and_bit hf, h, Bool.false_and, bit_zero]
    rw [hzero]
    rfl

theorem flags_eq_filter_bne (s : Status) :
    s.flags = Flag.single.filter fun f => s.bits &&& f.mask != 0 := by
  rw [flags_eq_filter]
  apply List.filter_congr
  intro f hf
  exact contains_eq_bne hf

theorem fpu_notMem_flags (s : Status) : .fpu ∉ s.flags := by
  have hsingle : Flag.fpu ∉ Flag.single := by decide
  rw [flags_eq_filter]
  exact fun h => hsingle (List.mem_filter.mp h).1

theorem pairwise_mask_flags (s : Status) :
    s.flags.Pairwise fun f g => f.mask &&& g.mask = 0 := by
  rw [flags_eq_filter]
  exact Flag.pairwise_single.filter _

theorem mask_and_unnamed (f : Flag) (s : Status) : f.mask &&& s.unnamed = 0 := by
  rw [unnamed_eq, UInt32.and_comm s.bits, ← UInt32.and_assoc, f.mask_and_not_named,
    UInt32.zero_and]

theorem foldr_mask_flags (s : Status) :
    s.flags.foldr (fun f w => f.mask ||| w) s.unnamed = s.bits := by
  rw [foldr_mask]
  exact congrArg bits s.ofFlags_union_unnamed

theorem unions_parts (s : Status) : unions (s.parts.map mk) = s := by
  have hrest : unions ((if s.unnamed = 0 then [] else [s.unnamed]).map mk) = ⟨s.unnamed⟩ := by
    split
    next h => exact congrArg mk h.symm
    next => exact congrArg mk UInt32.zero_or
  have hflags : (s.flags.map Flag.mask).map mk = s.flags.map ofFlag := List.map_map
  rw [parts, List.map_append, unions_append, hrest, hflags, unions_map_ofFlag]
  exact s.ofFlags_union_unnamed

theorem unions_of_perm_parts {ws : List UInt32} (h : ws.Perm s.parts) :
    unions (ws.map mk) = s := by
  rw [unions_eq_of_mem_iff fun _ => (h.map mk).mem_iff, unions_parts]

/-- **The parts of a word partition it.** Iteration by name yields the flags of one bit whose bit
the word has, in declaration order, and never the composite flag; what they leave are the bits
without a name. The masks are disjoint from each other and from that rest, and together they are
the word. Iteration by value yields the masks and then the rest if there is one, and whatever the
order in which these are collected they give the word, or the union with a set that is extended by
them. Each name that is yielded is the name of its flag. -/
theorem flags_partition_word (s : Status) :
    Command.flags.run s = (s, .flags s.flags s.unnamed) ∧
    s.flags = (([.cu1, .fr, .bev, .pe] : List Flag).filter fun f => s.bits &&& f.mask != 0) ∧
    .fpu ∉ s.flags ∧
    (s.flags.Pairwise fun f g => f.mask &&& g.mask = 0) ∧
    (∀ f ∈ s.flags, f.mask &&& s.unnamed = 0) ∧
    s.unnamed = s.bits &&& ~~~named ∧
    s.flags.foldr (fun f w => f.mask ||| w) s.unnamed = s.bits ∧
    Command.parts.run s =
      (s, .words (s.flags.map Flag.mask ++ if s.unnamed = 0 then [] else [s.unnamed])) ∧
    (∀ (ws : List UInt32) (t : Status), ws.Perm s.parts →
      (Command.collect (ws.map mk)).run t = (s, .done) ∧
      (Command.extend (ws.map mk)).run t = (⟨t.bits ||| s.bits⟩, .done)) ∧
    ∀ f ∈ s.flags, (Command.assignName f.name).run s = (⟨f.mask⟩, .truth true) := by
  refine ⟨rfl, s.flags_eq_filter_bne, s.fpu_notMem_flags, s.pairwise_mask_flags,
    fun f _ => mask_and_unnamed f s, s.unnamed_eq, s.foldr_mask_flags, rfl, ?_, ?_⟩
  · intro ws t hws
    have hunion := unions_of_perm_parts hws
    constructor
    · exact congrArg (·, Answer.done) hunion
    · have hextend : t.extend (ws.map mk) = ⟨t.bits ||| s.bits⟩ := by
        rw [extend_eq_union, hunion, union]
      exact congrArg (·, Answer.done) hextend
  · intro f _
    rw [Command.run, ofName?_name]
    rfl

/-- A word with three flags and two bits without a name, taken apart and put together backwards. -/
theorem flags_partition_word_of_two_unnamed :
    let s : Status := ⟨0x34400001⟩
    let ws : List UInt32 := [0x10000001, 0x00400000, 0x04000000, 0x20000000]
    s.flags = [.cu1, .fr, .bev] ∧ s.unnamed = 0x10000001 ∧
    (Flag.bev ∈ s.flags ∧ Flag.bev.mask &&& s.unnamed = 0 ∧
      (Command.assignName "BEV").run s = (⟨0x00400000⟩, .truth true)) ∧
    ws.Perm s.parts ∧ (Command.collect (ws.map mk)).run ⟨0x8⟩ = (s, .done) ∧
    (Command.extend (ws.map mk)).run ⟨0x8⟩ = (⟨0x34400009⟩, .done) := by
  intro s ws
  obtain ⟨_, hflags, _, _, hrest, hunnamed, _, _, hcollect, hname⟩ := flags_partition_word s
  have hbev : Flag.bev ∈ s.flags := by decide
  have hperm : ws.Perm s.parts := by decide
  have hbits : (0x8 : UInt32) ||| s.bits = 0x34400009 := by decide
  obtain ⟨hall, hextend⟩ := hcollect ws ⟨0x8⟩ hperm
  exact ⟨hflags.trans (by decide), hunnamed.trans (by decide),
    ⟨hbev, hrest .bev hbev, hname .bev hbev⟩, hperm, hall,
    hextend.trans (congrArg (fun w => (mk w, Answer.done)) hbits)⟩

end Vr4300.Cp0.Status
