/-! 32-bit words as big-endian bytes.

`Word.bytes` gives the four bytes of a word and `Word.pack` the word that starts with the given
bytes, filled up with zeros. `Word.packAll` cuts a byte string into words, the last of which may be
filled up. `Word.pack_bytes` says that no byte is lost. -/

namespace Vr4300.Word

def bytes (w : UInt32) : List UInt8 :=
  [(w >>> 24).toUInt8, (w >>> 16).toUInt8, (w >>> 8).toUInt8, w.toUInt8]

/-- The first four bytes, most significant first; missing ones are zero. -/
def pack (bs : List UInt8) : UInt32 :=
  let byte i := (bs.getD i 0).toNat
  .ofNat (((byte 0 * 256 + byte 1) * 256 + byte 2) * 256 + byte 3)

/-- One word for every four bytes, and one for a rest of less. -/
def packAll : List UInt8 → List UInt32
  | a :: b :: c :: d :: bs => pack [a, b, c, d] :: packAll bs
  | [] => []
  | bs => [pack bs]

@[simp] theorem length_bytes (w : UInt32) : (bytes w).length = 4 := rfl

theorem toNat_pack (a b c d : UInt8) :
    (pack [a, b, c, d]).toNat = ((a.toNat * 256 + b.toNat) * 256 + c.toNat) * 256 + d.toNat := by
  have := a.toNat_lt; have := b.toNat_lt; have := c.toNat_lt; have := d.toNat_lt
  simp only [pack, List.getD_cons_zero, List.getD_cons_succ, UInt32.toNat_ofNat']
  omega

theorem pack_bytes (w : UInt32) : pack (bytes w) = w := by
  have := w.toNat_lt
  apply UInt32.toNat_inj.mp
  simp only [bytes, toNat_pack, UInt32.toNat_toUInt8, UInt32.toNat_shiftRight, UInt32.toNat_ofNat,
    Nat.shiftRight_eq_div_pow]
  simp only [Nat.reduceMod, Nat.reducePow]
  omega

theorem bytes_pack (a b c d : UInt8) : bytes (pack [a, b, c, d]) = [a, b, c, d] := by
  have := a.toNat_lt; have := b.toNat_lt; have := c.toNat_lt; have := d.toNat_lt
  simp only [bytes, List.cons.injEq, and_true, ← UInt8.toNat_inj, UInt32.toNat_toUInt8,
    UInt32.toNat_shiftRight, UInt32.toNat_ofNat, Nat.shiftRight_eq_div_pow, toNat_pack]
  simp only [Nat.reduceMod, Nat.reducePow]
  omega

/-- Bytes that do not start with a full word are fewer than four. -/
theorem length_lt_of_ne_cons {bs : List UInt8}
    (h : ∀ a b c d rest, bs = a :: b :: c :: d :: rest → False) : bs.length < 4 := by
  rcases bs with _ | ⟨a, _ | ⟨b, _ | ⟨c, _ | ⟨d, bs⟩⟩⟩⟩
  case cons.cons.cons.cons => exact (h a b c d bs rfl).elim
  all_goals simp

theorem length_packAll (bs : List UInt8) : (packAll bs).length = (bs.length + 3) / 4 := by
  fun_induction packAll bs with
  | case1 a b c d bs ih => simp [ih]; omega
  | case2 => rfl
  | case3 bs hlong hne =>
    have hlt := length_lt_of_ne_cons hlong
    have hpos := List.length_pos_iff.mpr hne
    rw [List.length_singleton]
    omega

end Vr4300.Word
