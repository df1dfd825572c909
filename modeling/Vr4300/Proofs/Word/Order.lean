import Vr4300.BitField
import Vr4300.Proofs.Numeral.Place
import Vr4300.Proofs.Word

/-!
# Words in the order of their bytes

A word is packed from the start of a byte string, which is filled up with zeros if it ends there
(`bytes_pack_eq_filled`). Filling up keeps the order of byte strings (`filled_le_filled`) and words
are ordered as their bytes (`bytes_lt_iff`), so packing keeps the order (`pack_le_pack`). A fold
that shifts one byte after the other to its place gives the same word and never overflows
(`Checked.pack_eq`): whatever is left of the bytes finds its places free (`Checked.foldlM_join`).
-/

namespace Vr4300.Word

open Numeral

/-! ## Filling up -/

/-- The first `n` bytes, with zeros for those that are missing. -/
def filled (n : Nat) (bs : List UInt8) : List UInt8 := bs.take n ++ List.replicate (n - bs.length) 0

section
variable (n : Nat)

@[simp] theorem filled_zero (bs : List UInt8) : filled 0 bs = [] := by simp [filled]

@[simp] theorem filled_succ_nil : filled (n + 1) [] = 0 :: filled n [] := by
  simp [filled, List.replicate_succ]

@[simp] theorem filled_succ_cons (b : UInt8) (bs : List UInt8) :
    filled (n + 1) (b :: bs) = b :: filled n bs := by
  simp [filled]

@[simp] theorem length_filled (bs : List UInt8) : (filled n bs).length = n := by
  simp only [filled, List.length_append, List.length_take, List.length_replicate]
  omega

end

section
variable {as bs : List UInt8}

/-- No byte is smaller than zero, so a string that ends stays below one that goes on. -/
theorem filled_le_filled (h : as ≤ bs) (n : Nat) : filled n as ≤ filled n bs := by
  induction n generalizing as bs with
  | zero =>
    rw [filled_zero]
    exact List.nil_le _
  | succ n ih =>
    rcases as with _ | ⟨a, as⟩ <;> rcases bs with _ | ⟨b, bs⟩
    case nil.nil => exact List.le_refl _
    case nil.cons =>
      rw [filled_succ_nil, filled_succ_cons, List.cons_le_cons_iff]
      exact (UInt8.lt_or_eq_of_le UInt8.zero_le).imp_right (⟨·, ih (List.nil_le _)⟩)
    case cons.nil => exact absurd (List.nil_lt_cons a as) (List.not_lt.mpr h)
    case cons.cons =>
      rw [List.cons_le_cons_iff] at h
      rw [filled_succ_cons, filled_succ_cons, List.cons_le_cons_iff]
      exact h.imp_right (And.imp_right ih)

theorem pack_take (bs : List UInt8) : pack (bs.take 4) = pack bs := by
  simp [pack, List.getD_eq_getElem?_getD]

theorem bytes_pack_eq_filled (bs : List UInt8) : bytes (pack bs) = filled 4 bs := by
  have hmissing : 4 - (bs.take 4).length = 4 - bs.length := by
    rw [List.length_take]
    omega
  rw [← pack_take, bytes_pack_of_length_le (List.length_take_le ..), hmissing, filled]

theorem bytes_inj {w w' : UInt32} : bytes w = bytes w' ↔ w = w' := by
  refine ⟨fun h => ?_, congrArg bytes⟩
  rw [← pack_bytes w, h, pack_bytes]

theorem pack_eq_iff : pack as = pack bs ↔ filled 4 as = filled 4 bs := by
  rw [← bytes_inj, bytes_pack_eq_filled, bytes_pack_eq_filled]

end

/-! ## Bytes as digits -/

theorem byteDigits : DigitsOf 256 (fun _ : UInt8 => True) UInt8.toNat where
  count_lt _ := UInt8.toNat_lt _
  count_lt_count _ _ := UInt8.lt_iff_toNat_lt.symm

theorem placeValue_bytes (w : UInt32) : placeValue 256 UInt8.toNat (bytes w) = w.toNat := by
  have hword : (pack (bytes w)).toNat = _ := toNat_pack ..
  rw [pack_bytes] at hword
  rw [hword]
  simp only [bytes, placeValue, List.length_cons, List.length_nil]
  omega

theorem placeValue_filled_nil (n : Nat) : placeValue 256 UInt8.toNat (filled n []) = 0 := by
  induction n with
  | zero => rfl
  | succ n ih =>
    rw [filled_succ_nil, placeValue, ih]
    exact Nat.zero_mul _

theorem toNat_pack_eq_placeValue (bs : List UInt8) :
    (pack bs).toNat = placeValue 256 UInt8.toNat (filled 4 bs) := by
  rw [← bytes_pack_eq_filled, placeValue_bytes]

theorem bytes_lt_iff {w w' : UInt32} : bytes w < bytes w' ↔ w < w' := by
  have hlength : (bytes w).length = (bytes w').length := rfl
  rw [byteDigits.lt_iff (fun _ _ => trivial) (fun _ _ => trivial) hlength, placeValue_bytes,
    placeValue_bytes, UInt32.lt_iff_toNat_lt]

theorem bytes_le_iff {w w' : UInt32} : bytes w ≤ bytes w' ↔ w ≤ w' := by
  rw [← List.not_lt, bytes_lt_iff, UInt32.not_lt]

theorem pack_le_pack {as bs : List UInt8} (h : as ≤ bs) : pack as ≤ pack bs := by
  rw [← bytes_le_iff, bytes_pack_eq_filled, bytes_pack_eq_filled]
  exact filled_le_filled h 4

/-! ## Byte after byte -/

/-- A word and a byte joined to it, with `n` places behind it. -/
def join (word : UInt32) (b : UInt8) (n : Nat) : UInt32 := word ||| b.toUInt32 <<< .ofNat (n * 8)

/-- Joining adds a byte at its place if that place and all behind it are free. -/
theorem toNat_join {word : UInt32} {n : Nat} (hn : n < 4) (hfree : 256 ^ (n + 1) ∣ word.toNat)
    (b : UInt8) : (join word b n).toNat = word.toNat + b.toNat * 256 ^ n := by
  have hplace (k : Nat) : 256 ^ k = 2 ^ (k * 8) := by rw [Nat.mul_comm, Nat.pow_mul]
  have hb : b.toNat * 2 ^ (n * 8) < 2 ^ ((n + 1) * 8) := by
    rw [Nat.succ_mul, Nat.pow_add, Nat.mul_comm]
    exact Nat.mul_lt_mul_of_pos_left b.toNat_lt (Nat.two_pow_pos _)
  have hfits : b.toNat * 2 ^ (n * 8) < 2 ^ 32 :=
    Nat.lt_of_lt_of_le hb (Nat.pow_le_pow_right Nat.two_pos (by omega))
  have hshift : (UInt32.ofNat (n * 8)).toNat % 32 = n * 8 := by
    rw [UInt32.toNat_ofNat']
    omega
  -- all bits of the byte are below those of the word, so joining is adding
  obtain ⟨q, hq⟩ := hfree
  rw [hplace] at hq
  rw [join, UInt32.toNat_or, UInt32.toNat_shiftLeft, UInt8.toNat_toUInt32, hshift,
    Nat.shiftLeft_eq, Nat.mod_eq_of_lt hfits, hq, ← Nat.two_pow_add_eq_or_of_lt hb, hplace]

namespace Checked

open BitField (Overflow)

/-- The difference of two indices, unless it is negative. -/
def sub (m n : Nat) : Except Overflow Nat := if n ≤ m then .ok (m - n) else .error .subtract

def shiftLeft (w : UInt32) (n : Nat) : Except Overflow UInt32 :=
  if n < 32 then .ok (w <<< .ofNat n) else .error .shiftLeft

/-- Joins the byte at an index to a word. -/
def join (word : UInt32) : UInt8 × Nat → Except Overflow UInt32
  | (b, i) => do return word ||| (← shiftLeft b.toUInt32 ((← sub 3 i) * 8))

/-- As `Word.pack`, with operations that stop at an overflow. -/
def pack (bs : List UInt8) : Except Overflow UInt32 := (bs.take 4).zipIdx.foldlM join 0

theorem join_eq {i n : Nat} (h : i + n = 3) (word : UInt32) (b : UInt8) :
    join word (b, i) = .ok (Word.join word b n) := by
  have hsub : sub 3 i = .ok n := (if_pos (by omega)).trans (congrArg _ (by omega))
  have hshift : shiftLeft b.toUInt32 (n * 8) = .ok (b.toUInt32 <<< .ofNat (n * 8)) :=
    if_pos (by omega)
  simp only [join, hsub, bind, Except.bind, hshift]
  rfl

/-- What is left of the bytes takes the last `n` places of a word, if they are free. -/
theorem foldlM_join {i n : Nat} (h : i + n = 4) (bs : List UInt8) (word : UInt32)
    (hfree : 256 ^ n ∣ word.toNat) :
    ∃ w, ((bs.take n).zipIdx i).foldlM join word = .ok w ∧
      w.toNat = word.toNat + placeValue 256 UInt8.toNat (filled n bs) := by
  -- on the places that are left; those behind the next byte stay free
  induction n generalizing i bs word with
  | zero =>
    refine ⟨word, rfl, ?_⟩
    rw [filled_zero]
    rfl
  | succ n ih =>
    cases bs with
    | nil =>
      refine ⟨word, rfl, ?_⟩
      rw [placeValue_filled_nil]
      rfl
    | cons b bs =>
      have hjoin := toNat_join (by omega) hfree b
      have hrest : 256 ^ n ∣ (Word.join word b n).toNat := by
        rw [hjoin]
        exact Nat.dvd_add (Nat.dvd_trans (Nat.pow_dvd_pow 256 n.le_succ) hfree)
          (Nat.dvd_mul_left ..)
      obtain ⟨w, hw, hvalue⟩ := ih (i := i + 1) (by omega) bs _ hrest
      refine ⟨w, ?_, ?_⟩
      · rw [List.take_succ_cons, List.zipIdx_cons, List.foldlM_cons, join_eq (Nat.succ.inj h)]
        exact hw
      · rw [hvalue, hjoin, filled_succ_cons, placeValue, length_filled, Nat.add_assoc]

theorem pack_eq (bs : List UInt8) : pack bs = .ok (Word.pack bs) := by
  obtain ⟨w, hw, hvalue⟩ := foldlM_join (Nat.zero_add 4) bs 0 (Nat.dvd_zero _)
  have hword : w = Word.pack bs := by
    rw [← UInt32.toNat_inj, hvalue, toNat_pack_eq_placeValue]
    exact Nat.zero_add _
  rw [pack, hw, hword]

end Checked

/-- **A word is the big-endian value of the start of a byte string.** Its bytes are the first four
of the string, with zeros for those that are missing, and bytes behind them do not matter; shifting
them to their places one after the other never overflows. So byte strings are packed as one word
exactly if they start alike once they are filled up, and packing keeps their order. Cut every four
bytes and packed, a byte string is read back from its words up to its length. -/
theorem packs_start_in_order :
    (∀ bs : List UInt8,
      let words := (List.range ((bs.length + 3) / 4)).map fun j => pack ((bs.drop (4 * j)).take 4)
      Checked.pack bs = .ok (pack bs) ∧
      bytes (pack bs) = bs.take 4 ++ List.replicate (4 - bs.length) 0 ∧
      (pack bs).toNat = placeValue 256 UInt8.toNat (filled 4 bs) ∧
      pack (bs.take 4) = pack bs ∧
      packAll bs = words ∧
      (words.flatMap bytes).take bs.length = bs) ∧
    ∀ as bs : List UInt8,
      (pack as = pack bs ↔ filled 4 as = filled 4 bs) ∧ (as ≤ bs → pack as ≤ pack bs) := by
  refine ⟨fun bs => ?_, fun as bs => ⟨pack_eq_iff, pack_le_pack⟩⟩
  intro words
  have hwords : packAll bs = words := packAll_eq_map bs
  refine ⟨Checked.pack_eq bs, bytes_pack_eq_filled bs, toNat_pack_eq_placeValue bs, pack_take bs,
    hwords, ?_⟩
  rw [← hwords, flatMap_bytes_packAll, List.take_left]

/-- One string goes on with zeros and bytes behind the word, another is overtaken early. -/
theorem packs_start_in_order_of_long_strings :
    pack [0x61, 0x62] = pack [0x61, 0x62, 0, 0, 0x63] ∧
    ([0x61, 0xff, 0xff, 0xff, 0xff] : List UInt8) ≤ [0x62] ∧
    pack [0x61, 0xff, 0xff, 0xff, 0xff] ≤ pack [0x62] := by
  obtain ⟨_, hpair⟩ := packs_start_in_order
  have hle : ([0x61, 0xff, 0xff, 0xff, 0xff] : List UInt8) ≤ [0x62] := by decide
  exact ⟨(hpair _ _).1.mpr rfl, hle, (hpair _ _).2 hle⟩

end Vr4300.Word
