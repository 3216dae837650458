import Mathlib.Data.List.Basic

/-! Texts as the bytes of their UTF-8 encoding. The byte of an ASCII character stands for nothing
else, so a text that is searched for such bytes and cut at them is cut between characters. -/
namespace EtvStation.Lib.Utf8

def encode (cs : List Char) : List UInt8 := cs.flatMap String.utf8EncodeChar

/-- The text the bytes are the encoding of, if there is one. -/
def decode (bs : List UInt8) : Option (List Char) :=
  bs.toByteArray.utf8Decode?.map Array.toList

@[simp] theorem encode_nil : encode [] = [] := rfl

theorem encode_cons (c : Char) (cs : List Char) :
    encode (c :: cs) = String.utf8EncodeChar c ++ encode cs := rfl

@[simp] theorem encode_append (as bs : List Char) : encode (as ++ bs) = encode as ++ encode bs :=
  List.flatMap_append

@[simp] theorem decode_encode (cs : List Char) : decode (encode cs) = some cs := by
  have h : (encode cs).toByteArray = cs.utf8Encode := rfl
  rw [decode, h, List.utf8Decode?_utf8Encode]
  rfl

theorem encode_eq_nil {cs : List Char} : encode cs = [] ↔ cs = [] := by
  constructor
  · intro h
    have hdecode := decode_encode cs
    rw [h, ← encode_nil, decode_encode, Option.some.injEq] at hdecode
    exact hdecode.symm
  · rintro rfl
    rfl

theorem length_le_encode (cs : List Char) : cs.length ≤ (encode cs).length := by
  induction cs with
  | nil => exact Nat.le_refl 0
  | cons c cs ih =>
    rw [encode_cons, List.length_append, List.length_cons, String.length_utf8EncodeChar]
    have hpos := c.utf8Size_pos
    omega

def byte (c : Char) : UInt8 := c.val.toUInt8

theorem encodeChar_ascii {c : Char} (hc : c.toNat < 128) : String.utf8EncodeChar c = [byte c] := by
  apply String.utf8EncodeChar_eq_singleton
  rw [Char.utf8Size_eq_one_iff, UInt32.le_iff_toNat_le]
  exact Nat.le_of_lt_succ hc

theorem encode_ascii_cons {c : Char} (hc : c.toNat < 128) (cs : List Char) :
    encode (c :: cs) = byte c :: encode cs := by
  rw [encode_cons, encodeChar_ascii hc]
  rfl

theorem toNat_byte {c : Char} (hc : c.toNat < 128) : (byte c).toNat = c.toNat := by
  have h : (byte c).toNat = c.toNat % 256 := UInt32.toNat_toUInt8 c.val
  omega

private theorem le_or (x y : UInt8) (hy : 128 ≤ y) : 128 ≤ x ||| y := by
  rw [UInt8.le_iff_toNat_le, UInt8.toNat_or]
  exact Nat.le_trans (UInt8.le_iff_toNat_le.mp hy) Nat.right_le_or

/-- No byte of another character is the byte of an ASCII character. -/
theorem le_of_mem_encodeChar {c : Char} (hc : 128 ≤ c.toNat) {b : UInt8}
    (hb : b ∈ String.utf8EncodeChar c) : 128 ≤ b := by
  have hone : c.utf8Size ≠ 1 := by
    rw [Ne, Char.utf8Size_eq_one_iff, UInt32.le_iff_toNat_le]
    exact Nat.not_le.mpr (Nat.lt_of_succ_le hc)
  have hsize := c.utf8Size_le_four
  have hpos := c.utf8Size_pos
  obtain h | h | h : c.utf8Size = 2 ∨ c.utf8Size = 3 ∨ c.utf8Size = 4 := by omega
  · rw [String.utf8EncodeChar_eq_cons_cons h] at hb
    simp only [List.mem_cons, List.not_mem_nil, or_false] at hb
    obtain rfl | rfl := hb <;> exact le_or _ _ (by decide)
  · rw [String.utf8EncodeChar_eq_cons_cons_cons h] at hb
    simp only [List.mem_cons, List.not_mem_nil, or_false] at hb
    obtain rfl | rfl | rfl := hb <;> exact le_or _ _ (by decide)
  · rw [String.utf8EncodeChar_eq_cons_cons_cons_cons h] at hb
    simp only [List.mem_cons, List.not_mem_nil, or_false] at hb
    obtain rfl | rfl | rfl | rfl := hb <;> exact le_or _ _ (by decide)

theorem byte_mem_encodeChar {c d : Char} (hc : c.toNat < 128) :
    byte c ∈ String.utf8EncodeChar d ↔ c = d := by
  by_cases hd : d.toNat < 128
  · rw [encodeChar_ascii hd, List.mem_singleton, ← UInt8.toNat_inj, toNat_byte hc, toNat_byte hd,
      Char.toNat_inj]
  · constructor
    · intro h
      have hle := UInt8.le_iff_toNat_le.mp (le_of_mem_encodeChar (Nat.not_lt.mp hd) h)
      rw [toNat_byte hc] at hle
      exact absurd hc (Nat.not_lt.mpr hle)
    · rintro rfl
      exact absurd hc hd

theorem byte_mem_encode {c : Char} (hc : c.toNat < 128) {cs : List Char} :
    byte c ∈ encode cs ↔ c ∈ cs := by
  rw [encode, List.mem_flatMap]
  simp only [byte_mem_encodeChar hc, exists_eq_right']

/-! ## Searching -/

def find (c : Char) (bs : List UInt8) : Option ℕ := bs.idxOf? (byte c)

theorem find_encode_none {c : Char} (hc : c.toNat < 128) {cs : List Char} (h : c ∉ cs) :
    find c (encode cs) = none := by
  rw [find, List.idxOf?_eq_none_iff]
  exact fun hmem => h ((byte_mem_encode hc).mp hmem)

theorem idxOf?_append_cons {α : Type} [DecidableEq α] {a : α} {as bs : List α} (h : a ∉ as) :
    (as ++ a :: bs).idxOf? a = some as.length := by
  induction as with
  | nil => simp [List.idxOf?_cons]
  | cons x as ih =>
    rw [List.mem_cons, not_or] at h
    have hx : (x == a) = false := beq_false_of_ne (Ne.symm h.1)
    rw [List.cons_append, List.idxOf?_cons, hx, ih h.2]
    rfl

/-- The bytes up to the first place of the character are those of the text up to it. -/
theorem find_encode {c : Char} (hc : c.toNat < 128) {as bs : List Char} (h : c ∉ as) :
    find c (encode (as ++ c :: bs)) = some (encode as).length := by
  rw [find, encode_append, encode_ascii_cons hc]
  exact idxOf?_append_cons fun hmem => h ((byte_mem_encode hc).mp hmem)

end EtvStation.Lib.Utf8
