import Mathlib

/-!
# The order of names in bytes

Names are compared by code points, character by character. A file system compares them by the bytes
of their UTF-8 encoding. The two orders are the same. A character is encoded as a lead byte and up
to three more bytes, of which each holds six bits, the highest first; so among characters with the
same number of bytes the first byte that differs decides as the code points do. And the more bytes a
character has, the larger its lead byte is.

## Main definitions

* `Text.bytes` — the UTF-8 encoding of a text.
* `Text.sextets` — a number as a lead byte and bytes of six bits.

## Main results

* `Text.sextets_lt_sextets` — the order of numbers with the same number of bytes.
* `Text.encodeChar_lt_encodeChar` — the order of characters.
* `Text.bytes_lt_bytes_iff` — the order of texts.
-/

namespace Interpolation.Text

/-- The bytes of a text in UTF-8. -/
def bytes (text : String) : List UInt8 := text.toUTF8.data.toList

theorem bytes_eq (text : String) : bytes text = text.toList.flatMap String.utf8EncodeChar := by
  rw [bytes, String.toUTF8, ← String.utf8Encode_toList, List.utf8Encode, List.data_toByteArray]

/-! ### Numbers as rows of bytes -/

/-- A number as a row of bytes: the given number of bytes with the last six bits each, behind a byte
for the rest, to which the given mark is added. -/
def sextets (mark : Nat) : Nat → Nat → List UInt8
  | 0, n => [UInt8.ofNat (mark + n)]
  | count + 1, n => sextets mark count (n / 64) ++ [UInt8.ofNat (n % 64 + 128)]

/-- A row of bytes begins with the mark and the highest bits. -/
theorem exists_sextets_eq_cons (mark count n : Nat) :
    ∃ rest, sextets mark count n = UInt8.ofNat (mark + n / 64 ^ count) :: rest := by
  induction count generalizing n with
  | zero => exact ⟨[], by rw [sextets, Nat.pow_zero, Nat.div_one]⟩
  | succ count ih =>
    obtain ⟨rest, hrest⟩ := ih (n / 64)
    refine ⟨rest ++ [UInt8.ofNat (n % 64 + 128)], ?_⟩
    rw [sextets, hrest, Nat.div_div_eq_div_mul, Nat.pow_succ', List.cons_append]

theorem ofNat_lt_ofNat {a b : Nat} (h : a < b) (hb : b < 256) :
    UInt8.ofNat a < UInt8.ofNat b := by
  rw [UInt8.lt_iff_toNat_lt, UInt8.toNat_ofNat', UInt8.toNat_ofNat']
  omega

theorem append_lt_append_left {a b : List UInt8} (front : List UInt8) (h : a < b) :
    front ++ a < front ++ b := by
  induction front with
  | nil => exact h
  | cons byte rest ih => exact List.cons_lt_cons_iff.mpr (Or.inr ⟨rfl, ih⟩)

/-- Rows of the same length for a smaller and a larger number are in this order, whatever follows
them. -/
theorem sextets_lt_sextets {mark count n m : Nat} (h : n < m) (hmark : mark + m / 64 ^ count < 256)
    (x y : List UInt8) : sextets mark count n ++ x < sextets mark count m ++ y := by
  induction count generalizing n m x y with
  | zero =>
    rw [Nat.pow_zero, Nat.div_one] at hmark
    exact List.cons_lt_cons_iff.mpr (Or.inl (ofNat_lt_ofNat (by omega) hmark))
  | succ count ih =>
    rw [Nat.pow_succ', ← Nat.div_div_eq_div_mul] at hmark
    rw [sextets, sextets, List.append_assoc, List.append_assoc]
    -- Either the higher bits decide, or they agree and the last six bits do.
    rcases Nat.lt_or_eq_of_le (Nat.div_le_div_right (c := 64) (Nat.le_of_lt h)) with hhigh | hhigh
    · exact ih hhigh hmark _ _
    · have hlow : UInt8.ofNat (n % 64 + 128) < UInt8.ofNat (m % 64 + 128) :=
        ofNat_lt_ofNat (by omega) (by omega)
      rw [hhigh]
      exact append_lt_append_left _ (List.cons_lt_cons_iff.mpr (Or.inl hlow))

/-! ### Characters -/

/-- How many bytes follow the lead byte of a code point. -/
def following (n : Nat) : Nat :=
  if n ≤ 0x7F then 0 else if n ≤ 0x7FF then 1 else if n ≤ 0xFFFF then 2 else 3

/-- What marks a lead byte that this many bytes follow. -/
def leadMark : Nat → Nat
  | 0 => 0
  | 1 => 0xC0
  | 2 => 0xE0
  | _ => 0xF0

/-- The encoding of a character, as its code point in a row of bytes. -/
theorem encodeChar_eq (c : Char) :
    String.utf8EncodeChar c =
      sextets (leadMark (following c.toNat)) (following c.toNat) c.toNat := by
  have hmax : c.toNat ≤ 0x10FFFF := c.toNat_le_max
  simp only [String.utf8EncodeChar, Char.toNat_val, following]
  generalize c.toNat = n at hmax
  split_ifs with hone htwo hthree
  · simp only [sextets, leadMark, Nat.zero_add]
  · have hlead : n / 64 % 32 + 192 = 0xC0 + n / 64 := by omega
    simp only [sextets, leadMark, List.cons_append, List.nil_append, hlead]
  · have hlead : n / 4096 % 16 + 224 = 0xE0 + n / 64 / 64 := by omega
    simp only [sextets, leadMark, List.cons_append, List.nil_append, hlead]
  · have hlead : n / 262144 % 8 + 240 = 0xF0 + n / 64 / 64 / 64 := by omega
    have hhigh : n / 4096 % 64 = n / 64 / 64 % 64 := by omega
    simp only [sextets, leadMark, List.cons_append, List.nil_append, hlead, hhigh]

/-- Of two characters, the smaller is encoded as the smaller row of bytes, whatever follows. -/
theorem encodeChar_lt_encodeChar {c d : Char} (h : c < d) (x y : List UInt8) :
    String.utf8EncodeChar c ++ x < String.utf8EncodeChar d ++ y := by
  have hlt : c.toNat < d.toNat := h
  have hmax : d.toNat ≤ 0x10FFFF := d.toNat_le_max
  rw [encodeChar_eq, encodeChar_eq]
  generalize c.toNat = n at hlt
  generalize d.toNat = m at hlt hmax
  have hmark : leadMark (following m) + m / 64 ^ following m < 256 := by
    unfold following
    split_ifs <;> simp only [leadMark] <;> omega
  by_cases hsame : following n = following m
  · rw [hsame]
    exact sextets_lt_sextets hlt hmark x y
  · -- The larger character has more bytes, so already the lead bytes differ.
    have hlead : leadMark (following n) + n / 64 ^ following n <
        leadMark (following m) + m / 64 ^ following m := by
      unfold following at hsame ⊢
      split_ifs at hsame ⊢ <;> simp only [leadMark] <;> omega
    obtain ⟨rest, hrest⟩ := exists_sextets_eq_cons (leadMark (following n)) (following n) n
    obtain ⟨others, hothers⟩ := exists_sextets_eq_cons (leadMark (following m)) (following m) m
    rw [hrest, hothers]
    exact List.cons_lt_cons_iff.mpr (Or.inl (ofNat_lt_ofNat hlead hmark))

/-! ### Texts -/

theorem flatMap_encodeChar_lt {cs ds : List Char} (h : cs < ds) :
    cs.flatMap String.utf8EncodeChar < ds.flatMap String.utf8EncodeChar := by
  induction cs generalizing ds with
  | nil =>
    cases ds with
    | nil => exact absurd h (List.lt_irrefl [])
    | cons d others =>
      obtain ⟨byte, rest, hbytes⟩ :=
        List.exists_cons_of_ne_nil (String.utf8EncodeChar_ne_nil (c := d))
      rw [List.flatMap_nil, List.flatMap_cons, hbytes]
      exact List.nil_lt_cons byte _
  | cons c rest ih =>
    cases ds with
    | nil => exact absurd h (List.not_lt_nil _)
    | cons d others =>
      rw [List.flatMap_cons, List.flatMap_cons]
      rcases List.cons_lt_cons_iff.mp h with hlt | ⟨rfl, hrest⟩
      · exact encodeChar_lt_encodeChar hlt _ _
      · exact append_lt_append_left _ (ih hrest)

/-- **The order of bytes is the order of code points.** -/
theorem bytes_lt_bytes_iff {a b : String} : bytes a < bytes b ↔ a < b := by
  have hmono : ∀ {a b : String}, a < b → bytes a < bytes b := by
    intro a b h
    rw [bytes_eq, bytes_eq]
    exact flatMap_encodeChar_lt (String.lt_iff_toList_lt.mp h)
  constructor
  · intro h
    rcases lt_trichotomy a b with hlt | rfl | hgt
    · exact hlt
    · exact absurd h (List.lt_irrefl _)
    · exact absurd h (List.lt_asymm (hmono hgt))
  · exact hmono

end Interpolation.Text
