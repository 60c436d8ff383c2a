import Mathlib.Data.String.Basic

/-!
# The order of texts

Texts are ordered like words in a dictionary, character by character by code point. UTF-8 keeps that
order: texts compare like the sequences of their bytes. The reason is that a byte in front of the
others carries the higher bits, and that longer encodings have greater leading bytes, so of two
different characters the lesser one has the lesser byte at the first place where they differ.

## Key results

- `utf8EncodeChar_diverges`: the encodings of two characters differ like the characters
- `text_lt_iff_bytes`, `text_lt_iff_scalars`: three ways to compare two texts
-/

namespace Tern

/-! ### Bytes -/

/-- There is a place where both have a byte and the first has the lesser one, and up to there they
are the same. -/
inductive Diverges : List UInt8 → List UInt8 → Prop
  | here {a b : UInt8} (h : a < b) (as bs : List UInt8) : Diverges (a :: as) (b :: bs)
  | later (a : UInt8) {as bs : List UInt8} (h : Diverges as bs) : Diverges (a :: as) (a :: bs)

/-- Whatever follows, the difference decides. -/
theorem Diverges.append_lt {as bs : List UInt8} (h : Diverges as bs) (more more' : List UInt8) :
    as ++ more < bs ++ more' := by
  induction h with
  | here h as bs => exact .rel h
  | later a _ ih => exact .cons ih

/-- Bytes are ordered by size. -/
private theorem ofNat_lt {m n : Nat} (h : m < n) (hn : n < 256) :
    UInt8.ofNat m < UInt8.ofNat n := by
  have hm : m < 256 := Nat.lt_trans h hn
  rw [UInt8.lt_iff_toNat_lt, UInt8.toNat_ofNat_of_lt' hm, UInt8.toNat_ofNat_of_lt' hn]
  exact h

/-! ### Characters -/

/-- The lowest `6 * count` bits of a code point, six to a byte. -/
private def continuation (v : Nat) : (count : Nat) → List UInt8
  | 0 => []
  | count + 1 => UInt8.ofNat (v / 64 ^ count % 64 + 0x80) :: continuation v count

/-- The number of bytes behind the leading one. -/
private def following (v : Nat) : Nat :=
  if v ≤ 0x7f then 0 else if v ≤ 0x7ff then 1 else if v ≤ 0xffff then 2 else 3

/-- The leading byte tells how many bytes follow, and has the bits that do not fit there. -/
private def leading (v : Nat) : Nat :=
  if v ≤ 0x7f then v else if v ≤ 0x7ff then v / 64 + 0xc0
  else if v ≤ 0xffff then v / 64 ^ 2 + 0xe0 else v / 64 ^ 3 + 0xf0

/-- Code points go up to `0x10ffff`. -/
private theorem toNat_lt_max (c : Char) : c.toNat < 0x110000 := by
  have hvalid : c.toNat < 0xd800 ∨ 0xdfff < c.toNat ∧ c.toNat < 0x110000 := c.valid
  omega

/-- A character is encoded as a leading byte and those that follow. -/
private theorem utf8EncodeChar_eq (c : Char) :
    String.utf8EncodeChar c =
      UInt8.ofNat (leading c.toNat) :: continuation c.toNat (following c.toNat) := by
  have hval : c.val.toNat = c.toNat := rfl
  have hc := toNat_lt_max c
  unfold String.utf8EncodeChar leading following
  simp only [hval]
  generalize c.toNat = v at hc
  -- by the number of bytes, of which all but the first hold six bits
  by_cases hone : v ≤ 0x7f
  · simp only [hone, if_true, continuation]
  by_cases htwo : v ≤ 0x7ff
  · simp only [hone, htwo, if_true, if_false, continuation]
    rw [Nat.mod_eq_of_lt (by omega)]
    simp
  by_cases hthree : v ≤ 0xffff
  · simp only [hone, htwo, hthree, if_true, if_false, continuation]
    rw [Nat.mod_eq_of_lt (by omega)]
    simp
  · simp only [hone, htwo, hthree, if_false, continuation]
    rw [Nat.mod_eq_of_lt (by omega)]
    simp

/-- What follows the leading byte differs like the bits that are there. -/
private theorem continuation_diverges {v w count : Nat} (h : v % 64 ^ count < w % 64 ^ count) :
    Diverges (continuation v count) (continuation w count) := by
  induction count with
  | zero => simp [Nat.mod_one] at h
  | succ count ih =>
    rw [Nat.pow_succ] at h
    unfold continuation
    -- the first byte has the highest six bits, and those after it have the rest
    have hle : v / 64 ^ count % 64 ≤ w / 64 ^ count % 64 := by
      rw [← Nat.mod_mul_right_div_self, ← Nat.mod_mul_right_div_self]
      exact Nat.div_le_div_right (Nat.le_of_lt h)
    -- the first byte decides, or it is the same and the others do
    rcases Nat.lt_or_eq_of_le hle with hlt | heq
    · exact .here (ofNat_lt (by omega) (by omega)) _ _
    · rw [Nat.mod_mul, Nat.mod_mul, heq] at h
      rw [heq]
      exact .later _ (ih (by omega))

/-- The ranges of code points with encodings of one, two, three and four bytes. -/
private theorem leading_ranges (v : Nat) :
    v ≤ 0x7f ∧ following v = 0 ∧ leading v = v ∨
    0x7f < v ∧ v ≤ 0x7ff ∧ following v = 1 ∧ leading v = v / 64 ^ 1 + 0xc0 ∨
    0x7ff < v ∧ v ≤ 0xffff ∧ following v = 2 ∧ leading v = v / 64 ^ 2 + 0xe0 ∨
    0xffff < v ∧ following v = 3 ∧ leading v = v / 64 ^ 3 + 0xf0 := by
  unfold leading following
  split
  · omega
  split
  · omega
  split <;> omega

/-- Of two characters the lesser has the lesser leading byte, or the two differ behind it. -/
private theorem leading_cases {v w : Nat} (h : v < w) (hw : w < 0x110000) :
    leading v < leading w ∨ leading v = leading w ∧ following v = following w ∧
      v % 64 ^ following w < w % 64 ^ following w := by
  -- in two ranges the leading bytes differ, and in one they do unless all higher bits are the same
  rcases leading_ranges v with hv | hv | hv | hv <;>
    rcases leading_ranges w with hw' | hw' | hw' | hw' <;>
    simp only [hv, hw', true_and] <;> omega

/-- A leading byte is a byte. -/
private theorem leading_lt (c : Char) : leading c.toNat < 256 := by
  have hc := toNat_lt_max c
  rcases leading_ranges c.toNat with h | h | h | h <;> omega

/-- The encodings of two characters differ like the characters. -/
theorem utf8EncodeChar_diverges {c d : Char} (h : c < d) :
    Diverges (String.utf8EncodeChar c) (String.utf8EncodeChar d) := by
  have hlt : c.toNat < d.toNat := h
  rw [utf8EncodeChar_eq, utf8EncodeChar_eq]
  rcases leading_cases hlt (toNat_lt_max d) with hleading | ⟨hleading, hfollowing, hmod⟩
  · exact .here (ofNat_lt hleading (leading_lt d)) _ _
  · rw [hleading, hfollowing]
    exact .later _ (continuation_diverges hmod)

/-! ### Texts -/

/-- Sequences of characters are encoded in their order. -/
private theorem utf8Encode_lt {cs ds : List Char} (h : cs < ds) :
    cs.flatMap String.utf8EncodeChar < ds.flatMap String.utf8EncodeChar := by
  induction h with
  | nil =>
    rw [List.flatMap_cons, utf8EncodeChar_eq]
    exact .nil
  | rel h =>
    -- here the texts part, and so do the bytes, whatever comes later
    rw [List.flatMap_cons, List.flatMap_cons]
    exact (utf8EncodeChar_diverges h).append_lt _ _
  | cons _ ih =>
    rw [List.flatMap_cons, List.flatMap_cons]
    exact List.append_left_lt ih

/-- The bytes of a text are those of its characters. -/
private theorem data_toUTF8 (text : String) :
    text.toUTF8.data.toList = text.toList.flatMap String.utf8EncodeChar := by
  rw [String.toUTF8_eq_toByteArray, ← String.utf8Encode_toList, List.utf8Encode,
    List.data_toByteArray]

/-- Whatever keeps the order of texts tells it. -/
private theorem text_lt_iff {α : Type} [LT α] [Std.Asymm (α := α) (· < ·)] {f : String → List α}
    (hf : ∀ {a b : String}, a < b → f a < f b) (a b : String) : a < b ↔ f a < f b := by
  refine ⟨hf, fun h => ?_⟩
  -- otherwise the texts would be the same or the other way around, and so would be the lists
  rcases lt_trichotomy a b with hlt | rfl | hgt
  · exact hlt
  · exact absurd h (List.lt_irrefl _)
  · exact absurd h (List.lt_asymm (hf hgt))

/-- Texts compare like their bytes. -/
theorem text_lt_iff_bytes (a b : String) :
    a < b ↔ a.toUTF8.data.toList < b.toUTF8.data.toList := by
  refine text_lt_iff (f := fun text => text.toUTF8.data.toList) (fun {a b} h => ?_) a b
  rw [data_toUTF8, data_toUTF8]
  exact utf8Encode_lt (String.lt_iff_toList_lt.mp h)

/-- Texts compare like the code points of their characters. -/
theorem text_lt_iff_scalars (a b : String) :
    a < b ↔ a.toList.map Char.toNat < b.toList.map Char.toNat := by
  refine text_lt_iff (f := fun text => text.toList.map Char.toNat) (fun {a b} h => ?_) a b
  exact List.map_lt (fun _ _ h => h) (String.lt_iff_toList_lt.mp h)

end Tern
