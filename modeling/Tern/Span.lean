/-!
# Source locations

A `Span` is a stretch of source text, counted in bytes of its UTF-8 form. Offsets are recorded up to
2³² - 1, and places beyond that as this offset; so spans are exact in texts of less than 4 GiB. A
`Position` is the same place as a person reads it: a line and a column, both from one, columns in
characters.

Every offset has a position: one that lies between two characters has the position reached by
reading all characters in front of it, any other (inside a character, or beyond the end) that of
the end of the text.

* `Span.between_of_le`: offsets that can be recorded are recorded as they are;
* `Span.between_of_stretch`: so are the stretches of a text of less than 4 GiB;
* `Span.shifted_between`: moving what was recorded is recording what was moved;
* `Position.after_concat`: reading one character more advances the position by it;
* `utf8Width_append`, `utf8Width_toList`: widths add up, to the number of bytes of the text;
* `charsBefore?_utf8Width`: the offset behind a leading piece of a text counts its characters.
-/

namespace Tern

/-- A stretch of source text in byte offsets: `start` belongs to it and `stop` does not. -/
structure Span where
  start : Nat
  stop : Nat
  deriving DecidableEq, Repr, Inhabited

namespace Span

/-- The largest offset that is recorded. -/
def maxOffset : Nat := 0xffffffff

/-- The stretch from `start` to `stop` as it is recorded. -/
def between (start stop : Nat) : Span := ⟨min start maxOffset, min stop maxOffset⟩

/-- Offsets that can be recorded are recorded as they are. -/
theorem between_of_le {start stop : Nat} (hstart : start ≤ maxOffset) (hstop : stop ≤ maxOffset) :
    between start stop = ⟨start, stop⟩ := by
  rw [between, Nat.min_eq_left hstart, Nat.min_eq_left hstop]

/-- The empty stretch at `offset`. -/
def point (offset : Nat) : Span := ⟨offset, offset⟩

/-- The stretch, so many bytes further on. -/
def shifted (width : Nat) (span : Span) : Span := between (span.start + width) (span.stop + width)

/-- Whether a stretch is recorded and then moved or moved and then recorded makes no difference. -/
theorem shifted_between (start stop width : Nat) :
    (between start stop).shifted width = between (start + width) (stop + width) := by
  -- what was cut off is beyond the largest offset all the more when it is moved
  have hcut : ∀ offset, min (min offset maxOffset + width) maxOffset =
      min (offset + width) maxOffset := by
    intro offset
    omega
  simp only [shifted, between, hcut]

end Span

/-- A place in a text: one-based line, and one-based column in characters. -/
structure Position where
  line : Nat
  column : Nat
  deriving DecidableEq, Repr, Inhabited

namespace Position

/-- Where every text begins. -/
def origin : Position := ⟨1, 1⟩

/-- The place behind the character `c`, if `c` stands at `p`. -/
def advance (p : Position) (c : Char) : Position :=
  if c = '\n' then ⟨p.line + 1, 1⟩ else ⟨p.line, p.column + 1⟩

/-- The place reached by reading `text` from its beginning. -/
def after (text : List Char) : Position :=
  text.foldl advance origin

@[simp] theorem after_nil : after [] = origin := rfl

/-- Reading one character more advances the position by that character. -/
@[simp] theorem after_concat (text : List Char) (c : Char) :
    after (text ++ [c]) = (after text).advance c := by
  simp [after]

end Position

/-- Number of bytes that the characters take in UTF-8. -/
def utf8Width (text : List Char) : Nat :=
  text.foldl (fun width c => width + c.utf8Size) 0

private theorem foldl_utf8Size (text : List Char) (width : Nat) :
    text.foldl (fun width c => width + c.utf8Size) width = width + utf8Width text := by
  induction text generalizing width with
  | nil => rfl
  | cons c text ih =>
    rw [utf8Width, List.foldl_cons, List.foldl_cons, ih, ih (0 + c.utf8Size)]
    omega

@[simp] theorem utf8Width_nil : utf8Width [] = 0 := rfl

@[simp] theorem utf8Width_cons (c : Char) (text : List Char) :
    utf8Width (c :: text) = c.utf8Size + utf8Width text := by
  rw [utf8Width, List.foldl_cons, foldl_utf8Size, Nat.zero_add]

/-- The width of two texts in a row is the sum of their widths. -/
@[simp] theorem utf8Width_append (text more : List Char) :
    utf8Width (text ++ more) = utf8Width text + utf8Width more := by
  rw [utf8Width, List.foldl_append, foldl_utf8Size]
  rfl

/-- The width of a text is its number of bytes. -/
theorem utf8Width_toList (text : String) : utf8Width text.toList = text.utf8ByteSize := by
  have hwidth : ∀ chars : List Char, utf8Width chars = (String.ofList chars).utf8ByteSize := by
    intro chars
    induction chars with
    | nil => rfl
    | cons c chars ih =>
      rw [utf8Width_cons, ih, ← List.singleton_append, String.ofList_append,
        String.utf8ByteSize_append, ← String.singleton_eq_ofList, String.utf8ByteSize_singleton]
  rw [hwidth, String.ofList_toList]

/-- The number of characters that fill exactly the first `offset` bytes of `text`, added to
`count`; none if `offset` lies inside a character or beyond the end. -/
def charsBefore? : (offset : Nat) → (text : List Char) → (count : Nat) → Option Nat
  | 0, _, count => some count
  | _ + 1, [], _ => none
  | offset + 1, c :: text, count =>
    if c.utf8Size ≤ offset + 1 then charsBefore? (offset + 1 - c.utf8Size) text (count + 1)
    else none

/-- The bytes of a leading piece of a text hold exactly its characters. -/
theorem charsBefore?_utf8Width (text more : List Char) (count : Nat) :
    charsBefore? (utf8Width text) (text ++ more) count = some (count + text.length) := by
  induction text generalizing count with
  | nil => cases more <;> simp [charsBefore?]
  | cons c text ih =>
    obtain ⟨n, hn⟩ : ∃ n, c.utf8Size + utf8Width text = n + 1 :=
      ⟨c.utf8Size + utf8Width text - 1, by have := c.utf8Size_pos; omega⟩
    have hle : c.utf8Size ≤ n + 1 := by omega
    have hsub : n + 1 - c.utf8Size = utf8Width text := by omega
    simp only [utf8Width_cons, hn, List.cons_append, charsBefore?, hle, if_true, hsub, ih,
      List.length_cons]
    congr 1
    omega

namespace Span

/-- In a text of less than 4 GiB every stretch is recorded as it is. -/
theorem between_of_stretch {text before inside behind : List Char}
    (htext : text = before ++ inside ++ behind) (hsmall : utf8Width text ≤ maxOffset) :
    between (utf8Width before) (utf8Width (before ++ inside)) =
      ⟨utf8Width before, utf8Width (before ++ inside)⟩ := by
  rw [htext, utf8Width_append] at hsmall
  have hstop : utf8Width (before ++ inside) ≤ maxOffset := by omega
  rw [utf8Width_append] at hstop
  exact between_of_le (by omega) (by rwa [utf8Width_append])

/-- The position at which the span starts within `source`. -/
def position (span : Span) (source : String) : Position :=
  let text := source.toList
  match charsBefore? span.start text 0 with
  | some count => Position.after (text.take count)
  | none => Position.after text

end Span

end Tern
