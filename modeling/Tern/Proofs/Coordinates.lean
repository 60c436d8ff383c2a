import Tern.Span

/-!
# Lines and columns are coordinates

A position is found by counting: line ends in front of it, and characters since the last of them.
Further on in a text the position is a greater one, so it can be traced back to its offset. Offsets
between which no character begins have no position of their own, and get that of the end.

## Key results

- `Position.after_eq`: lines and columns, by counting
- `Position.after_lt`: reading on leads to greater positions
- `boundary_or_astray`: an offset is a place between characters, or in one, or beyond the end
- `Position.offset?_eq_some_iff`: the way back from positions to offsets
- `Span.position_faithful`: what a position tells about an offset
-/

namespace Tern

/-! ### Positions -/

namespace Position

/-- Positions come in the order of their lines, and in a line of their columns. -/
instance : LT Position where
  lt p q := p.line < q.line ∨ p.line = q.line ∧ p.column < q.column

theorem lt_iff {p q : Position} :
    p < q ↔ p.line < q.line ∨ p.line = q.line ∧ p.column < q.column := Iff.rfl

protected theorem lt_irrefl (p : Position) : ¬p < p := by
  rw [lt_iff]
  omega

protected theorem lt_trans {p q r : Position} (h : p < q) (h' : q < r) : p < r := by
  rw [lt_iff] at h h' ⊢
  omega

/-- The line is one more than the number of line ends that were read, and the column one more than
the number of characters behind the last of them. -/
theorem after_eq (text : List Char) :
    after text =
      ⟨text.count '\n' + 1, (text.reverse.takeWhile (· ≠ '\n')).length + 1⟩ := by
  -- by the character that was read last
  rw [← text.reverse_reverse]
  induction text.reverse with
  | nil => rfl
  | cons c text ih =>
    rw [List.reverse_cons, after_concat, ih, advance]
    by_cases hc : c = '\n'
    · simp [hc]
    · simp [hc]

/-- Every character leads to a greater position. -/
theorem lt_advance (p : Position) (c : Char) : p < p.advance c := by
  rw [lt_iff]
  unfold advance
  split <;> simp

/-- So do several. -/
theorem lt_foldl_advance (p : Position) (c : Char) (more : List Char) :
    p < (c :: more).foldl advance p := by
  induction more generalizing p c with
  | nil => exact p.lt_advance c
  | cons d more ih => exact Position.lt_trans (p.lt_advance c) (ih (p.advance c) d)

/-- Reading on leads to greater positions. -/
theorem after_lt (text : List Char) (c : Char) (more : List Char) :
    after text < after (text ++ c :: more) := by
  unfold after
  rw [List.foldl_append]
  exact lt_foldl_advance _ c more

end Position

/-! ### Offsets -/

/-- The offset is one between characters, the front and the end of the text included. -/
def Boundary (source : String) (offset : Nat) : Prop := (String.Pos.Raw.mk offset).IsValid source

/-- The offset is beyond the end of the text, or inside one of its characters. -/
def Astray (source : String) (offset : Nat) : Prop :=
  source.utf8ByteSize < offset ∨ ∃ before c behind, source.toList = before ++ c :: behind ∧
    utf8Width before < offset ∧ offset < utf8Width before + c.utf8Size

/-- An offset between characters is where a front of the text ends. -/
theorem boundary_iff {source : String} {offset : Nat} : Boundary source offset ↔
    ∃ before behind, source.toList = before ++ behind ∧ utf8Width before = offset := by
  unfold Boundary
  rw [String.Pos.Raw.isValid_iff_exists_append]
  -- the front as a text or as its characters
  constructor
  · rintro ⟨front, rest, rfl, hoffset⟩
    refine ⟨front.toList, rest.toList, String.toList_append, ?_⟩
    rw [utf8Width_toList]
    exact (congrArg String.Pos.Raw.byteIdx hoffset).symm
  · rintro ⟨before, behind, hsource, rfl⟩
    refine ⟨String.ofList before, String.ofList behind, ?_, ?_⟩
    · rw [← String.ofList_append, ← hsource, String.ofList_toList]
    · rw [String.Pos.Raw.ext_iff, String.byteIdx_rawEndPos, ← utf8Width_toList,
        String.toList_ofList]

/-- Of two fronts of a text, the one that ends first is a piece of the other. -/
theorem front_of_utf8Width_lt {before behind before' behind' : List Char}
    (h : before ++ behind = before' ++ behind') (hlt : utf8Width before < utf8Width before') :
    ∃ c more, before' = before ++ c :: more := by
  -- one of them is a piece of the other, and it is not the longer one
  rcases List.append_eq_append_iff.mp h with ⟨inside, rfl, -⟩ | ⟨inside, rfl, -⟩
  · cases inside with
    | nil => simp at hlt
    | cons c more => exact ⟨c, more, rfl⟩
  · rw [utf8Width_append] at hlt
    omega

/-- Every offset is a place between characters, or astray. -/
theorem boundary_or_astray (source : String) (offset : Nat) :
    Boundary source offset ∨ Astray source offset := by
  unfold Astray
  rw [boundary_iff, ← utf8Width_toList]
  -- character by character, until one reaches the offset
  induction source.toList generalizing offset with
  | nil =>
    rcases Nat.eq_zero_or_pos offset with rfl | hpos
    · exact .inl ⟨[], [], rfl, rfl⟩
    · exact .inr (.inl hpos)
  | cons c text ih =>
    rcases Nat.eq_zero_or_pos offset with rfl | hpos
    · exact .inl ⟨[], c :: text, rfl, rfl⟩
    by_cases hinside : offset < c.utf8Size
    · exact .inr (.inr ⟨[], c, text, rfl, hpos, by simpa using hinside⟩)
    -- behind the first character, the offset counts from its end
    rcases ih (offset - c.utf8Size) with
      ⟨before, behind, rfl, hwidth⟩ | hbeyond | ⟨before, d, behind, rfl, hlt, hlt'⟩
    · exact .inl ⟨c :: before, behind, rfl, by rw [utf8Width_cons]; omega⟩
    · exact .inr (.inl (by rw [utf8Width_cons]; omega))
    · refine .inr (.inr ⟨c :: before, d, behind, rfl, ?_, ?_⟩)
      · rw [utf8Width_cons]
        omega
      · rw [utf8Width_cons]
        omega

/-- No offset is both. -/
theorem Astray.not_boundary {source : String} {offset : Nat} (h : Astray source offset) :
    ¬Boundary source offset := by
  rw [boundary_iff]
  rintro ⟨before, behind, hsource, rfl⟩
  rcases h with hbeyond | ⟨before', c, behind', hsource', hlt, hlt'⟩
  · rw [← utf8Width_toList, hsource, utf8Width_append] at hbeyond
    omega
  · -- the character that the offset is inside of would end in front of it
    obtain ⟨d, more, rfl⟩ := front_of_utf8Width_lt (hsource'.symm.trans hsource) hlt
    have hsplit : c :: behind' = d :: (more ++ behind) := by
      rw [hsource'] at hsource
      simpa using hsource
    cases hsplit
    simp only [utf8Width_append, utf8Width_cons] at hlt'
    omega

theorem not_boundary_iff {source : String} {offset : Nat} :
    ¬Boundary source offset ↔ Astray source offset :=
  ⟨(boundary_or_astray source offset).resolve_left, Astray.not_boundary⟩

/-! ### The position of an offset -/

/-- Characters are counted only up to an offset between characters. -/
private theorem split_of_charsBefore? {text : List Char} {offset count n : Nat}
    (h : charsBefore? offset text count = some n) :
    ∃ before behind, text = before ++ behind ∧ utf8Width before = offset := by
  -- along the text, with the bytes that are left
  induction text generalizing offset count with
  | nil =>
    cases offset with
    | zero => exact ⟨[], [], rfl, rfl⟩
    | succ offset => cases h
  | cons c text ih =>
    cases offset with
    | zero => exact ⟨[], c :: text, rfl, rfl⟩
    | succ offset =>
      simp only [charsBefore?] at h
      -- a character fits into these bytes, or the offset would lie inside of it
      split at h
      · obtain ⟨before, behind, rfl, hwidth⟩ := ih h
        exact ⟨c :: before, behind, rfl, by rw [utf8Width_cons]; omega⟩
      · cases h

namespace Span

variable {source : String} {span : Span}

/-- The position of a stretch is reached by reading what is in front of it. -/
theorem position_eq {before behind : List Char} (hsource : source.toList = before ++ behind)
    (hstart : span.start = utf8Width before) : span.position source = Position.after before := by
  simp only [position, hsource, hstart, charsBefore?_utf8Width, Nat.zero_add, List.take_left]

/-- A stretch that begins astray gets the position of the end. -/
theorem position_of_astray (h : Astray source span.start) :
    span.position source = (point source.utf8ByteSize).position source := by
  have hend : (point source.utf8ByteSize).position source = Position.after source.toList :=
    position_eq (List.append_nil _).symm (utf8Width_toList source).symm
  have hnone : charsBefore? span.start source.toList 0 = none := by
    cases hcount : charsBefore? span.start source.toList 0 with
    | none => rfl
    | some n => exact absurd (boundary_iff.mpr (split_of_charsBefore? hcount)) h.not_boundary
  rw [hend]
  simp only [position, hnone]

/-- Further on in a text the position is greater. -/
theorem position_lt {span' : Span} (h : Boundary source span.start)
    (h' : Boundary source span'.start) (hlt : span.start < span'.start) :
    span.position source < span'.position source := by
  obtain ⟨before, behind, hsource, hstart⟩ := boundary_iff.mp h
  obtain ⟨before', behind', hsource', hstart'⟩ := boundary_iff.mp h'
  rw [← hstart, ← hstart'] at hlt
  obtain ⟨c, more, rfl⟩ := front_of_utf8Width_lt (hsource.symm.trans hsource') hlt
  rw [position_eq hsource hstart.symm, position_eq hsource' hstart'.symm]
  exact Position.after_lt before c more

end Span

/-! ### The way back -/

/-- The offset of the position `p` in a text that begins at `here` and at the offset `offset`. -/
def Position.seek (p : Position) : (here : Position) → (offset : Nat) → List Char → Option Nat
  | here, offset, [] => if here = p then some offset else none
  | here, offset, c :: text =>
    if here = p then some offset else p.seek (here.advance c) (offset + c.utf8Size) text

/-- The offset of a position in a text. -/
def Position.offset? (p : Position) (source : String) : Option Nat :=
  p.seek Position.origin 0 source.toList

namespace Position

variable {p here : Position} {offset o : Nat} {text : List Char}

/-- What is found is a place between characters. -/
private theorem split_of_seek (h : p.seek here offset text = some o) :
    ∃ before behind, text = before ++ behind ∧ before.foldl advance here = p ∧
      offset + utf8Width before = o := by
  -- along the text, with the place and the offset reached so far
  induction text generalizing here offset with
  | nil =>
    simp only [seek, Option.ite_none_right_eq_some, Option.some.injEq] at h
    exact ⟨[], [], rfl, h.1, h.2⟩
  | cons c text ih =>
    simp only [seek] at h
    split at h
    · rename_i hhere
      cases h
      exact ⟨[], c :: text, rfl, hhere, rfl⟩
    · obtain ⟨before, behind, rfl, hp, ho⟩ := ih h
      exact ⟨c :: before, behind, rfl, hp, by rw [utf8Width_cons]; omega⟩

/-- Every place between characters is found: nothing in front of it has its position. -/
private theorem seek_of_split (here : Position) (offset : Nat) (before behind : List Char) :
    seek (before.foldl advance here) here offset (before ++ behind) =
      some (offset + utf8Width before) := by
  induction before generalizing here offset with
  | nil => cases behind <;> simp [seek]
  | cons c before ih =>
    have hne : here ≠ (c :: before).foldl advance here := by
      intro heq
      have hlt := lt_foldl_advance here c before
      rw [← heq] at hlt
      exact Position.lt_irrefl here hlt
    rw [List.cons_append, seek, if_neg hne, List.foldl_cons, ih, utf8Width_cons, Nat.add_assoc]

/-- The offset of a position is the one between characters that has it. -/
theorem offset?_eq_some_iff {source : String} : p.offset? source = some o ↔
    Boundary source o ∧ (Span.point o).position source = p := by
  rw [boundary_iff]
  constructor
  · intro h
    obtain ⟨before, behind, hsource, hp, ho⟩ := split_of_seek h
    rw [Nat.zero_add] at ho
    exact ⟨⟨before, behind, hsource, ho⟩, (Span.position_eq hsource ho.symm).trans hp⟩
  · rintro ⟨⟨before, behind, hsource, rfl⟩, rfl⟩
    rw [Span.position_eq hsource rfl, offset?, hsource]
    exact (seek_of_split origin 0 before behind).trans (congrArg some (Nat.zero_add _))

end Position

namespace Span

/-- The offset of a stretch is found from its position. -/
theorem offset?_position {source : String} {span : Span} (h : Boundary source span.start) :
    (span.position source).offset? source = some span.start :=
  Position.offset?_eq_some_iff.mpr ⟨h, rfl⟩

/-- Positions are faithful. Where a stretch begins between characters, its line is one more than the
number of line ends in front of it, and its column one more than the number of characters since the
last of them, or since the front of the text. Further on the position is greater, so no two offsets
share one, and the offset can be found from it. A stretch that begins beyond the end or inside a
character, and no other, has the position of the end for want of its own. -/
theorem position_faithful (source : String) :
    (∀ span : Span, Boundary source span.start → ∃ before behind,
      source.toList = before ++ behind ∧ utf8Width before = span.start ∧
      span.position source =
        ⟨before.count '\n' + 1, (before.reverse.takeWhile (· ≠ '\n')).length + 1⟩) ∧
    (∀ span span' : Span, Boundary source span.start → Boundary source span'.start →
      span.start < span'.start → span.position source < span'.position source) ∧
    (∀ span span' : Span, Boundary source span.start → Boundary source span'.start →
      span.position source = span'.position source → span.start = span'.start) ∧
    (∀ (p : Position) (span : Span), p.offset? source = some span.start ↔
      Boundary source span.start ∧ span.position source = p) ∧
    ∀ span : Span, (¬Boundary source span.start ↔ Astray source span.start) ∧
      (Astray source span.start →
        span.position source = (point source.utf8ByteSize).position source) := by
  refine ⟨fun span h => ?_, fun span span' h h' hlt => position_lt h h' hlt,
    fun span span' h h' heq => ?_, fun p span => Position.offset?_eq_some_iff,
    fun span => ⟨not_boundary_iff, position_of_astray⟩⟩
  · obtain ⟨before, behind, hsource, hstart⟩ := boundary_iff.mp h
    refine ⟨before, behind, hsource, hstart, ?_⟩
    rw [position_eq hsource hstart.symm, Position.after_eq]
  · -- both are what is found from the position
    have hoffset := offset?_position h
    rw [heq, offset?_position h'] at hoffset
    exact (Option.some.inj hoffset).symm

/-- In a text with an empty line and characters of one, two and four bytes: an offset on the third
line, one in front of it, and one inside the last character. -/
theorem position_faithful_mixed :
    let source := "é\n\na😀"
    (point 5).position source = ⟨3, 2⟩ ∧
      (point 3).position source < (point 5).position source ∧
      Position.offset? ⟨3, 2⟩ source = some 5 ∧
      (point 7).position source = (point 9).position source := by
  intro source
  -- the offsets are boundaries, or astray, as is seen by splitting the text
  obtain ⟨-, hless, -, hfound, hend⟩ := position_faithful source
  have hempty : Boundary source (point 3).start :=
    boundary_iff.mpr ⟨['é', '\n'], ['\n', 'a', '😀'], by decide, by decide⟩
  have hthird : Boundary source (point 5).start :=
    boundary_iff.mpr ⟨['é', '\n', '\n', 'a'], ['😀'], by decide, by decide⟩
  have hinside : Astray source (point 7).start :=
    .inr ⟨['é', '\n', '\n', 'a'], '😀', [], by decide, by decide, by decide⟩
  have hposition : (point 5).position source = ⟨3, 2⟩ := by decide
  exact ⟨hposition, hless _ _ hempty hthird (by decide),
    (hfound _ (point 5)).mpr ⟨hthird, hposition⟩, (hend _).2 hinside⟩

end Span

end Tern
