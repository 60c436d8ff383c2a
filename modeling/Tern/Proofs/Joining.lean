import Tern.Proofs.Lexing

/-!
# Lines are read apart

No token goes on behind the end of its line: a line comment and a string that is not closed stop
there, and everything else does so anyway. So a text, a line break and another text are read as the
one text and then the other, further on.

## Key results

- `Rule.reach_newline`: no rule reaches over a line break at the end of a text
- `Token.scan_newline`, `tokenize_joined`: the tokens of two texts with a line break between them
-/

namespace Tern

section

variable {p : Char → Bool} {text more : List Char}

/-- A stretch that a line break ends is found in front of it. -/
private theorem takeWhile_newline (hp : p '\n' = false) :
    (text ++ '\n' :: more).takeWhile p = text.takeWhile p := by
  have hnone : ('\n' :: more).takeWhile p = [] := List.takeWhile_cons_of_neg (by simp [hp])
  rw [List.takeWhile_append, hnone, List.append_nil]
  split
  · rename_i hall
    exact ((List.takeWhile_sublist p).eq_of_length hall).symm
  · rfl

/-- What is next behind such a stretch is a line break at most. -/
private theorem head?_drop_newline {c : Char} (hc : c ≠ '\n') :
    ((text ++ '\n' :: more).drop (text.takeWhile p).length).head? = some c ↔
      (text.drop (text.takeWhile p).length).head? = some c := by
  rw [List.drop_append_of_le_length (List.takeWhile_sublist p).length_le]
  cases text.drop (text.takeWhile p).length with
  | nil => simp [Ne.symm hc]
  | cons d after => simp

end

namespace Rule

/-- No spelling has a line break in it. -/
private theorem newline_notMem_of_mem {spelling : List Char} {kind : Kind}
    (h : fixed spelling kind ∈ all) : '\n' ∉ spelling := by
  simp only [all, List.cons_append, List.mem_cons, List.mem_append, List.mem_map, reduceCtorEq,
    fixed.injEq, false_or, List.not_mem_nil, or_false] at h
  obtain ⟨mark, -, rfl, rfl⟩ | ⟨word, -, rfl, rfl⟩ := h
  · cases mark <;> decide
  · cases word <;> decide

/-- A text without line breaks begins another one whether or not a line break follows that. -/
private theorem isPrefixOf_newline {spelling : List Char} (h : '\n' ∉ spelling)
    (text more : List Char) :
    spelling.isPrefixOf (text ++ '\n' :: more) = spelling.isPrefixOf text := by
  induction spelling generalizing text with
  | nil => simp
  | cons c spelling ih =>
    obtain ⟨hc, hrest⟩ : '\n' ≠ c ∧ '\n' ∉ spelling := by simpa using h
    cases text with
    | nil => simp [List.isPrefixOf, Ne.symm hc]
    | cons d text => simp [List.isPrefixOf, ih hrest]

/-- No rule reaches over a line break at the end of a text. -/
theorem reach_newline {rule : Rule} (hrule : rule ∈ all) (text more : List Char) :
    rule.reach (text ++ '\n' :: more) = rule.reach text := by
  cases rule with
  | fixed spelling kind =>
    simp only [reach, isPrefixOf_newline (newline_notMem_of_mem hrule)]
  -- a comment takes its line, and two slashes are on one line
  | lineComment =>
    rcases text with _ | ⟨c, _ | ⟨d, text⟩⟩
    · rfl
    · simp [reach]
    · by_cases hslashes : [c, d] = ['/', '/']
      · obtain ⟨rfl, rfl⟩ : c = '/' ∧ d = '/' := by simpa using hslashes
        show 2 + ((text ++ '\n' :: more).takeWhile (· != '\n')).length = 2 + _
        rw [takeWhile_newline (by decide)]
      -- without the slashes nothing is a comment, whatever follows
      · have hnone : ∀ after, lineComment.reach (c :: d :: after) = 0 := fun after =>
          reach_lineComment_of_ne hslashes
        exact (hnone _).trans (hnone _).symm
  -- the second quote has to be on the line of the first
  | str =>
    cases text with
    | nil => rfl
    | cons c text =>
      by_cases hquote : c = '"'
      · subst hquote
        simp only [List.cons_append, reach]
        rw [takeWhile_newline (by decide)]
        simp only [head?_drop_newline (show '"' ≠ '\n' by decide)]
      · simp [reach, hquote]
  | number =>
    rw [reach_number, reach_number, takeWhile_newline (by decide),
      List.drop_append_of_le_length (List.takeWhile_sublist _).length_le]
    cases text.drop (text.takeWhile isDigit).length with
    | nil => rfl
    | cons d after =>
      -- digits behind the point end at the line break as well
      by_cases hpoint : d = '.'
      · subst hpoint
        rw [List.cons_append, fractionReach_point, fractionReach_point,
          takeWhile_newline (by decide)]
      · rw [fractionReach_of_ne (by simpa using hpoint),
          fractionReach_of_ne (by simpa using hpoint)]
  -- the line break continues no identifier
  | ident =>
    cases text with
    | nil => rfl
    | cons c text =>
      simp only [List.cons_append, reach]
      rw [takeWhile_newline (by decide)]

end Rule

/-- The first token of a text ends in front of a line break that follows the text. -/
theorem readKind_newline {text : List Char} (hne : text ≠ []) (more : List Char) :
    readKind (text ++ '\n' :: more) = readKind text ∧ (readKind text).2 ≤ text.length := by
  -- every rule reaches as far as it did
  have hlongest : Rule.longest (text ++ '\n' :: more) Rule.all = Rule.longest text Rule.all :=
    Rule.longest_congr fun rule hrule => Rule.reach_newline hrule text more
  unfold readKind
  rw [hlongest]
  cases hfound : Rule.longest text Rule.all with
  | some best =>
    obtain ⟨rule, length⟩ := best
    obtain ⟨-, hreach, -, -⟩ := Rule.longest_eq_some hfound
    have hle : length ≤ text.length := hreach ▸ rule.reach_le_length text
    exact ⟨by simp only [List.take_append_of_le_length hle], hle⟩
  | none =>
    -- what is unknown is one character, or a quote and the rest of its line
    have hunknown : unknownReach (text ++ '\n' :: more) = unknownReach text ∧
        unknownReach text ≤ text.length := by
      cases text with
      | nil => exact absurd rfl hne
      | cons c text =>
        have hline := (List.takeWhile_sublist (l := text) (· != '\n')).length_le
        rw [List.cons_append, List.length_cons]
        by_cases hquote : c = '"'
        · subst hquote
          simp only [unknownReach]
          rw [takeWhile_newline (by decide)]
          exact ⟨rfl, by omega⟩
        · simp [unknownReach, hquote]
    obtain ⟨hsame, hle⟩ := hunknown
    simp only [hsame, List.take_append_of_le_length hle]
    exact ⟨trivial, hle⟩

namespace Token

/-- The token, so many bytes further on. -/
def shifted (width : Nat) (token : Token) : Token := ⟨token.kind, token.span.shifted width⟩

/-- A text that stands further on has its tokens further on. -/
theorem scan_shifted (text : List Char) (offset skip width : Nat) :
    scan text (offset + width) skip [] = (scan text offset skip []).map (shifted width) := by
  -- along the text; every offset is larger by the width all the time
  induction text generalizing offset skip with
  | nil => rfl
  | cons c text ih =>
    have hoffset : offset + width + c.utf8Size = offset + c.utf8Size + width := by omega
    cases skip with
    | succ skip =>
      simp only [scan]
      rw [hoffset, ih]
    | zero =>
      simp only [scan]
      -- a blank is skipped, a token is recorded further on
      split
      · rw [hoffset, ih]
      · rw [hoffset, scan_eq_append, ih, scan_eq_append _ _ _ [_]]
        simp [shifted, Span.shifted_between, Nat.add_right_comm]

/-- The tokens of two texts with a line break between them. The first characters of the first text
may belong to a token that was read already. -/
theorem scan_newline (text more : List Char) (offset : Nat) {skip : Nat}
    (hskip : skip ≤ text.length) :
    scan (text ++ '\n' :: more) offset skip [] =
      scan text offset skip [] ++ scan more (offset + utf8Width text + 1) 0 [] := by
  -- along the first text, where characters of a token may still have to be skipped
  induction text generalizing offset skip with
  -- the line break itself is a blank
  | nil =>
    obtain rfl : skip = 0 := Nat.le_zero.mp hskip
    rfl
  | cons c text ih =>
    have hwidth : offset + c.utf8Size + utf8Width text = offset + utf8Width (c :: text) := by
      rw [utf8Width_cons]
      omega
    rw [List.cons_append]
    cases skip with
    | succ skip =>
      simp only [scan]
      rw [ih _ (Nat.le_of_succ_le_succ hskip), hwidth]
    | zero =>
      simp only [scan]
      split
      · rw [ih _ (Nat.zero_le _), hwidth]
      -- the token ends within the first text, so what is skipped behind it does too
      · obtain ⟨hread, hle⟩ := readKind_newline (List.cons_ne_nil c text) more
        rw [List.cons_append] at hread
        rw [hread]
        obtain ⟨⟨kind, length⟩, hkind⟩ : ∃ p, readKind (c :: text) = p := ⟨_, rfl⟩
        rw [hkind] at hle ⊢
        simp only [List.length_cons] at hle ⊢
        rw [scan_eq_append, ih _ (by omega), hwidth, scan_eq_append _ _ _ [_]]
        have htake : (c :: (text ++ '\n' :: more)).take length = (c :: text).take length := by
          rw [← List.cons_append, List.take_append_of_le_length hle]
        rw [htake]
        simp

end Token

/-- The tokens of two texts with a line break between them, those of the second further on. -/
theorem tokenize_joined (text more : String) :
    tokenize (text ++ "\n" ++ more) =
      tokenize text ++ (tokenize more).map (Token.shifted (text.utf8ByteSize + 1)) := by
  have hjoined : (text ++ "\n" ++ more).toList = text.toList ++ '\n' :: more.toList := by
    simp [String.toList_append]
  unfold tokenize
  rw [hjoined, Token.scan_newline _ _ _ (Nat.zero_le _), utf8Width_toList, Nat.add_assoc,
    Token.scan_shifted]

end Tern
