import Tern.Proofs.Joining
import Tern.Proofs.MaximalMunch

/-!
# Tokens and the text they are read from

Reading loses nothing. The tokens of a text lie one behind the other in it, between them there are
blanks only, and each of them is written in the text the way it is written on its own; only numbers
can be written in more than one way. A line break ends whatever stands in front of it, so a text can
be read line by line.

Places are recorded up to the largest offset only. Where a text goes on behind that, tokens are the
same, but their places no longer tell them apart; so what is said of stretches of a text by their
places is said of texts of less than 4 GiB.

## Key results

- `Munched.lexeme_of_mem`: every token is read from a stretch of the text
- `Munched.apart`: these stretches lie one behind the other
- `Munched.covered`: what is in none of them is blank
- `Token.within_of_mem`: tokens are stretches of their text
- `tokens_tile`: all of that, for the tokens of a text
- `newline_separates`: a line break stands between the tokens of two texts
-/

namespace Tern

/-! ### Stretches of a text -/

namespace Span

variable {text : List Char} {span : Span}

/-- A stretch of the text that begins and ends between characters, as it is recorded. -/
def Within (text : List Char) (span : Span) : Prop :=
  ∃ before inside behind, text = before ++ inside ++ behind ∧
    span = between (utf8Width before) (utf8Width (before ++ inside))

/-- The place behind a stretch. -/
theorem Within.stop (h : span.Within text) : (point span.stop).Within text := by
  obtain ⟨before, inside, behind, rfl, rfl⟩ := h
  exact ⟨before ++ inside, [], behind, by simp, by simp [point, between]⟩

/-- The front of a text. -/
theorem within_front (text : List Char) : (point 0).Within text :=
  ⟨[], [], text, rfl, by simp [point, between]⟩

/-- A stretch does not end in front of where it begins. -/
theorem Within.start_le_stop (h : span.Within text) : span.start ≤ span.stop := by
  obtain ⟨before, inside, behind, -, rfl⟩ := h
  rw [utf8Width_append]
  simp only [between]
  omega

end Span

namespace Munched

variable {offset : Nat} {input : List Char} {tokens : List Token}

/-- Every token is read from a stretch of the text. -/
theorem lexeme_of_mem (h : Munched offset input tokens) {token : Token} (hmem : token ∈ tokens) :
    ∃ before lexeme behind, input = before ++ lexeme ++ behind ∧
      token.span = .between (offset + utf8Width before) (offset + utf8Width (before ++ lexeme)) ∧
      Munch (lexeme ++ behind) lexeme token.kind := by
  -- by what stands in front: a blank, or the first token
  induction h with
  | nil => cases hmem
  | @blank offset c rest tokens hblank hrest ih =>
    obtain ⟨before, lexeme, behind, rfl, hspan, hmunch⟩ := ih hmem
    refine ⟨c :: before, lexeme, behind, rfl, ?_, hmunch⟩
    rw [hspan, List.cons_append, utf8Width_cons, utf8Width_cons, Nat.add_assoc, Nat.add_assoc]
  | @token offset lexeme rest kind tokens hstarts hmunch hrest ih =>
    obtain rfl | hlater := List.mem_cons.mp hmem
    · exact ⟨[], lexeme, rest, rfl, rfl, hmunch⟩
    · obtain ⟨before, inside, behind, rfl, hspan, hinside⟩ := ih hlater
      refine ⟨lexeme ++ before, inside, behind, by simp, ?_, hinside⟩
      simp [hspan, Nat.add_assoc]

/-- Tokens lie one behind the other. Beyond the largest offset they all lie at it. -/
theorem apart (h : Munched offset input tokens) :
    (∀ token ∈ tokens, min offset Span.maxOffset ≤ token.span.start) ∧
      tokens.Pairwise fun first later => first.span.stop ≤ later.span.start := by
  -- along the text; a blank only moves the offset, a token takes a stretch of it
  induction h with
  | nil => simp
  | @blank offset c rest tokens hblank hrest ih =>
    refine ⟨fun token hmem => ?_, ih.2⟩
    have := ih.1 token hmem
    omega
  | @token offset lexeme rest kind tokens hstarts hmunch hrest ih =>
    refine ⟨List.forall_mem_cons.mpr ⟨Nat.le_refl _, fun token hmem => ?_⟩,
      List.pairwise_cons.mpr ih⟩
    have := ih.1 token hmem
    omega

/-- A character that is not blank is inside a token. -/
theorem covered (h : Munched offset input tokens)
    (hsmall : offset + utf8Width input ≤ Span.maxOffset) {before behind : List Char} {c : Char}
    (hinput : input = before ++ c :: behind) (hc : isBlank c = false) :
    ∃ token ∈ tokens, token.span.start ≤ offset + utf8Width before ∧
      offset + utf8Width before < token.span.stop := by
  -- along the text; the character is no blank, so it is in a token
  induction h generalizing before with
  | nil => simp at hinput
  | @blank offset d rest tokens hblank hrest ih =>
    cases before with
    | nil =>
      cases hinput
      rw [hblank] at hc
      cases hc
    | cons d before =>
      cases hinput
      rw [utf8Width_cons, ← Nat.add_assoc] at hsmall
      obtain ⟨token, hmem, hspan⟩ := ih hsmall rfl
      exact ⟨token, hmem, by rwa [utf8Width_cons, ← Nat.add_assoc]⟩
  | @token offset lexeme rest kind tokens hstarts hmunch hrest ih =>
    rw [utf8Width_append, ← Nat.add_assoc] at hsmall
    -- the character is behind the first token, or in it
    obtain ⟨more, rfl, hrest⟩ | ⟨more, rfl, hmore⟩ := List.append_eq_append_iff.mp hinput
    · obtain ⟨token, hmem, hspan⟩ := ih hsmall hrest
      exact ⟨token, List.mem_cons_of_mem _ hmem, by rwa [utf8Width_append, ← Nat.add_assoc]⟩
    -- at the end of the first token it is the first character of the rest
    · cases more with
      | nil =>
        have hfront : rest = [] ++ c :: behind := hmore.symm
        obtain ⟨token, hmem, hspan⟩ := ih hsmall hfront
        exact ⟨token, List.mem_cons_of_mem _ hmem, by simpa using hspan⟩
      | cons d more =>
        -- inside of it, the offset lies between its ends
        have := c.utf8Size_pos
        have hoffset : offset + utf8Width (before ++ d :: more) ≤ Span.maxOffset := by omega
        cases hmore
        rw [Span.between_of_le (Nat.le_trans (Nat.le_add_right ..) hoffset) hoffset]
        refine ⟨_, List.mem_cons_self, Nat.le_add_right .., ?_⟩
        simp only [utf8Width_append, utf8Width_cons]
        omega

end Munched

/-! ### Tokens as they are written -/

namespace Munch

variable {input lexeme : List Char} {kind : Kind}

/-- What is read is the text of the token, unless that is a number. -/
theorem text_eq (h : Munch input lexeme kind) (hnumber : ∀ value, kind ≠ .number value) :
    kind.text = String.ofList lexeme := by
  cases h with
  | longest hlexeme => rw [← hlexeme.text_eq hnumber, String.ofList_toList]
  | openString | stray => rfl

/-- A number is read from digits that have its value, and perhaps a fraction. -/
theorem exists_numeral {value : Number} (h : Munch input lexeme (.number value)) :
    ∃ whole fraction, lexeme = whole ++ fraction ∧ Numeral whole fraction ∧
      value.toInt = decimalValue whole := by
  cases h with
  | longest hlexeme =>
    cases hlexeme with
    | number hnumeral hvalue => exact ⟨_, _, rfl, hnumeral, hvalue⟩

end Munch

/-! ### Texts -/

/-- Every token of a text is read from a stretch of it. -/
theorem Token.lexeme_of_mem {source : String} {token : Token} (h : token ∈ tokenize source) :
    ∃ before lexeme behind, source.toList = before ++ lexeme ++ behind ∧
      token.span = .between (utf8Width before) (utf8Width (before ++ lexeme)) ∧
      Munch (lexeme ++ behind) lexeme token.kind := by
  obtain ⟨before, lexeme, behind, hsource, hspan, hmunch⟩ :=
    (Munched.scan source.toList 0).lexeme_of_mem h
  rw [Nat.zero_add, Nat.zero_add] at hspan
  exact ⟨before, lexeme, behind, hsource, hspan, hmunch⟩

/-- Every token of a text is a stretch of it. -/
theorem Token.within_of_mem {source : String} {token : Token} (h : token ∈ tokenize source) :
    token.span.Within source.toList := by
  obtain ⟨before, lexeme, behind, hsource, hspan, -⟩ := lexeme_of_mem h
  exact ⟨before, lexeme, behind, hsource, hspan⟩

/-- Tokens end in their text. -/
theorem Token.stop_le_of_mem {source : String} {token : Token} (h : token ∈ tokenize source) :
    token.span.stop ≤ source.utf8ByteSize := by
  obtain ⟨before, lexeme, behind, hsource, hspan, -⟩ := lexeme_of_mem h
  rw [← utf8Width_toList, hsource, hspan, utf8Width_append (before ++ lexeme)]
  exact Nat.le_trans (Nat.min_le_left ..) (Nat.le_add_right ..)

/-- The tokens of a text of less than 4 GiB tile it. They lie one behind the other. Each of them is
read from a stretch of the text that is not empty, begins and ends between characters, and is what
the token is written as; a number is read from digits that have its value, perhaps with a point and
more digits behind them. What is in no token is blank. -/
theorem tokens_tile (source : String) (hsmall : source.utf8ByteSize ≤ Span.maxOffset) :
    ((tokenize source).Pairwise fun first later => first.span.stop ≤ later.span.start) ∧
    (∀ token ∈ tokenize source, ∃ before lexeme behind,
      source.toList = before ++ lexeme ++ behind ∧
      token.span = ⟨utf8Width before, utf8Width (before ++ lexeme)⟩ ∧
      token.span.start < token.span.stop ∧ token.span.stop ≤ source.utf8ByteSize ∧
      match token.kind with
      | .number value => ∃ whole fraction, lexeme = whole ++ fraction ∧ Numeral whole fraction ∧
          value.toInt = decimalValue whole
      | kind => kind.text = String.ofList lexeme) ∧
    ∀ before c behind, source.toList = before ++ c :: behind →
      (∀ token ∈ tokenize source,
        ¬ (token.span.start ≤ utf8Width before ∧ utf8Width before < token.span.stop)) →
      c ∈ [' ', '\t', '\r', '\n', '\x0c'] := by
  have hread : Munched 0 source.toList (tokenize source) := .scan ..
  rw [← utf8Width_toList] at hsmall
  refine ⟨hread.apart.2, fun token hmem => ?_, fun before c behind hsource hnone => ?_⟩
  · obtain ⟨before, lexeme, behind, hsource, hspan, hmunch⟩ := Token.lexeme_of_mem hmem
    -- in a text of this size the places are recorded as they are
    rw [Span.between_of_stretch hsource hsmall] at hspan
    refine ⟨before, lexeme, behind, hsource, hspan, ?_, Token.stop_le_of_mem hmem, ?_⟩
    · obtain ⟨c, more, rfl⟩ := List.exists_cons_of_ne_nil hmunch.ne_nil
      have := c.utf8Size_pos
      simp only [hspan, utf8Width_append, utf8Width_cons]
      omega
    · cases hkind : token.kind with
      | number value => exact (hkind ▸ hmunch).exists_numeral
      | _ => exact (hkind ▸ hmunch).text_eq nofun
  -- a character that is no blank would have to be read
  · cases hc : isBlank c with
    | true => simpa [isBlank, or_assoc] using hc
    | false =>
      -- it would be in a token
      obtain ⟨token, hmem, hspan⟩ := hread.covered (by rwa [Nat.zero_add]) hsource hc
      rw [Nat.zero_add] at hspan
      exact absurd hspan (hnone token hmem)

/-- A number with a fraction in front of a character that begins no token, and a form feed behind
them that is in no token. -/
theorem tokens_tile_mixed :
    let source := "03.75é\x0c"
    source.utf8ByteSize ≤ Span.maxOffset ∧
      tokenize source = [⟨.number 3, ⟨0, 5⟩⟩, ⟨.unknown "é", ⟨5, 7⟩⟩] ∧
      (∃ before lexeme behind, source.toList = before ++ lexeme ++ behind ∧
        (⟨0, 5⟩ : Span) = ⟨utf8Width before, utf8Width (before ++ lexeme)⟩ ∧
        ∃ whole fraction, lexeme = whole ++ fraction ∧ Numeral whole fraction ∧
          decimalValue whole = 3) ∧
      '\x0c' ∈ [' ', '\t', '\r', '\n', '\x0c'] := by
  intro source
  obtain ⟨hsmall, htokens⟩ : source.utf8ByteSize ≤ Span.maxOffset ∧
      tokenize source = [⟨.number 3, ⟨0, 5⟩⟩, ⟨.unknown "é", ⟨5, 7⟩⟩] := by
    decide +kernel
  obtain ⟨-, hlexemes, hblanks⟩ := tokens_tile source hsmall
  rw [htokens] at hlexemes hblanks
  refine ⟨hsmall, htokens, ?_, hblanks "03.75é".toList '\x0c' [] (by decide) (by decide +kernel)⟩
  obtain ⟨before, lexeme, behind, hsource, hspan, -, -, whole, fraction, hlexeme, hnumeral,
    hvalue⟩ := hlexemes ⟨.number 3, ⟨0, 5⟩⟩ List.mem_cons_self
  have hthree : Int.ofNat (decimalValue whole) = 3 := hvalue.symm
  exact ⟨before, lexeme, behind, hsource, hspan, whole, fraction, hlexeme, hnumeral,
    Int.ofNat.inj hthree⟩

/-- A line break is a barrier. A text, a line break and another text are read as the one text and
then the other, further on by the bytes of the first and of the line break. As far as offsets are
recorded, the places of the second part are larger by exactly that. So no token reaches over the
line break. -/
theorem newline_separates (text more : String) :
    let width := text.utf8ByteSize + 1
    tokenize (text ++ "\n" ++ more) =
        tokenize text ++ (tokenize more).map (Token.shifted width) ∧
      (∀ token ∈ tokenize more, token.span.stop + width ≤ Span.maxOffset →
        (token.shifted width).span = ⟨token.span.start + width, token.span.stop + width⟩) ∧
      ∀ token ∈ tokenize (text ++ "\n" ++ more),
        token.span.stop ≤ text.utf8ByteSize ∨ min width Span.maxOffset ≤ token.span.start := by
  intro width
  refine ⟨tokenize_joined text more, fun token hmem hstop => ?_, fun token hmem => ?_⟩
  · have hle := (Token.within_of_mem hmem).start_le_stop
    exact Span.between_of_le (by omega) hstop
  -- a token is one of the first text, or one of the second further on
  · rw [tokenize_joined, List.mem_append, List.mem_map] at hmem
    obtain hmem | ⟨token, -, rfl⟩ := hmem
    · exact .inl (Token.stop_le_of_mem hmem)
    · have hstart : min width Span.maxOffset ≤ min (token.span.start + width) Span.maxOffset := by
        omega
      exact .inr hstart

end Tern
