import Tern.Proofs.Lexing

/-!
# Longest lexemes

The lexical grammar without the reader: which texts are lexemes, which token each of them stands
for, and which of them is taken where several begin at the same place. `tokenize` reads a text as
this grammar says, token by token, and no other way of reading it agrees with the grammar.

## Key results

- `Rule.lexeme_take`, `Lexeme.le_reach`: what rules find are lexemes, and no lexeme goes further
- `exists_munch`, `Munch.unique`: at every place one token is to be read, and `readKind` reads it
- `tokenize_eq_iff_munched`: the tokens of a text are those of the grammar
-/

namespace Tern

/-- Digits, and then a point and more digits or nothing. -/
structure Numeral (whole fraction : List Char) : Prop where
  ne_nil : whole ≠ []
  digits : ∀ c ∈ whole, isDigit c = true
  fraction : fraction = [] ∨
    ∃ more, fraction = '.' :: more ∧ more ≠ [] ∧ ∀ c ∈ more, isDigit c = true

/-- The lexemes of the language, each with the token that it stands for. -/
inductive Lexeme : List Char → Kind → Prop
  | keyword (word : Keyword) : Lexeme word.text.toList (.keyword word)
  | symbol (mark : Symbol) : Lexeme mark.text.toList (.symbol mark)
  | lineComment {text : List Char} (hline : '\n' ∉ text) :
      Lexeme ('/' :: '/' :: text) (.lineComment (String.ofList text))
  | str {text : List Char} (hquote : '"' ∉ text) (hline : '\n' ∉ text) :
      Lexeme ('"' :: (text ++ ['"'])) (.str (String.ofList text))
  | number {whole fraction : List Char} {value : Number} (hnumeral : Numeral whole fraction)
      (hvalue : value.toInt = decimalValue whole) : Lexeme (whole ++ fraction) (.number value)
  /-- Digits for more than the largest number are unknown, together with their fraction. -/
  | oversized {whole fraction : List Char} (hnumeral : Numeral whole fraction)
      (hlarge : Int64.maxValue.toInt < decimalValue whole) :
      Lexeme (whole ++ fraction) (.unknown (String.ofList (whole ++ fraction)))
  | ident {c : Char} {more : List Char} (hstarts : startsIdent c = true)
      (hmore : ∀ d ∈ more, continuesIdent d = true) :
      Lexeme (c :: more) (.ident (String.ofList (c :: more)))

/-- What is to be read at the front of a text that begins with no blank. -/
inductive Munch (input : List Char) : List Char → Kind → Prop
  /-- The longest lexeme there is, as a keyword if it is one. -/
  | longest {lexeme : List Char} {kind : Kind} (hlexeme : Lexeme lexeme kind)
      (hfront : lexeme <+: input)
      (hlongest : ∀ {other otherKind}, Lexeme other otherKind → other <+: input →
        other.length ≤ lexeme.length)
      (hkeyword : ∀ word : Keyword, lexeme = word.text.toList → kind = .keyword word) :
      Munch input lexeme kind
  /-- A quote that begins no lexeme, with the rest of its line. -/
  | openString {rest : List Char} (hinput : input = '"' :: rest)
      (hnone : ∀ {lexeme kind}, Lexeme lexeme kind → ¬ lexeme <+: input) :
      Munch input ('"' :: rest.takeWhile (· != '\n'))
        (.unknown (String.ofList ('"' :: rest.takeWhile (· != '\n'))))
  /-- Any other character that begins no lexeme. -/
  | stray {c : Char} {rest : List Char} (hinput : input = c :: rest) (hquote : c ≠ '"')
      (hnone : ∀ {lexeme kind}, Lexeme lexeme kind → ¬ lexeme <+: input) :
      Munch input [c] (.unknown (String.ofList [c]))

/-- The tokens that are to be read from a text, whose first character stands at byte `offset`, each
with its place as it is recorded. -/
inductive Munched : (offset : Nat) → List Char → List Token → Prop
  | nil {offset : Nat} : Munched offset [] []
  | blank {offset : Nat} {c : Char} {rest : List Char} {tokens : List Token}
      (hblank : isBlank c = true) (hrest : Munched (offset + c.utf8Size) rest tokens) :
      Munched offset (c :: rest) tokens
  | token {offset : Nat} {lexeme rest : List Char} {kind : Kind} {tokens : List Token}
      (hstarts : ∀ c ∈ lexeme.head?, isBlank c = false) (hmunch : Munch (lexeme ++ rest) lexeme kind)
      (hrest : Munched (offset + utf8Width lexeme) rest tokens) :
      Munched offset (lexeme ++ rest)
        (⟨kind, .between offset (offset + utf8Width lexeme)⟩ :: tokens)

/-! ### Lexemes and the tokens they stand for -/

namespace Numeral

variable {whole fraction : List Char}

/-- The digits in front of the fraction are all digits that a numeral begins with. -/
theorem takeWhile_eq (h : Numeral whole fraction) :
    (whole ++ fraction).takeWhile isDigit = whole := by
  rw [List.takeWhile_append_of_pos h.digits]
  obtain rfl | ⟨more, rfl, -⟩ := h.fraction
  · simp
  · rw [List.takeWhile_cons_of_neg (by decide), List.append_nil]

end Numeral

/-- Lexemes by their first characters. -/
private inductive Family where
  | comment | numeral | word | quoted | mark

private def Family.ofLexeme : List Char → Family
  | [] => .mark
  | c :: more =>
    if isDigit c then .numeral
    else if startsIdent c then .word
    else if c = '"' then .quoted
    else if c = '/' ∧ more.head? = some '/' then .comment
    else .mark

/-- The lexemes that a kind of token is read from. -/
private def Kind.family : Kind → Family
  | lineComment _ => .comment
  | number _ | unknown _ => .numeral
  | keyword _ | ident _ => .word
  | str _ => .quoted
  | symbol _ => .mark

private theorem Keyword.text_injective {word other : Keyword}
    (h : word.text.toList = other.text.toList) : word = other := by
  have hall : ∀ a ∈ Keyword.all, ∀ b ∈ Keyword.all, a.text.toList = b.text.toList → a = b := by
    decide
  exact hall word word.mem_all other other.mem_all h

private theorem Symbol.text_injective {mark other : Symbol}
    (h : mark.text.toList = other.text.toList) : mark = other := by
  have hall : ∀ a ∈ Symbol.all, ∀ b ∈ Symbol.all, a.text.toList = b.text.toList → a = b := by
    decide
  exact hall mark mark.mem_all other other.mem_all h

namespace Lexeme

variable {lexeme : List Char} {kind other : Kind}

/-- The first characters of a lexeme tell what kinds of tokens it can stand for. -/
private theorem family_eq (h : Lexeme lexeme kind) : Family.ofLexeme lexeme = kind.family := by
  -- numbers are told by their first digit, whatever their fraction is
  have hnumeral : ∀ {whole fraction}, Numeral whole fraction →
      Family.ofLexeme (whole ++ fraction) = .numeral := by
    intro whole fraction hnumeral
    obtain ⟨c, more, rfl⟩ := List.exists_cons_of_ne_nil hnumeral.ne_nil
    exact if_pos (hnumeral.digits c (by simp))
  cases h with
  | keyword word => cases word <;> rfl
  | symbol mark => cases mark <;> rfl
  | lineComment => rfl
  | str => rfl
  | number h => exact hnumeral h
  | oversized h => exact hnumeral h
  | @ident c more hstarts =>
    -- a digit does not begin an identifier
    have hdigit : isDigit c = false := by
      cases hc : isDigit c with
      | false => rfl
      | true => simp [Rule.startsIdent_of_digit hc] at hstarts
    simp [Family.ofLexeme, Kind.family, hdigit, hstarts]

theorem ne_nil (h : Lexeme lexeme kind) : lexeme ≠ [] := by
  cases h with
  | keyword word => cases word <;> decide
  | symbol mark => cases mark <;> decide
  | number h => exact List.append_ne_nil_of_left_ne_nil h.ne_nil _
  | oversized h => exact List.append_ne_nil_of_left_ne_nil h.ne_nil _
  | _ => exact List.cons_ne_nil _ _

/-- A number is the value of the digits in front. -/
private theorem toInt_eq {value : Number} (h : Lexeme lexeme (.number value)) :
    value.toInt = decimalValue (lexeme.takeWhile isDigit) := by
  cases h with
  | number hnumeral hvalue => rw [hnumeral.takeWhile_eq, hvalue]

/-- Only digits for a large number are a lexeme of an unknown token. -/
private theorem large {text : String} (h : Lexeme lexeme (.unknown text)) :
    Int64.maxValue.toInt < decimalValue (lexeme.takeWhile isDigit) := by
  cases h with
  | oversized hnumeral hlarge => rwa [hnumeral.takeWhile_eq]

/-- A lexeme is the text of its token, unless that is a number. -/
theorem text_eq (h : Lexeme lexeme kind) (hnumber : ∀ value, kind ≠ .number value) :
    kind.text.toList = lexeme := by
  cases h with
  | number => exact absurd rfl (hnumber _)
  | _ => simp [Kind.text]

/-- A lexeme stands for one token, unless it is both a keyword and a name. -/
theorem unique (h : Lexeme lexeme kind) (h' : Lexeme lexeme other) :
    kind = other ∨ ∃ word : Keyword, lexeme = word.text.toList := by
  have hfamily : kind.family = other.family := h.family_eq.symm.trans h'.family_eq
  -- digits stand for a number or for none, by whether their value fits
  have hlarge : ∀ {value : Number} {text}, Lexeme lexeme (.number value) →
      ¬ Lexeme lexeme (.unknown text) := by
    intro value text hnumber hunknown
    have hle : value.toInt ≤ Int64.maxValue.toInt := Int64.toInt_le value
    exact absurd (hnumber.toInt_eq ▸ hunknown.large) (by omega)
  have hword : ∀ {word}, Lexeme lexeme (.keyword word) → lexeme = word.text.toList :=
    fun h => (h.text_eq (by simp)).symm
  -- apart from numbers, kinds tell how they are written
  have htext : (∀ value, kind ≠ .number value) → (∀ value, other ≠ .number value) →
      kind.text = other.text := fun hkind hother =>
    String.toList_inj.mp ((h.text_eq hkind).trans (h'.text_eq hother).symm)
  -- only kinds of one family have to be compared, and keywords win against identifiers
  cases kind <;> cases other <;> try cases hfamily
  case keyword.keyword word _ => exact .inr ⟨word, hword h⟩
  case keyword.ident word _ => exact .inr ⟨word, hword h⟩
  case ident.keyword _ word => exact .inr ⟨word, hword h'⟩
  case number.unknown => exact absurd h' (hlarge h)
  case unknown.number => exact absurd h (hlarge h')
  case number.number value value' =>
    exact .inl (congrArg _ (Int64.toInt_inj.mp (h.toInt_eq.trans h'.toInt_eq.symm)))
  case symbol.symbol =>
    exact .inl (congrArg _ (Symbol.text_injective (congrArg _ (htext (by simp) (by simp)))))
  all_goals simpa [Kind.text] using Or.inl (htext (by simp) (by simp))

/-- The spelling of a keyword is that keyword or a name. -/
theorem keyword_cases {word : Keyword} (h : Lexeme word.text.toList kind) :
    kind = .keyword word ∨ ∃ name, kind = .ident name := by
  have hfamily := h.family_eq.symm.trans (keyword word).family_eq
  cases kind with
  | keyword other =>
    exact .inl (congrArg _ (Keyword.text_injective (h.text_eq (by simp))))
  | ident name => exact .inr ⟨name, rfl⟩
  | _ => cases hfamily

end Lexeme

/-! ### Lexemes and rules -/

private theorem take_takeWhile (p : Char → Bool) (text : List Char) :
    text.take (text.takeWhile p).length = text.takeWhile p :=
  (List.prefix_iff_eq_take.mp (List.takeWhile_prefix p)).symm

/-- Characters in front that satisfy a condition belong to the stretch of those that do. -/
private theorem length_le_takeWhile {p : Char → Bool} {text : List Char}
    (h : ∀ c ∈ text, p c = true) (rest : List Char) :
    text.length ≤ ((text ++ rest).takeWhile p).length := by
  rw [List.takeWhile_append_of_pos h, List.length_append]
  exact Nat.le_add_right ..

private theorem mem_takeWhile {p : Char → Bool} {text : List Char} {c : Char}
    (h : c ∈ text.takeWhile p) : p c = true :=
  List.all_eq_true.mp List.all_takeWhile c h

namespace Rule

variable {input : List Char}

/-- A number is read from digits, and from a fraction where one follows them. -/
private theorem numeral_take (hpos : 0 < number.reach input) :
    ∃ fraction, Numeral (input.takeWhile isDigit) fraction ∧
      input.take (number.reach input) = input.takeWhile isDigit ++ fraction := by
  -- the digits in front, and what stands behind them
  obtain ⟨whole, hwhole⟩ : ∃ whole, input.takeWhile isDigit = whole := ⟨_, rfl⟩
  obtain ⟨after, hafter⟩ : ∃ after, input.drop whole.length = after := ⟨_, rfl⟩
  have hdigits : ∀ c ∈ whole, isDigit c = true := fun c hc => mem_takeWhile (hwhole ▸ hc)
  have hinput : input = whole ++ after := by
    rw [← hafter, ← List.take_append_drop whole.length input]
    simp [← hwhole, take_takeWhile]
  have hreach : number.reach input = fractionReach whole.length after := by
    rw [reach_number, hwhole, hafter]
  -- there is a digit in front, or nothing would be reached
  have hne : whole ≠ [] := by
    rintro rfl
    rw [hreach, List.length_nil, fractionReach_zero] at hpos
    cases hpos
  rw [hwhole, hreach]
  -- a point alone is no fraction; there have to be digits behind it
  by_cases hfraction : ∃ more, after = '.' :: more ∧ more.takeWhile isDigit ≠ []
  -- the point and the digits behind it belong to the number
  · obtain ⟨more, rfl, hmore⟩ := hfraction
    refine ⟨'.' :: more.takeWhile isDigit, ⟨hne, hdigits, .inr ⟨_, rfl, hmore, fun c hc =>
      mem_takeWhile hc⟩⟩, ?_⟩
    have hlength : fractionReach whole.length ('.' :: more) =
        whole.length + (1 + (more.takeWhile isDigit).length) := by
      rw [fractionReach_point, if_pos (by simp [List.length_pos_iff, hne, hmore]), Nat.add_assoc]
    rw [hlength, hinput, List.take_length_add_append, Nat.add_comm 1, List.take_succ_cons,
      take_takeWhile]
  · refine ⟨[], ⟨hne, hdigits, .inl rfl⟩, ?_⟩
    have hlength : fractionReach whole.length after = whole.length := by
      by_cases hpoint : after.head? = some '.'
      · obtain ⟨more, rfl⟩ := List.head?_eq_some_iff.mp hpoint
        have hmore : more.takeWhile isDigit = [] :=
          Classical.not_not.mp fun hmore => hfraction ⟨more, rfl, hmore⟩
        rw [fractionReach_point, hmore]
        simp
      · exact fractionReach_of_ne hpoint
    rw [hlength, hinput, List.take_left, List.append_nil]

/-- What the string rule takes is a text between two quotes. -/
private theorem str_lexeme (hpos : 0 < str.reach input) :
    Lexeme (input.take (str.reach input)) (str.kind (input.take (str.reach input))) := by
  cases input with
  | nil => cases hpos
  | cons c rest =>
    -- a string is found only if a second quote follows on its line
    by_cases hc : c = '"'
    · subst hc
      obtain ⟨body, after, hbody, rfl, hclosed | hopen⟩ := line_split rest
      · obtain ⟨after, rfl⟩ := List.head?_eq_some_iff.mp hclosed
        rw [reach_closed hbody, take_closed, kind_closed]
        exact .str (fun h => (hbody _ h).1 rfl) fun h => (hbody _ h).2 rfl
      · rw [reach_open hbody hopen] at hpos
        cases hpos
    · simp [reach, hc] at hpos

/-- What the number rule takes is a numeral, and it is oversized if its value does not fit. -/
private theorem number_lexeme (hpos : 0 < number.reach input) :
    Lexeme (input.take (number.reach input))
      (number.kind (input.take (number.reach input))) := by
  -- a number is written with its fraction, but stands for its whole part
  obtain ⟨fraction, hnumeral, htake⟩ := numeral_take hpos
  rw [htake]
  simp only [kind, hnumeral.takeWhile_eq]
  cases hvalue : Number.ofInt? (decimalValue (input.takeWhile isDigit)) with
  | some value => exact .number hnumeral (Number.toInt_of_ofInt? hvalue)
  | none =>
    refine .oversized hnumeral ?_
    -- digits have no sign, so the number can only be too large
    have hfits := Number.ofInt?_eq_none_iff.mp hvalue
    have hmax : Int64.maxValue.toInt = 0x7fffffffffffffff := by decide
    simp only [Number.Fits] at hfits
    omega

/-- What a rule finds is a lexeme of the token that the rule makes of it. -/
theorem lexeme_take {rule : Rule} (hmem : rule ∈ all) (hpos : 0 < rule.reach input) :
    Lexeme (input.take (rule.reach input)) (rule.kind (input.take (rule.reach input))) := by
  cases rule with
  | fixed spelling kind =>
    -- a fixed spelling reaches as far as it is written, if it is in front at all
    simp only [reach, List.isPrefixOf_iff_prefix] at hpos ⊢
    split at hpos
    · rename_i hfront
      rw [if_pos hfront, ← List.prefix_iff_eq_take.mp hfront]
      obtain ⟨mark, rfl, rfl⟩ | ⟨word, rfl, rfl⟩ := fixed_cases hmem
      · exact .symbol mark
      · exact .keyword word
    · cases hpos
  | lineComment =>
    -- a comment takes its line, which has no line break in it
    simp only [reach] at hpos ⊢
    split at hpos
    · rename_i rest
      rw [Nat.add_comm 2, List.take_succ_cons, List.take_succ_cons, take_takeWhile]
      refine .lineComment fun hline => ?_
      have := mem_takeWhile hline
      simp at this
    · cases hpos
  | str => exact str_lexeme hpos
  | number => exact number_lexeme hpos
  | ident =>
    cases input with
    | nil => cases hpos
    | cons c rest =>
      -- an identifier takes all characters that continue it
      simp only [reach] at hpos ⊢
      split at hpos
      · rename_i hc
        rw [if_pos hc, Nat.add_comm 1, List.take_succ_cons, take_takeWhile]
        exact .ident hc fun d hd => mem_takeWhile hd
      · cases hpos

end Rule

/-- The rule for numbers goes at least as far as a numeral does. It may go further, since what is
behind may begin with more digits. -/
private theorem Numeral.length_le_reach {whole fraction : List Char} (h : Numeral whole fraction)
    (rest : List Char) :
    (whole ++ fraction).length ≤ Rule.number.reach (whole ++ fraction ++ rest) := by
  rw [Rule.reach_number]
  -- the fraction of the numeral can be empty, else it stands behind a point
  obtain rfl | ⟨more, rfl, hne, hmore⟩ := h.fraction
  · rw [List.append_nil]
    exact Nat.le_trans (length_le_takeWhile h.digits rest) (Rule.le_fractionReach ..)
  -- the digits in front end at the point
  · have hwhole : (whole ++ '.' :: more ++ rest).takeWhile isDigit = whole := by
      rw [List.append_assoc, List.takeWhile_append_of_pos h.digits]
      simp [isDigit]
    have hlength := length_le_takeWhile hmore rest
    rw [hwhole, List.append_assoc, List.drop_left, List.cons_append, Rule.fractionReach_point,
      if_pos]
    · simp only [List.length_append, List.length_cons]
      omega
    · have := List.length_pos_iff.mpr hne
      have := List.length_pos_iff.mpr h.ne_nil
      simp only [Bool.and_eq_true, decide_eq_true_eq]
      omega

/-- No lexeme goes further than the rules do. -/
theorem Lexeme.le_reach {lexeme input : List Char} {kind : Kind} (h : Lexeme lexeme kind)
    (hfront : lexeme <+: input) : ∃ rule ∈ Rule.all, lexeme.length ≤ rule.reach input := by
  obtain ⟨rest, rfl⟩ := hfront
  cases h with
  -- fixed spellings are rules of their own
  | keyword word =>
    refine ⟨.fixed word.text.toList (.keyword word), ?_, by simp [Rule.reach]⟩
    simp [Rule.all, word.mem_all]
  | symbol mark =>
    refine ⟨.fixed mark.text.toList (.symbol mark), ?_, by simp [Rule.reach]⟩
    simp [Rule.all, mark.mem_all]
  -- the rest of the line belongs to a comment, so the rule reaches as far at least
  | @lineComment text hline =>
    refine ⟨.lineComment, by decide, ?_⟩
    have htext : ∀ c ∈ text, (c != '\n') = true := fun c hc =>
      bne_iff_ne.mpr fun h => hline (h ▸ hc)
    have := length_le_takeWhile htext rest
    simp only [List.cons_append, Rule.reach, List.length_cons]
    omega
  -- a string is closed by its own quote
  | @str text hquote hline =>
    have htext : ∀ c ∈ text, c ≠ '"' ∧ c ≠ '\n' := fun c hc =>
      ⟨fun h => hquote (h ▸ hc), fun h => hline (h ▸ hc)⟩
    refine ⟨.str, by decide, ?_⟩
    rw [List.cons_append, List.append_assoc, List.singleton_append, Rule.reach_closed htext]
    simp
  | number h => exact ⟨.number, by decide, h.length_le_reach rest⟩
  | oversized h => exact ⟨.number, by decide, h.length_le_reach rest⟩
  -- every character that continues an identifier is taken
  | @ident c more hstarts hmore =>
    refine ⟨.ident, by decide, ?_⟩
    have := length_le_takeWhile hmore rest
    simp only [List.cons_append, Rule.reach, if_pos hstarts, List.length_cons]
    omega

namespace Rule

variable {input : List Char}

/-- A rule that comes behind others reaches further than they do where it has the longest lexeme. -/
private theorem reach_lt_of_longest {front back : List Rule} {last : Rule} {length : Nat}
    (h : longest input (front ++ back) = some (last, length)) (hlast : last ∉ front) :
    ∀ rule ∈ front, rule.reach input < length := by
  induction front with
  | nil => simp
  | cons first front ih =>
    -- the first rule is not the one that wins, so it reaches less far
    have hfirst : first ≠ last := fun h => hlast (by simp [h])
    -- it was left behind by a later rule, which reaches strictly further
    rw [List.cons_append, longest] at h
    cases hlongest : longest input (front ++ back) with
    | none => simp [hlongest, hfirst] at h
    | some best =>
      rw [hlongest] at h
      simp only at h
      split at h
      · rename_i hlt
        cases h
        exact List.forall_mem_cons.mpr ⟨hlt, ih hlongest fun hmem => hlast (by simp [hmem])⟩
      · simp [hfirst] at h

/-- Only one rule reads names. -/
private theorem eq_ident {rule : Rule} {lexeme : List Char} {name : String} (hmem : rule ∈ all)
    (h : rule.kind lexeme = .ident name) : rule = .ident := by
  cases rule with
  | fixed spelling kind =>
    obtain ⟨mark, -, rfl⟩ | ⟨word, -, rfl⟩ := fixed_cases hmem <;> cases h
  | number =>
    simp only [kind] at h
    cases hvalue : Number.ofInt? (decimalValue (lexeme.takeWhile isDigit)) <;>
      simp [hvalue] at h
  | ident => rfl
  | _ => cases h

/-- Where a keyword is the longest lexeme, the keyword is read. -/
private theorem kind_of_keyword {rule : Rule} {length : Nat} {word : Keyword}
    (hlongest : longest input all = some (rule, length))
    (hword : input.take length = word.text.toList) :
    rule.kind (input.take length) = .keyword word := by
  -- what is read is a lexeme, and the keyword is written the same way
  obtain ⟨hmem, hreach, hpos, -⟩ := longest_eq_some hlongest
  have hlength : word.text.toList.length = length := by
    rw [← hword, List.length_take, Nat.min_eq_left (hreach ▸ reach_le_length ..)]
  have hlexeme := lexeme_take hmem (hreach ▸ hpos)
  rw [hreach, hword] at hlexeme
  rw [hword]
  obtain hkind | ⟨name, hname⟩ := hlexeme.keyword_cases
  · exact hkind
  · -- the keyword's own rule reaches as far and comes first
    obtain rfl := eq_ident hmem hname
    have hfront : word.text.toList <+: input := hword ▸ List.take_prefix ..
    have hlt := reach_lt_of_longest hlongest (by decide)
      (fixed word.text.toList (.keyword word)) (by simp [word.mem_all])
    simp only [reach, List.isPrefixOf_iff_prefix, if_pos hfront] at hlt
    omega

end Rule

/-! ### Reading -/

/-- What is read at the front of a text is what is to be read there. -/
theorem exists_munch {input : List Char} (hne : input ≠ []) :
    ∃ lexeme rest kind, input = lexeme ++ rest ∧ readKind input = (kind, lexeme.length) ∧
      Munch input lexeme kind := by
  unfold readKind
  cases hlongest : Rule.longest input Rule.all with
  -- a rule applies: what it reads is a lexeme, and no lexeme is longer
  | some best =>
    obtain ⟨rule, length⟩ := best
    obtain ⟨hmem, hreach, hpos, hbest⟩ := Rule.longest_eq_some hlongest
    have hlength : (input.take length).length = length := by
      rw [List.length_take, Nat.min_eq_left (hreach ▸ rule.reach_le_length input)]
    refine ⟨input.take length, input.drop length, rule.kind (input.take length),
      (List.take_append_drop ..).symm, by rw [hlength], .longest ?_ (List.take_prefix ..) ?_ ?_⟩
    · subst hreach
      exact Rule.lexeme_take hmem hpos
    -- any lexeme in front is reached by some rule, and this one goes furthest
    · intro other otherKind hother hfront
      obtain ⟨found, hfound, hle⟩ := hother.le_reach hfront
      rw [hlength]
      exact Nat.le_trans hle (hbest found hfound)
    -- keywords come before identifiers among the rules
    · exact fun word hword => Rule.kind_of_keyword hlongest hword
  | none =>
    -- a lexeme would be reached by a rule, and none applies
    have hnone : ∀ {lexeme kind}, Lexeme lexeme kind → ¬ lexeme <+: input := by
      intro lexeme kind hlexeme hfront
      obtain ⟨rule, hrule, hle⟩ := hlexeme.le_reach hfront
      rw [Rule.longest_eq_none hlongest rule hrule] at hle
      exact hlexeme.ne_nil (List.eq_nil_of_length_eq_zero (Nat.le_zero.mp hle))
    obtain ⟨c, rest, rfl⟩ := List.exists_cons_of_ne_nil hne
    -- a quote takes the rest of its line, any other character stands alone
    by_cases hc : c = '"'
    · subst hc
      have htake : ('"' :: rest).take (unknownReach ('"' :: rest)) =
          '"' :: rest.takeWhile (· != '\n') := by
        rw [unknownReach, Nat.add_comm, List.take_succ_cons, take_takeWhile]
      refine ⟨_, rest.dropWhile (· != '\n'), _, ?_, ?_, .openString rfl hnone⟩
      · rw [List.cons_append, List.takeWhile_append_dropWhile]
      · simp only [htake]
        rw [unknownReach, List.length_cons, Nat.add_comm]
    · have hreach : unknownReach (c :: rest) = 1 := by simp [unknownReach, hc]
      refine ⟨_, rest, _, rfl, ?_, .stray rfl hc hnone⟩
      simp only [hreach, List.take_succ_cons, List.take_zero, List.length_singleton]

/-- One token is to be read at the front of a text. -/
theorem Munch.unique {input lexeme lexeme' : List Char} {kind kind' : Kind}
    (h : Munch input lexeme kind) (h' : Munch input lexeme' kind') :
    lexeme = lexeme' ∧ kind = kind' := by
  cases h with
  | longest hlexeme hfront hlongest hkeyword =>
    cases h' with
    | longest hlexeme' hfront' hlongest' hkeyword' =>
      -- both are the longest at the front of one text, so they are the same text
      have hlength := Nat.le_antisymm (hlongest' hlexeme hfront) (hlongest hlexeme' hfront')
      obtain rfl : lexeme = lexeme' :=
        (List.prefix_of_prefix_length_le hfront hfront' (Nat.le_of_eq hlength)).eq_of_length hlength
      refine ⟨rfl, ?_⟩
      obtain rfl | ⟨word, hword⟩ := hlexeme.unique hlexeme'
      · rfl
      · rw [hkeyword word hword, hkeyword' word hword]
    -- the other ways ask that there be no lexeme in front
    | openString _ hnone => exact absurd hfront (hnone hlexeme)
    | stray _ _ hnone => exact absurd hfront (hnone hlexeme)
  | openString hinput hnone =>
    cases h' with
    | longest hlexeme hfront => exact absurd hfront (hnone hlexeme)
    | openString hinput' =>
      cases hinput.symm.trans hinput'
      exact ⟨rfl, rfl⟩
    | stray hinput' hquote =>
      cases hinput.symm.trans hinput'
      exact absurd rfl hquote
  | stray hinput hquote hnone =>
    cases h' with
    | longest hlexeme hfront => exact absurd hfront (hnone hlexeme)
    | openString hinput' =>
      cases hinput.symm.trans hinput'
      exact absurd rfl hquote
    | stray hinput' =>
      cases hinput.symm.trans hinput'
      exact ⟨rfl, rfl⟩

theorem Munch.ne_nil {input lexeme : List Char} {kind : Kind} (h : Munch input lexeme kind) :
    lexeme ≠ [] := by
  cases h with
  | longest hlexeme => exact hlexeme.ne_nil
  | _ => exact List.cons_ne_nil _ _

/-- What is to be read at the front of a text is read there. -/
theorem Munch.readKind_eq {lexeme rest : List Char} {kind : Kind}
    (h : Munch (lexeme ++ rest) lexeme kind) : readKind (lexeme ++ rest) = (kind, lexeme.length) := by
  obtain ⟨found, after, foundKind, -, hread, hfound⟩ :=
    exists_munch (List.append_ne_nil_of_left_ne_nil h.ne_nil rest)
  obtain ⟨rfl, rfl⟩ := h.unique hfound
  exact hread

/-- The token at the front of a text is read before those of the rest. -/
private theorem Token.scan_lexeme {lexeme rest : List Char} {kind : Kind}
    (hstarts : ∀ c ∈ lexeme.head?, isBlank c = false) (hne : lexeme ≠ [])
    (hread : readKind (lexeme ++ rest) = (kind, lexeme.length)) (offset : Nat) :
    scan (lexeme ++ rest) offset 0 [] =
      ⟨kind, .between offset (offset + utf8Width lexeme)⟩ ::
        scan rest (offset + utf8Width lexeme) 0 [] := by
  obtain ⟨c, more, rfl⟩ := List.exists_cons_of_ne_nil hne
  have hc : isBlank c = false := hstarts c rfl
  rw [List.cons_append] at hread ⊢
  rw [scan, if_neg (by simp [hc]), hread]
  simp only [List.length_cons, Nat.add_sub_cancel, scan_skip, List.take_succ_cons, List.take_left]
  rw [scan_eq_append, utf8Width_cons, Nat.add_assoc]
  rfl

namespace Munched

variable {offset : Nat} {input : List Char} {tokens : List Token}

/-- Only one list of tokens is to be read from a text, the one that is read. -/
theorem eq_scan (h : Munched offset input tokens) : tokens = Token.scan input offset 0 [] := by
  induction h with
  | nil => rfl
  | blank hblank _ ih => rw [Token.scan, if_pos hblank, ih]
  | token hstarts hmunch _ ih =>
    rw [Token.scan_lexeme hstarts hmunch.ne_nil hmunch.readKind_eq, ih]

/-- The tokens that are read from a text are to be read from it. -/
theorem scan (input : List Char) (offset : Nat) :
    Munched offset input (Token.scan input offset 0 []) := by
  -- by the length of the text, since a token may take any number of characters
  induction hlength : input.length using Nat.strongRecOn generalizing input offset with
  | ind size ih =>
    subst hlength
    cases input with
    | nil => exact .nil
    | cons c rest =>
      cases hc : isBlank c with
      | true =>
        rw [Token.scan, if_pos hc]
        exact .blank hc (ih rest.length (by simp) rest _ rfl)
      | false =>
        obtain ⟨lexeme, after, kind, hinput, hread, hmunch⟩ := exists_munch (List.cons_ne_nil c rest)
        have hstarts : ∀ d ∈ lexeme.head?, isBlank d = false := by
          intro d hd
          obtain ⟨more, rfl⟩ := List.head?_eq_some_iff.mp hd
          cases hinput
          exact hc
        have hshorter : after.length < (c :: rest).length := by
          have := List.length_pos_iff.mpr hmunch.ne_nil
          rw [hinput, List.length_append]
          omega
        rw [hinput] at hread hmunch ⊢
        rw [Token.scan_lexeme hstarts hmunch.ne_nil hread]
        exact .token hstarts hmunch (ih after.length hshorter after _ rfl)

end Munched

/-- The tokens of a text are those of the grammar: at every place where a token begins, the longest
lexeme there with the token it stands for, or an unknown token where there is no lexeme. -/
theorem tokenize_eq_iff_munched (source : String) (tokens : List Token) :
    tokenize source = tokens ↔ Munched 0 source.toList tokens := by
  constructor
  · rintro rfl
    exact .scan ..
  · intro h
    exact h.eq_scan.symm

end Tern
