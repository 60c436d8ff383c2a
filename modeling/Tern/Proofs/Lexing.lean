import Tern.Token.Normal

/-!
# Tokens read from their own text

A token that was read somewhere is read again from its text, if that is followed by a space or by
nothing. So the text that is written with one space between tokens has the tokens that were
written. Two things need care: a string that is not closed goes on to the end of its line, so
nothing may follow it, and a comment is not separated from what follows by a space.

## Key results

- `Rule.reach_cut`: what a rule finds in a lexeme does not depend on what follows the lexeme
- `written_of_mem_tokenize`: the tokens of a text are read again from their own texts
- `kinds_of_written`: tokens are read again from their texts, with one space between them
-/

namespace Tern

/-- What follows a token that is written: nothing, or a space and more. -/
inductive Apart : List Char → Prop
  | nil : Apart []
  | space (more : List Char) : Apart (' ' :: more)

section

variable {p : Char → Bool} {lexeme rest tail : List Char}

/-- A stretch that ends inside a lexeme does not depend on what follows. -/
private theorem takeWhile_of_length_le (h : ((lexeme ++ rest).takeWhile p).length ≤ lexeme.length) :
    (lexeme ++ rest).takeWhile p = lexeme.takeWhile p := by
  rw [List.takeWhile_append] at h ⊢
  split
  · rename_i hall
    rw [if_pos hall, List.length_append] at h
    have hnil : rest.takeWhile p = [] := List.eq_nil_of_length_eq_zero (by omega)
    rw [hnil, List.append_nil]
    exact ((List.takeWhile_sublist p).eq_of_length hall).symm
  · rfl

/-- A stretch without spaces ends with the lexeme at the latest. -/
private theorem takeWhile_of_apart (htail : Apart tail) (hp : p ' ' = false) :
    (lexeme ++ tail).takeWhile p = lexeme.takeWhile p := by
  refine takeWhile_of_length_le ?_
  have hnil : tail.takeWhile p = [] := by
    cases htail with
    | nil => rfl
    | space more => simp [hp]
  rw [List.takeWhile_append]
  split
  · simp only [hnil, List.append_nil, Nat.le_refl]
  · exact (List.takeWhile_sublist p).length_le

end

namespace Rule

/-! ### Spellings -/

/-- A spelling of the language is that of its token, and has no blanks, digits or quotes in front.
None begins like a line comment. -/
private structure Spelled (spelling : List Char) (kind : Kind) : Prop where
  text : kind.text.toList = spelling
  starts : ∃ c more, spelling = c :: more ∧ isBlank c = false ∧ isDigit c = false ∧ c ≠ '"'
  unspaced : ' ' ∉ spelling
  noSlashes : spelling.take 2 ≠ ['/', '/']

private theorem spelled_symbol (mark : Symbol) : Spelled mark.text.toList (.symbol mark) := by
  cases mark <;>
    exact ⟨rfl, ⟨_, _, rfl, by decide, by decide, by decide⟩, by decide, by decide⟩

private theorem spelled_keyword (word : Keyword) : Spelled word.text.toList (.keyword word) := by
  cases word <;>
    exact ⟨rfl, ⟨_, _, rfl, by decide, by decide, by decide⟩, by decide, by decide⟩

/-- The fixed spellings are those of the symbols and of the keywords. -/
theorem fixed_cases {spelling : List Char} {kind : Kind} (h : fixed spelling kind ∈ all) :
    (∃ mark : Symbol, spelling = mark.text.toList ∧ kind = .symbol mark) ∨
      ∃ word : Keyword, spelling = word.text.toList ∧ kind = .keyword word := by
  simp only [all, List.cons_append, List.mem_cons, List.mem_append, List.mem_map, reduceCtorEq,
    fixed.injEq, false_or, List.not_mem_nil, or_false] at h
  obtain ⟨mark, -, hspelling, hkind⟩ | ⟨word, -, hspelling, hkind⟩ := h
  · exact .inl ⟨mark, hspelling.symm, hkind.symm⟩
  · exact .inr ⟨word, hspelling.symm, hkind.symm⟩

private theorem spelled_of_mem {spelling : List Char} {kind : Kind}
    (h : fixed spelling kind ∈ all) : Spelled spelling kind := by
  obtain ⟨mark, rfl, rfl⟩ | ⟨word, rfl, rfl⟩ := fixed_cases h
  · exact spelled_symbol mark
  · exact spelled_keyword word

/-! ### What rules find in a lexeme -/

/-- How far a number reaches that begins with so many digits, if this follows them. -/
def fractionReach (whole : Nat) : List Char → Nat
  | '.' :: rest =>
    let fraction := (rest.takeWhile isDigit).length
    if 0 < whole && 0 < fraction then whole + 1 + fraction else whole
  | _ => whole

theorem fractionReach_point (whole : Nat) (rest : List Char) :
    fractionReach whole ('.' :: rest) =
      if 0 < whole && 0 < (rest.takeWhile isDigit).length then
        whole + 1 + (rest.takeWhile isDigit).length
      else whole := rfl

theorem fractionReach_of_ne {whole : Nat} {after : List Char}
    (h : after.head? ≠ some '.') : fractionReach whole after = whole := by
  unfold fractionReach
  split
  · exact absurd rfl h
  · rfl

theorem le_fractionReach (whole : Nat) (after : List Char) :
    whole ≤ fractionReach whole after := by
  unfold fractionReach
  split
  · simp only
    split <;> omega
  · exact Nat.le_refl _

private theorem fractionReach_le (whole : Nat) (after : List Char) :
    fractionReach whole after ≤ whole + after.length := by
  unfold fractionReach
  split
  · rename_i rest
    have := (List.takeWhile_sublist (l := rest) isDigit).length_le
    simp only [List.length_cons]
    split <;> omega
  · exact Nat.le_add_right ..

theorem fractionReach_zero (after : List Char) : fractionReach 0 after = 0 := by
  unfold fractionReach
  split <;> simp

theorem reach_number (input : List Char) :
    number.reach input = fractionReach (input.takeWhile isDigit).length
      (input.drop (input.takeWhile isDigit).length) := rfl

theorem reach_lineComment_of_ne {input : List Char} (h : input.take 2 ≠ ['/', '/']) :
    lineComment.reach input = 0 := by
  simp only [reach]
  split
  · exact absurd rfl h
  · rfl

private theorem two_le_reach_lineComment {input : List Char} (h : input.take 2 = ['/', '/']) :
    2 ≤ lineComment.reach input := by
  rcases input with _ | ⟨c, _ | ⟨d, rest⟩⟩
  · cases h
  · cases h
  · simp only [List.take_succ_cons, List.take_zero, List.cons.injEq, and_true] at h
    obtain ⟨rfl, rfl⟩ := h
    exact Nat.le_add_right ..

section

variable {lexeme rest tail : List Char} (htail : Apart tail)

include htail

/-- A spelling is found in the lexeme or not at all. -/
private theorem reach_fixed_cut {spelling : List Char} {kind : Kind}
    (hspelled : Spelled spelling kind)
    (hle : (fixed spelling kind).reach (lexeme ++ rest) ≤ lexeme.length) :
    (fixed spelling kind).reach (lexeme ++ tail) = (fixed spelling kind).reach (lexeme ++ rest) := by
  -- a spelling that is not longer than the lexeme is in front of it already
  have hinside : ∀ more, spelling <+: lexeme ++ more → spelling.length ≤ lexeme.length →
      spelling <+: lexeme := fun more h hlength =>
    List.prefix_of_prefix_length_le h (List.prefix_append ..) hlength
  have hcut : spelling <+: lexeme ++ tail → spelling <+: lexeme := by
    intro h
    rcases Nat.le_total spelling.length lexeme.length with hlength | hlength
    · exact hinside tail h hlength
    · -- the spelling would go on with the space behind the lexeme
      obtain ⟨more, rfl⟩ := List.prefix_of_prefix_length_le (List.prefix_append lexeme tail) h hlength
      have hmore := (List.prefix_append_right_inj lexeme).mp h
      cases more with
      | nil => simp
      | cons x more =>
        cases htail with
        | nil => simp at hmore
        | space after =>
          obtain rfl := (List.cons_prefix_cons.mp hmore).1
          exact absurd (by simp) hspelled.unspaced
  simp only [reach, List.isPrefixOf_iff_prefix] at hle ⊢
  split at hle
  -- the spelling is in front in both texts, or in neither
  · rename_i h
    rw [if_pos ((hinside rest h hle).trans (List.prefix_append ..)), if_pos h]
  · rename_i h
    rw [if_neg fun h' => h ((hcut h').trans (List.prefix_append ..)), if_neg h]

/-- A name ends with the lexeme at the latest. -/
private theorem reach_ident_cut (hle : ident.reach (lexeme ++ rest) ≤ lexeme.length)
    (hne : lexeme ≠ []) : ident.reach (lexeme ++ tail) = ident.reach (lexeme ++ rest) := by
  cases lexeme with
  | nil => exact absurd rfl hne
  | cons c lexeme =>
    simp only [List.cons_append, reach] at hle ⊢
    split
    · rename_i hc
      rw [if_pos hc, List.length_cons] at hle
      rw [takeWhile_of_apart htail (by decide), takeWhile_of_length_le (by omega)]
    · rfl

/-- A number ends with the lexeme at the latest. -/
private theorem reach_number_cut (hle : number.reach (lexeme ++ rest) ≤ lexeme.length) :
    number.reach (lexeme ++ tail) = number.reach (lexeme ++ rest) := by
  have hspace : isDigit ' ' = false := by decide
  rw [reach_number] at hle
  -- the whole number ends inside the lexeme, and so does the fraction, if there is one
  have hwhole := Nat.le_trans (le_fractionReach ..) hle
  have hdigits : (lexeme.takeWhile isDigit).length ≤ lexeme.length :=
    (List.takeWhile_sublist _).length_le
  rw [reach_number, reach_number]
  rw [takeWhile_of_length_le hwhole, List.drop_append_of_le_length hdigits] at hle ⊢
  rw [takeWhile_of_apart htail hspace, List.drop_append_of_le_length hdigits]
  have hlength : (lexeme.drop (lexeme.takeWhile isDigit).length).length +
      (lexeme.takeWhile isDigit).length = lexeme.length := by
    rw [List.length_drop]
    omega
  -- what matters from here on are the lengths, and what the lexeme has behind its digits
  generalize lexeme.drop (lexeme.takeWhile isDigit).length = after at hle hlength ⊢
  generalize (lexeme.takeWhile isDigit).length = whole at hle hlength ⊢
  cases after with
  | nil =>
    -- the lexeme is all digits, and a fraction behind it would make it longer
    rw [List.nil_append] at hle ⊢
    have htail' : tail.head? ≠ some '.' := by cases htail <;> simp
    have := le_fractionReach whole rest
    rw [fractionReach_of_ne htail', List.nil_append]
    simp only [List.length_nil] at hlength
    omega
  | cons x after =>
    rw [List.cons_append, List.cons_append] at *
    by_cases hx : x = '.'
    · subst hx
      -- behind a point the digits of the fraction end inside the lexeme as well
      rw [fractionReach_point] at hle ⊢
      rw [fractionReach_point, takeWhile_of_apart htail hspace]
      rw [List.length_cons] at hlength
      by_cases hpos : 0 < whole
      · have hfraction : ((after ++ rest).takeWhile isDigit).length ≤ after.length := by
          simp only [hpos, decide_true, Bool.true_and, decide_eq_true_eq] at hle
          split at hle <;> omega
        rw [takeWhile_of_length_le hfraction]
      · simp [hpos]
    -- another character ends the number at once
    · rw [fractionReach_of_ne (by simpa using hx), fractionReach_of_ne (by simpa using hx)]

/-- A line comment is found in no lexeme that does not begin like one. -/
private theorem reach_lineComment_cut
    (hle : lineComment.reach (lexeme ++ rest) ≤ lexeme.length) (hne : lexeme ≠ [])
    (hslashes : lexeme.take 2 ≠ ['/', '/']) :
    lineComment.reach (lexeme ++ tail) = lineComment.reach (lexeme ++ rest) := by
  rcases lexeme with _ | ⟨c, _ | ⟨d, lexeme⟩⟩
  -- the lexeme is one character, so the second slash would be the first character behind it
  · exact absurd rfl hne
  · have htail' : ([c] ++ tail).take 2 ≠ ['/', '/'] := by cases htail <;> simp
    have hrest : ([c] ++ rest).take 2 ≠ ['/', '/'] := by
      intro h
      have := two_le_reach_lineComment h
      rw [List.length_singleton] at hle
      omega
    rw [reach_lineComment_of_ne htail', reach_lineComment_of_ne hrest]
  -- with two characters or more the lexeme decides on its own
  · have hboth : ∀ more, ((c :: d :: lexeme) ++ more).take 2 ≠ ['/', '/'] := fun _ => hslashes
    rw [reach_lineComment_of_ne (hboth tail), reach_lineComment_of_ne (hboth rest)]

/-- What a rule finds in a lexeme does not depend on what follows the lexeme, provided that the
lexeme begins neither a string nor a line comment. -/
theorem reach_cut {rule : Rule} (hrule : rule ∈ all)
    (hle : rule.reach (lexeme ++ rest) ≤ lexeme.length) (hne : lexeme ≠ [])
    (hquote : lexeme.head? ≠ some '"') (hslashes : lexeme.take 2 ≠ ['/', '/']) :
    rule.reach (lexeme ++ tail) = rule.reach (lexeme ++ rest) := by
  cases rule with
  | fixed spelling kind => exact reach_fixed_cut htail (spelled_of_mem hrule) hle
  | lineComment => exact reach_lineComment_cut htail hle hne hslashes
  -- strings begin with a quote
  | str =>
    cases lexeme with
    | nil => exact absurd rfl hne
    | cons c lexeme =>
      have hc : c ≠ '"' := by simpa using hquote
      simp [reach, hc]
  | number => exact reach_number_cut htail hle
  | ident => exact reach_ident_cut htail hle hne

end

/-- A lexeme is part of the text. -/
theorem reach_le_length (rule : Rule) (input : List Char) :
    rule.reach input ≤ input.length := by
  cases rule with
  -- a spelling is no longer than what it is in front of
  | fixed spelling kind =>
    simp only [reach, List.isPrefixOf_iff_prefix]
    split
    · rename_i h
      exact h.length_le
    · exact Nat.zero_le _
  -- the two slashes, and a piece of what follows
  | lineComment =>
    simp only [reach]
    split
    · rename_i rest
      have := (List.takeWhile_sublist (l := rest) (· != '\n')).length_le
      simp only [List.length_cons]
      omega
    · exact Nat.zero_le _
  | str =>
    simp only [reach]
    split
    · rename_i rest
      -- the quotes stand around a piece of what follows
      split
      · rename_i hclosed
        obtain ⟨more, hmore⟩ := List.head?_eq_some_iff.mp hclosed
        have hlt := congrArg List.length hmore
        rw [List.length_drop, List.length_cons] at hlt
        simp only [List.length_cons]
        omega
      · exact Nat.zero_le _
    · exact Nat.zero_le _
  | number =>
    have hwhole := (List.takeWhile_sublist (l := input) isDigit).length_le
    -- a fraction is looked for in what is left behind the whole number
    have hfraction := fractionReach_le (input.takeWhile isDigit).length
      (input.drop (input.takeWhile isDigit).length)
    rw [List.length_drop] at hfraction
    rw [reach_number]
    omega
  | ident =>
    cases input with
    | nil => exact Nat.le_refl _
    | cons c rest =>
      simp only [reach]
      split
      · have := (List.takeWhile_sublist (l := rest) continuesIdent).length_le
        rw [List.length_cons]
        omega
      · exact Nat.zero_le _

/-- A number begins with a digit. -/
private theorem isDigit_of_reach {c : Char} {rest : List Char}
    (h : 0 < number.reach (c :: rest)) : isDigit c = true := by
  cases hc : isDigit c with
  | true => rfl
  | false =>
    rw [reach_number, List.takeWhile_cons_of_neg (by simp [hc])] at h
    have hzero := fractionReach_zero (c :: rest)
    rw [List.length_nil, List.drop_zero, hzero] at h
    cases h

/-! ### The longest lexeme -/

/-- Where there is no longest lexeme, no rule has one. -/
theorem longest_eq_none {input : List Char} {rules : List Rule}
    (h : longest input rules = none) : ∀ rule ∈ rules, rule.reach input = 0 := by
  induction rules with
  | nil => simp
  | cons first rules ih =>
    simp only [longest] at h
    -- none is the best only if none of the others is, and the first does not apply
    cases hlongest : longest input rules with
    | some best =>
      rw [hlongest] at h
      simp only at h
      split at h <;> cases h
    | none =>
      rw [hlongest] at h
      intro rule hrule
      rcases List.mem_cons.mp hrule with rfl | hrule
      · simp only at h
        split at h
        · cases h
        · omega
      · exact ih hlongest rule hrule

/-- The longest lexeme is that of its rule, and no other is longer. -/
theorem longest_eq_some {input : List Char} {rules : List Rule} {rule : Rule} {length : Nat}
    (h : longest input rules = some (rule, length)) :
    rule ∈ rules ∧ rule.reach input = length ∧ 0 < length ∧
      ∀ other ∈ rules, other.reach input ≤ length := by
  induction rules generalizing rule length with
  | nil => cases h
  | cons first rules ih =>
    simp only [longest] at h
    cases hlongest : longest input rules with
    -- only the first rule can apply
    | none =>
      rw [hlongest] at h
      have hzero := longest_eq_none hlongest
      simp only at h
      split at h
      · rename_i hpos
        cases h
        refine ⟨by simp, rfl, hpos, fun other hother => ?_⟩
        rcases List.mem_cons.mp hother with rfl | hother
        · exact Nat.le_refl _
        · rw [hzero other hother]
          exact Nat.zero_le _
      · cases h
    | some best =>
      obtain ⟨found, foundLength⟩ := best
      rw [hlongest] at h
      -- the best rule of those behind is compared with the first one only
      obtain ⟨hmem, hreach, hpos, hbest⟩ := ih hlongest
      simp only at h
      split at h
      · cases h
        refine ⟨by simp [hmem], hreach, hpos, fun other hother => ?_⟩
        rcases List.mem_cons.mp hother with rfl | hother
        · omega
        · exact hbest other hother
      · cases h
        refine ⟨by simp, rfl, by omega, fun other hother => ?_⟩
        rcases List.mem_cons.mp hother with rfl | hother
        · exact Nat.le_refl _
        · have := hbest other hother
          omega

/-- Rules that reach equally far in two texts have the same longest lexeme. -/
theorem longest_congr {input input' : List Char} {rules : List Rule}
    (h : ∀ rule ∈ rules, rule.reach input = rule.reach input') :
    longest input rules = longest input' rules := by
  induction rules with
  | nil => rfl
  | cons first rules ih =>
    simp only [longest, h first (by simp), ih fun rule hrule => h rule (by simp [hrule])]

/-- The only rule that applies has the longest lexeme. -/
private theorem longest_of_only {input : List Char} {rule : Rule} (hmem : rule ∈ all)
    (hpos : 0 < rule.reach input)
    (honly : ∀ other ∈ all, other ≠ rule → other.reach input = 0) :
    longest input all = some (rule, rule.reach input) := by
  -- some rule applies, so there is a best one, and the others do not apply
  cases hlongest : longest input all with
  | none =>
    rw [longest_eq_none hlongest rule hmem] at hpos
    cases hpos
  | some best =>
    obtain ⟨found, length⟩ := best
    -- the best rule applies, as does no other than this one
    obtain ⟨hfound, hreach, hlength, -⟩ := longest_eq_some hlongest
    by_cases hrule : found = rule
    · rw [← hreach, hrule]
    · rw [← hreach, honly found hfound hrule] at hlength
      cases hlength

/-- A spelling is not found where another character is in front. -/
private theorem reach_fixed_of_ne {spelling : List Char} {kind : Kind} {c : Char}
    (hne : spelling.head? ≠ some c) (hstarts : spelling ≠ []) (rest : List Char) :
    (fixed spelling kind).reach (c :: rest) = 0 := by
  cases spelling with
  | nil => exact absurd rfl hstarts
  | cons d spelling =>
    have hdc : d ≠ c := by simpa using hne
    simp [reach, hdc]

/-- No name begins with a digit. -/
theorem startsIdent_of_digit {c : Char} (hc : isDigit c = true) :
    startsIdent c = false := by
  simp only [isDigit, Bool.and_eq_true, decide_eq_true_eq] at hc
  have hc9 : c.toNat ≤ 57 := hc.2
  -- letters come behind the digits, and the underscore behind both
  have hletter : ¬ 'a' ≤ c ∧ ¬ 'A' ≤ c := by
    constructor <;> intro h
    · have : 97 ≤ c.toNat := h
      omega
    · have : 65 ≤ c.toNat := h
      omega
  have hunderscore : c ≠ '_' := by
    rintro rfl
    exact absurd hc9 (by decide)
  simp [startsIdent, hletter, hunderscore]

/-- No digit is a blank. -/
theorem isBlank_of_digit {c : Char} (hc : isDigit c = true) : isBlank c = false := by
  cases hblank : isBlank c with
  | false => rfl
  | true =>
    simp only [isBlank, Bool.or_eq_true, decide_eq_true_eq] at hblank
    obtain (((rfl | rfl) | rfl) | rfl) | rfl := hblank <;> cases hc

/-- Digits are found by one rule only. -/
private theorem reach_of_digit {c : Char} (hc : isDigit c = true) (rest : List Char)
    {rule : Rule} (hmem : rule ∈ all) (hne : rule ≠ number) : rule.reach (c :: rest) = 0 := by
  cases rule with
  | fixed spelling kind =>
    -- every spelling begins with a character that is no digit
    obtain ⟨d, more, rfl, -, hd, -⟩ := (spelled_of_mem hmem).starts
    refine reach_fixed_of_ne ?_ (by simp) rest
    rintro hdc
    obtain rfl : d = c := by simpa using hdc
    rw [hd] at hc
    cases hc
  | lineComment =>
    refine reach_lineComment_of_ne fun h => ?_
    obtain rfl : c = '/' := (List.cons.inj h).1
    cases hc
  | str =>
    have hquote : c ≠ '"' := by
      rintro rfl
      cases hc
    simp [reach, hquote]
  | number => exact absurd rfl hne
  | ident => simp [reach, startsIdent_of_digit hc]

/-- A quote is found by one rule only. -/
private theorem reach_of_quote (rest : List Char) {rule : Rule} (hmem : rule ∈ all)
    (hne : rule ≠ str) : rule.reach ('"' :: rest) = 0 := by
  cases rule with
  | fixed spelling kind =>
    obtain ⟨d, more, rfl, -, -, hd⟩ := (spelled_of_mem hmem).starts
    exact reach_fixed_of_ne (by simpa using hd) (by simp) rest
  | lineComment => rfl
  | str => exact absurd rfl hne
  | number => rfl
  | ident => rfl

end Rule

/-! ### Single tokens -/

section

variable {tail : List Char} (htail : Apart tail)

include htail

/-- A lexeme that begins neither a string nor a line comment is read again. -/
private theorem readKind_cut {lexeme rest : List Char} {kind : Kind}
    (h : readKind (lexeme ++ rest) = (kind, lexeme.length)) (hne : lexeme ≠ [])
    (hquote : lexeme.head? ≠ some '"') (hslashes : lexeme.take 2 ≠ ['/', '/']) :
    readKind (lexeme ++ tail) = (kind, lexeme.length) := by
  -- no rule reaches beyond the lexeme, so each reaches as far whatever is behind it
  have hsame : (∀ rule ∈ Rule.all, rule.reach (lexeme ++ rest) ≤ lexeme.length) →
      Rule.longest (lexeme ++ tail) Rule.all = Rule.longest (lexeme ++ rest) Rule.all :=
    fun hle => Rule.longest_congr fun rule hrule =>
      Rule.reach_cut htail hrule (hle rule hrule) hne hquote hslashes
  unfold readKind at h ⊢
  cases hlongest : Rule.longest (lexeme ++ rest) Rule.all with
  | some best =>
    obtain ⟨rule, length⟩ := best
    obtain ⟨-, -, -, hbest⟩ := Rule.longest_eq_some hlongest
    rw [hlongest] at h
    obtain ⟨hkind, rfl⟩ := Prod.mk.inj h
    rw [hsame hbest, hlongest]
    simp only [List.take_left] at hkind ⊢
    rw [hkind]
  | none =>
    -- where no rule applies, the lexeme is one character
    have hzero := Rule.longest_eq_none hlongest
    rw [hlongest] at h
    rw [hsame fun rule hrule => by rw [hzero rule hrule]; exact Nat.zero_le _, hlongest]
    cases lexeme with
    | nil => exact absurd rfl hne
    | cons c lexeme =>
      have hc : c ≠ '"' := by simpa using hquote
      have hreach : ∀ more, unknownReach ((c :: lexeme) ++ more) = 1 := by
        intro more
        simp [unknownReach, hc]
      simp only [hreach] at h ⊢
      exact h

end

private theorem takeWhile_digits {digits : List Char} (hdigits : ∀ c ∈ digits, isDigit c = true) :
    digits.takeWhile isDigit = digits := by
  rw [← List.append_nil digits, List.takeWhile_append_of_pos hdigits, List.takeWhile_nil]

/-- Decimal digits are digits. -/
theorem isDigit_of_mem_toDigits {n : Nat} {c : Char} (h : c ∈ Nat.toDigits 10 n) :
    isDigit c = true := by
  have hdigit := Nat.isDigit_of_mem_toDigits (by decide) (by decide) h
  simp only [Char.isDigit, Bool.and_eq_true, decide_eq_true_eq] at hdigit
  simp only [isDigit, Bool.and_eq_true, decide_eq_true_eq]
  exact hdigit

/-- The decimal digits of a number stand for it. -/
theorem decimalValue_toDigits (n : Nat) : decimalValue (Nat.toDigits 10 n) = n :=
  Nat.ofDigitChars_ten_toDigits

/-- Digits are read as a number, as far as it fits. -/
private theorem readKind_digits {digits tail : List Char} (hdigits : ∀ c ∈ digits, isDigit c = true)
    (hne : digits ≠ []) (htail : Apart tail) :
    readKind (digits ++ tail) = (Rule.number.kind digits, digits.length) := by
  have hreach : Rule.number.reach (digits ++ tail) = digits.length := by
    -- the digits end where the text goes on, and no point follows them
    have hwhole : (digits ++ tail).takeWhile isDigit = digits := by
      rw [takeWhile_of_apart htail (by decide), takeWhile_digits hdigits]
    rw [Rule.reach_number, hwhole, List.drop_left]
    exact Rule.fractionReach_of_ne (by cases htail <;> simp)
  -- no other rule begins with a digit
  have hlongest : Rule.longest (digits ++ tail) Rule.all = some (.number, digits.length) := by
    rw [← hreach]
    refine Rule.longest_of_only (by decide) ?_ fun other hother hother' => ?_
    · rw [hreach]
      exact List.length_pos_iff.mpr hne
    · cases digits with
      | nil => exact absurd rfl hne
      | cons c digits => exact Rule.reach_of_digit (hdigits c (by simp)) _ hother hother'
  unfold readKind
  rw [hlongest]
  simp

/-- The number that digits stand for, if it fits. -/
private theorem Rule.kind_of_digits {digits : List Char} (hdigits : ∀ c ∈ digits, isDigit c = true) :
    Rule.number.kind digits =
      (Number.ofInt? (decimalValue digits)).elim (.unknown (String.ofList digits)) .number := by
  rw [Rule.kind, takeWhile_digits hdigits]

namespace Rule

/-- A string reaches to the quote that closes it. -/
theorem reach_closed {body : List Char} (hbody : ∀ c ∈ body, c ≠ '"' ∧ c ≠ '\n')
    (rest : List Char) : str.reach ('"' :: (body ++ '"' :: rest)) = body.length + 2 := by
  have hinside : (body ++ '"' :: rest).takeWhile (fun c => c != '"' && c != '\n') = body := by
    rw [List.takeWhile_append_of_pos (by simpa using hbody)]
    simp
  simp only [reach, hinside]
  simp

theorem take_closed (body rest : List Char) :
    ('"' :: (body ++ '"' :: rest)).take (body.length + 2) = '"' :: (body ++ ['"']) := by
  rw [List.take_succ_cons, List.take_length_add_append]
  rfl

theorem kind_closed (body : List Char) :
    str.kind ('"' :: (body ++ ['"'])) = .str (String.ofList body) :=
  congrArg (Kind.str <| String.ofList ·) List.dropLast_concat

/-- A string that is not closed on its line is none. -/
theorem reach_open {body rest : List Char} (hbody : ∀ c ∈ body, c ≠ '"' ∧ c ≠ '\n')
    (hrest : ∀ c ∈ rest.head?, c = '\n') : str.reach ('"' :: (body ++ rest)) = 0 := by
  -- the string goes on to the end of its line
  have hinside : (body ++ rest).takeWhile (fun c => c != '"' && c != '\n') = body := by
    rw [List.takeWhile_append_of_pos (by simpa using hbody)]
    cases rest with
    | nil => exact List.append_nil _
    | cons c rest =>
      obtain rfl : c = '\n' := hrest c rfl
      simp
  -- and there is no quote there
  have hhead : rest.head? ≠ some '"' := by
    intro h
    have := hrest '"' h
    simp at this
  simp only [reach, hinside, List.drop_left, if_neg hhead]

end Rule

/-- A string that is closed. -/
private theorem readKind_closed {body : List Char} (hbody : ∀ c ∈ body, c ≠ '"' ∧ c ≠ '\n')
    (rest : List Char) :
    readKind ('"' :: (body ++ '"' :: rest)) = (.str (String.ofList body), body.length + 2) := by
  have hreach := Rule.reach_closed hbody rest
  have hlongest : Rule.longest ('"' :: (body ++ '"' :: rest)) Rule.all =
      some (.str, body.length + 2) := by
    rw [← hreach]
    refine Rule.longest_of_only (by decide) (by rw [hreach]; omega) fun other hother hne => ?_
    exact Rule.reach_of_quote _ hother hne
  unfold readKind
  rw [hlongest]
  simp only [Rule.take_closed, Rule.kind_closed]

/-- A string that is not closed on its line. -/
private theorem readKind_open {body rest : List Char} (hbody : ∀ c ∈ body, c ≠ '"' ∧ c ≠ '\n')
    (hrest : ∀ c ∈ rest.head?, c = '\n') :
    readKind ('"' :: (body ++ rest)) =
      (.unknown (String.ofList ('"' :: body)), body.length + 1) := by
  -- what is unknown ends with the line
  have hline : (body ++ rest).takeWhile (· != '\n') = body := by
    rw [List.takeWhile_append_of_pos (by simpa using fun c hc => (hbody c hc).2)]
    cases rest with
    | nil => exact List.append_nil _
    | cons c rest =>
      obtain rfl : c = '\n' := hrest c rfl
      simp
  have hreach := Rule.reach_open hbody hrest
  -- the rule for strings finds no second quote, and no other rule begins with one
  have hlongest : Rule.longest ('"' :: (body ++ rest)) Rule.all = none := by
    cases hlongest : Rule.longest ('"' :: (body ++ rest)) Rule.all with
    | none => rfl
    | some best =>
      -- the best rule would reach some character, but no rule does
      obtain ⟨hmem, hbest, hpos, -⟩ := Rule.longest_eq_some hlongest
      by_cases hstr : best.1 = .str
      · rw [← hbest, hstr, hreach] at hpos
        cases hpos
      · rw [← hbest, Rule.reach_of_quote _ hmem hstr] at hpos
        cases hpos
  unfold readKind
  rw [hlongest]
  simp [unknownReach, hline, Nat.add_comm]

/-- Behind a quote the string goes on to the next quote, to the end of the line or to the end of the
text. -/
theorem line_split (input : List Char) :
    ∃ body rest, (∀ c ∈ body, c ≠ '"' ∧ c ≠ '\n') ∧ input = body ++ rest ∧
      (rest.head? = some '"' ∨ ∀ c ∈ rest.head?, c = '\n') := by
  -- the line is read up to the first quote or its end
  let inside := fun c : Char => c != '"' && c != '\n'
  refine ⟨input.takeWhile inside, input.dropWhile inside, fun c hc => ?_,
    List.takeWhile_append_dropWhile.symm, ?_⟩
  · simpa [inside] using List.all_eq_true.mp List.all_takeWhile c hc
  -- what stops the reading is one of these two characters, if there is any
  · have hstop := List.head?_dropWhile_not inside input
    cases hhead : (input.dropWhile inside).head? with
    | none => exact .inr (by simp)
    | some c =>
      rw [hhead] at hstop
      by_cases hc : c = '"'
      · exact .inl (by rw [hc])
      · exact .inr (by simpa [inside, hc] using hstop)

/-- Whether the token is a string that is not closed on its line. -/
def Kind.isUnterminated : Kind → Bool
  | unknown text => text.toList.head? = some '"'
  | _ => false

/-- A string that is not closed begins with a quote. -/
private theorem Kind.eq_of_isUnterminated {kind : Kind} (h : kind.isUnterminated = true) :
    ∃ start, kind = .unknown (String.ofList ('"' :: start)) ∧ kind.text.toList = '"' :: start := by
  cases kind with
  | unknown text =>
    obtain ⟨start, htext⟩ := List.head?_eq_some_iff.mp (of_decide_eq_true h)
    exact ⟨start, by rw [← htext, String.ofList_toList], htext⟩
  | _ => cases h

/-- A string that is not closed takes along what follows a space. -/
private theorem readKind_of_isUnterminated {kind : Kind} (h : kind.isUnterminated = true)
    (more : List Char) :
    ∃ other length, readKind (kind.text.toList ++ ' ' :: more) = (other, length) ∧
      other ≠ kind ∧ other.isComment = false := by
  obtain ⟨start, hkind, htext⟩ := Kind.eq_of_isUnterminated h
  rw [htext, List.cons_append]
  -- the space and what is behind it may hold another quote on the same line
  obtain ⟨body, rest, hbody, hsplit, hclosed | hopen⟩ := line_split (start ++ ' ' :: more)
  -- with another quote it is read as a string, which is closed
  · obtain ⟨rest, rfl⟩ := List.head?_eq_some_iff.mp hclosed
    rw [hsplit, readKind_closed hbody]
    exact ⟨_, _, rfl, by simp [hkind], rfl⟩
  · rw [hsplit, readKind_open hbody hopen]
    refine ⟨_, _, rfl, fun hsame => ?_, rfl⟩
    -- the string does not end where it ended before: the line goes on with a space
    obtain rfl : body = start := by
      rw [hkind, Kind.unknown.injEq, String.ofList_inj] at hsame
      exact (List.cons.inj hsame).2
    obtain rfl := List.append_cancel_left hsplit
    simpa using hopen ' ' rfl

/-- A token that is read again from its text, set apart from what follows. A string that is not
closed has to be the last token. -/
structure Kind.Written (kind : Kind) : Prop where
  starts : ∃ c more, kind.text.toList = c :: more ∧ isBlank c = false
  again : ∀ {tail}, Apart tail → (kind.isUnterminated = true → tail = []) →
    readKind (kind.text.toList ++ tail) = (kind, kind.text.toList.length)

namespace Kind.Written

/-- Such a token is written with one character at least. -/
theorem text_ne {kind : Kind} (h : kind.Written) : kind.text ≠ "" := by
  obtain ⟨c, more, hstarts, -⟩ := h.starts
  intro hempty
  rw [hempty] at hstarts
  cases hstarts

/-- A lexeme that is the text of its token. -/
private theorem of_lexeme {lexeme rest : List Char} {kind : Kind}
    (h : readKind (lexeme ++ rest) = (kind, lexeme.length)) (htext : kind.text.toList = lexeme)
    (hstarts : ∃ c more, lexeme = c :: more ∧ isBlank c = false ∧ c ≠ '"')
    (hslashes : lexeme.take 2 ≠ ['/', '/']) : kind.Written := by
  subst htext
  obtain ⟨c, more, hstarts, hblank, hquote⟩ := hstarts
  refine ⟨⟨c, more, hstarts, hblank⟩, fun htail _ => ?_⟩
  refine readKind_cut htail h ?_ ?_ hslashes
  · simp [hstarts]
  · simpa [hstarts] using hquote

/-- A number that fits. -/
private theorem of_number {digits : List Char} {value : Number}
    (h : Number.ofInt? (decimalValue digits) = some value) : (Kind.number value).Written := by
  -- the value does not lose its sign or its size on the way to its digits
  have hvalue : value.toInt = decimalValue digits := Number.toInt_of_ofInt? h
  have htext : (Kind.number value).text.toList = Nat.toDigits 10 (decimalValue digits) := by
    show (toString value.toInt).toList = _
    rw [hvalue]
    exact Nat.toList_repr
  have hdigits : ∀ c ∈ Nat.toDigits 10 (decimalValue digits), isDigit c = true :=
    fun _ => isDigit_of_mem_toDigits
  have hne : Nat.toDigits 10 (decimalValue digits) ≠ [] := Nat.toDigits_ne_nil
  -- and it is what its own digits are read as
  have hread : Rule.number.kind (Nat.toDigits 10 (decimalValue digits)) = .number value := by
    rw [Rule.kind_of_digits hdigits, decimalValue_toDigits, h, Option.elim_some]
  constructor
  · obtain ⟨c, more, hcons⟩ := List.exists_cons_of_ne_nil hne
    exact ⟨c, more, htext.trans hcons, Rule.isBlank_of_digit (hdigits c (by simp [hcons]))⟩
  · intro tail htail _
    rw [htext, readKind_digits hdigits hne htail, hread]

/-- A string, closed on its line or not. -/
private theorem of_quote {input : List Char} {kind : Kind} {length : Nat}
    (h : readKind ('"' :: input) = (kind, length)) : kind.Written := by
  -- with a second quote it is a string, else the rest of the line is unknown
  obtain ⟨body, rest, hbody, rfl, hclosed | hopen⟩ := line_split input
  · obtain ⟨rest, rfl⟩ := List.head?_eq_some_iff.mp hclosed
    rw [readKind_closed hbody] at h
    cases h
    have htext : (Kind.str (String.ofList body)).text.toList = '"' :: (body ++ ['"']) := by
      simp [Kind.text]
    refine ⟨⟨'"', body ++ ['"'], htext, by decide⟩, fun {tail} _ _ => ?_⟩
    rw [htext]
    have happend : '"' :: (body ++ ['"']) ++ tail = '"' :: (body ++ '"' :: tail) := by simp
    rw [happend, readKind_closed hbody]
    simp
  · rw [readKind_open hbody hopen] at h
    cases h
    have htext : (Kind.unknown (String.ofList ('"' :: body))).text.toList = '"' :: body := by
      simp [Kind.text]
    -- without a quote that closes it, it has to be the last of its line
    refine ⟨⟨'"', body, htext, by decide⟩, fun {tail} _ hlast => ?_⟩
    obtain rfl := hlast (by simp [isUnterminated])
    rw [htext, List.append_nil]
    have hread := readKind_open hbody (by simp : ∀ c ∈ ([] : List Char).head?, c = '\n')
    rw [List.append_nil] at hread
    exact hread

section

variable {c : Char} {input : List Char} {kind : Kind} {n : Nat}

/-- A token that is written as what was read for it, unless that is a string or a comment. -/
private theorem of_front (hblank : isBlank c = false) (hquote : c ≠ '"')
    (hread : readKind (c :: input) = (kind, n)) (hpos : 0 < n) (hle : n ≤ (c :: input).length)
    (htext : kind.text.toList = (c :: input).take n)
    (hslashes : ((c :: input).take n).take 2 ≠ ['/', '/']) : kind.Written := by
  have hlexeme : readKind ((c :: input).take n ++ (c :: input).drop n) =
      (kind, ((c :: input).take n).length) := by
    rw [List.take_append_drop, hread, List.length_take, Nat.min_eq_left hle]
  obtain ⟨n, rfl⟩ : ∃ m, n = m + 1 := ⟨n - 1, by omega⟩
  exact of_lexeme hlexeme htext ⟨c, input.take n, rfl, hblank, hquote⟩ hslashes

/-- Only what begins with a slash can begin like a line comment. -/
private theorem take_ne_slashes (hc : c ≠ '/') : ((c :: input).take n).take 2 ≠ ['/', '/'] := by
  intro hslashes
  cases n with
  | zero => cases hslashes
  | succ n => exact hc (List.cons.inj hslashes).1

/-- Every token that a rule finds outside comments is read again. -/
private theorem of_rule (hblank : isBlank c = false) (hquote : c ≠ '"') {rule : Rule}
    (hmem : rule ∈ Rule.all) (hreach : rule.reach (c :: input) = n) (hpos : 0 < n)
    (hread : readKind (c :: input) = (kind, n)) (hkind : rule.kind ((c :: input).take n) = kind)
    (hcomment : kind.isComment = false) : kind.Written := by
  have hle : n ≤ (c :: input).length := hreach ▸ rule.reach_le_length (c :: input)
  subst hkind
  cases rule with
  -- a fixed spelling is what its kind is written as
  | fixed spelling spelled =>
    have hspelled := Rule.spelled_of_mem hmem
    obtain ⟨hbegins, rfl⟩ : spelling <+: c :: input ∧ spelling.length = n := by
      simp only [Rule.reach, List.isPrefixOf_iff_prefix] at hreach
      split at hreach
      · exact ⟨‹_›, hreach⟩
      · omega
    have htake : (c :: input).take spelling.length = spelling :=
      (List.prefix_iff_eq_take.mp hbegins).symm
    refine of_front hblank hquote hread hpos hle ?_ ?_
    · rw [htake]
      exact hspelled.text
    · rw [htake]
      exact hspelled.noSlashes
  -- comments are left out
  | lineComment => cases hcomment
  | str =>
    simp [Rule.reach, hquote] at hreach
    omega
  | number =>
    have hdigit := Rule.isDigit_of_reach (hreach ▸ hpos)
    have hc : c ≠ '/' := by
      rintro rfl
      cases hdigit
    -- a number that fits is written in its own way, any other as it was read
    simp only [Rule.kind] at hread ⊢
    cases hvalue : Number.ofInt? (decimalValue (((c :: input).take n).takeWhile isDigit)) with
    | some value => exact of_number hvalue
    | none =>
      rw [hvalue, Option.elim_none] at hread
      exact of_front hblank hquote hread hpos hle (by simp [Kind.text]) (take_ne_slashes hc)
  -- identifiers are written as they were read
  | ident =>
    have hc : c ≠ '/' := by
      rintro rfl
      simp [Rule.reach, startsIdent] at hreach
      omega
    exact of_front hblank hquote hread hpos hle (by simp [Kind.text, Rule.kind])
      (take_ne_slashes hc)

/-- Every token that is read outside comments is read again. -/
theorem of_readKind (hblank : isBlank c = false) (h : readKind (c :: input) = (kind, n))
    (hcomment : kind.isComment = false) : kind.Written := by
  -- quotes are read on their own, whether they begin a string or not
  by_cases hquote : c = '"'
  · subst hquote
    exact of_quote h
  have hread := h
  unfold readKind at h
  cases hlongest : Rule.longest (c :: input) Rule.all with
  | none =>
    -- without a quote in front only one character is unknown
    rw [hlongest] at h
    have hreach : unknownReach (c :: input) = 1 := by simp [unknownReach, hquote]
    simp only [hreach] at h
    obtain ⟨rfl, rfl⟩ := Prod.mk.inj h
    exact of_front hblank hquote hread (by decide) (by simp) (by simp [Kind.text]) (by simp)
  -- a rule was best
  | some best =>
    obtain ⟨rule, length⟩ := best
    obtain ⟨hmem, hreach, hpos, -⟩ := Rule.longest_eq_some hlongest
    rw [hlongest] at h
    obtain ⟨hkind, rfl⟩ := Prod.mk.inj h
    exact of_rule hblank hquote hmem hreach hpos hread hkind hcomment

end

end Kind.Written

/-! ### Token sequences -/

/-- The kinds of the tokens of a text. -/
private def kindsOf (input : List Char) : List Kind := (Token.scan input 0 0 []).map (·.kind)

/-- Where a text stands makes no difference to the kinds of its tokens. -/
private theorem kinds_scan (input : List Char) (offset skip : Nat) (found : List Token) :
    (Token.scan input offset skip found).map (·.kind) =
      found.reverse.map (·.kind) ++ kindsOf (input.drop skip) := by
  -- along the text, where characters of a token that has been read are skipped
  induction input generalizing offset skip found with
  | nil => simp [Token.scan, kindsOf]
  | cons c rest ih =>
    cases skip with
    | succ skip => exact ih ..
    | zero =>
      unfold kindsOf
      rw [List.drop_zero, Token.scan, Token.scan]
      -- a blank is passed, anything else begins a token
      split
      · rw [ih, ih]
        rfl
      · rw [ih, ih]
        simp

/-- Blanks are dropped. -/
private theorem kindsOf_blank {c : Char} (hc : isBlank c = true) (rest : List Char) :
    kindsOf (c :: rest) = kindsOf rest := by
  unfold kindsOf
  rw [Token.scan, if_pos hc, kinds_scan]
  rfl

/-- The first token, and those behind it. -/
private theorem kindsOf_cons {c : Char} {rest : List Char} {kind : Kind} {length : Nat}
    (hc : isBlank c = false) (h : readKind (c :: rest) = (kind, length)) :
    kindsOf (c :: rest) = kind :: kindsOf (rest.drop (length - 1)) := by
  unfold kindsOf
  rw [Token.scan, if_neg (by simp [hc]), h]
  exact kinds_scan ..

/-- The tokens of a text are read again, comments excepted. -/
private theorem written_of_mem_kindsOf {input : List Char} {kind : Kind}
    (h : kind ∈ kindsOf input) (hcomment : kind.isComment = false) : kind.Written := by
  -- by the length of the text, since a token may take any number of characters
  induction hlength : input.length using Nat.strongRecOn generalizing input with
  | ind size ih =>
    subst hlength
    cases input with
    | nil => cases h
    | cons c rest =>
      -- a blank is skipped, anything else begins a token
      cases hc : isBlank c with
      | true =>
        rw [kindsOf_blank hc] at h
        exact ih rest.length (by simp) h rfl
      | false =>
        obtain ⟨⟨first, length⟩, hread⟩ : ∃ p, readKind (c :: rest) = p := ⟨_, rfl⟩
        rw [kindsOf_cons hc hread] at h
        rcases List.mem_cons.mp h with rfl | h
        · exact .of_readKind hc hread hcomment
        -- the kind is of a later token, which is read from what is left
        · refine ih (rest.drop (length - 1)).length ?_ h rfl
          rw [List.length_drop, List.length_cons]
          omega

/-- The tokens of a text are read again, comments excepted. -/
theorem written_of_mem_tokenize {source : String} {token : Token} (h : token ∈ tokenize source)
    (hcomment : token.kind.isComment = false) : token.kind.Written :=
  written_of_mem_kindsOf (List.mem_map_of_mem h) hcomment

/-- A token that is written in front of others is read in front of them. -/
private theorem kindsOf_text {kind : Kind} (h : kind.Written) {tail : List Char}
    (htail : Apart tail) (hlast : kind.isUnterminated = true → tail = []) :
    kindsOf (kind.text.toList ++ tail) = kind :: kindsOf tail := by
  have hread := h.again htail hlast
  obtain ⟨c, more, hstarts, hc⟩ := h.starts
  rw [hstarts, List.cons_append, List.length_cons] at hread
  rw [hstarts, List.cons_append, kindsOf_cons hc hread, Nat.add_sub_cancel, List.drop_left]

/-- Tokens that are written in front of others, with one space between them, are read in front of
them. -/
private theorem kindsOf_append {before kinds : List Kind} (hwritten : ∀ kind ∈ before, kind.Written)
    (hclosed : ∀ kind ∈ before, kind.isUnterminated = false) (hne : kinds ≠ []) :
    kindsOf (" ".intercalate ((before ++ kinds).map Kind.text)).toList =
      before ++ kindsOf (" ".intercalate (kinds.map Kind.text)).toList := by
  induction before with
  | nil => rfl
  | cons kind before ih =>
    have hrest := ih (fun k hk => hwritten k (by simp [hk])) fun k hk => hclosed k (by simp [hk])
    -- there is always another kind behind, so a space is written in between
    obtain ⟨next, others, hothers⟩ := List.exists_cons_of_ne_nil
      (List.append_ne_nil_of_right_ne_nil before hne)
    rw [List.cons_append, List.cons_append, ← hrest, hothers]
    simp only [List.map_cons, String.toList_intercalate, List.intercalate_cons_cons]
    have happend : ∀ more, kind.text.toList ++ " ".toList ++ more =
        kind.text.toList ++ ' ' :: more := fun more => by simp
    -- the space ends the first kind, and is skipped
    rw [happend, kindsOf_text (hwritten kind (by simp)) (.space _)
      (by simp [hclosed kind (by simp)]), kindsOf_blank (by decide)]

/-- Tokens are read again from their texts, with one space between them, if only the last one is a
string that is not closed. -/
theorem kinds_of_written {kinds : List Kind} (hwritten : ∀ kind ∈ kinds, kind.Written)
    (hlast : ∀ kind ∈ kinds.dropLast, kind.isUnterminated = false) :
    (tokenize (" ".intercalate (kinds.map Kind.text))).map (·.kind) = kinds := by
  show kindsOf (" ".intercalate (kinds.map Kind.text)).toList = kinds
  -- the last kind is not followed by a space
  rcases List.eq_nil_or_concat kinds with rfl | ⟨before, last, rfl⟩
  · rfl
  · rw [List.concat_eq_append, List.dropLast_concat] at *
    have hread := kindsOf_text (hwritten last (by simp)) .nil fun _ => rfl
    rw [List.append_nil] at hread
    rw [kindsOf_append (fun k hk => hwritten k (by simp [hk])) hlast (by simp)]
    simp only [List.map_singleton, String.toList_intercalate, List.intercalate_singleton]
    rw [hread]
    rfl

/-- Where another token follows a string that is not closed, the tokens up to it are read again from
their texts, and in its place another token is read, which begins no comment. -/
theorem kinds_of_isUnterminated {before after : List Kind} {kind next : Kind}
    (hwritten : ∀ k ∈ before, k.Written) (hclosed : ∀ k ∈ before, k.isUnterminated = false)
    (hopen : kind.isUnterminated = true) :
    ∃ other rest, (tokenize (" ".intercalate
        ((before ++ kind :: next :: after).map Kind.text))).map (·.kind) = before ++ other :: rest ∧
      other ≠ kind ∧ other.isComment = false := by
  -- with the space behind it the open string is read as something else
  obtain ⟨other, length, hread, hother⟩ := readKind_of_isUnterminated hopen
    (" ".intercalate ((next :: after).map Kind.text)).toList
  obtain ⟨start, -, htext⟩ := Kind.eq_of_isUnterminated hopen
  -- the front of the text is written with spaces between, the open string in its place
  have hinput : (" ".intercalate ((kind :: next :: after).map Kind.text)).toList =
      kind.text.toList ++ ' ' :: (" ".intercalate ((next :: after).map Kind.text)).toList := by
    simp [String.toList_intercalate]
  rw [htext, List.cons_append] at hread hinput
  -- what is in front of it is read as it was
  have hkinds := kindsOf_append hwritten hclosed (List.cons_ne_nil kind (next :: after))
  rw [hinput, kindsOf_cons (by decide) hread] at hkinds
  exact ⟨other, _, hkinds, hother⟩

end Tern
