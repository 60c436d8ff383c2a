import Tern.Proofs.Arithmetic
import Tern.Proofs.MaximalMunch

/-!
# Literals

A number is read back from its decimal text, sign included, and a text from itself between quotes.
The sign is no part of the literal, but an operator in front of it. So the least number, whose
opposite does not fit, is the only one that cannot be written; and what stands between quotes is
the text as it is, since nothing in it is special but the quote and the end of the line.

## Key results

- `tokenize_repr`, `tokenize_minus_repr`: the tokens of a number's text
- `tokenize_quoted`: the token of a text between quotes
- `Phrase.literals_evaluate`: what the tokens evaluate to
-/

namespace Tern

open Cursor (Reads)

/-! ### One lexeme -/

/-- A text that is a lexeme is read as that lexeme. -/
theorem Munch.whole {lexeme : List Char} {kind : Kind} (h : Lexeme lexeme kind)
    (hname : ∀ name, kind ≠ .ident name) : Munch lexeme lexeme kind := by
  refine .longest h (List.prefix_refl _) (fun _ hfront => hfront.length_le) ?_
  -- the same text could be a keyword and a name, and that is the only case of two kinds
  rintro word rfl
  rcases h.keyword_cases with hkind | ⟨name, hkind⟩
  · exact hkind
  · exact absurd hkind (hname name)

/-- No rule reaches further than a minus sign that a digit follows. -/
private theorem reach_minus_le {c : Char} (hc : isDigit c = true) (rest : List Char) {rule : Rule}
    (hrule : rule ∈ Rule.all) : rule.reach ('-' :: c :: rest) ≤ 1 := by
  have hne : c ≠ '-' := by
    rintro rfl
    cases hc
  cases rule with
  | fixed spelling kind =>
    obtain ⟨mark, rfl, rfl⟩ | ⟨word, rfl, rfl⟩ := Rule.fixed_cases hrule
    · -- `--` is the only symbol that would go on
      cases mark <;> simp [Rule.reach, Symbol.text, hne.symm]
    · cases word <;> simp [Rule.reach, Keyword.text]
  | number => simp [Rule.reach_number, isDigit, Rule.fractionReach_zero]
  | _ => simp [Rule.reach, startsIdent]

/-- A minus sign in front of a digit is a token of its own. -/
theorem Munch.minus {c : Char} (hc : isDigit c = true) (rest : List Char) :
    Munch ('-' :: c :: rest) ['-'] (.symbol .minus) := by
  refine .longest (.symbol .minus) ⟨c :: rest, rfl⟩ (fun hother hfront => ?_) ?_
  · obtain ⟨rule, hrule, hle⟩ := hother.le_reach hfront
    exact Nat.le_trans hle (reach_minus_le hc rest hrule)
  · intro word hword
    cases word <;> cases hword

/-- The last token of a text. -/
private theorem munched_last {offset : Nat} {lexeme : List Char} {kind : Kind}
    (hstarts : ∀ c ∈ lexeme.head?, isBlank c = false) (hmunch : Munch lexeme lexeme kind) :
    Munched offset lexeme [⟨kind, .between offset (offset + utf8Width lexeme)⟩] := by
  have hend : Munched (offset + utf8Width lexeme) [] [] := .nil
  have hmunched := Munched.token hstarts (by rwa [List.append_nil]) hend
  rwa [List.append_nil] at hmunched

/-! ### Numbers -/

/-- The token that the decimal digits of `m` stand for. -/
def numberKind (m : Nat) : Kind := (Number.ofInt? m).elim (.unknown (Nat.repr m)) .number

/-- Decimal digits are a lexeme, of a number if that fits. -/
theorem lexeme_toDigits (m : Nat) : Lexeme (Nat.toDigits 10 m) (numberKind m) := by
  -- a numeral without a fraction, whose value decides between the two kinds
  have hnumeral : Numeral (Nat.toDigits 10 m) [] :=
    ⟨Nat.toDigits_ne_nil, fun _ => isDigit_of_mem_toDigits, .inl rfl⟩
  unfold numberKind
  rw [← List.append_nil (Nat.toDigits 10 m)]
  cases hvalue : Number.ofInt? m with
  | some value =>
    refine .number hnumeral ?_
    rw [Number.toInt_of_ofInt? hvalue, decimalValue_toDigits]
  -- digits have no sign, so the value can only be too large
  | none =>
    have hfits := Number.ofInt?_eq_none_iff.mp hvalue
    have hmax : Int64.maxValue.toInt = 0x7fffffffffffffff := by decide
    have hrepr : Nat.repr m = String.ofList (Nat.toDigits 10 m ++ []) := by
      rw [List.append_nil]
      rfl
    rw [Option.elim_none, hrepr]
    refine .oversized hnumeral ?_
    rw [decimalValue_toDigits, hmax]
    unfold Number.Fits at hfits
    omega

/-- The token of the decimal digits of `m` that stand at `offset`. -/
def numberToken (m offset : Nat) : Token :=
  ⟨numberKind m, .between offset (offset + utf8Width (Nat.toDigits 10 m))⟩

theorem numberToken_kind (m offset : Nat) : (numberToken m offset).kind = numberKind m := by
  rw [numberToken]

/-- Digits at the end of a text are one token. -/
private theorem munched_toDigits (m offset : Nat) :
    Munched offset (Nat.toDigits 10 m) [numberToken m offset] := by
  refine munched_last (fun c hc => ?_) (.whole (lexeme_toDigits m) fun name => ?_)
  · exact Rule.isBlank_of_digit (isDigit_of_mem_toDigits (List.mem_of_mem_head? hc))
  · unfold numberKind
    cases Number.ofInt? m <;> simp

/-- The text of a natural number is one token. -/
theorem tokenize_repr (m : Nat) : tokenize (Nat.repr m) = [numberToken m 0] := by
  rw [tokenize_eq_iff_munched, Nat.toList_repr]
  exact munched_toDigits m 0

/-- A sign in front of it is another one. -/
theorem tokenize_minus_repr (m : Nat) :
    tokenize ("-" ++ Nat.repr m) = [⟨.symbol .minus, ⟨0, 1⟩⟩, numberToken m 1] := by
  rw [tokenize_eq_iff_munched, String.toList_append, Nat.toList_repr]
  obtain ⟨c, rest, hcons⟩ := List.exists_cons_of_ne_nil (Nat.toDigits_ne_nil (n := m) (b := 10))
  have hminus : Munch (['-'] ++ Nat.toDigits 10 m) ['-'] (.symbol .minus) := by
    rw [hcons]
    exact .minus (isDigit_of_mem_toDigits (n := m) (by simp [hcons])) rest
  exact .token (by simp [isBlank]) hminus (munched_toDigits m 1)

/-- A number is written as its digits, with a minus sign in front if it is negative. -/
theorem Number.text_eq (n : Number) : n.text =
    if 0 ≤ n.toInt then Nat.repr n.toInt.toNat else "-" ++ Nat.repr (-n.toInt).toNat :=
  Int.repr_eq_if

/-- The digits of a number that fits stand for it. -/
private theorem numberKind_of_toInt {k : Number} {m : Nat} (h : k.toInt = m) :
    numberKind m = .number k := by
  unfold numberKind
  rw [← h, Number.ofInt?_toInt]
  rfl

/-- The digits of the least number do not. -/
private theorem numberToken_of_min :
    numberToken 0x8000000000000000 1 = ⟨.unknown "9223372036854775808", ⟨1, 20⟩⟩ := by
  decide +kernel

/-! ### Texts -/

/-- A text between quotes is one token, whatever it contains but quotes and line ends. -/
theorem tokenize_quoted {text : String} (hquote : '"' ∉ text.toList) (hline : '\n' ∉ text.toList) :
    tokenize ("\"" ++ text ++ "\"") = [⟨.str text, .between 0 (text.utf8ByteSize + 2)⟩] := by
  have hchars : ("\"" ++ text ++ "\"").toList = '"' :: (text.toList ++ ['"']) := by
    rw [String.toList_append, String.toList_append]
    rfl
  -- a quote is one byte wide, at either end
  have hwidth : 0 + utf8Width ('"' :: (text.toList ++ ['"'])) = text.utf8ByteSize + 2 := by
    rw [utf8Width_cons, utf8Width_append, utf8Width_toList]
    show 0 + (1 + (_ + 1)) = _
    omega
  have hlexeme : Lexeme ('"' :: (text.toList ++ ['"'])) (.str text) := by
    have hstr := Lexeme.str hquote hline
    rwa [String.ofList_toList] at hstr
  rw [tokenize_eq_iff_munched, hchars, ← hwidth]
  exact munched_last (by simp [isBlank]) (.whole hlexeme (by simp))

/-! ### Evaluation -/

namespace Reading

variable (self : Evaluator) {seen : List Token} {kind : Kind} {v : Value} {s : Session}

/-- A token that is no comment is read where it stands. -/
private theorem next?_front {token : Token} (hplain : token.kind.isPlain = true)
    (seen rest : List Token) :
    Cursor.next? ⟨seen, token :: rest⟩ = some (token, ⟨token :: seen, rest⟩) :=
  Cursor.next?_of_front rfl (by simp [Cursor.atComment, Cursor.front, hplain])

/-- The last token, if it is no operator, is an operand. -/
private theorem unary_of_last {token : Token} (hplain : token.kind.isPlain = true)
    (hop : UnaryOp.ofKind? token.kind = none) (seen : List Token) :
    unary self ⟨seen, [token]⟩ = primaryAt self token.span token.kind ⟨token :: seen, []⟩ := by
  have hnext := next?_front hplain seen []
  have hreads : Reads ⟨seen, [token]⟩ [token.kind] ⟨token :: seen, []⟩ := .one hnext
  have hhere : Cursor.here ⟨seen, [token]⟩ = token.span := by
    unfold Cursor.here
    rw [Cursor.peek_eq, hnext]
    rfl
  rw [unary_of_plain self (by rw [Cursor.ahead_of_reads hreads]; exact hop),
    primary_of_reads self hreads, hhere]

/-- The opposite of the last token, if that is no operator, is one as well. -/
private theorem unary_of_minus (fuel : Nat) {sign token : Token}
    (hsign : sign.kind = .symbol .minus) (hplain : token.kind.isPlain = true)
    (hop : UnaryOp.ofKind? token.kind = none) :
    ∃ place, unary (Phrase.run (fuel + 1)) ⟨[], [sign, token]⟩ =
      (do
        let operand ← primaryAt (Phrase.run fuel) token.span token.kind
        computed place (UnaryOp.neg.apply operand) : Reading Value) ⟨[token, sign], []⟩ := by
  have hreads : Reads ⟨[], [sign, token]⟩ [.symbol UnaryOp.neg.mark] ⟨[sign], [token]⟩ := by
    have hone := Reads.one (next?_front (by rw [hsign]; rfl) [] [token])
    rwa [hsign] at hone
  obtain ⟨place, hunary⟩ := unary_of_reads (Phrase.run (fuel + 1)) hreads
  refine ⟨place, hunary.trans ?_⟩
  -- the operand is a phrase of its own, for which there is one unit of fuel
  show (Phrase.run (fuel + 1) .unary ⟨[sign], [token]⟩ >>= _ : Eval _) = _
  rw [Phrase.run_succ]
  show (unary (Phrase.run fuel) ⟨[sign], [token]⟩ >>= _ : Eval _) = _
  rw [unary_of_last _ hplain hop]
  rfl

end Reading

namespace Phrase

variable {s : Session} {v : Value} {seen : List Token}

/-- An operand at the end of the tokens is an expression. -/
private theorem run_of_unary {fuel : Nat} {c : Cursor}
    (h : Reading.unary (run fuel) c s = .ok (v, ⟨seen, []⟩) s) :
    run (fuel + 1) .expression c s = .ok (v, ⟨seen, []⟩) s :=
  Reading.logical_of_ok _ h fun _ => rfl

/-- A token that stands for a value evaluates to it. -/
theorem run_of_value (fuel : Nat) {token : Token} (hplain : token.kind.isPlain = true)
    (hop : UnaryOp.ofKind? token.kind = none)
    (hvalue : Reading.primaryAt (run fuel) token.span token.kind = pure v) :
    run (fuel + 1) .expression (.start [token]) s = .ok (v, ⟨[token], []⟩) s := by
  refine run_of_unary ?_
  rw [Cursor.start, Reading.unary_of_last _ hplain hop, hvalue]
  rfl

/-- A minus sign and a number evaluate to the opposite number. -/
theorem run_of_opposite (fuel : Nat) {k n : Number} (hneg : k.toInt = -n.toInt) {sign token : Token}
    (hsign : sign.kind = .symbol .minus) (htoken : token.kind = .number k) :
    run (fuel + 2) .expression (.start [sign, token]) s =
      .ok (.number n, ⟨[token, sign], []⟩) s := by
  refine run_of_unary ?_
  obtain ⟨place, hunary⟩ := Reading.unary_of_minus fuel hsign (by rw [htoken]; rfl)
    (by rw [htoken]; rfl)
  -- the opposite of the opposite fits, being the number itself
  have happly : UnaryOp.neg.apply (.number k) = .ok (.number n) := by
    show BinaryOp.checked _ (Number.neg? k) = _
    rw [Number.neg?, hneg, Int.neg_neg, Number.ofInt?_toInt]
    rfl
  rw [Cursor.start, hunary, htoken]
  show Reading.computed place (UnaryOp.neg.apply (.number k)) _ s = _
  rw [happly]
  rfl

/-- A minus sign and a number that does not fit are a fault. -/
theorem run_of_oversized (fuel : Nat) {text : String} {sign token : Token}
    (hsign : sign.kind = .symbol .minus) (htoken : token.kind = .unknown text) :
    run (fuel + 2) .expression (.start [sign, token]) s =
      .error (.fault { cause := .unknownToken text, span := some token.span }) s := by
  refine Reading.logical_of_error _ ?_
  obtain ⟨place, hunary⟩ := Reading.unary_of_minus fuel hsign (by rw [htoken]; rfl)
    (by rw [htoken]; rfl)
  rw [Cursor.start, hunary, htoken]
  rfl

/-- The text of a number evaluates to the number. -/
theorem run_of_text (fuel : Nat) {n : Number} (hmin : n ≠ Int64.minValue) :
    run (fuel + 2) .expression (.start (tokenize n.text)) s =
      .ok (.number n, ⟨(tokenize n.text).reverse, []⟩) s := by
  rw [Number.text_eq]
  split
  · rename_i hsign
    -- without a sign it is a literal
    have hkind : (numberToken n.toInt.toNat 0).kind = .number n := by
      rw [numberToken_kind, numberKind_of_toInt (Int.toNat_of_nonneg hsign).symm]
    rw [tokenize_repr]
    refine run_of_value (fuel + 1) (by rw [hkind]; rfl) (by rw [hkind]; rfl) ?_
    rw [hkind]
    rfl
  · rename_i hsign
    -- with one it is the opposite of a literal, which is there because this is not the least number
    have hfits : Number.Fits (-n.toInt) := by
      have hn := Number.fits_toInt n
      have hne : n.toInt ≠ -0x8000000000000000 := by
        rw [ne_eq, Number.toInt_eq_iff Number.toInt_minValue]
        exact hmin
      unfold Number.Fits at hn ⊢
      omega
    obtain ⟨k, hk, -⟩ := Number.exists_ofInt? hfits
    have hkind : (numberToken (-n.toInt).toNat 1).kind = .number k := by
      rw [numberToken_kind, numberKind_of_toInt (by omega : k.toInt = (-n.toInt).toNat)]
    rw [tokenize_minus_repr]
    exact run_of_opposite fuel hk rfl hkind

/-- Literals evaluate to what they stand for, in every session and without changing it. The decimal
text of a number evaluates to the number, all of it, except for the least number, whose digits alone
do not fit. A text without quotes and line ends is read as one token if quotes are put around it,
and that evaluates to the text. -/
theorem literals_evaluate (s : Session) (fuel : Nat) :
    (∀ n : Number, n ≠ Int64.minValue →
      let tokens := tokenize (Value.number n).display
      run (fuel + 2) .expression (.start tokens) s = .ok (.number n, ⟨tokens.reverse, []⟩) s) ∧
    run (fuel + 2) .expression (.start (tokenize (Value.number Int64.minValue).display)) s =
      .error (.fault
        { cause := .unknownToken "9223372036854775808", span := some ⟨1, 20⟩ }) s ∧
    (Cause.unknownToken "9223372036854775808").category = "UnknownTokenError" ∧
    ∀ text : String, '"' ∉ text.toList → '\n' ∉ text.toList →
      let token : Token := ⟨.str text, .between 0 (text.utf8ByteSize + 2)⟩
      tokenize ("\"" ++ text ++ "\"") = [token] ∧
        run (fuel + 2) .expression (.start [token]) s = .ok (.text text, ⟨[token], []⟩) s := by
  refine ⟨fun n hmin => run_of_text fuel hmin, ?_, rfl, fun text hquote hline => ?_⟩
  · have htext : (Value.number Int64.minValue).display = "-" ++ Nat.repr 0x8000000000000000 :=
      Number.text_eq _
    rw [htext, tokenize_minus_repr, numberToken_of_min]
    exact run_of_oversized fuel rfl rfl
  · exact ⟨tokenize_quoted hquote hline, run_of_value (fuel + 1) rfl rfl rfl⟩

/-- The number next to the least one, and a text that looks like a comment. -/
theorem literals_evaluate_comment :
    let s := ({} : Session)
    let tokens := tokenize (Value.number (Int64.minValue + 1)).display
    let token : Token := ⟨.str "// \\ é\r/*", ⟨0, 12⟩⟩
    run 2 .expression (.start tokens) s =
        .ok (.number (Int64.minValue + 1), ⟨tokens.reverse, []⟩) s ∧
      tokenize "\"// \\ é\r/*\"" = [token] ∧
      run 2 .expression (.start [token]) s = .ok (.text "// \\ é\r/*", ⟨[token], []⟩) s := by
  intro s tokens token
  obtain ⟨hnumber, -, -, htext⟩ := literals_evaluate s 0
  exact ⟨hnumber _ (by decide), htext "// \\ é\r/*" (by decide) (by decide)⟩

end Phrase

end Tern
