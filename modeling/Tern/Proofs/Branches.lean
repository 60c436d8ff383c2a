import Tern.Proofs.Matching
import Tern.Proofs.Persistence
import Tern.Proofs.Placement

/-!
# Arms that are not taken

Of the arms of a conditional at most one is executed, and nothing but the conditions in front of
it has to be an expression. An arm behind it is stepped over, condition and all, and so is a block
in front of it: whatever stands there, if only its braces are balanced and its comments end. So a
conditional does what its conditions do one after the other, and then what the block does, and it
does the same with anything else in the places that are stepped over.

Conditions and blocks are taken by themselves here. That a condition is evaluated in front of a
brace as it is by itself needs two facts: what is behind a cursor plays no part, and the brace
does not carry an expression on.

## Key results

- `Phrase.run_of_rest`: what is behind a cursor plays no part
- `Phrase.expression_in_front`: a condition in front of its block
- `Scan.skipArms_of_arms`: arms are stepped over, whatever stands in them
- `Phrase.arms_of_takes`: arms in terms of their conditions and the block that is taken
- `Takes.of_alike`: the same arm is taken if the conditions look the same up to there
- `Reading.conditional_inert`: so what is not taken does not matter
-/

namespace Tern

open Cursor (Reads)

/-! ### What is behind a cursor -/

namespace Cursor

private theorem rest_settleFrom (inside : Bool) (seen seen' rest : List Token) :
    (settleFrom inside seen rest).rest = (settleFrom inside seen' rest).rest := by
  -- what was seen is only carried along, so it has no part in where the comments end
  induction rest generalizing inside seen seen' with
  | nil => cases inside <;> rfl
  | cons token rest ih =>
    cases inside with
    | true => exact ih ..
    | false =>
      simp only [settleFrom]
      split
      · exact ih ..
      · exact ih ..
      · rfl

variable {c d : Cursor} (h : c.rest = d.rest)

include h

/-- What is ahead behind the comments does not depend on what is behind the cursor. -/
private theorem rest_settle : c.settle.rest = d.settle.rest := by
  unfold settle
  rw [h]
  exact rest_settleFrom ..

/-- Nor does the next token. -/
private theorem next?_of_rest :
    (c.next? = none ∧ d.next? = none) ∨
      ∃ token c' d', c.next? = some (token, c') ∧ d.next? = some (token, d') ∧
        c'.rest = d'.rest := by
  have hsettle := rest_settle h
  unfold next?
  generalize c.settle = c, d.settle = d at hsettle
  obtain ⟨seen, rest⟩ := c
  obtain ⟨seen', rest'⟩ := d
  obtain rfl : rest = rest' := hsettle
  cases rest with
  | nil => exact .inl ⟨rfl, rfl⟩
  | cons token rest => exact .inr ⟨token, _, _, rfl, rfl, rfl⟩

omit h in
/-- Nor do the tokens between two cursors. -/
private theorem passed_of_rest {c' d' : Cursor} {ks ls : List Kind} (h : c.rest = d.rest)
    (h' : c'.rest = d'.rest) (hc : Reads c ks c') (hd : Reads d ls d') :
    c'.passedSince c.position = d'.passedSince d.position := by
  rw [hc.rest_eq, hd.rest_eq, h'] at h
  exact List.append_cancel_right h

end Cursor

/-- The comparison of cursors with the same tokens ahead, whatever is behind them, where the first
evaluation may run out of fuel. -/
def Alignment.ahead : Alignment where
  toTolerance := .exact False True False
  Aligned c d := c.rest = d.rest
  next h := by
    -- the tokens ahead are the same, so the next one is, with its place
    obtain hnone | ⟨token, c', d', hc, hd, hrest⟩ := Cursor.next?_of_rest h
    · exact .inl hnone
    · exact .inr ⟨token, token, c', d', hc, hd, rfl, fun _ => rfl, hrest⟩
  -- places are not compared, since what was seen may differ
  here _ := False.elim
  behind _ := False.elim
  start h := h
  passed h h' hc hd := congrArg List.dropLast (Cursor.passed_of_rest h h' hc hd)
  quoted h h' hc hd := congrArg normalize (Cursor.passed_of_rest h h' hc hd)
  maxCallDepth h := Alignment.exact.maxCallDepth h
  print text h := Alignment.exact.print text h
  pace henv h := Alignment.exact.pace henv h

theorem Alignment.ahead_literal : Alignment.ahead.Literal where
  front {c d} h := by
    -- comments are found among the tokens ahead, where both are the same
    have hfront : c.front = d.front := congrArg List.head? h
    rw [hfront]
    cases d.front with
    | none => exact .none
    | some token => exact .some ⟨rfl, fun _ => rfl⟩
  comments {c d} h := by
    have hunclosed : c.unclosed? = d.unclosed? := congrArg (Cursor.unclosedFrom none) h
    cases hd : d.unclosed? with
    | none =>
      rw [Scan.comments_of_closed (hunclosed.trans hd), Scan.comments_of_closed hd]
      exact .ok trivial (Cursor.rest_settle h)
    | some mark =>
      rw [Scan.comments_of_unclosed (hunclosed.trans hd), Scan.comments_of_unclosed hd]
      exact .fault (.of_cause False.elim)

namespace Phrase

/-- What is behind a cursor plays no part where an evaluation succeeds. -/
theorem run_of_rest {fuel : Nat} {phrase : Phrase α} {c c' d : Cursor} {s s' : Session} {a : α}
    (hrun : run fuel phrase c s = .ok (a, c') s') (h : c.rest = d.rest) :
    ∃ d', run fuel phrase d s = .ok (a, d') s' ∧ c'.rest = d'.rest := by
  have halike := alike_of_literal Alignment.ahead_literal trivial (Nat.le_refl fuel)
  have hends := halike.agree phrase h s s (Tolerance.exact_sessions.mpr rfl)
  rw [hrun] at hends
  -- both run to their end, with equal values, in equal sessions
  generalize hresult : run fuel phrase d s = result at hends
  cases hends with
  | @ok _ q _ t hpq hst =>
    obtain ⟨b, d'⟩ := q
    obtain rfl : a = b := Tolerance.exact_same hpq.1
    obtain rfl : s' = t := Tolerance.exact_sessions.mp hst
    exact ⟨d', rfl, hpq.2⟩
  | second hT => exact hT.elim

/-- A brace carries no expression on. -/
private theorem startAnew_brace {opening : Token} (hopening : opening.kind = .symbol .leftBrace)
    (more : List Token) : Token.StartAnew (opening :: more) := by
  intro token htoken hcarries
  obtain rfl : opening = token := Option.some.inj htoken
  rw [hopening] at hcarries
  rcases hcarries with hcomment | ⟨op, hop⟩ | hacts | helse
  · cases hcomment
  · cases op <;> cases hop
  · cases hacts
  · cases helse

/-- A condition that is an expression by itself is evaluated in the same way in front of its
block, and then the brace is next. -/
theorem expression_in_front {fuel fuel' : Nat} (hle : fuel ≤ fuel') {condition more : List Token}
    {opening : Token} {c c₁ : Cursor} {s s' : Session} {value : Value}
    (hclosed : (Cursor.start condition).Closed) (hopening : opening.kind = .symbol .leftBrace)
    (hrun : run fuel .expression (.start condition) s = .ok (value, c₁) s')
    (hend : c₁.ahead = none) (hrest : c.rest = condition ++ opening :: more) :
    ∃ c₂, run fuel' .expression c s = .ok (value, c₂) s' ∧
      Reads c₂ [.symbol .leftBrace] ⟨opening :: (condition.reverse ++ c.seen), more⟩ := by
  -- more fuel, then more tokens behind the condition, and then those behind the cursor
  have hmore := run_of_le hle .expression (.start condition) s (by simp [hrun])
  rw [hrun] at hmore
  obtain ⟨hextended, hclosed₁⟩ := (persistent (startAnew_brace hopening more) fuel').expression
    hclosed s value c₁ s' hmore
  obtain ⟨c₂, hrun₂, hrest₂⟩ := run_of_rest hextended (d := c) hrest.symm
  refine ⟨c₂, hrun₂, ?_⟩
  -- nothing but comments that end is left of the condition
  have hbare : Token.bare c₁.rest = [] := by
    have hnext : c₁.next? = none := by simpa [Cursor.ahead] using hend
    rw [Cursor.bare_rest, hnext, hclosed₁.unclosed?]
    rfl
  -- so the brace is next, behind these comments
  have hreads : Reads c₂ ([] ++ [opening.kind]) ⟨opening :: (c₁.rest.reverse ++ c₂.seen), more⟩ :=
    Cursor.reads_through hrest₂.symm hbare (by simp) (by rw [hopening]; rfl)
  obtain ⟨t, ht⟩ := (sound fuel').expression c s value c₂ s' hrun₂
  obtain ⟨passed, hpassed, hseen, -⟩ := ht.reads.split
  -- what was read in front is the condition up to there
  have hcondition : condition = passed ++ c₁.rest := by
    rw [hrest, ← hrest₂] at hpassed
    refine List.append_cancel_right (hpassed.trans ?_)
    simp [Cursor.extend]
  rw [hopening, hseen] at hreads
  simpa [hcondition] using hreads

end Phrase

/-! ### Arms -/

/-- The tokens of one arm of a conditional, in order. -/
structure Arm where
  /-- What is in front of the last word that the arm begins with: comments, or `else`. -/
  lead : List Token
  /-- The last word that the arm begins with: `if`, or `else` without a condition behind it. -/
  word : Token
  condition : List Token
  opening : Token
  body : List Token
  closing : Token
  opens : opening.kind = .symbol .leftBrace
  closes : closing.kind = .symbol .rightBrace
  /-- Every comment in the condition ends. -/
  closed : ∀ before mark after, condition = before ++ mark :: after →
    mark.kind = .symbol .commentOpen → ∃ token ∈ after, token.kind = .symbol .commentClose
  /-- No brace opens in the condition outside comments. -/
  unbraced : ∀ token ∈ Token.kept condition, token.kind ≠ .symbol .leftBrace
  nested : Token.WellBracketed body

namespace Arm

variable (arm : Arm) {c : Cursor} {more : List Token}

/-- The tokens from the condition on. -/
def rest : List Token := arm.condition ++ arm.opening :: (arm.body ++ [arm.closing])

/-- All tokens of the arm. -/
def tokens : List Token := arm.lead ++ arm.word :: arm.rest

/-- The arm begins with these words, comments aside. -/
def Begins (front : List Keyword) (word : Keyword) : Prop :=
  Token.bare arm.lead = (front.map Kind.keyword).map Kind.bare ∧ arm.word.kind = .keyword word

/-- The cursor behind the opening brace, if `c` was in front of the condition. -/
def inside (c : Cursor) (more : List Token) : Cursor :=
  ⟨arm.opening :: (arm.condition.reverse ++ c.seen), arm.body ++ arm.closing :: more⟩

variable {arm}

/-- The words that an arm begins with are read. -/
theorem Begins.reads {front : List Keyword} {word : Keyword} (h : arm.Begins front word)
    (hrest : c.rest = arm.tokens ++ more) :
    Reads c (front.map Kind.keyword ++ [.keyword word])
      ⟨arm.word :: (arm.lead.reverse ++ c.seen), arm.rest ++ more⟩ := by
  have hplain : ∀ kind ∈ front.map Kind.keyword, kind.isPlain = true := by
    intro kind hkind
    obtain ⟨keyword, -, rfl⟩ := List.mem_map.mp hkind
    rfl
  rw [tokens, List.append_assoc] at hrest
  have hreads := Cursor.reads_through hrest h.1 hplain (by rw [h.2]; rfl)
  rwa [h.2] at hreads

variable (arm)

/-- Up to its brace a condition is read, whatever it is. -/
theorem reads_condition (hrest : c.rest = arm.rest ++ more) :
    ∃ kinds, Token.bare arm.condition = kinds.map Kind.bare ∧
      Reads c (kinds ++ [.symbol .leftBrace]) (arm.inside c more) ∧ .symbol .leftBrace ∉ kinds := by
  have hclosed := Token.open_notMem_bare_iff.mpr arm.closed
  obtain ⟨kinds, hbare, hplain⟩ := Token.exists_kinds_of_closed hclosed
  have hrest : c.rest = arm.condition ++ arm.opening :: (arm.body ++ arm.closing :: more) := by
    rw [hrest, rest]
    simp
  -- the condition is read as these kinds, and the brace behind it
  have hreads := Cursor.reads_through hrest hbare hplain (by rw [arm.opens]; rfl)
  rw [arm.opens] at hreads
  refine ⟨kinds, hbare, hreads, fun hmem => ?_⟩
  -- a brace among them would be a brace of the condition
  have hkept : .symbol .leftBrace ∈ (Token.kept arm.condition).map (·.kind) := by
    rw [Token.kinds_kept, hbare]
    simpa [Kind.isComment, Kind.bare] using hmem
  obtain ⟨token, htoken, hkind⟩ := List.mem_map.mp hkept
  exact arm.unbraced token htoken hkind

/-- Behind its brace a block is cut out, and the arm ends. -/
theorem block_inside (c : Cursor) (more : List Token) :
    Scan.block (arm.inside c more) = .ok arm.body ⟨arm.rest.reverse ++ c.seen, more⟩ := by
  rw [Scan.block_of_wellBracketed rfl arm.nested arm.closes]
  simp [inside, rest]

/-- The arm whose tokens are of these kinds. -/
def ofKinds (lead : List Kind) (word : Keyword) (condition body : List Kind)
    (hclosed : Kind.bare (.symbol .commentOpen) ∉ Token.bare (condition.map Kind.bare))
    (hunbraced : ∀ token ∈ Token.kept (condition.map Kind.bare), token.kind ≠ .symbol .leftBrace)
    (hnested : Token.Closing 0 (body.map Kind.bare)) : Arm where
  lead := lead.map Kind.bare
  word := Kind.bare (.keyword word)
  condition := condition.map Kind.bare
  opening := Kind.bare (.symbol .leftBrace)
  body := body.map Kind.bare
  closing := Kind.bare (.symbol .rightBrace)
  opens := rfl
  closes := rfl
  closed := Token.open_notMem_bare_iff.mp hclosed
  unbraced := hunbraced
  nested := Token.wellBracketed_iff.mpr hnested

/-- Arms in a row, the last of which may have no condition. -/
def row (others : List Arm) (last? : Option Arm) : List Token :=
  (others ++ last?.toList).flatMap tokens

/-- Arms that continue a conditional: all begin with `else if`, except that the last may begin with
`else` and have nothing but comments in front of its block. -/
structure Continue (others : List Arm) (last? : Option Arm) : Prop where
  others : ∀ arm ∈ others, arm.Begins [.elseKw] .ifKw
  last : ∀ arm ∈ last?, arm.Begins [] .elseKw ∧ Token.bare arm.condition = []

theorem Continue.tail {next : Arm} {others : List Arm} {last? : Option Arm}
    (h : Continue (next :: others) last?) : Continue others last? :=
  ⟨fun arm harm => h.others arm (List.mem_cons_of_mem _ harm), h.last⟩

end Arm

/-- What is next does not depend on what is behind a cursor. -/
private theorem Cursor.ahead_start (c : Cursor) : (start c.rest).ahead = c.ahead := by
  unfold ahead
  obtain ⟨hstart, hc⟩ | ⟨token, _, _, hstart, hc, -⟩ :=
    next?_of_rest (c := start c.rest) (d := c) rfl
  · rw [hstart, hc]
  · rw [hstart, hc]
    rfl

namespace Scan

variable {c : Cursor} {tail : List Token}

/-- An `else` without a condition, and its block. -/
private theorem last_of_begins {arm : Arm} (hbegins : arm.Begins [] .elseKw)
    (hbare : Token.bare arm.condition = []) (hrest : c.rest = arm.tokens ++ tail) :
    ∃ c₁, Reads c [.keyword .elseKw] c₁ ∧ Reads c₁ [.symbol .leftBrace] (arm.inside c₁ tail) ∧
      block (arm.inside c₁ tail) = .ok arm.body ⟨arm.tokens.reverse ++ c.seen, tail⟩ := by
  refine ⟨_, hbegins.reads hrest, ?_, ?_⟩
  · obtain ⟨kinds, hkinds, hreads, -⟩ := arm.reads_condition
      (c := ⟨arm.word :: (arm.lead.reverse ++ c.seen), arm.rest ++ tail⟩) rfl
    obtain rfl : kinds = [] := List.map_eq_nil_iff.mp (hkinds.symm.trans hbare)
    exact hreads
  · rw [arm.block_inside]
    simp [Arm.tokens]

/-- Arms are stepped over, whatever stands in them. -/
theorem skipArms_of_arms (htail : (Cursor.start tail).ahead ≠ some (.keyword .elseKw))
    {others : List Arm} {last? : Option Arm} (h : Arm.Continue others last?)
    (hrest : c.rest = Arm.row others last? ++ tail) :
    skipArms c = .ok () ⟨(Arm.row others last?).reverse ++ c.seen, tail⟩ := by
  -- along the arms; behind the last one there may be an `else`
  induction others generalizing c with
  | nil =>
    cases last? with
    | none =>
      obtain ⟨seen, rest⟩ := c
      obtain rfl : rest = tail := hrest
      exact skipMoreArms_of_ne (Cursor.ahead_start ⟨seen, rest⟩ ▸ htail) _
    -- only an `else` without a condition is left, with its block
    | some arm =>
      obtain ⟨hbegins, hbare⟩ := h.last arm rfl
      rw [show Arm.row [] (some arm) = arm.tokens by simp [Arm.row]] at hrest ⊢
      obtain ⟨c₁, helse, hbrace, hblock⟩ := last_of_begins hbegins hbare hrest
      exact skipArms_of_else helse hbrace (skipBlock_of_block hblock)
  | cons arm others ih =>
    rw [show Arm.row (arm :: others) last? = arm.tokens ++ Arm.row others last? by simp [Arm.row]]
      at hrest ⊢
    rw [List.append_assoc] at hrest
    -- the words of the arm are `else if`
    obtain ⟨c₁, helse, hif⟩ := ((h.others arm List.mem_cons_self).reads hrest).uncons
    refine skipArms_of_elseIf helse hif ?_
    obtain ⟨kinds, -, hreads, hnone⟩ := arm.reads_condition
      (c := ⟨arm.word :: (arm.lead.reverse ++ c.seen), arm.rest ++ _⟩) rfl
    -- behind `else if` stand a condition, a block, and the arms of the induction hypothesis
    unfold allArms
    rw [bind_of_ok (untilBrace_of_reads hreads hnone _),
      bind_of_ok (skipBlock_of_block (arm.block_inside _ _)), ih h.tail rfl]
    simp [Arm.tokens]

end Scan

/-! ### Conditions in turn -/

/-- The conditions are evaluated one after the other, each by itself and to its end, up to the first
that holds. The number is how many do not hold; it is that of the arm that is taken, or of the one
behind all conditions. -/
inductive Takes (fuel : Nat) : (conditions : List (List Token)) → Session → (taken : Nat) →
    Session → Prop
  | behind {s : Session} : Takes fuel [] s 0 s
  | here {condition : List Token} {others : List (List Token)} {s s' : Session} {value : Value}
      {c : Cursor} : Phrase.run fuel .expression (.start condition) s = .ok (value, c) s' →
      c.ahead = none → value.isTruthy = true → Takes fuel (condition :: others) s 0 s'
  | later {condition : List Token} {others : List (List Token)} {s s₁ s' : Session} {value : Value}
      {c : Cursor} {taken : Nat} :
      Phrase.run fuel .expression (.start condition) s = .ok (value, c) s₁ → c.ahead = none →
      value.isTruthy = false → Takes fuel others s₁ taken s' →
      Takes fuel (condition :: others) s (taken + 1) s'

/-- Executes one of the blocks, or nothing if there is no such block. -/
def Eval.oneOf (self : Evaluator) (blocks : List (List Token)) (taken : Nat) :
    Eval (Option Value) :=
  match blocks[taken]? with
  | some body => block self body
  | none => return none

/-- What follows the block of an arm whose condition does not hold. -/
private def Reading.otherwise (self : Evaluator) : Reading (Option Value) := do
  if ← accept (.keyword .elseKw) then
    if ← accept (.keyword .ifKw) then
      self .arms
    else
      expect (.symbol .leftBrace) "`\x7b` after else"
      let body ← scan Scan.block
      Eval.block self body
  else
    return none

namespace Reading

variable {self : Evaluator} {c : Cursor} {tail : List Token}

/-- Nothing follows it. -/
private theorem otherwise_of_ne (htail : (Cursor.start c.rest).ahead ≠ some (.keyword .elseKw)) :
    otherwise self c = pure (none, c) := by
  rw [Cursor.ahead_start] at htail
  unfold otherwise
  rw [bind_of_pure (accept_of_ne htail)]
  rfl

/-- An arm without a condition follows it. -/
private theorem otherwise_of_last {arm : Arm} (hbegins : arm.Begins [] .elseKw)
    (hbare : Token.bare arm.condition = []) (hrest : c.rest = arm.tokens ++ tail) :
    otherwise self c =
      (fun returned => (returned, ⟨arm.tokens.reverse ++ c.seen, tail⟩)) <$>
        Eval.block self arm.body := by
  -- `else` is not followed by `if`, but by a block
  obtain ⟨c₁, helse, hbrace, hblock⟩ := Scan.last_of_begins hbegins hbare hrest
  have hne : c₁.ahead ≠ some (.keyword .ifKw) := by
    rw [Cursor.ahead_of_reads hbrace]
    simp
  unfold otherwise
  rw [bind_of_pure (accept_of_reads helse)]
  simp only [if_true]
  rw [bind_of_pure (accept_of_ne hne)]
  simp only [Bool.false_eq_true, if_false]
  rw [bind_of_pure (expect_of_reads hbrace _), bind_of_pure (scan_of_ok hblock)]
  rw [map_eq_pure_bind]
  rfl

/-- An arm with a condition follows it. -/
private theorem otherwise_of_arm {arm : Arm} (hbegins : arm.Begins [.elseKw] .ifKw)
    (hrest : c.rest = arm.tokens ++ tail) :
    otherwise self c =
      self .arms ⟨arm.word :: (arm.lead.reverse ++ c.seen), arm.rest ++ tail⟩ := by
  obtain ⟨c₁, helse, hif⟩ := (hbegins.reads hrest).uncons
  unfold otherwise
  rw [bind_of_pure (accept_of_reads helse)]
  simp only [if_true]
  rw [bind_of_pure (accept_of_reads hif)]
  simp only [if_true]

end Reading

namespace Phrase

section

variable {fuel fuel' : Nat} (hle : fuel ≤ fuel') {arm : Arm} {c c₁ : Cursor} {more : List Token}
  {s s' : Session} {value : Value}
  (hrun : run fuel .expression (.start arm.condition) s = .ok (value, c₁) s')
  (hend : c₁.ahead = none) (hrest : c.rest = arm.rest ++ more)

include hle hrun hend hrest

/-- The condition of an arm is evaluated, and its brace is next. -/
private theorem condition_of_arm :
    ∃ c₂, run fuel' .expression c s = .ok (value, c₂) s' ∧
      Reads c₂ [.symbol .leftBrace] (arm.inside c more) := by
  have hcondition : c.rest = arm.condition ++ arm.opening :: (arm.body ++ arm.closing :: more) := by
    rw [hrest, Arm.rest]
    simp
  exact expression_in_front hle (Token.open_notMem_bare_iff.mpr arm.closed) arm.opens hrun hend
    hcondition

/-- An arm whose condition holds: its block is executed, and the others are stepped over. -/
private theorem arms_of_holds (hholds : value.isTruthy = true) {others : List Arm}
    {last? : Option Arm} (h : Arm.Continue others last?) {tail : List Token}
    (htail : (Cursor.start tail).ahead ≠ some (.keyword .elseKw))
    (hmore : more = Arm.row others last? ++ tail) :
    ∃ place : Option Value → Cursor,
      place none = ⟨(arm.rest ++ Arm.row others last?).reverse ++ c.seen, tail⟩ ∧
      run (fuel' + 1) .arms c s =
        ((fun returned => (returned, place returned)) <$> Eval.block (run fuel') arm.body) s' := by
  -- the condition is read first, then the brace, and the block is taken whole
  obtain ⟨c₂, hrun, hbrace⟩ := condition_of_arm hle hrun hend hrest
  have hskip := Scan.skipArms_of_arms htail h (c := ⟨arm.rest.reverse ++ c.seen, more⟩) hmore
  rw [← List.append_assoc, ← List.reverse_append] at hskip
  -- a `return` leaves the cursor behind the block, in front of the other arms
  refine ⟨fun
    | none => _
    | some _ => ⟨arm.rest.reverse ++ c.seen, more⟩, rfl, ?_⟩
  rw [run_succ, rule, Reading.arms]
  rw [Reading.bind_of_eq_ok hrun, Reading.bind_of_pure (Reading.expect_of_reads hbrace _)]
  simp only [hholds, if_true]
  rw [Reading.bind_of_pure (Reading.scan_of_ok (arm.block_inside c more))]
  rw [map_eq_pure_bind]
  -- the block ends in a fault, with a `return`, or at its end
  cases hblock : Eval.block (run fuel') arm.body s' with
  | error halt s'' =>
    rw [Reading.bind_of_eq_error (bind_of_error hblock), bind_of_error hblock]
  | ok returned s'' =>
    rw [Reading.bind_of_eq_ok (bind_of_ok hblock), bind_of_ok hblock]
    cases returned with
    | some value => rfl
    -- only behind a block that comes to its end the other arms are skipped
    | none =>
      show (Reading.scan Scan.skipArms >>= _) _ s'' = _
      rw [Reading.bind_of_pure (Reading.scan_of_ok hskip)]
      rfl

/-- An arm whose condition does not hold: its block is stepped over. -/
private theorem arms_of_fails (hfails : value.isTruthy = false) :
    run (fuel' + 1) .arms c s =
      Reading.otherwise (run fuel') ⟨arm.rest.reverse ++ c.seen, more⟩ s' := by
  obtain ⟨c₂, hrun, hbrace⟩ := condition_of_arm hle hrun hend hrest
  have hskip := Scan.skipBlock_of_block (arm.block_inside c more)
  rw [run_succ, rule, Reading.arms]
  rw [Reading.bind_of_eq_ok hrun, Reading.bind_of_pure (Reading.expect_of_reads hbrace _)]
  simp only [hfails, Bool.false_eq_true, if_false]
  rw [Reading.bind_of_pure (Reading.scan_of_ok hskip)]
  rfl

end

/-- Arms behind an `if`, in terms of their conditions and the block that is taken. Each arm in
front of that takes one unit of fuel. -/
theorem arms_of_takes {fuel fuel' : Nat} (hle : fuel ≤ fuel') {tail : List Token}
    (htail : (Cursor.start tail).ahead ≠ some (.keyword .elseKw)) {arm : Arm} {others : List Arm}
    {last? : Option Arm} (h : Arm.Continue others last?) {s s' : Session} {taken : Nat}
    (htakes : Takes fuel ((arm :: others).map (·.condition)) s taken s') {c : Cursor}
    (hrest : c.rest = arm.rest ++ (Arm.row others last? ++ tail)) :
    ∃ place : Option Value → Cursor,
      place none = ⟨(arm.rest ++ Arm.row others last?).reverse ++ c.seen, tail⟩ ∧
      run (fuel' + others.length + 1) .arms c s =
        ((fun returned => (returned, place returned)) <$>
          Eval.oneOf (run (fuel' + (others.length - taken)))
            ((arm :: others ++ last?.toList).map (·.body)) taken) s' := by
  have hmore {n : Nat} : fuel ≤ fuel' + n := Nat.le_trans hle (Nat.le_add_right ..)
  -- along the arms, each of which may be the one that is taken
  induction others generalizing arm s taken c with
  | nil =>
    cases htakes with
    | here hrun hend hholds => exact arms_of_holds hmore hrun hend hrest hholds h htail rfl
    | later hrun hend hfails hbehind =>
      -- no condition is left, so that all depends on whether there is an `else`
      cases hbehind
      rw [arms_of_fails hmore hrun hend hrest hfails]
      refine ⟨fun _ => _, rfl, ?_⟩
      cases last? with
      | none =>
        rw [Reading.otherwise_of_ne htail]
        simp [Eval.oneOf, Arm.row]
      | some last =>
        obtain ⟨hbegins, hbare⟩ := h.last last rfl
        have hlast : Arm.row [] (some last) ++ tail = last.tokens ++ tail := by simp [Arm.row]
        rw [Reading.otherwise_of_last (c := ⟨arm.rest.reverse ++ c.seen, _⟩) hbegins hbare hlast]
        simp [Eval.oneOf, Arm.row]
  | cons next others ih =>
    cases htakes with
    | here hrun hend hholds => exact arms_of_holds hmore hrun hend hrest hholds h htail rfl
    | @later _ _ _ s₁ _ _ _ taken hrun hend hfails htakes =>
      -- the next arm has one unit of fuel less, and one arm less behind it
      have hnext : Arm.row (next :: others) last? ++ tail =
          next.tokens ++ (Arm.row others last? ++ tail) := by simp [Arm.row]
      rw [arms_of_fails hmore hrun hend hrest hfails, hnext,
        Reading.otherwise_of_arm (h.others next List.mem_cons_self) rfl]
      obtain ⟨place, hplace, harms⟩ := ih h.tail htakes
        (c := ⟨next.word :: (next.lead.reverse ++ (arm.rest.reverse ++ c.seen)), _⟩) rfl
      refine ⟨place, by rw [hplace]; simp [Arm.row, Arm.tokens], ?_⟩
      rw [show others.length - taken = (next :: others).length - (taken + 1) by simp] at harms
      exact harms

end Phrase

/-! ### The same conditions in turn -/

/-- Conditions that look the same hold in the same sessions. -/
private theorem Alike.condition {A : Alignment} {e e' : Evaluator} (h : Alike A e e')
    (hA : ¬A.secondStarves) {xs ys : List Token} (hview : A.view xs = A.view ys) {s s' t : Session}
    (hst : A.Sessions s t) {v : Value} {c : Cursor}
    (hrun : e .expression (.start xs) s = .ok (v, c) s') :
    ∃ w d t', e' .expression (.start ys) t = .ok (w, d) t' ∧ v.isTruthy = w.isTruthy ∧
      c.ahead = d.ahead ∧ A.Sessions s' t' := by
  have hends := h.agree .expression (A.start hview) s t hst
  rw [hrun] at hends
  generalize hresult : e' .expression (.start ys) t = result at hends
  cases hends with
  | @ok _ q _ t' hpq hst' =>
    obtain ⟨w, d⟩ := q
    exact ⟨w, d, t', rfl, Tolerance.Values.isTruthy hpq.1, Alignment.ahead_eq hpq.2, hst'⟩
  | second hT => exact absurd hT hA

/-- If the conditions up to the one that is taken look the same, so are the arms that are taken. -/
theorem Takes.of_alike {A : Alignment} {fuel : Nat}
    (h : Alike A (Phrase.run fuel) (Phrase.run fuel)) (hA : ¬A.secondStarves)
    {conditions others : List (List Token)} {s s' t : Session} {taken : Nat}
    (htakes : Takes fuel conditions s taken s') (hst : A.Sessions s t)
    (hview : ∀ i ≤ taken, conditions[i]?.map A.view = others[i]?.map A.view) :
    ∃ t', Takes fuel others t taken t' ∧ A.Sessions s' t' := by
  -- along the conditions, with the number of those that fail
  induction htakes generalizing others t with
  | behind =>
    cases others with
    | nil => exact ⟨t, .behind, hst⟩
    | cons condition others => cases hview 0 (Nat.le_refl 0)
  | here hrun hend hholds =>
    cases others with
    | nil => cases hview 0 (Nat.le_refl 0)
    | cons condition others =>
      have hfirst := Option.some.inj (hview 0 (Nat.le_refl 0))
      obtain ⟨w, d, t', hrun', htruthy, hahead, hst'⟩ := h.condition hA hfirst hst hrun
      exact ⟨t', .here hrun' (hahead ▸ hend) (htruthy ▸ hholds), hst'⟩
  | later hrun hend hfails _ ih =>
    cases others with
    | nil => cases hview 0 (Nat.zero_le _)
    | cons condition others =>
      -- the condition may have changed variables, so the rest starts in other sessions
      have hfirst := Option.some.inj (hview 0 (Nat.zero_le _))
      obtain ⟨w, d, t₁, hrun', htruthy, hahead, hst₁⟩ := h.condition hA hfirst hst hrun
      obtain ⟨t', htakes', hst'⟩ := ih hst₁ fun i hi => hview (i + 1) (Nat.succ_le_succ hi)
      exact ⟨t', .later hrun' (hahead ▸ hend) (htruthy ▸ hfails) htakes', hst'⟩

/-- If the blocks that are taken look the same, so are the outcomes. -/
private theorem Alike.outcome {A : Alignment} {e e' : Evaluator} (h : Alike A e e')
    {blocks others : List (List Token)} {taken : Nat}
    (hview : blocks[taken]?.map A.view = others[taken]?.map A.view) :
    Eval.Agree A.toTolerance A.Outcomes (Outcome.ofReturn <$> Eval.oneOf e blocks taken)
      (Outcome.ofReturn <$> Eval.oneOf e' others taken) := by
  have honeOf : Eval.Agree A.toTolerance (Option.Rel A.Values) (Eval.oneOf e blocks taken)
      (Eval.oneOf e' others taken) := by
    unfold Eval.oneOf
    -- there is a block at this number in both or in neither
    cases hblock : blocks[taken]? <;> cases hother : others[taken]? <;>
      rw [hblock, hother] at hview
    · exact .pure .none
    · cases hview
    · cases hview
    · exact h.block (Option.some.inj hview)
  rw [map_eq_pure_bind, map_eq_pure_bind]
  exact honeOf.bind fun a b hab => .pure (outcomes_ofReturn hab)

/-! ### Conditionals -/

/-- The tokens of a conditional, arm by arm. -/
structure Conditional where
  first : Arm
  /-- The arms that begin with `else if`. -/
  others : List Arm
  /-- The arm without a condition. -/
  last? : Option Arm
  begins : first.Begins [] .ifKw
  continues : Arm.Continue others last?

namespace Conditional

variable (T D : Conditional)

/-- All tokens of the conditional. -/
def tokens : List Token := T.first.tokens ++ Arm.row T.others T.last?

def conditions : List (List Token) := (T.first :: T.others).map (·.condition)

/-- The blocks that may be taken. There is one for each condition, and one more if there is an
`else`. -/
def blocks : List (List Token) := (T.first :: T.others ++ T.last?.toList).map (·.body)

/-- Conditionals with as many conditions, which look the same up to the one that is taken, and so do
the blocks that are taken. Nothing is said about conditions behind that, and about other blocks. -/
structure Matches (view : List Token → List Token) (taken : Nat) : Prop where
  length : T.others.length = D.others.length
  conditions : ∀ i ≤ taken, T.conditions[i]?.map view = D.conditions[i]?.map view
  block : T.blocks[taken]?.map view = D.blocks[taken]?.map view

end Conditional

/-- What an evaluation gives that changes the result of another. -/
private theorem Eval.of_map_eq_ok {x : Eval α} {f : α → β} {s t : Session} {b : β}
    (h : (f <$> x) s = .ok b t) : ∃ a, f a = b := by
  simp only [Functor.map, EStateM.map] at h
  cases hx : x s with
  | ok a t' =>
    rw [hx] at h
    cases h
    exact ⟨a, rfl⟩
  | error halt t' =>
    rw [hx] at h
    cases h

namespace Reading

/-- A conditional, in terms of its conditions and the block that is taken. -/
theorem conditional_of_takes {fuel fuel' : Nat} (hle : fuel ≤ fuel') (T : Conditional) {c : Cursor}
    {tail : List Token} (hrest : c.rest = T.tokens ++ tail)
    (htail : (Cursor.start tail).ahead ≠ some (.keyword .elseKw)) {s s' : Session} {taken : Nat}
    (htakes : Takes fuel T.conditions s taken s') :
    ∃ place : Option Value → Cursor, place none = ⟨T.tokens.reverse ++ c.seen, tail⟩ ∧
      conditional (Phrase.run (fuel' + T.others.length + 1)) c s =
        ((fun returned => (.ofReturn returned, place returned)) <$>
          Eval.oneOf (Phrase.run (fuel' + (T.others.length - taken))) T.blocks taken) s' := by
  rw [Conditional.tokens, List.append_assoc] at hrest
  -- the arms begin behind the first word
  obtain ⟨place, hplace, harms⟩ := Phrase.arms_of_takes hle htail T.continues htakes
    (c := ⟨T.first.word :: (T.first.lead.reverse ++ c.seen), T.first.rest ++ _⟩) rfl
  refine ⟨place, by rw [hplace]; simp [Conditional.tokens, Arm.tokens], ?_⟩
  unfold conditional after
  rw [bind_of_pure (accept_of_reads (T.begins.reads hrest))]
  simp only [if_true]
  -- what is left is the block, with the same place behind it in either form
  rw [map_eq_pure_bind] at harms ⊢
  cases hblock : Eval.oneOf (Phrase.run (fuel' + (T.others.length - taken))) T.blocks taken s' with
  | error halt t =>
    have harms := harms.trans (bind_of_error hblock)
    rw [bind_of_error hblock, bind_of_eq_error harms]
  | ok returned t =>
    have harms := harms.trans (bind_of_ok hblock)
    rw [bind_of_ok hblock, bind_of_eq_ok harms]
    rfl

/-- The outcome of a conditional is that of the block that is taken. -/
private theorem run'_conditional {fuel fuel' : Nat} (hle : fuel ≤ fuel') (T : Conditional)
    {c : Cursor} {tail : List Token} (hrest : c.rest = T.tokens ++ tail)
    (htail : (Cursor.start tail).ahead ≠ some (.keyword .elseKw)) {s s' : Session} {taken : Nat}
    (htakes : Takes fuel T.conditions s taken s') :
    (conditional (Phrase.run (fuel' + T.others.length + 1))).run' c s =
      (Outcome.ofReturn <$>
        Eval.oneOf (Phrase.run (fuel' + (T.others.length - taken))) T.blocks taken) s' := by
  obtain ⟨place, -, hrun⟩ := conditional_of_takes hle T hrest htail htakes
  show EStateM.map Prod.fst (conditional _ c) s = EStateM.map Outcome.ofReturn _ s'
  simp only [EStateM.map, hrun]
  simp only [Functor.map, EStateM.map]
  cases Eval.oneOf (Phrase.run (fuel' + (T.others.length - taken))) T.blocks taken s' with
  | ok returned t => rfl
  | error halt t => rfl

/-- What is not taken in a conditional is inert. If the conditions are evaluated in turn up to the
first that holds, then the conditional executes the block of that arm, or of `else` if there is
none, or nothing; and where the outcome is that it is done, the cursor stands behind the last arm.
So it does the same with any other conditions behind the one that holds and any other blocks than
the one that is taken, and up to places it does so where the tokens in use stand somewhere else. -/
theorem conditional_inert {fuel fuel' : Nat} (hle : fuel ≤ fuel') (T : Conditional) {c : Cursor}
    {tail : List Token} (hrest : c.rest = T.tokens ++ tail)
    (htail : (Cursor.start tail).ahead ≠ some (.keyword .elseKw)) {s s' : Session} {taken : Nat}
    (htakes : Takes fuel T.conditions s taken s') :
    let execute := conditional (Phrase.run (fuel' + T.others.length + 1))
    execute.run' c s = (Outcome.ofReturn <$>
        Eval.oneOf (Phrase.run (fuel' + (T.others.length - taken))) T.blocks taken) s' ∧
      (∀ c' t, execute c s = .ok (.done, c') t → c' = ⟨T.tokens.reverse ++ c.seen, tail⟩) ∧
      ∀ (D : Conditional) (d : Cursor) (tail' : List Token), d.rest = D.tokens ++ tail' →
        (Cursor.start tail').ahead ≠ some (.keyword .elseKw) →
        (T.Matches D id taken → execute.run' d s = execute.run' c s) ∧
        (T.Matches D Token.placeless taken → (∀ routine ∈ s.routines, routine.Placeless) →
          Tolerance.placeless.Ends Tolerance.placeless.Outcomes (execute.run' c s)
            (execute.run' d s) ∧
          Tolerance.placeless.Ends Tolerance.placeless.Outcomes (execute.run' d s)
            (execute.run' c s)) := by
  intro execute
  refine ⟨run'_conditional hle T hrest htail htakes, ?_, ?_⟩
  -- only a block that comes to its end leaves the conditional done
  · intro c' t hdone
    obtain ⟨place, hplace, hrun⟩ := conditional_of_takes hle T hrest htail htakes
    obtain ⟨returned, hreturned⟩ := Eval.of_map_eq_ok (hrun.symm.trans hdone)
    cases returned with
    | some value => cases hreturned
    | none => rw [← (Prod.mk.inj hreturned).2, hplace]
  · intro D d tail' hrest' htail'
    -- the other conditional does what its own conditions and blocks say
    have hexecute {t' : Session} (h : Takes fuel D.conditions s taken t')
        (hlength : T.others.length = D.others.length) :
        execute.run' d s = (Outcome.ofReturn <$>
          Eval.oneOf (Phrase.run (fuel' + (T.others.length - taken))) D.blocks taken) t' := by
      show (conditional (Phrase.run (fuel' + T.others.length + 1))).run' d s = _
      rw [hlength]
      exact run'_conditional hle D hrest' htail' h
    rw [run'_conditional hle T hrest htail htakes]
    refine ⟨fun hmatches => ?_, fun hmatches hroutines => ?_⟩
    · -- the same sessions all along, and the same block at the end
      obtain ⟨t', htakes', hst'⟩ := htakes.of_alike (Phrase.alike_of_le (Nat.le_refl fuel)) id
        (Tolerance.exact_sessions.mpr rfl) hmatches.conditions
      obtain rfl : s' = t' := Tolerance.exact_sessions.mp hst'
      have hblock : T.blocks[taken]? = D.blocks[taken]? := by simpa using hmatches.block
      rw [hexecute htakes' hmatches.length, Eval.oneOf, Eval.oneOf, hblock]
    · -- compared both ways, since the first evaluation of a comparison may run out of fuel
      obtain ⟨t', htakes', hst'⟩ := htakes.of_alike (Phrase.alike_of_placeless (Nat.le_refl fuel))
        id (.refl_of_placeless hroutines) hmatches.conditions
      rw [hexecute htakes' hmatches.length]
      have hsame := Phrase.alike_of_placeless (Nat.le_refl (fuel' + (T.others.length - taken)))
      exact ⟨hsame.outcome hmatches.block _ _ hst',
        hsame.outcome hmatches.block.symm _ _ hst'.symm_of_placeless⟩

/-- A chain of which the second condition holds, with other tokens in the places that are stepped
over: names that are not defined, tokens without a meaning, braces in comments. -/
theorem conditional_inert_chain :
    let holds : Arm := .ofKinds [.keyword .elseKw] .ifKw [.number 1]
      [.ident "x", .symbol .equal, .number 2] (by decide) (by decide) ⟨by decide, by decide⟩
    let T : Conditional :=
      { first := .ofKinds [] .ifKw [.number 0] [.ident "y"] (by decide) (by decide)
          ⟨by decide, by decide⟩
        others := [holds, .ofKinds [.keyword .elseKw] .ifKw [.ident "y"] [.unknown "?"] (by decide)
          (by decide) ⟨by decide, by decide⟩]
        last? := none
        begins := ⟨rfl, rfl⟩
        continues := ⟨by rintro _ (_ | ⟨_, _ | ⟨_, ⟨⟩⟩⟩) <;> exact ⟨rfl, rfl⟩, by simp⟩ }
    let D : Conditional :=
      { first := .ofKinds [] .ifKw [.number 0]
          [.symbol .commentOpen, .symbol .rightBrace, .symbol .commentClose] (by decide) (by decide)
          ⟨by decide, by decide⟩
        others := [holds, .ofKinds [.keyword .elseKw] .ifKw [.lineComment "\x7b", .symbol .comma]
          [.symbol .leftBrace, .symbol .rightBrace] (by decide) (by decide) ⟨by decide, by decide⟩]
        last? := none
        begins := ⟨rfl, rfl⟩
        continues := ⟨by rintro _ (_ | ⟨_, _ | ⟨_, ⟨⟩⟩⟩) <;> exact ⟨rfl, rfl⟩, by simp⟩ }
    let s (x : Number) : Session := { env := { root := ⟨[("x", ⟨false, none, .number x⟩)]⟩ } }
    let execute := conditional (Phrase.run 9)
    Takes 6 T.conditions (s 0) 1 (s 0) ∧ T.Matches D id 1 ∧
      execute (.start T.tokens) (s 0) = .ok (.done, ⟨T.tokens.reverse, []⟩) (s 2) ∧
      execute.run' (.start D.tokens) (s 0) = .ok .done (s 2) := by
  intro holds T D s execute
  have htakes : Takes 6 T.conditions (s 0) 1 (s 0) :=
    .later (c := ⟨_, []⟩) rfl rfl rfl (.here (c := ⟨_, []⟩) rfl rfl rfl)
  obtain ⟨hrun, -, hinert⟩ := conditional_inert (c := .start T.tokens) (Nat.le_refl 6) T
    (List.append_nil _).symm (by decide) htakes
  have hmatches : T.Matches D id 1 :=
    ⟨rfl, fun | 0, _ => rfl | 1, _ => rfl, rfl⟩
  refine ⟨htakes, hmatches, rfl, ?_⟩
  -- the other conditional does what the first one does, which is what the block does
  calc execute.run' (.start D.tokens) (s 0)
    _ = execute.run' (.start T.tokens) (s 0) :=
      (hinert D (.start D.tokens) [] (List.append_nil _).symm (by decide)).1 hmatches
    _ = (Outcome.ofReturn <$> Eval.block (Phrase.run 7) holds.body) (s 0) := hrun
    _ = .ok .done (s 2) := rfl

end Reading

end Tern
