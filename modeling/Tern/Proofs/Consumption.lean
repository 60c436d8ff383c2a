import Tern.Proofs.Comments

/-!
# How far a statement reads

Which tokens belong to a statement is a matter of the tokens alone. Values decide which arm of a
conditional is executed and how often a loop goes round, but never where the cursor ends up. The
point to prove is about conditionals: a condition is read as an expression if it is evaluated, and
up to the next brace if it is not, and both have to end at the same place.

## Key results

- `Phrase.lands_arms`: an evaluated conditional ends where stepping over it ends
- `Construct.Spans`: the tokens of each construct, and `Construct.Spans.unique`
- `Reading.lands_dispatch`: a statement that is done has read the tokens of a construct
- `same_consumption`: two runs from one cursor end at one cursor
-/

namespace Tern

open Cursor (Reads)
open Reading (Lands)
open Tern.Tree (Parses)

namespace Scan

/-- Steps over all arms of a conditional, from a condition on. -/
def allArms : Scan Unit := do
  let _ ← untilBrace "`\x7b` after condition"
  skipBlock
  skipArms

/-- A block is stepped over by reading it. -/
theorem skipBlock_of_block {c c' : Cursor} {tokens : List Token} (h : block c = .ok tokens c') :
    skipBlock c = .ok () c' := by
  unfold skipBlock
  rw [bind_of_ok h]
  rfl

/-- The search for a brace ends behind a condition. -/
theorem untilBrace_of_parses {c c₁ c₂ : Cursor} {t : Tree .expression} (h : Parses .whole c t c₁)
    (hbrace : Reads c₁ [.symbol .leftBrace] c₂) (what : String) :
    ∃ tokens, untilBrace what c = .ok tokens c₂ := by
  have hreads := h.reads
  rw [Tree.closing, List.append_nil] at hreads
  refine ⟨_, untilBrace_of_reads (hreads.append hbrace) (fun hmem => ?_) what⟩
  cases Tree.inExpression_of_mem_kinds hmem

/-- Where the steps last as long as the tokens, it makes no difference how many there are. -/
theorem skipMoreArms_of_length_le {c c' : Cursor} {steps steps' : Nat}
    (hs : c.rest.length ≤ steps) (hs' : c.rest.length ≤ steps')
    (h : skipMoreArms steps c = .ok () c') : skipMoreArms steps' c = .ok () c' := by
  have hsame := Alignment.skipMoreArms (A := .exact) (rfl : c = c) hs hs'
  rw [h] at hsame
  generalize hy : skipMoreArms steps' c = y at hsame
  cases hsame with
  | ok _ hcd => rw [show c' = _ from hcd]

/-- Stepping over `else` takes a step. -/
private theorem skipArms_eq {c c₁ : Cursor} (helse : Reads c [.keyword .elseKw] c₁) :
    ∃ steps, c₁.rest.length ≤ steps ∧ skipArms c = (do
      if ← accept (.keyword .ifKw) then
        let _ ← untilBrace "`\x7b` after condition"
        skipBlock
        skipMoreArms steps
      else
        let _ ← expect (.symbol .leftBrace) "`\x7b` after else"
        skipBlock) c₁ := by
  have hlength := helse.length_rest
  rw [List.length_singleton] at hlength
  refine ⟨c.rest.length - 1, by omega, ?_⟩
  unfold skipArms
  rw [get_bind]
  obtain ⟨steps, hsteps⟩ : ∃ n, c.rest.length = n + 1 := ⟨c.rest.length - 1, by omega⟩
  rw [hsteps, skipMoreArms, bind_of_ok (accept_of_reads helse)]
  rfl

/-- Stepping over `else if` and the arms behind it. -/
theorem skipArms_of_elseIf {c c₁ c₂ c' : Cursor} (helse : Reads c [.keyword .elseKw] c₁)
    (hif : Reads c₁ [.keyword .ifKw] c₂) (h : allArms c₂ = .ok () c') :
    skipArms c = .ok () c' := by
  obtain ⟨steps, hsteps, heq⟩ := skipArms_eq helse
  obtain ⟨_, c₃, huntil, h⟩ := ok_of_bind h
  obtain ⟨_, c₄, hskip, h⟩ := ok_of_bind h
  -- the steps that were left before `if` are enough for what is left behind it
  have hlength := hif.length_rest
  have := (Moves.untilBrace _).length_le huntil
  have := Moves.skipBlock.length_le hskip
  rw [heq, bind_of_ok (accept_of_reads hif)]
  simp only [if_true]
  rw [bind_of_ok huntil, bind_of_ok hskip]
  exact skipMoreArms_of_length_le (Nat.le_refl _) (by omega) h

/-- Stepping over `else` and its block. -/
theorem skipArms_of_else {c c₁ c₂ c' : Cursor} (helse : Reads c [.keyword .elseKw] c₁)
    (hbrace : Reads c₁ [.symbol .leftBrace] c₂) (h : skipBlock c₂ = .ok () c') :
    skipArms c = .ok () c' := by
  obtain ⟨steps, -, heq⟩ := skipArms_eq helse
  have hne : c₁.ahead ≠ some (.keyword .ifKw) := by
    rw [Cursor.ahead_of_reads hbrace]
    decide
  obtain ⟨token, hexpect⟩ := expect_of_reads hbrace "`\x7b` after else"
  rw [heq, bind_of_ok (accept_of_ne hne)]
  simp only [Bool.false_eq_true, if_false]
  rw [bind_of_ok hexpect]
  exact h

end Scan

/-! ### Conditionals -/

/-- Arms without a `return` end where stepping over them ends. -/
def ArmsSkipped (x : Reading (Option Value)) : Prop :=
  ∀ c, Lands x c fun returned c' => returned = none → Scan.allArms c = .ok () c'

/-- Evaluated arms. -/
private theorem lands_armsRule {self : Evaluator} (hsound : Sound self)
    (hself : ArmsSkipped (self .arms)) : ArmsSkipped (Reading.arms self) := by
  -- the condition first, in either case
  intro c
  unfold Reading.arms
  refine .bind ((hsound.expression c).mono fun v c₁ ⟨t, ht⟩ => .bind (.expect fun c₂ hbrace => ?_))
  obtain ⟨tokens, huntil⟩ := Scan.untilBrace_of_parses ht hbrace "`\x7b` after condition"
  -- the condition is behind the cursor; what is left is a block, then the other arms
  have hall : ∀ {c₃ c'}, Scan.skipBlock c₂ = .ok () c₃ → Scan.skipArms c₃ = .ok () c' →
      Scan.allArms c = .ok () c' := by
    intro c₃ c' hskip harms
    unfold Scan.allArms
    rw [bind_of_ok huntil, bind_of_ok hskip]
    exact harms
  split
  -- it holds: a block that comes to its end is followed by the other arms
  · refine .bind (.scan fun body c₃ hblock => .bind (.lift fun returned => ?_))
    cases returned with
    | some value => exact .pure fun h => by cases h
    | none =>
      refine .bind (.scan fun _ c' harms => .pure fun _ => ?_)
      exact hall (Scan.skipBlock_of_block hblock) harms
  -- it does not hold: another arm, a last block, or nothing of the kind
  · refine .bind (.scan fun _ c₃ hskip => .bind (.accept (fun c₄ helse => ?_) fun hne => ?_))
    · refine .bind (.accept (fun c₅ hif => ?_) fun _ => ?_)
      · exact (hself c₅).mono fun returned c' h hnone =>
          hall hskip (Scan.skipArms_of_elseIf helse hif (h hnone))
      · refine .bind (.expect fun c₅ hbrace' => .bind (.scan fun body c' hblock => .lift fun _ => ?_))
        exact fun _ => hall hskip (Scan.skipArms_of_else helse hbrace'
          (Scan.skipBlock_of_block hblock))
    · exact .pure fun _ => hall hskip (Scan.skipMoreArms_of_ne hne _)

/-- Evaluated arms end where stepping over them ends. -/
theorem Phrase.lands_arms (fuel : Nat) : ArmsSkipped (Phrase.run fuel .arms) := by
  induction fuel with
  | zero => exact fun _ => .throw
  | succ fuel ih => exact lands_armsRule (Phrase.sound fuel) ih

/-! ### Constructs -/

/-- The construct stands at the first cursor and ends at the second; comments are left out. -/
inductive Construct.Spans : Construct → Cursor → Cursor → Prop
  | assertion {c c₁ c' t} : Reads c [.keyword .assertKw] c₁ → Parses .whole c₁ t c' →
      Spans .assertion c c'
  | counted {c c₁ c₂ c₃ c' t} : Reads c [.keyword .repeatKw] c₁ → Parses .whole c₁ t c₂ →
      Reads c₂ [.symbol .leftBrace] c₃ → Scan.skipBlock c₃ = .ok () c' → Spans .counted c c'
  | whileLoop {c c₁ c₂ c' tokens} : Reads c [.keyword .whileKw] c₁ →
      Scan.untilBrace "`\x7b` after while condition" c₁ = .ok tokens c₂ →
      Scan.skipBlock c₂ = .ok () c' → Spans .whileLoop c c'
  | range {c c₁ c₂ c₃ c₄ c₅ c' t u} : Reads c [.keyword .fromKw] c₁ → Parses .whole c₁ t c₂ →
      Reads c₂ [.keyword .toKw] c₃ → Parses .whole c₃ u c₄ → Reads c₄ [.symbol .leftBrace] c₅ →
      Scan.skipBlock c₅ = .ok () c' → Spans .range c c'
  | rangeNamed {c c₁ c₂ c₃ c₄ c₅ c₆ c₇ c' t u name} : Reads c [.keyword .fromKw] c₁ →
      Parses .whole c₁ t c₂ → Reads c₂ [.keyword .toKw] c₃ → Parses .whole c₃ u c₄ →
      Reads c₄ [.keyword .withKw] c₅ →
      Scan.identifier "loop variable name after `with`" c₅ = .ok name c₆ →
      Reads c₆ [.symbol .leftBrace] c₇ → Scan.skipBlock c₇ = .ok () c' → Spans .range c c'
  | conditional {c c₁ c'} : Reads c [.keyword .ifKw] c₁ → Scan.allArms c₁ = .ok () c' →
      Spans .conditional c c'
  | variableDeclaration {c c₁ c₂ c₃ c₄ c' word name type t} : word = .varKw ∨ word = .valKw →
      Reads c [.keyword word] c₁ → Scan.identifier "variable name" c₁ = .ok name c₂ →
      Scan.annotation c₂ = .ok type c₃ → Reads c₃ [.symbol .equal] c₄ → Parses .whole c₄ t c' →
      Spans .variableDeclaration c c'
  | functionDeclaration {c c₁ c₂ c₃ c₄ c₅ c₆ c' name parameters type} :
      Reads c [.keyword .defKw] c₁ → Scan.identifier "function name" c₁ = .ok name c₂ →
      Reads c₂ [.symbol .leftParen] c₃ → Scan.parameters c₃ = .ok parameters c₄ →
      Scan.annotation c₄ = .ok type c₅ → Reads c₅ [.symbol .leftBrace] c₆ →
      Scan.skipBlock c₆ = .ok () c' → Spans .functionDeclaration c c'
  | expression {c c' t} : Parses .whole c t c' → Spans .expression c c'

namespace Construct

/-- The construct that begins with the token, comments aside. -/
def ofKind? : Kind → Option Construct
  | .keyword .assertKw => some assertion
  | .keyword .repeatKw => some counted
  | .keyword .whileKw => some whileLoop
  | .keyword .fromKw => some range
  | .keyword .ifKw => some conditional
  | .keyword .varKw | .keyword .valKw => some variableDeclaration
  | .keyword .defKw => some functionDeclaration
  | kind => if kind.startsExpression then some expression else none

/-- A construct is known by its first token. -/
theorem Spans.ofKind? {construct : Construct} {c c' : Cursor} (h : construct.Spans c c') :
    c.ahead.bind Construct.ofKind? = some construct := by
  -- a construct is known by its first token, most often a keyword
  cases h with
  | assertion h | counted h | whileLoop h | range h | rangeNamed h | conditional h
  | functionDeclaration h =>
    rw [Cursor.ahead_of_reads h]
    rfl
  | variableDeclaration hword h =>
    rw [Cursor.ahead_of_reads h]
    rcases hword with rfl | rfl <;> rfl
  -- for an expression by what can begin one
  | expression h =>
    have hstarts := h.starts
    cases hahead : c.ahead with
    | none =>
      rw [hahead] at hstarts
      cases hstarts
    | some kind =>
      rw [hahead] at hstarts
      have hstarts : kind.startsExpression = true := hstarts
      show Construct.ofKind? kind = some .expression
      unfold Construct.ofKind?
      split <;> first | cases hstarts | exact if_pos hstarts

/-- A scan ends at one place. -/
private theorem scan_unique {x : Scan α} {c c₁ c₂ : Cursor} {a b : α} (h₁ : x c = .ok a c₁)
    (h₂ : x c = .ok b c₂) : c₁ = c₂ := by
  rw [h₁] at h₂
  cases h₂
  rfl

/-- The bounds of a range end at one place. -/
private theorem bounds_unique {c c₁ c₂ c₃ c₄ d₁ d₂ d₃ d₄ : Cursor} {t u t' u' : Tree .expression}
    (h : Reads c [.keyword .fromKw] c₁) (hp : Parses .whole c₁ t c₂)
    (hto : Reads c₂ [.keyword .toKw] c₃) (hq : Parses .whole c₃ u c₄)
    (h' : Reads c [.keyword .fromKw] d₁) (hp' : Parses .whole d₁ t' d₂)
    (hto' : Reads d₂ [.keyword .toKw] d₃) (hq' : Parses .whole d₃ u' d₄) : c₄ = d₄ := by
  obtain rfl := h.unique h'
  obtain ⟨-, rfl⟩ := hp.unique hp'
  obtain rfl := hto.unique hto'
  exact (hq.unique hq').2

/-- A block in braces ends at one place. -/
private theorem braced_unique {c c₁ c₂ d₁ d₂ : Cursor}
    (hbrace : Reads c [.symbol .leftBrace] c₁) (hblock : Scan.skipBlock c₁ = .ok () c₂)
    (hbrace' : Reads c [.symbol .leftBrace] d₁) (hblock' : Scan.skipBlock d₁ = .ok () d₂) :
    c₂ = d₂ := by
  obtain rfl := hbrace.unique hbrace'
  exact scan_unique hblock hblock'

/-- A range ends at one place. -/
private theorem range_unique {c c₁ c₂ : Cursor} (h₁ : Spans .range c c₁) (h₂ : Spans .range c c₂) :
    c₁ = c₂ := by
  -- what is behind the bounds tells whether there is a variable: a brace, or `with`
  cases h₁ with
  | range h hp hto hq hbrace hblock =>
    cases h₂ with
    | range h' hp' hto' hq' hbrace' hblock' =>
      obtain rfl := bounds_unique h hp hto hq h' hp' hto' hq'
      exact braced_unique hbrace hblock hbrace' hblock'
    | rangeNamed h' hp' hto' hq' hwith _ _ _ =>
      obtain rfl := bounds_unique h hp hto hq h' hp' hto' hq'
      cases (hbrace.head_unique hwith).1
  | rangeNamed h hp hto hq hwith hname hbrace hblock =>
    cases h₂ with
    | range h' hp' hto' hq' hbrace' hblock' =>
      obtain rfl := bounds_unique h hp hto hq h' hp' hto' hq'
      cases (hbrace'.head_unique hwith).1
    | rangeNamed h' hp' hto' hq' hwith' hname' hbrace' hblock' =>
      obtain rfl := bounds_unique h hp hto hq h' hp' hto' hq'
      obtain rfl := hwith.unique hwith'
      obtain rfl := scan_unique hname hname'
      exact braced_unique hbrace hblock hbrace' hblock'

/-- A construct ends at one place. -/
theorem Spans.unique {construct construct' : Construct} {c c₁ c₂ : Cursor}
    (h₁ : construct.Spans c c₁) (h₂ : construct'.Spans c c₂) : c₁ = c₂ := by
  obtain rfl : construct = construct' := Option.some.inj (h₁.ofKind?.symm.trans h₂.ofKind?)
  -- every part begins where the one in front of it ends, and ends at one place
  cases construct with
  | comment => cases h₁
  | range => exact range_unique h₁ h₂
  | assertion =>
    cases h₁ with
    | assertion h hp =>
      cases h₂ with
      | assertion h' hp' =>
        obtain rfl := h.unique h'
        exact (hp.unique hp').2
  | counted =>
    cases h₁ with
    | counted h hp hbrace hblock =>
      cases h₂ with
      | counted h' hp' hbrace' hblock' =>
        obtain rfl := h.unique h'
        obtain ⟨-, rfl⟩ := hp.unique hp'
        exact braced_unique hbrace hblock hbrace' hblock'
  | whileLoop =>
    cases h₁ with
    | whileLoop h huntil hblock =>
      cases h₂ with
      | whileLoop h' huntil' hblock' =>
        obtain rfl := h.unique h'
        obtain rfl := scan_unique huntil huntil'
        exact scan_unique hblock hblock'
  | conditional =>
    cases h₁ with
    | conditional h harms =>
      cases h₂ with
      | conditional h' harms' =>
        obtain rfl := h.unique h'
        exact scan_unique harms harms'
  | variableDeclaration =>
    cases h₁ with
    | variableDeclaration _ h hname htype hequal hp =>
      cases h₂ with
      | variableDeclaration _ h' hname' htype' hequal' hp' =>
        -- the keyword may be either of two, but it is the same on both sides
        obtain ⟨-, rfl⟩ := h.head_unique h'
        obtain rfl := scan_unique hname hname'
        obtain rfl := scan_unique htype htype'
        obtain rfl := hequal.unique hequal'
        exact (hp.unique hp').2
  | functionDeclaration =>
    cases h₁ with
    | functionDeclaration h hname hopen hps htype hbrace hblock =>
      cases h₂ with
      | functionDeclaration h' hname' hopen' hps' htype' hbrace' hblock' =>
        obtain rfl := h.unique h'
        obtain rfl := scan_unique hname hname'
        obtain rfl := hopen.unique hopen'
        obtain rfl := scan_unique hps hps'
        obtain rfl := scan_unique htype htype'
        exact braced_unique hbrace hblock hbrace' hblock'
  | expression =>
    cases h₁ with
    | expression hp =>
      cases h₂ with
      | expression hp' => exact (hp.unique hp').2

end Construct

namespace Reading

/-- A reading of the construct: it declines without a step, and when it is done it has read the
construct. -/
def Covers (construct : Construct) (x : Reading Outcome) : Prop :=
  ∀ c, Lands x c fun outcome c' =>
    (outcome = .declined → c' = c) ∧ (outcome = .done → construct.Spans c c')

/-- A construct that begins with a keyword. -/
private theorem covers_after {construct : Construct} {keyword : Keyword} {x : Reading Outcome}
    (h : ∀ c c₁, Reads c [.keyword keyword] c₁ →
      Lands x c₁ fun outcome c' => outcome ≠ .declined ∧ (outcome = .done → construct.Spans c c')) :
    Covers construct (after keyword x) := by
  intro c
  refine .bind (.accept (fun c₁ hkeyword => ?_) fun _ => .pure ⟨fun _ => rfl, fun h => by cases h⟩)
  exact (h c c₁ hkeyword).mono fun outcome c' ⟨hne, hdone⟩ => ⟨fun h => absurd h hne, hdone⟩

/-- Where a loop ends does not depend on its rounds. -/
private theorem lands_iterate {construct : Construct} {c c' : Cursor}
    {body : Nat → Eval (Option Outcome)} {atEnd : Eval Outcome}
    (hbody : ∀ i, (body i).Yields fun result => ∀ outcome, result = some outcome →
      outcome ≠ .declined) (hend : atEnd.Yields (· ≠ .declined))
    (hspans : construct.Spans c c') (index count : Nat) :
    Lands (liftM (Eval.iterate body atEnd index count)) c' fun outcome c' =>
      outcome ≠ .declined ∧ (outcome = .done → construct.Spans c c') :=
  .lift_of_yields (.iterate hbody hend index count) fun _ hne => ⟨hne, fun _ => hspans⟩

/-- What a round of a loop gives. -/
theorem yields_round {x : Eval (Option Value)} :
    Eval.Yields (do return (← x).map Outcome.returned) fun result =>
      ∀ outcome, result = some outcome → outcome ≠ .declined := by
  refine .bind fun value? => .pure fun outcome h => ?_
  obtain ⟨value, -, rfl⟩ := Option.map_eq_some_iff.mp h
  exact fun hdeclined => by cases hdeclined

section

variable {self : Evaluator} (hsound : Sound self)

include hsound

/-- `assert`. -/
private theorem covers_assertion : Covers .assertion (assertion self) := by
  refine covers_after fun c c₁ hkeyword => ?_
  refine .bind (.get (.bind ((hsound.expression c₁).mono fun v c' ⟨t, ht⟩ => ?_)))
  split
  · exact .pure ⟨by simp, fun _ => .assertion hkeyword ht⟩
  · exact .bind (.get .raiseAt)

/-- A bound of a loop. -/
private theorem lands_bound (c : Cursor) :
    Lands (bound self) c fun _ c' => ∃ t, Parses .whole c t c' := by
  refine .bind (.here (.bind ((hsound.expression c).mono fun v c' ht => ?_)))
  split
  · exact .pure ht
  · exact .raiseAt

/-- `repeat`. -/
private theorem covers_counted : Covers .counted (counted self) := by
  refine covers_after fun c c₁ hkeyword => ?_
  refine .bind ((lands_bound hsound c₁).mono fun n c₂ ⟨t, ht⟩ => .bind (.expect fun c₃ hbrace => ?_))
  refine .bind (.scan fun body c' hblock => ?_)
  exact lands_iterate (fun _ => yields_round) (.pure (by simp))
    (.counted hkeyword ht hbrace (Scan.skipBlock_of_block hblock)) _ _

/-- `from` and `to`. -/
private theorem covers_range : Covers .range (range self) := by
  refine covers_after fun c c₁ hkeyword => ?_
  -- both bounds, with `to` between them
  refine .bind ((lands_bound hsound c₁).mono fun n c₂ ⟨t, ht⟩ => .bind (.expect fun c₃ hto => ?_))
  refine .bind ((lands_bound hsound c₃).mono fun m c₄ ⟨u, hu⟩ => .bind (.accept ?_ fun _ => ?_))
  -- a name for the number may stand in front of the block
  · intro c₅ hwith
    refine .bind (.map (.scan fun name c₆ hname => ?_))
    refine .bind (.expect fun c₇ hbrace => .bind (.scan fun body c' hblock => ?_))
    exact lands_iterate (fun _ => yields_round) (.pure (by simp))
      (.rangeNamed hkeyword ht hto hu hwith hname hbrace (Scan.skipBlock_of_block hblock)) _ _
  · refine .bind (.pure (.bind (.expect fun c₅ hbrace => .bind (.scan fun body c' hblock => ?_))))
    exact lands_iterate (fun _ => yields_round) (.pure (by simp))
      (.range hkeyword ht hto hu hbrace (Scan.skipBlock_of_block hblock)) _ _

/-- `var` and `val`. -/
private theorem covers_variableDeclaration :
    Covers .variableDeclaration (variableDeclaration self) := by
  -- `var` and `val` are read by one handler each, and differ in the keyword only
  have hdeclared : ∀ {c c₁ word} (isFinal : Bool), word = .varKw ∨ word = .valKw →
      Reads c [.keyword word] c₁ → Lands (declared self isFinal) c₁ fun outcome c' =>
        outcome ≠ .declined ∧ (outcome = .done → Construct.variableDeclaration.Spans c c') := by
    intro c c₁ word isFinal hword hkeyword
    refine .bind (.here (.bind (.scan fun name c₂ hname => .bind (.scan fun type c₃ htype => ?_))))
    refine .bind (.expect fun c₄ hequal => .bind ((hsound.expression c₄).mono fun v c' ⟨t, ht⟩ => ?_))
    refine .bind (.locate (.lift fun _ => .pure ⟨by simp, fun _ => ?_⟩))
    exact .variableDeclaration hword hkeyword hname htype hequal ht
  intro c
  refine .bind (.accept (fun c₁ hkeyword => ?_) fun _ => ?_)
  · exact (hdeclared false (.inl rfl) hkeyword).mono fun _ _ h => ⟨fun heq => absurd heq h.1, h.2⟩
  · exact covers_after (fun c c₁ hkeyword => hdeclared true (.inr rfl) hkeyword) c

/-- An expression. -/
private theorem covers_expression : Covers .expression (expressionStatement self) := by
  intro c
  refine .bind (.peek ?_)
  split
  · split
    · exact .bind ((hsound.expression c).mono fun v c' ⟨t, ht⟩ =>
        .pure ⟨fun h => (by cases h), fun _ => .expression ht⟩)
    · exact .pure ⟨fun _ => rfl, fun h => by cases h⟩
  · exact .pure ⟨fun _ => rfl, fun h => by cases h⟩

end

/-- `if`. -/
private theorem covers_conditional {self : Evaluator} (harms : ArmsSkipped (self .arms)) :
    Covers .conditional (conditional self) := by
  refine covers_after fun c c₁ hkeyword => .bind ((harms c₁).mono fun returned c' h => .pure ?_)
  cases returned with
  | some value => exact ⟨by simp [Outcome.ofReturn], by simp [Outcome.ofReturn]⟩
  | none => exact ⟨by simp [Outcome.ofReturn], fun _ => .conditional hkeyword (h rfl)⟩

/-- `while`. -/
private theorem covers_whileLoop (self : Evaluator) (fuel : Nat) :
    Covers .whileLoop (whileLoop self fuel) := by
  refine covers_after fun c c₁ hkeyword => ?_
  refine .bind (.scan fun tokens c₂ huntil => .bind (.scan fun body c' hblock => ?_))
  refine lands_iterate (fun _ => .bind fun holds => ?_) .throw
    (.whileLoop hkeyword huntil (Scan.skipBlock_of_block hblock)) _ _
  split
  · exact yields_round
  · refine .pure fun outcome h => ?_
    cases h
    simp

/-- `def`. -/
private theorem covers_functionDeclaration :
    Covers .functionDeclaration functionDeclaration := by
  refine covers_after fun c c₁ hkeyword => ?_
  refine .bind (.here (.bind (.scan fun name c₂ hname => .bind (.expect fun c₃ hopen => ?_))))
  refine .bind (.scan fun ps c₄ hps => .bind (.scan fun type c₅ htype => ?_))
  refine .bind (.expect fun c₆ hbrace => .bind (.scan fun body c' hblock => ?_))
  refine .bind (.locate (.lift fun _ => .pure ⟨by simp, fun _ => ?_⟩))
  exact .functionDeclaration hkeyword hname hopen hps htype hbrace
    (Scan.skipBlock_of_block hblock)

/-- Every construct but a comment. -/
theorem covers_attempt (n fuel : Nat) {construct : Construct} (hne : construct ≠ .comment) :
    Covers construct (attempt (Phrase.run n) fuel construct) := by
  have hsound := Phrase.sound n
  -- each handler with the lemma about its construct
  cases construct with
  | comment => exact absurd rfl hne
  | assertion => exact covers_assertion hsound
  | counted => exact covers_counted hsound
  | whileLoop => exact covers_whileLoop _ fuel
  | range => exact covers_range hsound
  | conditional => exact covers_conditional (Phrase.lands_arms n)
  | variableDeclaration => exact covers_variableDeclaration hsound
  | functionDeclaration => exact covers_functionDeclaration
  | expression => exact covers_expression hsound

/-- Constructs that are offered the tokens in turn. -/
private theorem lands_firstOf (n fuel : Nat) {constructs : List Construct}
    (hne : ∀ construct ∈ constructs, construct ≠ .comment) (c : Cursor) :
    Lands (firstOf (Phrase.run n) fuel constructs) c fun outcome c' =>
      outcome = .done → ∃ construct : Construct, construct.Spans c c' := by
  -- along the handlers, each of which is asked if all before have declined
  induction constructs with
  | nil => exact .pure fun h => by cases h
  | cons construct others ih =>
    refine .bind ((covers_attempt n fuel (hne construct (by simp)) c).mono fun outcome c' h => ?_)
    cases outcome with
    -- it has read nothing, so the next one begins in the same place
    | declined =>
      obtain rfl := h.1 rfl
      exact ih fun k hk => hne k (by simp [hk])
    | done => exact .pure fun _ => ⟨construct, h.2 rfl⟩
    | returned value => exact .pure fun hdone => by cases hdone

/-- A comment is stepped over; otherwise the reading declines. -/
private theorem lands_comment (c : Cursor) :
    Lands comment c fun outcome c' =>
      (c.atComment = true ∧ outcome = .done ∧ c' = c.settle) ∨
        (c.atComment = false ∧ outcome = .declined ∧ c' = c) := by
  intro s outcome c' s' h
  -- either a comment is in front and ends, or none is in front
  cases hat : c.atComment with
  | false =>
    rw [comment_of_not_atComment hat] at h
    cases h
    exact .inr ⟨rfl, rfl, rfl⟩
  | true =>
    cases hopen : c.unclosed? with
    | none =>
      rw [comment_of_closed hat hopen] at h
      cases h
      exact .inl ⟨rfl, rfl, rfl⟩
    | some mark =>
      rw [comment_of_unclosed hat hopen] at h
      cases h

/-- A statement that is done is a comment, or the tokens of a construct. -/
theorem lands_dispatch (n fuel : Nat) (c : Cursor) :
    Lands (firstOf (Phrase.run n) fuel Construct.chain) c fun outcome c' =>
      outcome = .done →
        if c.atComment then c' = c.settle else ∃ construct : Construct, construct.Spans c c' := by
  refine .bind ((lands_comment c).mono fun outcome c₁ h => ?_)
  obtain ⟨hat, rfl, rfl⟩ | ⟨hat, rfl, rfl⟩ := h
  · rw [hat]
    exact .pure fun _ => rfl
  · rw [hat]
    exact lands_firstOf n fuel (by decide) c₁

end Reading

/-- How many tokens an expression or a statement takes up does not depend on the session: two
evaluations of an expression from one cursor that both succeed end at the same place, and so do two
executions of a statement that both get done, with whatever fuel, variables, functions and active
calls, and whichever arms and rounds they execute. -/
theorem same_consumption (c : Cursor) (s₁ s₂ : Session) :
    (∀ n₁ n₂ v₁ v₂ c₁ c₂ s₁' s₂', Phrase.run n₁ .expression c s₁ = .ok (v₁, c₁) s₁' →
      Phrase.run n₂ .expression c s₂ = .ok (v₂, c₂) s₂' → c₁ = c₂) ∧
    (∀ n₁ n₂ m₁ m₂ c₁ c₂ s₁' s₂',
      Reading.firstOf (Phrase.run n₁) m₁ Construct.chain c s₁ = .ok (.done, c₁) s₁' →
      Reading.firstOf (Phrase.run n₂) m₂ Construct.chain c s₂ = .ok (.done, c₂) s₂' →
      c₁ = c₂) := by
  constructor
  · intro n₁ n₂ v₁ v₂ c₁ c₂ s₁' s₂' h₁ h₂
    -- what is read is a tree, and only one stands at a cursor
    obtain ⟨t, ht⟩ := (Phrase.sound n₁).expression c s₁ v₁ c₁ s₁' h₁
    obtain ⟨u, hu⟩ := (Phrase.sound n₂).expression c s₂ v₂ c₂ s₂' h₂
    exact (ht.unique hu).2
  · intro n₁ n₂ m₁ m₂ c₁ c₂ s₁' s₂' h₁ h₂
    have h₁ := Reading.lands_dispatch n₁ m₁ c s₁ _ c₁ s₁' h₁ rfl
    have h₂ := Reading.lands_dispatch n₂ m₂ c s₂ _ c₂ s₂' h₂ rfl
    -- what is in front decides: comments, which end at one place, or the tokens of a construct
    cases hat : c.atComment with
    | true =>
      simp only [hat, if_true] at h₁ h₂
      rw [h₁, h₂]
    | false =>
      simp only [hat, Bool.false_eq_true, if_false] at h₁ h₂
      obtain ⟨_, h₁⟩ := h₁
      obtain ⟨_, h₂⟩ := h₂
      exact h₁.unique h₂

/-- A conditional whose first arm is executed in one session and stepped over in another, where the
second condition is evaluated instead. -/
theorem same_consumption_conditional :
    let kinds := [.keyword .ifKw, .ident "x", .symbol .leftBrace, .symbol .rightBrace,
      .keyword .elseKw, .keyword .ifKw, .ident "x", .symbol .equalEqual, .number 0,
      .symbol .leftBrace, .symbol .rightBrace, .ident "x"]
    let c := Cursor.start (kinds.map Kind.bare)
    let session := fun n => ({} : Session).setGlobal "x" ⟨false, none, .number n⟩
    ∃ c₁ c₂,
      Reading.firstOf (Phrase.run 4) 4 Construct.chain c (session 1) =
        .ok (.done, c₁) (session 1) ∧
      Reading.firstOf (Phrase.run 4) 4 Construct.chain c (session 0) =
        .ok (.done, c₂) (session 0) ∧
      c₁ = c₂ ∧ c₁.ahead = some (.ident "x") := by
  intro kinds c session
  have h₁ : Reading.firstOf (Phrase.run 4) 4 Construct.chain c (session 1) =
      .ok (.done, ⟨((kinds.map Kind.bare).take 11).reverse, [Kind.bare (.ident "x")]⟩)
        (session 1) := by rfl
  have h₀ : Reading.firstOf (Phrase.run 4) 4 Construct.chain c (session 0) =
      .ok (.done, ⟨((kinds.map Kind.bare).take 11).reverse, [Kind.bare (.ident "x")]⟩)
        (session 0) := by rfl
  have hsame := (same_consumption c (session 1) (session 0)).2 4 4 4 4 _ _ _ _ h₁ h₀
  exact ⟨_, _, h₁, h₀, hsame, rfl⟩

end Tern
