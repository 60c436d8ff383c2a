import Tern.Proofs.Expression.Operand
import Tern.Proofs.Landing

/-!
# An expression that evaluates is a tree

Evaluation takes the decisions of the grammar as it goes. Here they are followed: wherever the
evaluation of an expression succeeds, a tree stood at the cursor, and the evaluation has read the
tokens of the tree and no more.

## Key results

- `Phrase.sound`: every phrase of an expression is read by its rule of the grammar
- `Sound.logicalRule`, `Sound.primary` and others: what one rule does, given its parts
-/

namespace Tern

open Cursor (Reads)
open Reading (Lands)
open Tern.Tree (Parses)

/-- The reading that follows a rule of the grammar. -/
def Rank.reading (self : Evaluator) : Rank form → Reading form.Result
  | primary => Reading.primary self
  | unary => Reading.unary self
  | tier .multiplicative => Reading.multiplicative self
  | tier .additive => Reading.additive self
  | tier .comparison => Reading.comparison self
  | tier .logical => Reading.logical self
  | arguments => Reading.arguments self

/-- A token stands for a unary operator only if it is that operator's symbol. -/
theorem UnaryOp.eq_mark_of_ofKind? {kind : Kind} {op : UnaryOp} (h : ofKind? kind = some op) :
    kind = .symbol op.mark := by
  unfold ofKind? at h
  split at h <;> cases h <;> rfl

/-- Wherever the reading succeeds it has read a tree, by the rule. -/
def Rank.Sound (rank : Rank form) (x : Reading form.Result) : Prop :=
  ∀ c, Lands x c fun _ c' => ∃ t, Parses rank c t c'

/-- The phrases of an expression are read by their rules. -/
structure Sound (evaluator : Evaluator) : Prop where
  expression : Rank.whole.Sound (evaluator .expression)
  additive : (Rank.tier .additive).Sound (evaluator .additive)
  multiplicative : (Rank.tier .multiplicative).Sound (evaluator .multiplicative)
  unary : Rank.unary.Sound (evaluator .unary)
  arguments : Rank.arguments.Sound (evaluator .arguments)

/-- What is known where an operator is looked for. -/
private theorem operatorAhead {tier : Tier} {c : Cursor}
    {Q : Option (BinaryOp × Span) → Cursor → Prop} (hnone : tier.Absent c.ahead → Q none c)
    (hsome : ∀ op span c₁, op.tier = tier → Reads c [.symbol op.mark] c₁ → Q (some (op, span)) c) :
    Lands (Reading.operatorAhead tier) c Q := by
  unfold Reading.operatorAhead
  refine .bind (.peek ?_)
  unfold Tier.Absent at hnone
  rw [← Cursor.peek_map_kind] at hnone
  cases hpeek : c.peek with
  | none => exact .pure (hnone (by rw [hpeek]; rfl))
  | some token =>
    refine .pure ?_
    cases hop : tier.operator? token.kind with
    | none => exact hnone (by rw [hpeek]; exact hop)
    | some op =>
      obtain ⟨hkind, htier⟩ := Tier.operator?_eq_some_iff.mp hop
      have hmark : c.ahead = some (.symbol op.mark) := by
        rw [← Cursor.peek_map_kind, hpeek, Option.map_some, hkind]
      obtain ⟨c₁, hreads⟩ := Cursor.reads_of_ahead hmark
      exact hsome op token.span c₁ htier hreads

/-- A tier whose operators group to the right. -/
private theorem rightGrouped {tier : Tier} {operand others : Reading Value}
    (hoperand : tier.left.Sound operand) (hothers : tier.right.Sound others)
    (htier : tier ≠ .comparison) :
    (Rank.tier tier).Sound (Reading.rightGrouped tier operand others) := by
  intro c
  unfold Reading.rightGrouped
  refine .bind ((hoperand c).mono fun _ c₁ ⟨t, ht⟩ => .bind (operatorAhead ?_ ?_))
  · exact fun habsent => .pure ⟨t, .lone ht habsent⟩
  · intro op span c₂ hop hreads
    refine .bind (.next_of_reads hreads fun _ _ => .bind ((hothers c₂).mono fun _ c' ⟨u, hu⟩ => ?_))
    exact .computed fun _ => ⟨_, .joined hop ht hreads hu fun h => absurd h htier⟩

namespace Sound

variable {self : Evaluator} (hself : Sound self)

include hself

/-- What stands behind a name. -/
private theorem named (name : String) (span : Span) {c c₁ : Cursor}
    (hname : Reads c [.ident name] c₁) :
    Lands (Reading.named self name span) c₁ fun _ c' => ∃ t, Parses .primary c t c' := by
  unfold Reading.named
  refine .bind (.lift fun session => ?_)
  split
  · exact .raiseAt
  · rename_i binding _
    refine .bind (.peekKind ?_)
    -- the token behind the name decides what the name is for
    split
    · rename_i hahead
      obtain ⟨c₂, hopen⟩ := Cursor.reads_of_ahead hahead
      split
      · refine .bind (.next_of_reads hopen fun _ _ => .locate (.bind (.bind (.accept ?_ ?_))))
        · exact fun c' hclose => .pure (.lift fun _ => ⟨_, .callNone hname hopen hclose⟩)
        · exact fun hne => (hself.arguments c₂).mono fun _ c' ⟨t, ht⟩ =>
            .lift fun _ => ⟨_, .call hname hopen hne ht⟩
      · exact .raiseAt
    · rename_i hahead
      obtain ⟨c₂, hequal⟩ := Cursor.reads_of_ahead hahead
      split
      · exact .raiseAt
      · refine .bind (.next_of_reads hequal fun _ _ => .bind ?_)
        exact (hself.expression c₂).mono fun _ c' ⟨t, ht⟩ =>
          .bind (.locate (.lift fun _ => .pure ⟨_, .assign hname hequal ht⟩))
    · rename_i hahead
      obtain ⟨c₂, hmark⟩ := Cursor.reads_of_ahead hahead
      exact .bind (.next_of_reads hmark fun _ _ =>
        .locate (.lift fun _ => ⟨.step name true, .step hname hmark⟩))
    · rename_i hahead
      obtain ⟨c₂, hmark⟩ := Cursor.reads_of_ahead hahead
      exact .bind (.next_of_reads hmark fun _ _ =>
        .locate (.lift fun _ => ⟨.step name false, .step hname hmark⟩))
    · rename_i hparen hequal hplus hminus
      refine .pure ⟨_, .read hname ?_⟩
      cases hc : c₁.ahead with
      | none => rfl
      | some kind =>
        rw [hc] at hparen hequal hplus hminus
        show kind.actsOnName = false
        unfold Kind.actsOnName
        split <;> simp_all

/-- A primary. -/
theorem primary : Rank.primary.Sound (Reading.primary self) := by
  intro c
  unfold Reading.primary
  refine .bind (.here (.bind (.next (fun _ => .raiseAt) fun token c₁ hnext => ?_)))
  have hreads := Reads.one hnext
  obtain ⟨kind, place⟩ := token
  cases kind with
  | symbol mark =>
    cases mark with
    | leftParen =>
      refine .bind ((hself.expression c₁).mono fun _ c₂ ⟨t, ht⟩ => .bind (.expect fun _ hclose => ?_))
      exact .pure ⟨_, .group hreads ht hclose⟩
    | _ => exact .raiseAt
  | keyword word =>
    cases word with
    | trueKw => exact .pure ⟨.truth true, .truth hreads⟩
    | falseKw => exact .pure ⟨.truth false, .truth hreads⟩
    | _ => exact .raiseAt
  | str text => exact .pure ⟨_, .text hreads⟩
  | number n => exact .pure ⟨_, .number hreads⟩
  | ident name => exact hself.named _ _ hreads
  | unknown _ | lineComment _ => exact .raiseAt

/-- An operand with its unary operators. -/
theorem unaryRule : Rank.unary.Sound (Reading.unary self) := by
  intro c
  unfold Reading.unary
  refine .bind (.peek ?_)
  have hplain : c.ahead.bind UnaryOp.ofKind? = none →
      Lands (Reading.primary self) c fun _ c' => ∃ t, Parses .unary c t c' := fun hnone =>
    (hself.primary c).mono fun _ c' ⟨t, ht⟩ => ⟨t, .plain hnone ht⟩
  rw [← Cursor.peek_map_kind] at hplain
  cases hpeek : c.peek with
  | none => exact hplain (by rw [hpeek]; rfl)
  | some token =>
    cases hop : UnaryOp.ofKind? token.kind with
    | none =>
      simp only [hop]
      exact hplain (by rw [hpeek]; exact hop)
    | some op =>
      have hmark : c.ahead = some (.symbol op.mark) := by
        rw [← Cursor.peek_map_kind, hpeek, Option.map_some, UnaryOp.eq_mark_of_ofKind? hop]
      obtain ⟨c₁, hreads⟩ := Cursor.reads_of_ahead hmark
      simp only [hop]
      refine .bind (.next_of_reads hreads fun _ _ => .bind ?_)
      exact (hself.unary c₁).mono fun _ c' ⟨t, ht⟩ => .computed fun _ => ⟨_, .unary hreads ht⟩

/-- Factors. -/
theorem multiplicativeRule : (Rank.tier .multiplicative).Sound (Reading.multiplicative self) :=
  rightGrouped hself.unaryRule hself.multiplicative (by decide)

/-- Terms. -/
theorem additiveRule : (Rank.tier .additive).Sound (Reading.additive self) :=
  rightGrouped hself.multiplicativeRule hself.additive (by decide)

/-- One sum, or two of them compared. -/
theorem comparisonRule : (Rank.tier .comparison).Sound (Reading.comparison self) := by
  intro c
  unfold Reading.comparison
  refine .bind ((hself.additiveRule c).mono fun _ c₁ ⟨t, ht⟩ => .bind (operatorAhead ?_ ?_))
  · exact fun habsent => .pure ⟨t, .lone ht habsent⟩
  · intro op span c₂ hop hreads
    refine .bind (.next_of_reads hreads fun _ _ => .bind ?_)
    refine (hself.additiveRule c₂).mono fun _ c' ⟨u, hu⟩ => .bind (operatorAhead ?_ ?_)
    · exact fun habsent => .computed fun _ => ⟨_, .joined hop ht hreads hu fun _ => habsent⟩
    -- comparisons do not chain
    · exact fun _ _ _ _ _ => .raiseAt

/-- A whole expression. -/
theorem logicalRule : Rank.whole.Sound (Reading.logical self) :=
  rightGrouped hself.comparisonRule hself.expression (by decide)

/-- Arguments. -/
theorem argumentsRule : Rank.arguments.Sound (Reading.arguments self) := by
  intro c
  unfold Reading.arguments
  refine .bind ((hself.expression c).mono fun _ c₁ ⟨t, ht⟩ => .bind (.accept ?_ fun _ => ?_))
  · exact fun c' hclose => .pure ⟨_, .last ht hclose⟩
  · refine .bind (.expect fun c₂ hcomma => .bind ((hself.arguments c₂).mono fun _ c' ⟨u, hu⟩ => ?_))
    exact .pure ⟨_, .more ht hcomma hu⟩

end Sound

namespace Phrase

/-- All phrases of expressions are read by their rules, whatever the fuel. -/
theorem sound (fuel : Nat) : Sound (run fuel) := by
  induction fuel with
  | zero => constructor <;> exact fun _ => .throw
  | succ fuel ih =>
    exact ⟨ih.logicalRule, ih.additiveRule, ih.multiplicativeRule, ih.unaryRule, ih.argumentsRule⟩

end Phrase

end Tern
