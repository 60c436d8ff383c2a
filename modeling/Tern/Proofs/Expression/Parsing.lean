import Tern.Evaluation.Statement
import Tern.Proofs.Expression.Tree
import Tern.Proofs.Scanning

/-!
# Which tree stands at a cursor

`Tree.Parses` is the grammar read off the tokens with one token of lookahead, the way a reader
without a plan B goes about it. It is the bridge between the evaluator, which takes the same
decisions, and the trees, which know nothing of cursors.

## Key results

- `Tree.Parses.unique`: at most one tree stands at a cursor
- `Tree.Parses.reads`, `Tree.Parses.admitted`: it is admitted, and its tokens are what is read
- `Tree.Parses.of_reads`: every admitted tree stands where its tokens do, unless the next token
  carries on
- `Tree.kinds_injective`: no two admitted trees have the same tokens
-/

namespace Tern

open Cursor (Reads)

/-- Places in the grammar: a rule and the form it is for. -/
inductive Rank : Form → Type where
  | primary : Rank .expression
  | unary : Rank .expression
  | tier (t : Tier) : Rank .expression
  | arguments : Rank .arguments

/-- How loosely the rule binds. -/
def Rank.level : Rank form → Nat
  | primary => 0
  | unary => 1
  | tier t => t.level
  | arguments => 0

/-- Rules for expressions that bind equally loosely are the same. -/
theorem Rank.level_injective {rank rank' : Rank .expression} (h : rank.level = rank'.level) :
    rank = rank' := by
  cases rank with
  | primary =>
    cases rank' with
    | primary => rfl
    | unary => cases h
    | tier t => cases t <;> cases h
  | unary =>
    cases rank' with
    | primary => cases h
    | unary => rfl
    | tier t => cases t <;> cases h
  | tier t =>
    cases rank' with
    | primary => cases t <;> cases h
    | unary => cases t <;> cases h
    | tier t' => cases t <;> cases t' <;> first | rfl | cases h

/-- A whole expression. -/
abbrev Rank.whole : Rank .expression := .tier .logical

/-- Different operators have different symbols. -/
theorem BinaryOp.mark_injective {op op' : BinaryOp} (h : op.mark = op'.mark) : op = op' := by
  cases op <;> cases op' <;> first | rfl | cases h

namespace Tier

/-- The rule for the operand in front of an operator. -/
def left : Tier → Rank .expression
  | multiplicative => .unary
  | additive => .tier .multiplicative
  | comparison => .tier .additive
  | logical => .tier .comparison

/-- The rule for the operand behind an operator. -/
def right : Tier → Rank .expression
  | comparison => .tier .additive
  | tier => .tier tier

/-- No operator of the tier is next. -/
def Absent (tier : Tier) (next : Option Kind) : Prop := next.bind tier.operator? = none

theorem level_left (tier : Tier) : tier.left.level + 1 = tier.level := by
  cases tier <;> rfl

theorem level_injective {tier tier' : Tier} (h : tier.level = tier'.level) : tier = tier' :=
  Rank.tier.inj (Rank.level_injective h)

theorem rightLevel_le (tier : Tier) : tier.rightLevel ≤ tier.level := by
  cases tier <;> decide

theorem level_right (tier : Tier) : tier.right.level = tier.rightLevel := by
  cases tier <;> rfl

/-- No rule for primaries or for unary operators reads operators between two operands. -/
theorem one_lt_level (tier : Tier) : 1 < tier.level := by
  cases tier <;> decide

/-- Only behind a comparison the rule for the right operand leaves operators of the tier unread. -/
theorem eq_comparison_of_rightLevel_lt {tier tier' : Tier} (hlt : tier.rightLevel < tier'.level)
    (hle : tier'.level ≤ tier.level) : tier = .comparison ∧ tier' = .comparison := by
  cases tier <;> cases tier' <;> simp_all [Tier.level, Tier.rightLevel]

/-- An operator of one tier is none of another. -/
theorem absent_of_ne {tier : Tier} {op : BinaryOp} (h : op.tier ≠ tier) :
    tier.Absent (some (.symbol op.mark)) := by
  unfold Absent
  rw [Option.bind_some]
  cases hop : tier.operator? (.symbol op.mark) with
  | none => rfl
  | some op' =>
    obtain ⟨hmark, htier⟩ := Tier.operator?_eq_some_iff.mp hop
    obtain rfl : op = op' := BinaryOp.mark_injective (Kind.symbol.inj hmark)
    exact absurd htier h

/-- An operator is one of its tier. -/
theorem not_absent {op : BinaryOp} : ¬op.tier.Absent (some (.symbol op.mark)) := by
  unfold Absent
  rw [Option.bind_some, Tier.operator?_eq_some_iff.mpr ⟨rfl, rfl⟩]
  simp

end Tier

/-- Whether the token does something to a name in front of it. -/
def Kind.actsOnName : Kind → Bool
  | .symbol .leftParen | .symbol .equal | .symbol .plusPlus | .symbol .minusMinus => true
  | _ => false

/-- Whether the token may stand in an expression. -/
def Kind.inExpression : Kind → Bool
  | .keyword .trueKw | .keyword .falseKw | .number _ | .str _ | .ident _ => true
  | .symbol mark =>
    mark ∉ [.commentOpen, .commentClose, .leftBrace, .rightBrace, .colon]
  | _ => false

/-- No token of an expression has to do with comments. -/
theorem Kind.isComment_of_inExpression {kind : Kind} (h : kind.inExpression = true) :
    kind.isComment = false := by
  unfold Kind.isComment
  split <;> first | rfl | cases h

/-- No token of an expression begins a comment. -/
theorem Kind.isPlain_of_inExpression {kind : Kind} (h : kind.inExpression = true) :
    kind.isPlain = true :=
  isPlain_of_isComment (isComment_of_inExpression h)

namespace Tree

/-- By the rule, the tree stands at the first cursor and ends at the second; arguments end behind
the closing parenthesis. -/
inductive Parses : {form : Form} → Rank form → Cursor → Tree form → Cursor → Prop
  -- operands
  | number {c c' n} : Reads c [.number n] c' → Parses .primary c (number n) c'
  | text {c c' s} : Reads c [.str s] c' → Parses .primary c (text s) c'
  | truth {c c' b} : Reads c [.keyword (if b then .trueKw else .falseKw)] c' →
      Parses .primary c (truth b) c'
  | read {c c' name} : Reads c [.ident name] c' → c'.ahead.any Kind.actsOnName = false →
      Parses .primary c (read name) c'
  -- what is inside of parentheses is any expression, and ends in front of the closing one
  | group {c c₁ c₂ c' inner} : Reads c [.symbol .leftParen] c₁ → Parses .whole c₁ inner c₂ →
      Reads c₂ [.symbol .rightParen] c' → Parses .primary c (group inner) c'
  | callNone {c c₁ c₂ c' name} : Reads c [.ident name] c₁ → Reads c₁ [.symbol .leftParen] c₂ →
      Reads c₂ [.symbol .rightParen] c' → Parses .primary c (callNone name) c'
  | call {c c₁ c₂ c' name arguments} : Reads c [.ident name] c₁ →
      Reads c₁ [.symbol .leftParen] c₂ → c₂.ahead ≠ some (.symbol .rightParen) →
      Parses .arguments c₂ arguments c' → Parses .primary c (call name arguments) c'
  | assign {c c₁ c₂ c' name value} : Reads c [.ident name] c₁ → Reads c₁ [.symbol .equal] c₂ →
      Parses .whole c₂ value c' → Parses .primary c (assign name value) c'
  | step {c c₁ c' name increment} : Reads c [.ident name] c₁ →
      Reads c₁ [.symbol (if increment then .plusPlus else .minusMinus)] c' →
      Parses .primary c (step name increment) c'
  -- one rule for each tier, which hands on to the tighter one where no operator of its own follows
  | plain {c c' t} : c.ahead.bind UnaryOp.ofKind? = none → Parses .primary c t c' →
      Parses .unary c t c'
  | unary {c c₁ c' op operand} : Reads c [.symbol op.mark] c₁ → Parses .unary c₁ operand c' →
      Parses .unary c (unary op operand) c'
  | lone {tier c c' t} : Parses tier.left c t c' → tier.Absent c'.ahead →
      Parses (.tier tier) c t c'
  | joined {tier c c₁ c₂ c' op left right} : op.tier = tier → Parses tier.left c left c₁ →
      Reads c₁ [.symbol op.mark] c₂ → Parses tier.right c₂ right c' →
      (tier = .comparison → tier.Absent c'.ahead) →
      Parses (.tier tier) c (binary op left right) c'
  -- arguments, up to and with the parenthesis that closes them
  | last {c c₁ c' argument} : Parses .whole c argument c₁ → Reads c₁ [.symbol .rightParen] c' →
      Parses .arguments c (last argument) c'
  | more {c c₁ c₂ c' argument others} : Parses .whole c argument c₁ →
      Reads c₁ [.symbol .comma] c₂ → Parses .arguments c₂ others c' →
      Parses .arguments c (more argument others) c'

/-- What closes the form behind the tokens of a tree. -/
def closing : Form → List Kind
  | .expression => []
  | .arguments => [.symbol .rightParen]

/-- The tokens of the tree are what is read. -/
theorem Parses.reads {rank : Rank form} {c c' : Cursor} {t : Tree form}
    (h : Parses rank c t c') : Reads c (t.kinds ++ closing form) c' := by
  -- rule by rule, the tokens of the parts stand in a row
  induction h with
  | number h | text h | truth h | read h _ => exact h
  | group h _ h' ih =>
    simp only [kinds, closing, List.append_nil] at ih ⊢
    exact h.append (ih.append h')
  | callNone h h' h'' => exact h.append (h'.append h'')
  | call h h' _ _ ih =>
    simp only [kinds, closing, List.append_nil] at ih ⊢
    exact h.append (h'.append ih)
  | assign h h' _ ih => exact h.append (h'.append ih)
  | step h h' => exact h.append h'
  | plain _ _ ih => exact ih
  | unary h _ ih => exact h.append ih
  | lone _ _ ih => exact ih
  | joined _ _ h _ _ ih ih' =>
    simp only [kinds, closing, List.append_nil] at ih ih' ⊢
    exact ih.append (h.append ih')
  | last _ h ih =>
    simp only [kinds, closing, List.append_nil] at ih ⊢
    exact ih.append h
  | more _ h _ ih ih' =>
    simp only [kinds, closing, List.append_nil] at ih ih' ⊢
    rw [List.append_assoc]
    exact ih.append (h.append ih')

/-- A tree begins with a token that an expression can begin with. -/
theorem Parses.starts {rank : Rank form} {c c' : Cursor} {t : Tree form}
    (h : Parses rank c t c') : c.ahead.any Kind.startsExpression = true := by
  -- an operand begins with its own first token, everything else with its first operand
  induction h with
  | number h | text h | read h _ => rw [Cursor.ahead_of_reads h]; rfl
  | group h _ _ _ | callNone h _ _ | call h _ _ _ _ | assign h _ _ _ | step h _ =>
    rw [Cursor.ahead_of_reads h]
    rfl
  | @truth c c' b h =>
    rw [Cursor.ahead_of_reads h]
    cases b <;> rfl
  | @unary c c₁ c' op operand h _ _ =>
    rw [Cursor.ahead_of_reads h]
    cases op <;> rfl
  | plain _ _ ih | lone _ _ ih | joined _ _ _ _ _ ih _ | last _ _ ih | more _ _ _ ih _ => exact ih

/-- No primary begins with a unary operator. -/
theorem Parses.no_unary {c c' : Cursor} {t : Tree .expression} (h : Parses .primary c t c') :
    c.ahead.bind UnaryOp.ofKind? = none := by
  cases h with
  | number h | text h | read h _ => rw [Cursor.ahead_of_reads h]; rfl
  | group h _ _ | callNone h _ _ | call h _ _ _ | assign h _ _ | step h _ =>
    rw [Cursor.ahead_of_reads h]
    rfl
  | @truth c c' b h =>
    rw [Cursor.ahead_of_reads h]
    cases b <;> rfl

/-! ### At most one tree -/

/-- A token that acts on a name is not behind one that is read. -/
private theorem acts_of_reads {c c' : Cursor} {kind : Kind} (h : Reads c [kind] c')
    (hc : c.ahead.any Kind.actsOnName = false) : kind.actsOnName = false := by
  rw [Cursor.ahead_of_reads h] at hc
  exact hc

/-- Where an operator is next, its tier has one. -/
private theorem not_absent_of_reads {c c' : Cursor} {op : BinaryOp} {tier : Tier}
    (h : Reads c [.symbol op.mark] c') (htier : op.tier = tier) : ¬tier.Absent c.ahead := by
  rw [Cursor.ahead_of_reads h, ← htier]
  exact Tier.not_absent

/-- Where a unary operator is next, there is one. -/
private theorem ofKind?_of_reads {c c' : Cursor} {op : UnaryOp}
    (h : Reads c [.symbol op.mark] c') : c.ahead.bind UnaryOp.ofKind? = some op := by
  rw [Cursor.ahead_of_reads h]
  cases op <;> rfl

/-- At most one tree stands at a cursor, and it ends at one place. -/
theorem Parses.unique {rank : Rank form} {c c₁ c₂ : Cursor} {t u : Tree form}
    (h₁ : Parses rank c t c₁) (h₂ : Parses rank c u c₂) : t = u ∧ c₁ = c₂ := by
  induction h₁ generalizing c₂ with
  -- the first token, and behind a name the second one, tell the rules for primaries apart
  | number h | text h | truth h => cases h₂ <;> grind [Reads.head_unique]
  | group h _ h' ih => cases h₂ <;> grind [Reads.head_unique]
  | read h hname => cases h₂ <;> grind [Reads.head_unique, acts_of_reads, Kind.actsOnName]
  | callNone h h' h'' | step h h' =>
    cases h₂ <;> grind [Reads.head_unique, acts_of_reads, Kind.actsOnName, Cursor.ahead_of_reads]
  | call h h' hargs _ ih | assign h h' _ ih =>
    cases h₂ <;> grind [Reads.head_unique, acts_of_reads, Kind.actsOnName, Cursor.ahead_of_reads]
  | plain hop _ ih =>
    cases h₂ with
    | plain _ hp => exact ih hp
    | unary h _ => cases (ofKind?_of_reads h).symm.trans hop
  | @unary _ _ _ op _ h _ ih =>
    cases h₂ with
    | plain hop _ => cases (ofKind?_of_reads h).symm.trans hop
    | @unary _ _ _ op' _ h' hp =>
      obtain rfl : op = op' :=
        Option.some.inj ((ofKind?_of_reads h).symm.trans (ofKind?_of_reads h'))
      obtain ⟨-, rfl⟩ := h.head_unique h'
      obtain ⟨rfl, rfl⟩ := ih hp
      exact ⟨rfl, rfl⟩
  -- both ways to read a tier begin with its left operand; the token behind that decides
  | lone _ habsent ih =>
    cases h₂ with
    | lone hp _ => exact ih hp
    | joined htier hp hop _ _ =>
      obtain ⟨rfl, rfl⟩ := ih hp
      exact absurd habsent (not_absent_of_reads hop htier)
  | @joined _ _ _ _ _ op _ _ htier _ hop _ _ ih ih' =>
    cases h₂ with
    | lone hp habsent =>
      obtain ⟨rfl, rfl⟩ := ih hp
      exact absurd habsent (not_absent_of_reads hop htier)
    | @joined _ _ _ _ _ op' _ _ htier' hp hop' hp' _ =>
      obtain ⟨rfl, rfl⟩ := ih hp
      obtain ⟨hmark, rfl⟩ := hop.head_unique hop'
      obtain rfl : op = op' := BinaryOp.mark_injective (Kind.symbol.inj hmark)
      obtain ⟨rfl, rfl⟩ := ih' hp'
      exact ⟨rfl, rfl⟩
  -- arguments end behind the first where a parenthesis is next, and go on where a comma is
  | last _ h ih =>
    cases h₂ with
    | last hp h' =>
      obtain ⟨rfl, rfl⟩ := ih hp
      exact ⟨rfl, (h.head_unique h').2⟩
    | more hp h' _ =>
      obtain ⟨rfl, rfl⟩ := ih hp
      exact absurd (h.head_unique h').1 (by decide)
  | more _ h _ ih ih' =>
    cases h₂ with
    | last hp h' =>
      obtain ⟨rfl, rfl⟩ := ih hp
      exact absurd (h.head_unique h').1 (by decide)
    | more hp h' hp' =>
      obtain ⟨rfl, rfl⟩ := ih hp
      obtain ⟨-, rfl⟩ := h.head_unique h'
      obtain ⟨rfl, rfl⟩ := ih' hp'
      exact ⟨rfl, rfl⟩

/-! ### Where a tree may end -/

/-- Whether a name stands at the right end. -/
def endsInName : Tree form → Bool
  | read _ => true
  | assign _ value => value.endsInName
  | unary _ operand => operand.endsInName
  | binary _ _ right => right.endsInName
  | _ => false

/-- The next token does not carry the tree on, where a rule of this level reads it: it is no
operator that binds as tightly as the rule, none at all behind an assignment, and does nothing to
a name at the end. -/
structure Stops (level : Nat) (t : Tree form) (next : Option Kind) : Prop where
  operator : ∀ tier : Tier, tier.level ≤ level ∨ t.endsInAssignment = true → tier.Absent next
  name : t.endsInName = true → next.any Kind.actsOnName = false

/-- Where a tree ends that neither a name nor an assignment ends, and whose rule reads no
operators. -/
private theorem Stops.of_closed {level : Nat} {t : Tree form} (hlevel : level ≤ 1)
    (ha : t.endsInAssignment = false) (hn : t.endsInName = false) (next : Option Kind) :
    Stops level t next where
  operator tier h := by
    rcases h with h | h
    · have := tier.one_lt_level
      omega
    · rw [ha] at h
      cases h
  name h := by
    rw [hn] at h
    cases h

/-- A tree ends for a looser rule too, if no operator of the levels in between is next. -/
private theorem Stops.mono {level level' : Nat} {t : Tree form} {next : Option Kind}
    (h : Stops level t next)
    (habsent : ∀ tier : Tier, level < tier.level → tier.level ≤ level' → tier.Absent next) :
    Stops level' t next where
  operator tier htier := by
    by_cases hlevel : tier.level ≤ level
    · exact h.operator tier (.inl hlevel)
    · rcases htier with hle | ha
      · exact habsent tier (by omega) hle
      · exact h.operator tier (.inr ha)
  name := h.name

/-- A tree that ends for a rule ends for a tighter one too. -/
private theorem Stops.tighten {level level' : Nat} {t : Tree form} {next : Option Kind}
    (h : Stops level' t next) (hle : level ≤ level') : Stops level t next where
  operator tier htier := h.operator tier (htier.imp_left (Nat.le_trans · hle))
  name := h.name

/-- The tree that stands at a cursor is admitted, binds as tightly as its rule asks for, and ends
where the next token does not carry it on. -/
theorem Parses.admitted {rank : Rank form} {c c' : Cursor} {t : Tree form}
    (h : Parses rank c t c') :
    t.Admitted ∧ t.level ≤ rank.level ∧ Stops rank.level t c'.ahead := by
  induction h with
  | number _ | text _ | truth _ | step _ _ | callNone _ _ _ =>
    exact ⟨trivial, Nat.le_refl 0, .of_closed (Nat.zero_le 1) rfl rfl _⟩
  | read _ hname =>
    refine ⟨trivial, Nat.le_refl 0, ?_, fun _ => hname⟩
    rintro tier (h | h)
    · cases tier <;> cases h
    · cases h
  | group _ _ _ ih | call _ _ _ _ ih | last _ _ ih =>
    exact ⟨ih.1, Nat.le_refl 0, .of_closed (Nat.zero_le 1) rfl rfl _⟩
  | assign _ _ _ ih =>
    obtain ⟨hadmitted, -, hstops⟩ := ih
    -- the value was read by the loosest rule, so no operator at all is next
    exact ⟨hadmitted, Nat.le_refl 0,
      fun tier _ => hstops.operator tier (.inl (by cases tier <;> decide)), hstops.name⟩
  | plain _ _ ih =>
    obtain ⟨hadmitted, hlevel, hstops⟩ := ih
    exact ⟨hadmitted, Nat.le_succ_of_le hlevel,
      hstops.mono fun tier _ hle => absurd tier.one_lt_level (Nat.not_lt.mpr hle)⟩
  | unary _ _ ih =>
    obtain ⟨hadmitted, hlevel, hstops⟩ := ih
    exact ⟨⟨hlevel, hadmitted⟩, Nat.le_refl 1, hstops.operator, hstops.name⟩
  | @lone tier _ _ _ _ habsent ih =>
    obtain ⟨hadmitted, hlevel, hstops⟩ := ih
    have htier := tier.level_left
    refine ⟨hadmitted, ?_, hstops.mono fun tier' hlt hle => ?_⟩
    · show _ ≤ tier.level
      omega
    · have hle : tier'.level ≤ tier.level := hle
      exact Tier.level_injective (show tier'.level = tier.level by omega) ▸ habsent
  | @joined tier _ _ _ _ op left right htier _ hop _ hlast ih ih' =>
    obtain ⟨hleft, hleftLevel, hleftStops⟩ := ih
    obtain ⟨hright, hrightLevel, hrightStops⟩ := ih'
    subst htier
    have hlevel := op.tier.level_left
    -- an assignment would have taken the operator for its value
    have hends : left.endsInAssignment = false := by
      cases ha : left.endsInAssignment with
      | false => rfl
      | true => exact absurd (hleftStops.operator op.tier (.inr ha)) (not_absent_of_reads hop rfl)
    have hstops : Stops op.tier.level right _ := hrightStops.mono fun tier' hlt hle => by
      obtain ⟨hop, rfl⟩ := Tier.eq_comparison_of_rightLevel_lt (Tier.level_right _ ▸ hlt) hle
      exact hop ▸ hlast hop
    exact ⟨⟨by omega, by rwa [← Tier.level_right], hends, hleft, hright⟩, Nat.le_refl _,
      hstops.operator, hstops.name⟩
  | more _ _ _ ih ih' =>
    exact ⟨⟨ih.1, ih'.1⟩, Nat.le_refl 0, .of_closed (Nat.zero_le 1) rfl rfl _⟩

/-! ### Every admitted tree is found -/

/-- A tree read by a rule is read by a looser one too, where nothing carries it on for that one. -/
private theorem Parses.loosen {rank rank' : Rank .expression} {c c' : Cursor}
    {t : Tree .expression} (h : Parses rank c t c') (hle : rank.level ≤ rank'.level)
    (hstops : Stops rank'.level t c'.ahead) : Parses rank' c t c' := by
  -- from tier to tier, until the rule is the one that is asked for
  by_cases heq : rank.level = rank'.level
  · exact Rank.level_injective heq ▸ h
  · match rank' with
    | .primary => exact absurd (Nat.le_zero.mp hle) heq
    | .unary =>
      have hprimary : rank = .primary := Rank.level_injective (by
        simp only [Rank.level] at hle heq ⊢
        omega)
      subst hprimary
      exact .plain h.no_unary h
    | .tier tier =>
      have hleft := tier.level_left
      have hle : rank.level ≤ tier.level := hle
      have heq : rank.level ≠ tier.level := heq
      -- the rule for the left operand is the next tighter one
      have hle' : tier.left.level ≤ tier.level := by omega
      exact .lone (h.loosen (by omega) (hstops.tighten hle'))
        (hstops.operator tier (.inl (Nat.le_refl _)))
termination_by rank'.level
decreasing_by
  show _ < tier.level
  omega

/-- A token that ends every expression in front of it. -/
private theorem Stops.of_delimiter {level : Nat} {t : Tree form} {mark : Symbol}
    (h : mark = .rightParen ∨ mark = .comma) : Stops level t (some (.symbol mark)) := by
  rcases h with rfl | rfl
  · exact ⟨fun tier _ => by cases tier <;> rfl, fun _ => rfl⟩
  · exact ⟨fun tier _ => by cases tier <;> rfl, fun _ => rfl⟩

/-- An operator ends the operand in front of it, unless that ends in an assignment. -/
private theorem Stops.of_operator {level : Nat} {t : Tree form} {op : BinaryOp}
    (ha : t.endsInAssignment = false) (hlevel : level < op.tier.level) :
    Stops level t (some (.symbol op.mark)) where
  operator tier h := by
    refine Tier.absent_of_ne fun heq => ?_
    rcases h with h | h
    · rw [heq] at hlevel
      omega
    · rw [ha] at h
      cases h
  name _ := by cases op <;> rfl

/-- Behind the parenthesis that closes them nothing carries arguments on. -/
private theorem Stops.arguments {t : Tree .arguments} {next : Option Kind} :
    Stops Rank.arguments.level t next := by
  cases t <;> exact .of_closed (Nat.zero_le 1) rfl rfl _

/-- The loosest rule reads every tree. -/
theorem level_le (t : Tree .expression) : t.level ≤ Rank.whole.level := by
  cases t with
  | unary => exact (by decide : 1 ≤ 5)
  | binary op =>
    show op.tier.level ≤ Tier.logical.level
    cases op <;> decide
  | _ => exact Nat.zero_le _

private theorem level_arguments (t : Tree .arguments) : t.level ≤ Rank.arguments.level := by
  cases t <;> exact Nat.le_refl 0

/-- The tree is found where its tokens are, if it is admitted, unless the next token carries it
on. -/
private def Found (t : Tree form) : Prop :=
  t.Admitted → ∀ {rank : Rank form} {c c' : Cursor}, t.level ≤ rank.level →
    Reads c (t.kinds ++ closing form) c' → Stops rank.level t c'.ahead → Parses rank c t c'

section

variable {c c' : Cursor} {e left right : Tree .expression} {es : Tree .arguments}

/-- Such a tree is found by every rule that reads it. -/
private theorem Found.parses {rank : Rank .expression} (h : e.Found) (hadmitted : e.Admitted)
    (hlevel : e.level ≤ rank.level) (hreads : Reads c e.kinds c')
    (hstops : Stops rank.level e c'.ahead) : Parses rank c e c' :=
  h hadmitted hlevel (by rwa [closing, List.append_nil]) hstops

/-- Such arguments are found as they are. -/
private theorem Found.arguments (h : es.Found) (hadmitted : es.Admitted)
    (hreads : Reads c (es.kinds ++ [.symbol .rightParen]) c') : Parses .arguments c es c' :=
  h hadmitted es.level_arguments hreads .arguments

/-- In front of a closing parenthesis or a comma a tree is found whole. -/
private theorem Found.delimited {mark : Symbol} {c₁ : Cursor} (h : e.Found)
    (hadmitted : e.Admitted) (hreads : Reads c e.kinds c₁) (hmark : Reads c₁ [.symbol mark] c')
    (hdelimiter : mark = .rightParen ∨ mark = .comma) : Parses .whole c e c₁ :=
  h.parses hadmitted e.level_le hreads (Cursor.ahead_of_reads hmark ▸ .of_delimiter hdelimiter)

/-- Arguments that are found are found in a call. -/
private theorem Found.call (ih : es.Found) (name : String) : (call name es).Found := by
  intro hadmitted rank c c' hlevel hreads hstops
  simp only [kinds, closing, List.append_nil] at hreads
  obtain ⟨c₁, hname, hrest⟩ := hreads.uncons
  obtain ⟨c₂, hopen, harguments⟩ := hrest.uncons
  have hp : Parses .arguments c₂ es c' := ih.arguments hadmitted harguments
  -- an argument begins with no closing parenthesis
  have hne : c₂.ahead ≠ some (.symbol .rightParen) := by
    intro h
    have := hp.starts
    rw [h] at this
    cases this
  exact (Parses.call hname hopen hne hp).loosen hlevel hstops

/-- Operands that are found are found around an operator. -/
private theorem Found.binary (ih : left.Found) (ih' : right.Found) (op : BinaryOp) :
    (binary op left right).Found := by
  intro hadmitted rank c c' hlevel hreads hstops
  simp only [kinds, closing, List.append_nil] at hreads
  obtain ⟨hleftLevel, hrightLevel, hends, hleft, hright⟩ := hadmitted
  obtain ⟨c₁, hreadsLeft, hrest⟩ := hreads.of_append
  obtain ⟨c₂, hmark, hreadsRight⟩ := hrest.uncons
  have hlevelLeft := op.tier.level_left
  have hlevelRight : op.tier.right.level ≤ op.tier.level :=
    op.tier.level_right ▸ op.tier.rightLevel_le
  -- the operator ends the left operand, and what follows the tree ends the right one
  have hp : Parses op.tier.left c left c₁ := ih.parses hleft (by omega) hreadsLeft
    (Cursor.ahead_of_reads hmark ▸ .of_operator hends (by omega))
  have hp' : Parses op.tier.right c₂ right c' :=
    ih'.parses hright (op.tier.level_right ▸ hrightLevel) hreadsRight
      (.tighten ⟨hstops.operator, hstops.name⟩ (Nat.le_trans hlevelRight hlevel))
  have hjoined : Parses (.tier op.tier) c (Tree.binary op left right) c' :=
    .joined rfl hp hmark hp' fun _ => hstops.operator _ (.inl hlevel)
  exact hjoined.loosen hlevel hstops

end

/-- Every tree is found. -/
private theorem found (t : Tree form) : t.Found := by
  induction t with
  -- a primary is found by its own rule, and then by the looser one that is asked for
  | number n => exact fun _ _ _ _ hlevel hreads => (Parses.number hreads).loosen hlevel
  | text s => exact fun _ _ _ _ hlevel hreads => (Parses.text hreads).loosen hlevel
  | truth b => exact fun _ _ _ _ hlevel hreads => (Parses.truth hreads).loosen hlevel
  | read name =>
    intro _ rank c c' hlevel hreads hstops
    exact (Parses.read hreads (hstops.name rfl)).loosen hlevel hstops
  | step name increment =>
    intro _ rank c c' hlevel hreads hstops
    obtain ⟨c₁, hname, hmark⟩ := hreads.uncons
    exact (Parses.step hname hmark).loosen hlevel hstops
  | callNone name =>
    intro _ rank c c' hlevel hreads hstops
    obtain ⟨c₁, hname, hrest⟩ := hreads.uncons
    obtain ⟨c₂, hopen, hclose⟩ := hrest.uncons
    exact (Parses.callNone hname hopen hclose).loosen hlevel hstops
  -- the parenthesis in front of the inner tree, and the one that ends it
  | group inner ih =>
    intro hadmitted rank c c' hlevel hreads hstops
    simp only [kinds, closing, List.append_nil] at hreads
    obtain ⟨c₁, hopen, hrest⟩ := hreads.uncons
    obtain ⟨c₂, hinner, hclose⟩ := hrest.of_append
    exact (Parses.group hopen (ih.delimited hadmitted hinner hclose (.inl rfl)) hclose).loosen
      hlevel hstops
  | call name arguments ih => exact ih.call name
  -- whatever ends the assignment ends its value
  | assign name value ih =>
    intro hadmitted rank c c' hlevel hreads hstops
    simp only [kinds, closing, List.append_nil] at hreads
    obtain ⟨c₁, hname, hrest⟩ := hreads.uncons
    obtain ⟨c₂, hequal, hvalue⟩ := hrest.uncons
    have hp : Parses .whole c₂ value c' := ih.parses hadmitted value.level_le hvalue
      ⟨fun tier _ => hstops.operator tier (.inr rfl), hstops.name⟩
    exact (Parses.assign hname hequal hp).loosen hlevel hstops
  -- the operand is read by the same rule again
  | unary op operand ih =>
    intro hadmitted rank c c' hlevel hreads hstops
    simp only [kinds, closing, List.append_nil] at hreads
    obtain ⟨c₁, hmark, hoperand⟩ := hreads.uncons
    have hp : Parses .unary c₁ operand c' := ih.parses hadmitted.2 hadmitted.1 hoperand
      (.tighten ⟨hstops.operator, hstops.name⟩ hlevel)
    exact (Parses.unary hmark hp).loosen hlevel hstops
  | binary op left right ih ih' => exact ih.binary ih' op
  | last argument ih =>
    intro hadmitted rank c c' _ hreads _
    obtain ⟨c₁, hargument, hclose⟩ := hreads.of_append
    cases rank
    exact .last (ih.delimited hadmitted hargument hclose (.inl rfl)) hclose
  -- a comma ends the argument, and the others follow
  | more argument others ih ih' =>
    intro hadmitted rank c c' _ hreads _
    simp only [kinds, closing, List.append_assoc] at hreads
    obtain ⟨c₁, hargument, hrest⟩ := hreads.of_append
    obtain ⟨c₂, hcomma, hothers⟩ := hrest.uncons
    cases rank
    exact .more (ih.delimited hadmitted.1 hargument hcomma (.inr rfl)) hcomma
      (ih'.arguments hadmitted.2 hothers)

/-- Every admitted tree is found where its tokens are, unless the next token carries it on. -/
theorem Parses.of_reads {rank : Rank form} {c c' : Cursor} {t : Tree form}
    (hadmitted : t.Admitted) (hlevel : t.level ≤ rank.level)
    (hreads : Reads c (t.kinds ++ closing form) c') (hstops : Stops rank.level t c'.ahead) :
    Parses rank c t c' :=
  t.found hadmitted hlevel hreads hstops

private theorem all_inExpression (t : Tree form) : t.kinds.all Kind.inExpression = true := by
  -- nothing of an expression is a keyword, apart from the two for truth
  induction t with
  | number | text | read | callNone => rfl
  | truth b | step _ b => cases b <;> rfl
  | group _ ih | call _ _ ih | assign _ _ ih =>
    simp [kinds, Kind.inExpression, -List.all_eq_true, ih]
  | last _ ih => exact ih
  | unary op _ ih =>
    cases op <;> simp [kinds, Kind.inExpression, UnaryOp.mark, -List.all_eq_true, ih]
  | binary op _ _ ih ih' =>
    cases op <;> simp [kinds, Kind.inExpression, BinaryOp.mark, -List.all_eq_true, ih, ih']
  | more _ _ ih ih' => simp [kinds, Kind.inExpression, -List.all_eq_true, ih, ih']

/-- A tree is written with tokens that may stand in an expression. -/
theorem inExpression_of_mem_kinds {t : Tree form} {kind : Kind} (h : kind ∈ t.kinds) :
    kind.inExpression = true :=
  List.all_eq_true.mp t.all_inExpression kind h

/-- No token of a tree begins a comment. -/
theorem kinds_isPlain (t : Tree form) : ∀ k ∈ t.kinds, k.isPlain = true :=
  fun _ hk => Kind.isPlain_of_inExpression (inExpression_of_mem_kinds hk)

/-- The tokens that are read for a tree are the tree's, comments aside. -/
theorem kinds_of_reads {t : Tree form} {c c' : Cursor} (h : Reads c t.kinds c') :
    t.kinds = (Token.kept (c'.passedSince c.position)).map (·.kind) := by
  have hkinds : (t.kinds.map Kind.bare).map (·.kind) = t.kinds := by
    rw [List.map_map]
    exact List.map_id _
  rw [Token.kinds_kept, h.passedSince, hkinds]
  refine (List.filter_eq_self.mpr fun kind hk => ?_).symm
  rw [Kind.isComment_of_inExpression (inExpression_of_mem_kinds hk)]
  rfl

/-- Where nothing follows, nothing carries a tree on. -/
theorem Stops.atEnd (level : Nat) (t : Tree form) : Stops level t none :=
  ⟨fun _ _ => rfl, fun _ => rfl⟩

/-- Whether a whole expression ends in front of the token: the token is no operator, and does
nothing to a name at the end of the expression. -/
def EndsBefore (t : Tree form) (next : Option Kind) : Prop :=
  (∀ tier : Tier, tier.Absent next) ∧
    (t.endsInName = true → next.any Kind.actsOnName = false)

/-- Whether an expression ends in front of a token can be computed. -/
instance (t : Tree form) (next : Option Kind) : Decidable (t.EndsBefore next) :=
  have : Decidable (∀ tier : Tier, tier.Absent next) :=
    decidable_of_iff (∀ tier ∈ [Tier.multiplicative, .additive, .comparison, .logical],
      next.bind tier.operator? = none)
      ⟨fun h tier => h tier (by cases tier <;> simp), fun h tier _ => h tier⟩
  inferInstanceAs (Decidable (_ ∧ _))

/-- A whole expression is read by the loosest rule. -/
theorem stops_whole_iff {t : Tree form} {next : Option Kind} :
    Stops Rank.whole.level t next ↔ t.EndsBefore next := by
  constructor
  · intro h
    exact ⟨fun tier => h.operator tier (.inl (by cases tier <;> decide)), h.name⟩
  · intro h
    exact ⟨fun tier _ => h.1 tier, h.2⟩

/-- An opening brace ends every expression. -/
theorem endsBefore_brace {t : Tree form} : t.EndsBefore (some (.symbol .leftBrace)) :=
  ⟨fun tier => by cases tier <;> rfl, fun _ => rfl⟩

/-- A keyword ends every expression. -/
theorem endsBefore_keyword {t : Tree form} {word : Keyword} :
    t.EndsBefore (some (.keyword word)) :=
  ⟨fun tier => by cases tier <;> rfl, fun _ => rfl⟩

/-- No two admitted trees are written with the same tokens. -/
theorem kinds_injective {t u : Tree .expression} (ht : t.Admitted) (hu : u.Admitted)
    (h : t.kinds = u.kinds) : t = u := by
  -- both trees stand at the start of a sequence that holds nothing but their tokens
  have hbare : Token.bare (Cursor.start (t.kinds.map Kind.bare)).rest =
      t.kinds.map Kind.bare ++ [] := by
    rw [Cursor.start, Token.bare_map_bare t.kinds_isPlain, List.append_nil]
  obtain ⟨c', hreads, hend⟩ := Cursor.reads_of_bare t.kinds_isPlain hbare
  have hstop : c'.ahead = none := Cursor.ahead_of_bare_nil hend
  have hparse : ∀ v : Tree .expression, v.Admitted → v.kinds = t.kinds →
      Parses .whole (.start (t.kinds.map Kind.bare)) v c' := by
    intro v hv hkinds
    refine .of_reads hv v.level_le ?_ (hstop ▸ .atEnd _ v)
    rwa [hkinds, closing, List.append_nil]
  exact ((hparse t ht rfl).unique (hparse u hu h.symm)).1

end Tree

end Tern
