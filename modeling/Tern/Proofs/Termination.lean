import Tern.Proofs.Comments
import Tern.Proofs.WhileFree

/-!
# Programs without `while` come to an end

Calls jump to tokens that have nothing to do with those being read, so no measure of the program
text alone goes down. What goes down is, in this order: how many more calls may be entered, how many
tokens are ahead, and whether a whole phrase is read or only the expression it begins with. Rounds
of the other loops need no measure, as their number is known before the first.

Every rule of evaluation is looked at under the assumption that the phrases inside come to an end,
with fewer tokens ahead or in a call; `Within` is that assumption. The induction that discharges it
is in `Phrase.settles`.

## Key results

- `Within.call`, `Within.logical`, `Within.firstOf`, `Within.statements`: the rules come to an end
  if the phrases inside do
- `Phrase.settles`: every phrase without `while` comes to an end
- `Session.terminates`: every program without `while` comes to an end
-/

namespace Tern

/-! ### What the rules have to show -/

/-- What a phrase may give. -/
def Phrase.Gives : Phrase α → α → Prop
  | .expression, v | .additive, v | .multiplicative, v | .unary, v => v.WhileFree
  | .arguments, vs => ∀ v ∈ vs, v.WhileFree
  | .arms, v? | .statements _, v? => ∀ v ∈ v?, v.WhileFree

/-- The result is as `P` says, at most `n` tokens are ahead, and the session is tame. -/
structure Leaves (limit calls n : Nat) (P : α → Prop) (a : α) (c : Cursor) (s : Session) :
    Prop where
  result : P a
  cursor : c.Clear n
  session : s.Tame limit calls

/-- With at most `n` tokens ahead, the readings come to an end. If there is a token ahead, they
read at least one. -/
def Advances (limit calls n : Nat) (P : α → Prop) (x : Nat → Reading α) : Prop :=
  ∀ ⦃c : Cursor⦄ ⦃s : Session⦄, c.Clear n → s.Tame limit calls →
    Reading.Settles x c s (Leaves limit calls (n - 1) P)

/-- What becomes of the tokens ahead of `c` when they are offered to a construct: unless it declines
them, it reads at least one. -/
inductive Offered (limit calls n : Nat) (c : Cursor) : Outcome → Cursor → Session → Prop
  | declined {s : Session} : s.Tame limit calls → Offered limit calls n c .declined c s
  | done {m : Nat} {c' : Cursor} {s : Session} : n = m + 1 → c'.Clear m → s.Tame limit calls →
    Offered limit calls n c .done c' s
  | returned {m : Nat} {c' : Cursor} {s : Session} {v : Value} : n = m + 1 → c'.Clear m →
    s.Tame limit calls → v.WhileFree → Offered limit calls n c (.returned v) c' s

/-- With at most `n` tokens ahead, the construct comes to an end. -/
def Offers (limit calls n : Nat) (x : Nat → Reading Outcome) : Prop :=
  ∀ ⦃c : Cursor⦄ ⦃s : Session⦄, c.Clear n → s.Tame limit calls →
    Reading.Settles x c s (Offered limit calls n c)

/-- With at most `n` tokens ahead and `calls` more calls, every phrase comes to an end. -/
def Settled (limit calls n : Nat) : Prop :=
  ∀ {α : Type} (phrase : Phrase α), Advances limit calls n phrase.Gives fun k => Phrase.run k phrase

/-- The phrases inside come to an end: with fewer tokens ahead, or with fewer calls to go. -/
structure Within (limit calls n : Nat) : Prop where
  shorter : ∀ m < n, Settled limit calls m
  deeper : ∀ fewer < calls, ∀ m, Settled limit fewer m

namespace Within

variable {limit calls n m : Nat} (h : Within limit calls n) {c : Cursor} {s : Session}

include h

/-! ### Blocks and calls -/

/-- Statements in a scope that is dropped behind them. -/
private theorem body {tokens : List Token} (htokens : (Cursor.start tokens).Clear m) (hm : m < n)
    (hs : s.Tame limit calls) :
    Eval.Settles (fun k => Reading.onTokens tokens (Phrase.run k (.statements true))) s
      fun v? t => (∀ v ∈ v?, v.WhileFree) ∧ { t with env := t.env.pop }.Tame limit calls := by
  refine Reading.Settles.onTokens ?_
  exact (h.shorter m hm (.statements true) htokens hs).mono fun _ _ _ ht =>
    ⟨ht.result, ht.session.pop⟩

theorem block {tokens : List Token} (htokens : (Cursor.start tokens).Clear m) (hm : m < n)
    (hs : s.Tame limit calls) :
    Eval.Settles (fun k => Eval.block (Phrase.run k) tokens) s
      fun v? t => (∀ v ∈ v?, v.WhileFree) ∧ t.Tame limit calls :=
  .inScope (h.body htokens hm hs.push)

/-- Calls. How long the body of a function is does not matter, as one call fewer may be entered
there. -/
theorem call {function : Callable} {arguments : List Value} (hbody : function.body.WhileFree)
    (harguments : ∀ v ∈ arguments, v.WhileFree) (hs : s.Tame limit calls) :
    Eval.Settles (fun k => Eval.call (Phrase.run k) function arguments) s
      fun v t => v.WhileFree ∧ t.Tame limit calls := by
  -- the check neither evaluates nor changes anything
  have hcheck : Eval.Settles (fun _ => Eval.orRaise (function.check arguments)) s
      fun _ t => t.Tame limit calls := .orRaise fun _ _ => hs
  unfold Eval.call
  split
  · exact hs.native harguments
  · exact .bind hcheck fun _ _ ht => ht.native harguments
  · rename_i tokens htokens
    rw [htokens] at hbody
    refine .bind hcheck fun _ t ht => .getting ?_
    -- at the limit there is a fault, which is an end as well
    split
    · exact .raise
    · rename_i hlimit
      have hlimit_eq := ht.limit_eq
      have hcalls_eq := ht.calls_eq
      obtain ⟨fewer, rfl⟩ : ∃ fewer, calls = fewer + 1 := ⟨calls - 1, by omega⟩
      -- inside, `fewer` calls may be entered, and the induction is on that number first
      have hinner : Within limit fewer (tokens.length + 1) :=
        ⟨fun k _ => h.deeper fewer (by omega) k, fun less hless => h.deeper less (by omega)⟩
      have htokens : (Cursor.start tokens).Clear tokens.length := ⟨Nat.le_refl _, hbody⟩
      refine .bind (P := fun v? t => (∀ v ∈ v?, v.WhileFree) ∧ t.Tame limit (fewer + 1))
        (.inCall _ (.inScope ?_)) fun v? u ⟨hv, hu⟩ => .pure ⟨?_, hu⟩
      · refine .bind ((ht.enter rfl).push.bindParameters harguments) fun _ u hu => ?_
        exact (hinner.body htokens (Nat.lt_succ_self _) hu).mono fun _ _ ⟨hv, hw⟩ =>
          ⟨hv, hw.leave (by omega)⟩
      -- what the body returns is the value of the call, and that of no `return` is nothing
      · cases v? with
        | none => trivial
        | some v => exact hv v rfl

/-! ### Expressions -/

/-- An expression with fewer tokens ahead. -/
theorem value (hm : m < n) :
    Advances limit calls m Value.WhileFree fun k => Phrase.run k .expression :=
  h.shorter m hm .expression

theorem callArguments (hm : m < n) (hc : c.Clear m) (hs : s.Tame limit calls) :
    Reading.Settles (fun k => Reading.callArguments (Phrase.run k)) c s
      (Leaves limit calls m fun vs => ∀ v ∈ vs, v.WhileFree) := by
  refine .accept (fun c₁ hclose => ?_) fun _ => ?_
  · exact .pure ⟨by simp, (hc.of_reads hclose).mono (Nat.sub_le ..), hs⟩
  · exact (h.shorter m hm .arguments hc hs).mono fun _ _ _ ht =>
      ⟨ht.result, ht.cursor.mono (Nat.sub_le ..), ht.session⟩

/-- A name that is behind the cursor, so it may be all that there was to read. -/
theorem named (name : String) (span : Span) (hm : m < n) (hc : c.Clear m)
    (hs : s.Tame limit calls) :
    Reading.Settles (fun k => Reading.named (Phrase.run k) name span) c s
      (Leaves limit calls m Value.WhileFree) := by
  refine .session ?_
  split
  · exact .raiseAt
  · rename_i b hb
    have hvalue := hs.env.all.lookup hb
    -- `++` and `--` differ in what is done to the number only
    have hstep : ∀ token increment, c.peek = some token →
        Reading.Settles (fun _ => do
          let _ ← Reading.next
          Reading.locate span (Eval.step name b increment)) c s
          (Leaves limit calls m Value.WhileFree) := by
      intro token increment hpeek
      refine .step hpeek fun c₁ hnext => .locate span (.lift ?_)
      obtain ⟨m, rfl, hc₁⟩ := hc.of_next? hnext
      exact (hs.step hvalue increment).mono fun v t ⟨hv, ht⟩ => ⟨hv, hc₁.mono (by omega), ht⟩
    refine .peekKind ?_
    split
    -- a call, for which the arguments are evaluated with fewer tokens ahead
    · rename_i hkind
      obtain ⟨token, hpeek, -⟩ := Option.map_eq_some_iff.mp hkind
      -- the function is the one that was found before the arguments are evaluated
      split
      · rename_i function hfunction
        rw [hfunction] at hvalue
        refine .step hpeek fun c₁ hnext => .locate span ?_
        obtain ⟨m, rfl, hc₁⟩ := hc.of_next? hnext
        refine .bind (h.callArguments (by omega) hc₁ hs) fun vs c₂ t ht => .lift ?_
        exact (h.call hvalue ht.result ht.session).mono fun v u ⟨hv, hu⟩ =>
          ⟨hv, ht.cursor.mono (by omega), hu⟩
      · exact .raiseAt
    -- an assignment, whose value has fewer tokens ahead as well
    · rename_i hkind
      obtain ⟨token, hpeek, -⟩ := Option.map_eq_some_iff.mp hkind
      split
      · exact .raiseAt
      · refine .step hpeek fun c₁ hnext => ?_
        obtain ⟨m, rfl, hc₁⟩ := hc.of_next? hnext
        refine .bind (h.value (by omega) hc₁ hs) fun v c₂ t ht => ?_
        refine .bind (.locate span (.lifted (ht.session.assign ht.result))) ?_
        rintro _ _ u ⟨rfl, hu⟩
        exact .pure ⟨ht.result, ht.cursor.mono (by omega), hu⟩
    · rename_i hkind
      obtain ⟨token, hpeek, -⟩ := Option.map_eq_some_iff.mp hkind
      exact hstep token true hpeek
    · rename_i hkind
      obtain ⟨token, hpeek, -⟩ := Option.map_eq_some_iff.mp hkind
      exact hstep token false hpeek
    · exact .pure ⟨hvalue, hc, hs⟩

theorem primary :
    Advances limit calls n Value.WhileFree fun k => Reading.primary (Phrase.run k) := by
  intro c s hc hs
  refine .here (.next (fun _ => .raiseAt) fun token c₁ hnext => ?_)
  -- one token is read in any case, so fewer are left for what follows
  obtain ⟨m, rfl, hc₁⟩ := hc.of_next? hnext
  obtain ⟨kind, place⟩ := token
  cases kind with
  | symbol mark =>
    cases mark with
    | leftParen =>
      refine .bind (h.value (by omega) hc₁ hs) fun v c₂ t ht => .expect fun c₃ hclose => ?_
      exact .pure ⟨ht.result, (ht.cursor.of_reads hclose).mono (by simp; omega), ht.session⟩
    | _ => exact .raiseAt
  | keyword word =>
    cases word with
    | trueKw | falseKw => exact .pure ⟨trivial, hc₁, hs⟩
    | _ => exact .raiseAt
  | str _ | number _ => exact .pure ⟨trivial, hc₁, hs⟩
  | ident name => exact h.named name _ (by omega) hc₁ hs
  | unknown _ | lineComment _ => exact .raiseAt

theorem unary : Advances limit calls n Value.WhileFree fun k => Reading.unary (Phrase.run k) := by
  intro c s hc hs
  refine .peek ?_
  cases hpeek : c.peek with
  | none => exact h.primary hc hs
  | some token =>
    simp only
    -- an operator is read, so the operand has fewer tokens ahead
    split
    · exact h.primary hc hs
    · refine .step hpeek fun c₁ hnext => ?_
      obtain ⟨m, rfl, hc₁⟩ := hc.of_next? hnext
      refine .bind (h.shorter m (by omega) .unary hc₁ hs) fun v c₂ t ht => ?_
      refine .computed fun w hw => ?_
      have hfree := Value.whileFree_of_computed (UnaryOp.computed_apply _ _) hw
      exact ⟨hfree, ht.cursor.mono (by omega), ht.session⟩

omit h in
/-- A tier, given its operands: behind an operator there are fewer tokens ahead. -/
private theorem rightGrouped {tier : Tier} {operand others : Nat → Reading Value}
    (hoperand : Advances limit calls n Value.WhileFree operand)
    (hothers : ∀ m < n, Advances limit calls m Value.WhileFree others) :
    Advances limit calls n Value.WhileFree
      fun k => Reading.rightGrouped tier (operand k) (others k) := by
  intro c s hc hs
  refine .bind (hoperand hc hs) fun left c₁ t ht => ?_
  refine .operatorAhead (.pure ht) fun op token hpeek => .step hpeek fun c₂ hnext => ?_
  obtain ⟨m, hm, hc₂⟩ := ht.cursor.of_next? hnext
  refine .bind (hothers m (by omega) hc₂ ht.session) fun right c₃ u hu => ?_
  refine .computed fun v hv => ?_
  have hfree := Value.whileFree_of_computed (op.computed_apply _ _) hv
  exact ⟨hfree, hu.cursor.mono (by omega), hu.session⟩

theorem multiplicative :
    Advances limit calls n Value.WhileFree fun k => Reading.multiplicative (Phrase.run k) :=
  rightGrouped h.unary fun m hm => h.shorter m hm .multiplicative

theorem additive :
    Advances limit calls n Value.WhileFree fun k => Reading.additive (Phrase.run k) :=
  rightGrouped h.multiplicative fun m hm => h.shorter m hm .additive

theorem comparison :
    Advances limit calls n Value.WhileFree fun k => Reading.comparison (Phrase.run k) := by
  intro c s hc hs
  refine .bind (h.additive hc hs) fun left c₁ t ht => ?_
  refine .operatorAhead (.pure ht) fun op token hpeek => .step hpeek fun c₂ hnext => ?_
  obtain ⟨m, hm, hc₂⟩ := ht.cursor.of_next? hnext
  -- the right side is no phrase of its own, but its rule with fewer tokens ahead
  have hless : Within limit calls m := ⟨fun k hk => h.shorter k (by omega), h.deeper⟩
  refine .bind (hless.additive hc₂ ht.session) fun right c₃ u hu => ?_
  refine .operatorAhead (.computed fun v hv => ?_) fun _ _ _ => .raiseAt
  have hfree := Value.whileFree_of_computed (op.computed_apply _ _) hv
  exact ⟨hfree, hu.cursor.mono (by omega), hu.session⟩

theorem logical :
    Advances limit calls n Value.WhileFree fun k => Reading.logical (Phrase.run k) :=
  rightGrouped h.comparison fun m hm => h.shorter m hm .expression

/-- An expression with all of the tokens ahead, as other phrases begin with it: its rule has been
looked at already. -/
theorem expression : Advances limit calls n Value.WhileFree fun k => Phrase.run k .expression :=
  fun _ _ hc hs => .of_succ (h.logical hc hs)

theorem arguments :
    Advances limit calls n (fun vs => ∀ v ∈ vs, v.WhileFree)
      fun k => Reading.arguments (Phrase.run k) := by
  intro c s hc hs
  refine .bind (h.expression hc hs) fun v c₁ t ht => .accept (fun c₂ hclose => ?_) fun _ => ?_
  · refine .pure ⟨by simpa using ht.result, ?_, ht.session⟩
    exact (ht.cursor.of_reads hclose).mono (Nat.sub_le ..)
  · refine .expect fun c₂ hcomma => ?_
    obtain ⟨m, hm, hc₂⟩ := ht.cursor.step hcomma
    refine .bind (h.shorter m (by omega) .arguments hc₂ ht.session) fun vs c₃ u hu => .pure ?_
    have hall := List.forall_mem_cons.mpr ⟨ht.result, hu.result⟩
    exact ⟨hall, hu.cursor.mono (by omega), hu.session⟩

/-! ### Constructs -/

theorem arms :
    Advances limit calls n (fun v? => ∀ v ∈ v?, v.WhileFree)
      fun k => Reading.arms (Phrase.run k) := by
  intro c s hc hs
  refine .bind (h.expression hc hs) fun condition c₁ t ht => .expect fun c₂ hbrace => ?_
  obtain ⟨m, hm, hc₂⟩ := ht.cursor.step hbrace
  split
  · refine .scan fun body c₃ hblock => ?_
    obtain ⟨hbody, hc₃⟩ := hc₂.of_block hblock
    -- the block is part of the tokens ahead, so it has fewer than were ahead of the condition
    refine .bind (.lifted (h.block hbody (by omega) ht.session)) ?_
    -- with a value the arm has returned, without one the other arms are skipped
    rintro v? _ u ⟨rfl, hv, hu⟩
    cases v? with
    | some v => exact .pure ⟨hv, hc₃.mono (by omega), hu⟩
    | none =>
      refine .scan fun _ c₄ hskip => .pure ⟨nofun, ?_, hu⟩
      exact (hc₃.of_moves .skipArms hskip).mono (by omega)
  · refine .scan fun _ c₃ hskip => ?_
    have hc₃ := hc₂.of_moves .skipBlock hskip
    -- behind `else` there are fewer tokens, for another arm as for a block
    refine .accept (fun c₄ helse => ?_) fun _ => ?_
    · obtain ⟨m, rfl, hc₄⟩ := hc₃.step helse
      refine .accept (fun c₅ hif => ?_) fun _ => ?_
      · obtain ⟨m, rfl, hc₅⟩ := hc₄.step hif
        refine (h.shorter m (by omega) .arms hc₅ ht.session).mono fun v? c' u hu => ?_
        exact ⟨hu.result, hu.cursor.mono (by omega), hu.session⟩
      · refine .expect fun c₅ hbrace => .scan fun body c₆ hblock => .lift ?_
        obtain ⟨m, rfl, hbody, hc₆⟩ := hc₄.braced hbrace hblock
        exact (h.block hbody (by omega) ht.session).mono fun v? u ⟨hv, hu⟩ =>
          ⟨hv, hc₆.mono (by omega), hu⟩
    · exact .pure ⟨nofun, hc₃.mono (by omega), ht.session⟩

omit h in
/-- A construct that begins with a keyword has fewer tokens ahead behind it. -/
private theorem after {keyword : Keyword} {x : Nat → Reading Outcome} (hc : c.Clear n)
    (hs : s.Tame limit calls)
    (hx : ∀ m c', n = m + 1 → c'.Clear m → Reading.Settles x c' s (Offered limit calls n c)) :
    Reading.Settles (fun k => Reading.after keyword (x k)) c s (Offered limit calls n c) := by
  refine .accept (fun c₁ hkeyword => ?_) fun _ => .pure (.declined hs)
  obtain ⟨m, hn, hc₁⟩ := hc.step hkeyword
  exact hx m c₁ hn hc₁

private theorem assertion : Offers limit calls n fun k => Reading.assertion (Phrase.run k) := by
  intro c s hc hs
  refine after hc hs fun m c₁ hn hc₁ => .getting ?_
  refine .bind (h.value (by omega) hc₁ hs) fun v c₂ t ht => ?_
  split
  · exact .pure (.done hn (ht.cursor.mono (Nat.sub_le ..)) ht.session)
  · exact .getting .raiseAt

/-- A count or a bound. -/
private theorem bound (hm : m < n) :
    Advances limit calls m (fun _ => True) fun k => Reading.bound (Phrase.run k) := by
  intro c s hc hs
  refine .here (.bind (h.value hm hc hs) fun v c₁ t ht => ?_)
  split
  · exact .pure ⟨trivial, ht.cursor, ht.session⟩
  · exact .raiseAt

omit h in
/-- The rounds of a loop, whose number is known: every one of them keeps the session tame. -/
private theorem rounds {round : Nat → Nat → Eval (Option Value)} {c' : Cursor} (hn : n = m + 1)
    (hc' : c'.Clear m) (hs : s.Tame limit calls)
    (hround : ∀ i t, t.Tame limit calls → Eval.Settles (fun k => round k i) t
      fun v? u => (∀ v ∈ v?, v.WhileFree) ∧ u.Tame limit calls) (count : Nat) :
    Eval.Settles (fun k => Eval.iterate (fun i => do return (← round k i).map Outcome.returned)
      (return .done) 0 count) s fun outcome t => Offered limit calls n c outcome c' t := by
  -- the cursor stands behind the loop already, and the rounds do not move it
  refine .iterate (I := fun t => t.Tame limit calls) (fun i t ht => ?_)
    (fun t ht => .pure (.done hn hc' ht)) hs 0 count
  refine .bind (hround i t ht) fun v? u ⟨hv, hu⟩ => .pure ⟨hu, fun outcome houtcome => ?_⟩
  obtain ⟨v, hsome, rfl⟩ := Option.map_eq_some_iff.mp houtcome
  exact .returned hn hc' hu (hv v hsome)

private theorem counted : Offers limit calls n fun k => Reading.counted (Phrase.run k) := by
  intro c s hc hs
  refine after hc hs fun m c₁ hn hc₁ => ?_
  refine .bind (h.bound (by omega) hc₁ hs) fun count c₂ t ht => ?_
  refine .expect fun c₃ hbrace => .scan fun body c₄ hblock => .lift ?_
  obtain ⟨m', hm', hbody, hc₄⟩ := ht.cursor.braced hbrace hblock
  exact rounds hn (hc₄.mono (by omega)) ht.session (fun _ _ ht => h.block hbody (by omega) ht) _

private theorem rangeRound {name? : Option String} {tokens : List Token}
    (htokens : (Cursor.start tokens).Clear m) (hm : m < n) (hs : s.Tame limit calls) (i : Number) :
    Eval.Settles (fun k => Eval.rangeRound (Phrase.run k) name? tokens i) s
      fun v? t => (∀ v ∈ v?, v.WhileFree) ∧ t.Tame limit calls := by
  refine .inScope ?_
  cases name? with
  | some name => exact .bind (hs.push.define trivial) fun _ t ht => h.body htokens hm ht
  | none => exact h.body htokens hm hs.push

/-- A range loop from its block on. -/
private theorem ranged (first last : Number) (name? : Option String) {c₁ : Cursor}
    (hn : n = m + 1) (hc : c₁.Clear m) (hs : s.Tame limit calls) :
    Reading.Settles (fun k => do
      Reading.expect (.symbol .leftBrace) "`\x7b` after range"
      let body ← Reading.scan Scan.block
      Eval.iterate (fun i => do
        return (← Eval.rangeRound (Phrase.run k) name? body (Int64.ofInt (first.toInt + i))).map
          Outcome.returned) (return .done) 0 (last.toInt - first.toInt).toNat) c₁ s
      (Offered limit calls n c) := by
  refine .expect fun c₂ hbrace => .scan fun body c₃ hblock => .lift ?_
  obtain ⟨m', rfl, hbody, hc₃⟩ := hc.braced hbrace hblock
  exact rounds hn (hc₃.mono (by omega)) hs (fun _ _ ht => h.rangeRound hbody (by omega) ht _) _

private theorem range : Offers limit calls n fun k => Reading.range (Phrase.run k) := by
  intro c s hc hs
  refine after hc hs fun m c₁ hn hc₁ => ?_
  -- both bounds are read before the rounds begin, and leave fewer tokens
  refine .bind (h.bound (by omega) hc₁ hs) fun first c₂ t ht => .expect fun c₃ hto => ?_
  have hc₃ := (ht.cursor.of_reads hto).mono (Nat.sub_le ..)
  refine .bind (h.bound (by omega) hc₃ ht.session) fun last c₄ u hu => ?_
  have hc₄ : c₄.Clear m := hu.cursor.mono (by omega)
  refine .accept (fun c₅ hwith => ?_) fun _ => ?_
  · simp only [if_true, bind_map_left]
    refine .scan fun name c₆ hname => ?_
    have hc₆ := (hc₄.of_reads hwith).of_moves (.expecting ..) hname
    exact h.ranged first last (some name) hn (hc₆.mono (Nat.sub_le ..)) hu.session
  · exact h.ranged first last none hn hc₄ hu.session

private theorem conditional :
    Offers limit calls n fun k => Reading.conditional (Phrase.run k) := by
  intro c s hc hs
  refine after hc hs fun m c₁ hn hc₁ => ?_
  refine .bind (h.shorter m (by omega) .arms hc₁ hs) fun v? c₂ t ht => .pure ?_
  have hc₂ := ht.cursor.mono (Nat.sub_le ..)
  cases v? with
  | none => exact .done hn hc₂ ht.session
  | some v => exact .returned hn hc₂ ht.session (ht.result v rfl)

/-- A declaration behind its keyword. -/
private theorem declared (isFinal : Bool) (hn : n = m + 1) {c₁ : Cursor} (hc : c₁.Clear m)
    (hs : s.Tame limit calls) :
    Reading.Settles (fun k => Reading.declared (Phrase.run k) isFinal) c₁ s
      (Offered limit calls n c) := by
  refine .here (.scan fun name c₂ hname => .scan fun type c₃ htype => .expect fun c₄ hequal => ?_)
  have hc₃ := (hc.of_moves (.expecting ..) hname).of_moves .typed htype
  obtain ⟨m', rfl, hc₄⟩ := hc₃.step hequal
  refine .bind (h.value (by omega) hc₄ hs) fun v c₅ t ht => ?_
  refine .bind (.locate _ (.lifted (ht.session.define ht.result))) ?_
  rintro _ _ u ⟨rfl, hu⟩
  exact .pure (.done hn (ht.cursor.mono (by omega)) hu)

private theorem variableDeclaration :
    Offers limit calls n fun k => Reading.variableDeclaration (Phrase.run k) := by
  intro c s hc hs
  refine .accept (fun c₁ hvar => ?_) fun _ => ?_
  · obtain ⟨m, hn, hc₁⟩ := hc.step hvar
    exact h.declared false hn hc₁ hs
  · exact after hc hs fun m c₁ hn hc₁ => h.declared true hn hc₁ hs

omit h in
/-- The body of a function that is declared is part of the tokens ahead. -/
private theorem functionDeclaration :
    Offers limit calls n fun _ => Reading.functionDeclaration := by
  intro c s hc hs
  refine after hc hs fun m c₁ hn hc₁ => .here (.scan fun name c₂ hname => ?_)
  refine .expect fun c₃ hopen => .scan fun parameters c₄ hparameters => ?_
  refine .scan fun returns c₅ hreturns => .expect fun c₆ hbrace => .scan fun body c₇ hblock => ?_
  -- nothing is evaluated here, so the cursor is all there is to follow
  have hc₃ := (hc₁.of_moves (.expecting ..) hname).of_reads hopen
  have hc₅ := (hc₃.of_moves .parameters hparameters).of_moves .typed hreturns
  obtain ⟨m', hm', hbody, hc₇⟩ := hc₅.braced hbrace hblock
  refine .bind (.locate _ (.lifted (hs.declareFunction hbody.whileFree))) ?_
  rintro _ _ t ⟨rfl, ht⟩
  exact .pure (.done hn (hc₇.mono (by omega)) ht)

omit h in
private theorem comment : Offers limit calls n fun _ => Reading.comment := by
  intro c s hc hs
  show Eval.Settles (fun _ => Reading.comment c) s _
  -- no comment, one that ends, or one that does not
  cases hat : c.atComment with
  | false =>
    rw [Reading.comment_of_not_atComment hat]
    exact .pure (.declined hs)
  | true =>
    cases hopen : c.unclosed? with
    | none =>
      rw [Reading.comment_of_closed hat hopen]
      obtain ⟨m, hn, hc'⟩ := hc.settle hat
      exact .pure (.done hn hc' hs)
    | some mark =>
      rw [Reading.comment_of_unclosed hat hopen]
      exact .const (.fault _ _)

private theorem expressionStatement :
    Offers limit calls n fun k => Reading.expressionStatement (Phrase.run k) := by
  intro c s hc hs
  refine .peek ?_
  cases hpeek : c.peek with
  | none => exact .pure (.declined hs)
  | some token =>
    simp only
    split
    · refine .bind (h.expression hc hs) fun v c₁ t ht => ?_
      -- an expression reads a token if there is one, and here there is
      have hpos : 0 < n := by
        rw [Cursor.peek_eq] at hpeek
        obtain ⟨p, hnext, -⟩ := Option.map_eq_some_iff.mp hpeek
        obtain ⟨m, rfl, -⟩ := hc.of_next? hnext
        exact Nat.succ_pos m
      exact .pure (.done (by omega) ht.cursor ht.session)
    · exact .pure (.declined hs)

/-- Every construct. -/
theorem attempt (construct : Construct) :
    Offers limit calls n fun k => Reading.attempt (Phrase.run k) k construct := by
  -- every construct but loops with a condition comes to an end
  cases construct with
  | comment => exact comment
  | assertion => exact h.assertion
  | counted => exact h.counted
  | whileLoop =>
    -- there is no `while`, so this one always declines
    intro c s hc hs
    refine .accept (fun c₁ hwhile => ?_) fun _ => .pure (.declined hs)
    exact absurd (Cursor.ahead_of_reads hwhile) hc.ahead_ne
  | range => exact h.range
  | conditional => exact h.conditional
  | variableDeclaration => exact h.variableDeclaration
  | functionDeclaration => exact functionDeclaration
  | expression => exact h.expressionStatement

theorem firstOf (constructs : List Construct) :
    Offers limit calls n fun k => Reading.firstOf (Phrase.run k) k constructs := by
  intro c s hc hs
  induction constructs generalizing s with
  | nil => exact .pure (.declined hs)
  | cons construct others ih =>
    refine .bind (h.attempt construct hc hs) fun outcome c₁ t hoffered => ?_
    cases hoffered with
    -- a construct that declines leaves the cursor where it was
    | declined ht => exact ih ht
    | done hn hc₁ ht => exact .pure (.done hn hc₁ ht)
    | returned hn hc₁ ht hv => exact .pure (.returned hn hc₁ ht hv)

/-! ### Statements -/

private theorem returned {token : Token} (hpeek : c.peek = some token) (hc : c.Clear n)
    (hs : s.Tame limit calls) (span : Span) :
    Reading.Settles (fun k => Reading.returned (Phrase.run k) span) c s
      (Leaves limit calls (n - 1) Value.WhileFree) := by
  refine .session ?_
  split
  · exact .raiseAt
  · refine .step hpeek fun c₁ hnext => .getting ?_
    obtain ⟨m, rfl, hc₁⟩ := hc.of_next? hnext
    split
    · exact .pure ⟨trivial, hc₁, hs⟩
    · refine .locate span ((h.value (by omega) hc₁ hs).mono fun v c' t ht => ?_)
      exact ⟨ht.result, ht.cursor.mono (by omega), ht.session⟩

/-- A statement reads at least one token, so those behind it have fewer ahead. -/
private theorem dispatched (token : Token) :
    Advances limit calls n (fun v? => ∀ v ∈ v?, v.WhileFree)
      fun k => Reading.dispatched (Phrase.run k) k token := by
  intro c s hc hs
  refine .bind (.locate _ (h.firstOf Construct.chain hc hs)) fun outcome c₁ t hoffered => ?_
  -- a statement that is done has read a token, so the others have fewer ahead
  cases hoffered with
  | declined ht => exact .raiseAt
  | done hn hc₁ ht =>
    refine (h.shorter _ (by omega) (.statements true) hc₁ ht).mono fun v? c₂ u hu => ?_
    exact ⟨hu.result, hu.cursor.mono (by omega), hu.session⟩
  | returned hn hc₁ ht hv =>
    refine .pure ⟨?_, hc₁.mono (by omega), ht⟩
    rintro _ ⟨⟩
    exact hv

theorem statements (paced : Bool) :
    Advances limit calls n (fun v? => ∀ v ∈ v?, v.WhileFree)
      fun k => Reading.statements (Phrase.run k) k paced := by
  intro c s hc hs
  cases hfront : c.front with
  | none =>
    -- nothing is read, but nothing is ahead either
    refine .of_eq (fun _ => congrFun (Reading.statements_of_none hfront paced) s) (.pure ?_)
    have hrest : c.rest = [] := List.head?_eq_none_iff.mp hfront
    exact ⟨nofun, ⟨by simp [hrest], hc.whileFree⟩, hs⟩
  | some token =>
    -- a brace that nothing opened, and a `return`, end the list
    by_cases hbrace : token.kind = .symbol .rightBrace
    · exact .of_eq (fun _ => congrFun (Reading.statements_of_brace hfront hbrace paced) s) .raiseAt
    by_cases hreturn : token.kind = .keyword .returnKw
    · have hat : c.atComment = false := by
        simp [Cursor.atComment, hfront, hreturn, Kind.isPlain]
      have hpeek : c.peek = some token := Cursor.peek_of_next? (Cursor.next?_of_front hfront hat)
      refine .of_eq (fun _ => congrFun (Reading.statements_of_return hfront hreturn paced) s) ?_
      refine .map ((h.returned hpeek hc hs token.span).mono fun v c₁ t ht => ?_)
      refine ⟨?_, ht.cursor, ht.session⟩
      rintro _ ⟨⟩
      exact ht.result
    -- a pause leaves everything else as it is
    · have hpaused : (Reading.paused paced s).Tame limit calls := by
        cases paced with
        | true => exact hs.pace
        | false => exact hs
      exact .of_eq (fun _ => Reading.statements_of_front hfront hbrace hreturn paced)
        (h.dispatched token hc hpaused)

/-- The rule for every phrase. -/
theorem rule (phrase : Phrase α) :
    Advances limit calls n phrase.Gives fun k => phrase.rule (Phrase.run k) k := by
  cases phrase with
  | expression => exact h.logical
  | additive => exact h.additive
  | multiplicative => exact h.multiplicative
  | unary => exact h.unary
  | arguments => exact h.arguments
  | arms => exact h.arms
  | statements paced => exact h.statements paced

end Within

/-! ### Programs -/

/-- Every phrase without `while` comes to an end. -/
theorem Phrase.settles (limit calls n : Nat) : Settled limit calls n := by
  -- a call leaves fewer calls to go, and whatever else is inside has fewer tokens ahead
  induction calls using Nat.strongRecOn generalizing n with
  | ind calls ihcalls =>
    induction n using Nat.strongRecOn with
    | ind n ih =>
      have hwithin : Within limit calls n := ⟨ih, fun fewer hfewer m => ihcalls fewer hfewer m⟩
      intro α phrase c s hc hs
      exact .of_succ (hwithin.rule phrase hc hs)

namespace Session

/-- Programs without `while` come to an end, with a value or a fault, and more fuel changes nothing
about it: whatever the limit on nested calls, if no variable holds a function with a `while` in its
body and no routine of the host gives one. -/
theorem terminates (s : Session) (tokens : List Token) (henv : s.env.WhileFree)
    (hroutines : ∀ routine ∈ s.routines, routine.WhileFree) (htokens : Token.WhileFree tokens) :
    ∃ fuel, Finished (s.runTokens fuel tokens) ∧
      ∀ more, fuel ≤ more → s.runTokens more tokens = s.runTokens fuel tokens := by
  have hclear : (Cursor.start tokens).Clear tokens.length := ⟨Nat.le_refl _, htokens⟩
  -- a run starts with no call active, so as many may be entered as the limit says
  have htame : s.fresh.Tame s.settings.maxCallDepth s.settings.maxCallDepth :=
    ⟨rfl, Nat.zero_add _, henv.reset, hroutines⟩
  -- the evaluation ends, and more fuel changes nothing about that
  obtain ⟨r, hr, fuel, hfuel⟩ := Phrase.settles _ _ _ (.statements false) hclear htame
  have hfinished : Finished (s.runTokens fuel tokens) := by
    have hrun := hfuel fuel (Nat.le_refl fuel)
    show Finished (s.fresh.evaluate _)
    simp only [Finished, evaluate, Reading.onTokens, Bind.bind, EStateM.bind, hrun]
    cases hr with
    | ok | fault =>
      intro hstarved
      cases hstarved
  exact ⟨fuel, hfinished, fun more hle => runTokens_of_le hle hfinished⟩

/-- A function that calls twice whatever it is given, and is given itself by way of a routine of the
host; 512 of the calls may be nested. -/
theorem terminates_twice :
    let same : Routine := fun arguments => .ok (arguments.headD .void)
    let s := ({} : Session).addRoutine "same" none same
    let tokens := [.keyword .defKw, .ident "f", .symbol .leftParen, .ident "g", .symbol .rightParen,
      .symbol .leftBrace, .keyword .repeatKw, .number 2, .symbol .leftBrace, .ident "g",
      .symbol .leftParen, .ident "g", .symbol .rightParen, .symbol .rightBrace,
      .symbol .rightBrace, .ident "f", .symbol .leftParen, .ident "same", .symbol .leftParen,
      .ident "f", .symbol .rightParen, .symbol .rightParen].map Kind.bare
    s.settings.maxCallDepth = 512 ∧ ∃ fuel, Finished (s.runTokens fuel tokens) := by
  intro same s tokens
  -- all that is bound is the routine, which has no body
  have henv : s.env.WhileFree := by
    intro scope hscope name b hb
    obtain rfl : scope = s.env.root := List.mem_singleton.mp hscope
    have hb : (({} : Scope).insert "same" _).find? name = some b := hb
    rw [Scope.find?_insert] at hb
    split at hb
    · cases hb
      trivial
    · cases hb
  -- it answers with one of its arguments
  have hsame : same.WhileFree := by
    intro arguments value harguments hvalue
    cases hvalue
    cases arguments with
    | nil => trivial
    | cons v vs => exact harguments v List.mem_cons_self
  have hroutines : ∀ routine ∈ s.routines, routine.WhileFree := by simpa [s] using hsame
  obtain ⟨fuel, hfinished, -⟩ := terminates s tokens henv hroutines (by decide)
  exact ⟨rfl, fuel, hfinished⟩

end Session

end Tern
