import Tern.Proofs.Comments
import Tern.Proofs.Expression.Refinement
import Tern.Proofs.Statement.Shape

/-!
# Executing tokens is executing the tree

Where the tokens of a statement stand at the cursor, the execution from tokens and the execution of
the tree agree: same result, same effects in the same order, same faults. Unless the statement
returned, the cursor ends up behind it.

Both executions hand calls of functions on, so the comparison takes for granted that these agree,
with the fuel that is left where a call happens. The rounds of `while` loops are bounded on both
sides, by different numbers.

## Key results

- `Code.refines`: the two executions agree, construct by construct
-/

namespace Tern

open Cursor (Reads)
open Tern.Tree (Follows Supplied Parses)

/-! ### Which construct takes a statement -/

/-- The keywords that the construct begins with. -/
def Construct.keywords : Construct → List Keyword
  | comment | expression => []
  | assertion => [.assertKw]
  | counted => [.repeatKw]
  | whileLoop => [.whileKw]
  | range => [.fromKw]
  | conditional => [.ifKw]
  | variableDeclaration => [.varKw, .valKw]
  | functionDeclaration => [.defKw]

/-- The constructs in front of one that begins with keywords begin with other keywords. -/
theorem Construct.chain_split (construct : Construct) (hne : construct.keywords ≠ []) :
    ∃ before after, chain.tail = before ++ construct :: after ∧
      ∀ k ∈ before, k.keywords ≠ [] ∧ ∀ keyword ∈ construct.keywords, keyword ∉ k.keywords := by
  -- every keyword is asked for where the chain has its construct
  cases construct with
  | comment | expression => exact absurd rfl hne
  | assertion => exact ⟨[], _, rfl, by decide⟩
  | counted => exact ⟨[.assertion], _, rfl, by decide⟩
  | whileLoop => exact ⟨[.assertion, .counted], _, rfl, by decide⟩
  | range => exact ⟨[.assertion, .counted, .whileLoop], _, rfl, by decide⟩
  | conditional => exact ⟨[.assertion, .counted, .whileLoop, .range], _, rfl, by decide⟩
  | variableDeclaration =>
    exact ⟨[.assertion, .counted, .whileLoop, .range, .conditional], _, rfl, by decide⟩
  | functionDeclaration =>
    exact ⟨[.assertion, .counted, .whileLoop, .range, .conditional, .variableDeclaration], _, rfl,
      by decide⟩

namespace Reading

variable {self : Evaluator} {fuel : Nat} {c c' : Cursor}

/-- The rest of a construct, where its keyword is next. -/
theorem after_of_reads {keyword : Keyword} (h : Reads c [.keyword keyword] c')
    (rest : Reading Outcome) : after keyword rest c = rest c' := by
  unfold after
  rw [bind_of_pure (accept_of_reads h)]
  rfl

/-- A construct whose keyword is not next declines. -/
theorem after_of_ne {keyword : Keyword} (h : c.ahead ≠ some (.keyword keyword))
    (rest : Reading Outcome) : after keyword rest c = pure (.declined, c) := by
  unfold after
  rw [bind_of_pure (accept_of_ne h)]
  rfl

/-- A construct none of whose keywords is next declines. -/
theorem attempt_of_ne {construct : Construct} (hne : construct.keywords ≠ [])
    (h : ∀ keyword ∈ construct.keywords, c.ahead ≠ some (.keyword keyword)) :
    attempt self fuel construct c = pure (.declined, c) := by
  cases construct with
  | comment | expression => exact absurd rfl hne
  | variableDeclaration =>
    show (accept _ >>= _) c = _
    rw [bind_of_pure (accept_of_ne (h .varKw (by decide)))]
    exact after_of_ne (h .valKw (by decide)) _
  | _ => exact after_of_ne (h _ (List.mem_singleton_self _)) _

/-- Constructs that decline are passed over. -/
theorem firstOf_of_declined {before after : List Construct}
    (h : ∀ construct ∈ before, attempt self fuel construct c = pure (.declined, c)) :
    firstOf self fuel (before ++ after) c = firstOf self fuel after c := by
  induction before with
  | nil => rfl
  | cons construct before ih =>
    rw [List.cons_append, firstOf, bind_of_pure (h construct (by simp))]
    exact ih fun k hk => h k (by simp [hk])

end Reading

/-! ### Agreement up to a return -/

namespace Tolerance

variable (T : Tolerance)

/-- What a construct did, and what the execution of a tree gave. -/
inductive Matches : Outcome → Option Value → Prop
  | done : Matches .done none
  | returned {v w : Value} : T.Values v w → Matches (.returned v) (some w)

/-- The reading does at `c` what the execution does, and ends at `c'` unless the execution
returned. -/
def Passes (x : Reading α) (R : α → Option Value → Prop) (c : Cursor) (y : Eval (Option Value))
    (c' : Cursor) : Prop :=
  Eval.Agree T (fun p v => R p.1 v ∧ (v = none → p.2 = c')) (x c) y

/-- Comments, places, and pauses on the first side do not matter. -/
structure Lenient : Prop where
  view : T.view = Token.bare
  places : ¬T.places
  pace : ∀ {s t}, T.Sessions s t → T.Sessions s.pace t

theorem bare_lenient (q r : Prop) : (bare q r).Lenient :=
  ⟨rfl, id, fun h => h.pace_first (unpaced_bare q r)⟩

variable {T}

/-- The results of blocks as outcomes. -/
theorem Matches.of_ofReturn {a b : Option Value} (h : Option.Rel T.Values a b) :
    T.Matches (.ofReturn a) b := by
  cases h with
  | some hvw => exact .returned hvw
  | none => exact .done

/-- The results of rounds as outcomes. -/
theorem Matches.of_map {a b : Option Value} (h : Option.Rel T.Values a b) :
    Option.Rel T.Matches (a.map .returned) (b.map some) := by
  cases h with
  | some hvw => exact .some (.returned hvw)
  | none => exact .none

/-- A reading that ends at one place anyway. -/
theorem Passes.of_follows {x : Reading α} {R : α → Option Value → Prop} {c c' : Cursor}
    {y : Eval (Option Value)} (h : Follows T x R c y c') : T.Passes x R c y c' :=
  h.mono fun _ _ hpv => ⟨hpv.1, fun _ => hpv.2⟩

/-- A statement that is executed. -/
theorem Passes.done {c : Cursor} : T.Passes (pure .done) T.Matches c (pure none) c :=
  .pure ⟨.done, fun _ => rfl⟩

/-- The construct that does what the tree does is the one that takes the statement, if all in front
of it decline. -/
private theorem Passes.firstOf {self : Evaluator} {fuel : Nat} {construct : Construct}
    (before : List Construct) {after : List Construct} {c c' : Cursor} {y : Eval (Option Value)}
    (hbefore : ∀ k ∈ before, Reading.attempt self fuel k c = pure (.declined, c))
    (h : T.Passes (Reading.attempt self fuel construct) T.Matches c y c') :
    T.Passes (Reading.firstOf self fuel (before ++ construct :: after)) T.Matches c y c' := by
  unfold Passes
  rw [Reading.firstOf_of_declined hbefore, Reading.firstOf, ← bind_pure y]
  refine Eval.Agree.bind h fun p v hpv => ?_
  obtain ⟨outcome, c₁⟩ := p
  obtain ⟨hmatch, hend⟩ := hpv
  cases hmatch with
  | done => exact .pure ⟨.done, hend⟩
  | returned hvw => exact .pure ⟨.returned hvw, hend⟩

/-- A statement that begins with a keyword is taken by the construct of that keyword. -/
theorem Passes.firstOf_keyword {self : Evaluator} {fuel : Nat} (construct : Construct)
    {keyword : Keyword} (hkeyword : keyword ∈ construct.keywords) {c c' : Cursor}
    (hahead : c.ahead = some (.keyword keyword)) {y : Eval (Option Value)}
    (h : T.Passes (Reading.attempt self fuel construct) T.Matches c y c') :
    T.Passes (Reading.firstOf self fuel Construct.chain.tail) T.Matches c y c' := by
  obtain ⟨before, after, hchain, hbefore⟩ := construct.chain_split (List.ne_nil_of_mem hkeyword)
  rw [hchain]
  refine Passes.firstOf before (fun k hk => ?_) h
  refine Reading.attempt_of_ne (hbefore k hk).1 fun keyword' hkeyword' heq => ?_
  rw [hahead] at heq
  cases heq
  exact (hbefore k hk).2 keyword hkeyword hkeyword'

/-- A statement that begins like an expression is taken as one. -/
theorem Passes.firstOf_expression {self : Evaluator} {fuel : Nat} {c c' : Cursor} {kind : Kind}
    (hahead : c.ahead = some kind) (hstarts : kind.startsExpression = true)
    {y : Eval (Option Value)}
    (h : T.Passes (Reading.attempt self fuel .expression) T.Matches c y c') :
    T.Passes (Reading.firstOf self fuel Construct.chain.tail) T.Matches c y c' := by
  refine Passes.firstOf Construct.chain.tail.dropLast (fun k hk => ?_) h
  have hkeywords : ∀ k ∈ Construct.chain.tail.dropLast, k.keywords ≠ [] ∧
      ∀ keyword ∈ k.keywords, (Kind.keyword keyword).startsExpression = false := by decide
  refine Reading.attempt_of_ne (hkeywords k hk).1 fun keyword hkeyword heq => ?_
  rw [hahead] at heq
  cases heq
  rw [(hkeywords k hk).2 keyword hkeyword] at hstarts
  cases hstarts

end Tolerance

/-! ### Fuel -/

/-- There is fuel for so many nested phrases, calls agree with whatever is left then, and so may the
rounds of loops. -/
structure Provided (T : Tolerance) (call : Callable → List Value → Eval Value)
    (rounds fuel size : Nat) : Prop extends Supplied T call fuel size where
  rounds : ∀ k, k ≤ fuel → fuel ≤ k + size →
    T.firstStarves ∧ k ≤ rounds ∨ T.secondStarves ∧ rounds ≤ k

namespace Provided

variable {T : Tolerance} {call : Callable → List Value → Eval Value} {rounds fuel size : Nat}

/-- What needs less is provided with less fuel. -/
theorem less (h : Provided T call rounds fuel size) {k size' : Nat} (hk : k ≤ fuel)
    (hsize : size' + fuel ≤ size + k) : Provided T call rounds k size' where
  enough := h.enough.imp_right fun hle => by omega
  calls j hj hle := h.calls j (Nat.le_trans hj hk) (by omega)
  rounds j hj hle := h.rounds j (Nat.le_trans hj hk) (by omega)

/-- A phrase inside a rule is evaluated by its own rule, with one unit of fuel less. -/
theorem inner (h : Provided T call rounds fuel size) {size' : Nat} (hlt : size' < size)
    {phrase : Phrase α} {c : Cursor} {S : α × Cursor → β → Prop} {y : Eval β} {root : Bool}
    (hrule : ∀ k, Provided T call rounds k size' →
      Eval.AgreeAt T root S (phrase.rule (Phrase.run k) k c) y) :
    Eval.AgreeAt T root S (Phrase.run fuel phrase c) y := by
  cases fuel with
  | zero => exact fun s t _ _ => .first (h.enough.resolve_right (by omega))
  | succ k => exact hrule k (h.less (Nat.le_succ k) (by omega))

end Provided

/-- Reading a token sequence of its own. -/
theorem Eval.AgreeAt.onTokens {T : Tolerance} {root : Bool} {R : α → β → Prop}
    {tokens : List Token} {x : Reading α} {y : Eval β}
    (h : AgreeAt T root (fun p v => R p.1 v) (x (.start tokens)) y) :
    AgreeAt T root R (Reading.onTokens tokens x) y := by
  rw [← bind_pure y]
  exact h.andThen fun _ _ hpv => .pure hpv

/-! ### Expressions in statements -/

section

variable {T : Tolerance} (hT : T.Lenient) {call : Callable → List Value → Eval Value}
  {rounds fuel size : Nat} {c c' : Cursor}

include hT

/-- An expression in a statement. -/
private theorem expression_follows {e : Tree .expression} (hadmitted : e.Admitted)
    (hreads : Reads c e.kinds c') (hends : e.EndsBefore c'.ahead)
    (hp : Provided T call rounds fuel size) (hlt : e.kinds.length < size) :
    Follows T (Phrase.run fuel .expression) T.Values c (e.eval call) c' := by
  have hparse : Parses .whole c e c' := by
    refine .of_reads hadmitted e.level_le ?_ (Tree.stops_whole_iff.mpr hends)
    rwa [Tree.closing, List.append_nil]
  refine (hparse.agree hT.places).inner rfl hp.toSupplied ?_
  rwa [Tree.size, Tree.closing, List.append_nil]

/-- An expression whose value is a number, and what comes after it. -/
private theorem bound_andThen {e : Tree .expression} {S : γ × Cursor → δ → Prop}
    {f : Number → Reading γ} {g : Number → Eval δ}
    (he : Follows T (Phrase.run fuel .expression) T.Values c (e.eval call) c')
    (hfg : ∀ n, Eval.Agree T S (f n c') (g n)) :
    Eval.Agree T S ((Reading.bound (Phrase.run fuel) >>= f) c)
      (e.eval call >>= fun v => Eval.asNumber v >>= g) := by
  unfold Reading.bound
  simp only [bind_assoc]
  rw [Reading.here_bind]
  refine he.andThen fun v w hvw => ?_
  unfold Eval.asNumber
  rw [hvw.number?, hvw.typeName]
  cases w.number? with
  | some n => exact hfg n
  | none => exact .fault (.of_cause fun hp => absurd hp hT.places)

end

/-! ### Constructs -/

namespace Code

section

variable (T : Tolerance) (call : Callable → List Value → Eval Value) (rounds : Nat)

/-- Where the fuel lasts and calls agree, the tokens of the tree do what the tree does. A statement
is offered to all constructs but comments, and is no `return`. -/
def Refines : {part : Part} → Code part → Prop
  | .statement, s => ∀ {c c' : Cursor} {fuel : Nat} (outermost : Bool), Reads c s.kinds c' →
      s.EndsBefore c'.ahead → c'.ahead ≠ some (.keyword .elseKw) →
      (∀ value?, s ≠ returning value?) → Provided T call rounds fuel (2 * s.kinds.length) →
      T.Passes (Reading.firstOf (Phrase.run fuel) fuel Construct.chain.tail) T.Matches c
        (s.exec call rounds outermost) c'
  | .arms, arms => ∀ {c c' : Cursor} {fuel : Nat}, Reads c arms.kinds c' →
      c'.ahead ≠ some (.keyword .elseKw) →
      Provided T call rounds fuel (2 * arms.kinds.length) →
      T.Passes (Reading.arms (Phrase.run fuel)) (Option.Rel T.Values) c
        (arms.exec call rounds false) c'
  | .block, b => ∀ {c : Cursor} {fuel : Nat} (paced outermost : Bool),
      Token.bare c.rest = b.kinds.map Kind.bare →
      Provided T call rounds fuel (2 * b.kinds.length + 1) →
      Eval.AgreeAt T outermost (fun p v => Option.Rel T.Values p.1 v)
        (Reading.statements (Phrase.run fuel) fuel paced c) (b.exec call rounds outermost)

end

variable {T : Tolerance} {call : Callable → List Value → Eval Value} {rounds fuel size : Nat}
  {c c' : Cursor}

/-- The tokens of a block, where the root is not the only scope. -/
theorem Refines.body {b : Code .block} (h : b.Refines T call rounds) {tokens : List Token}
    (hbare : Token.bare tokens = b.kinds.map Kind.bare) (hp : Provided T call rounds fuel size)
    (hlt : 2 * b.kinds.length + 1 < size) :
    Eval.AgreeAt T false (Option.Rel T.Values)
      (Reading.onTokens tokens (Phrase.run fuel (.statements true)))
      (b.exec call rounds false) :=
  .onTokens (hp.inner hlt fun _ hk => h true false hbare hk)

/-- A block. -/
theorem Refines.block {b : Code .block} (h : b.Refines T call rounds) {tokens : List Token}
    (hbare : Token.bare tokens = b.kinds.map Kind.bare) (hp : Provided T call rounds fuel size)
    (hlt : 2 * b.kinds.length + 1 < size) :
    Eval.Agree T (Option.Rel T.Values) (Eval.block (Phrase.run fuel) tokens)
      (Eval.inScope (b.exec call rounds false)) :=
  .inScope_of (h.body hbare hp hlt)

/-- Arms inside a rule. -/
theorem Refines.inner {arms : Code .arms} (h : arms.Refines T call rounds)
    (hreads : Reads c arms.kinds c') (hne : c'.ahead ≠ some (.keyword .elseKw))
    (hp : Provided T call rounds fuel size) (hlt : 2 * arms.kinds.length < size) :
    T.Passes (Phrase.run fuel .arms) (Option.Rel T.Values) c (arms.exec call rounds false) c' := by
  intro s t hst
  exact hp.inner hlt (fun k hk s t hst _ => h hreads hne hk s t hst) s t hst rfl

variable (hT : T.Lenient)

include hT

/-- `assert`. -/
private theorem assertion_passes {e : Tree .expression} (hadmitted : e.Admitted)
    (hreads : Reads c (assertion e).kinds c') (hends : e.EndsBefore c'.ahead)
    (hp : Provided T call rounds fuel (2 * (assertion e).kinds.length)) (outermost : Bool) :
    T.Passes (Reading.assertion (Phrase.run fuel)) T.Matches c
      ((assertion e).exec call rounds outermost) c' := by
  -- keyword, then the condition
  obtain ⟨c₁, hkeyword, hcondition⟩ := hreads.uncons
  have he := expression_follows hT hadmitted hcondition hends hp (by
    simp only [kinds, List.length_cons]
    omega)
  have hshown : e.kinds.map Kind.text =
      (Token.kept (c'.passedSince c₁.position)).map (·.kind.text) := by
    rw [Tree.kinds_of_reads hcondition, List.map_map]
    rfl
  unfold Tolerance.Passes Reading.assertion exec
  rw [Reading.after_of_reads hkeyword, Reading.cursor_bind]
  refine he.andThen fun v w hvw => ?_
  rw [hvw.isTruthy]
  split
  · exact Tolerance.Passes.done
  · -- the condition is shown with the tokens that were read for it
    rw [Reading.cursor_bind, normalize, ← hshown]
    exact .fault (.of_cause fun hp => absurd hp hT.places)

/-- `repeat`. -/
private theorem counted_passes {e : Tree .expression} {body : Code .block}
    (hadmitted : e.Admitted) (hbody : body.Refines T call rounds)
    (hreads : Reads c (counted e body).kinds c')
    (hp : Provided T call rounds fuel (2 * (counted e body).kinds.length)) (outermost : Bool) :
    T.Passes (Reading.counted (Phrase.run fuel)) T.Matches c
      ((counted e body).exec call rounds outermost) c' := by
  simp only [kinds, braced, List.length_cons, List.length_append] at hp
  -- keyword, count, and a block between braces
  obtain ⟨c₁, hkeyword, hrest⟩ := hreads.uncons
  obtain ⟨c₂, hcount, hbraced⟩ := hrest.of_append
  obtain ⟨c₃, tokens, hopen, hblock, hbare⟩ := Scan.braced_of_reads hbraced body.balanced
  have he := expression_follows hT hadmitted hcount
    (Cursor.ahead_of_reads hopen ▸ Tree.endsBefore_brace) hp (by omega)
  unfold Tolerance.Passes Reading.counted exec
  rw [Reading.after_of_reads hkeyword]
  refine bound_andThen hT he fun n => ?_
  rw [Reading.bind_of_pure (Reading.expect_of_reads hopen _),
    Reading.bind_of_pure (Reading.scan_of_ok hblock)]
  refine Tolerance.Passes.of_follows (.lift c' (.iterate (fun _ => ?_) (.pure .done) _ _))
  exact .bind (hbody.block hbare hp (by omega)) fun _ _ hab => .pure (Tolerance.Matches.of_map hab)

/-- One round of a `while` loop. -/
private theorem whileRound_agree {e : Tree .expression} {body : Code .block}
    (hadmitted : e.Admitted) (hbody : body.Refines T call rounds)
    {condition tokens : List Token} (hcondition : Token.bare condition = e.kinds.map Kind.bare)
    (htokens : Token.bare tokens = body.kinds.map Kind.bare)
    (hp : Provided T call rounds fuel size) (he : e.kinds.length < size)
    (hlt : 2 * body.kinds.length + 1 < size) :
    Eval.Agree T (Option.Rel T.Matches) (Eval.whileRound (Phrase.run fuel) condition tokens)
      (do
        if (← e.eval call).isTruthy then
          return (← Eval.inScope (body.exec call rounds false)).map some
        else
          return some none) := by
  -- the condition fills its tokens, so nothing trails behind it
  have hbare : Token.bare (Cursor.start condition).rest = e.kinds.map Kind.bare ++ [] := by
    rw [List.append_nil]
    exact hcondition
  obtain ⟨c₁, hreads, hrest⟩ := Cursor.reads_of_bare e.kinds_isPlain hbare
  have hahead : c₁.ahead = none := Cursor.ahead_of_bare_nil hrest
  have hends : e.EndsBefore c₁.ahead := hahead ▸ Tree.stops_whole_iff.mp (.atEnd _ e)
  -- the condition is evaluated from tokens of its own, up to their end
  unfold Eval.whileRound Reading.onTokens
  rw [bind_assoc]
  refine .bind (?_ : Eval.Agree T (fun p v => p.1 = v.isTruthy) _ (e.eval call)) fun p w hpw => ?_
  · rw [← bind_pure (e.eval call)]
    refine (expression_follows hT hadmitted hreads hends hp he).andThen fun v w hvw => ?_
    have hpeek : c₁.peek = none := by
      rw [← c₁.peek_map_kind] at hahead
      exact Option.map_eq_none_iff.mp hahead
    rw [Reading.peek_bind, hpeek]
    exact .pure hvw.isTruthy
  · rw [pure_bind, hpw]
    -- the round is left if the condition is false, and otherwise the body follows
    split
    · exact .bind (hbody.block htokens hp hlt) fun _ _ hab => .pure (Tolerance.Matches.of_map hab)
    · exact .pure (.some .done)

/-- `while`. -/
private theorem whileLoop_passes {e : Tree .expression} {body : Code .block}
    (hadmitted : e.Admitted) (hbody : body.Refines T call rounds)
    (hreads : Reads c (whileLoop e body).kinds c')
    (hp : Provided T call rounds fuel (2 * (whileLoop e body).kinds.length)) (outermost : Bool) :
    T.Passes (Reading.whileLoop (Phrase.run fuel) fuel) T.Matches c
      ((whileLoop e body).exec call rounds outermost) c' := by
  simp only [kinds, braced, List.length_cons, List.length_append] at hp
  -- the condition is what stands between the keyword and the brace
  obtain ⟨c₁, hkeyword, hrest⟩ := hreads.uncons
  obtain ⟨c₂, hcondition, hbraced⟩ := hrest.of_append
  obtain ⟨c₃, tokens, hopen, hblock, hbare⟩ := Scan.braced_of_reads hbraced body.balanced
  have hfront := hcondition.append hopen
  unfold Tolerance.Passes Reading.whileLoop exec
  rw [Reading.after_of_reads hkeyword, Reading.bind_of_pure (Reading.scan_of_ok
    (Scan.untilBrace_of_reads hfront e.brace_not_mem.1 _)),
    Reading.bind_of_pure (Reading.scan_of_ok hblock)]
  refine Tolerance.Passes.of_follows (.lift c' (.iterate_rounds (fun _ => ?_)
    (hp.rounds fuel (Nat.le_refl _) (by omega)) 0))
  exact whileRound_agree hT hadmitted hbody hfront.passedSince_dropLast hbare hp (by omega)
    (by omega)

omit hT in
/-- One round of a range loop. -/
private theorem rangeRound_agree {body : Code .block} (hbody : body.Refines T call rounds)
    {tokens : List Token} (hbare : Token.bare tokens = body.kinds.map Kind.bare)
    (hp : Provided T call rounds fuel size) (hlt : 2 * body.kinds.length + 1 < size)
    (name? : Option String) (i : Number) :
    Eval.Agree T (Option.Rel T.Values) (Eval.rangeRound (Phrase.run fuel) name? tokens i)
      (Eval.inScope do
        match name? with
        | some name =>
          Eval.define name { isFinal := true, type := some .number, value := .number i }
        | none => pure ()
        body.exec call rounds false) := by
  refine .inScope_of ?_
  cases name? with
  | some name =>
    exact .bind (fun s t hst _ => Eval.Agree.define name rfl s t hst) (.define _ _)
      fun _ _ _ => hbody.body hbare hp hlt
  | none => exact hbody.body hbare hp hlt

omit hT in
/-- The rounds of a range loop. -/
private theorem rounds_passes {body : Code .block} (hbody : body.Refines T call rounds)
    (hreads : Reads c (braced body.kinds) c') (hp : Provided T call rounds fuel size)
    (hlt : 2 * body.kinds.length + 1 < size) (name? : Option String) (first : Number)
    (count : Nat) :
    T.Passes
      (do
        Reading.expect (.symbol .leftBrace) "`\x7b` after range"
        let body ← Reading.scan Scan.block
        Eval.iterate (fun k => do
          return (← Eval.rangeRound (Phrase.run fuel) name? body
            (Int64.ofInt (first.toInt + k))).map Outcome.returned) (return .done) 0 count)
      T.Matches c
      (Eval.iterate (fun (k : Nat) => do
        let returned ← Eval.inScope do
          match name? with
          | some name =>
            let i := Int64.ofInt (first.toInt + k)
            Eval.define name { isFinal := true, type := some .number, value := .number i }
          | none => pure ()
          body.exec call rounds false
        return returned.map some) (return none) 0 count) c' := by
  obtain ⟨c₁, tokens, hopen, hblock, hbare⟩ := Scan.braced_of_reads hreads body.balanced
  unfold Tolerance.Passes
  rw [Reading.bind_of_pure (Reading.expect_of_reads hopen _),
    Reading.bind_of_pure (Reading.scan_of_ok hblock)]
  refine Tolerance.Passes.of_follows (.lift c' (.iterate (fun k => ?_) (.pure .done) _ _))
  exact .bind (rangeRound_agree hbody hbare hp hlt name? _) fun _ _ hab =>
    .pure (Tolerance.Matches.of_map hab)

/-- `from` and `to`. -/
private theorem range_passes {first limit : Tree .expression} {name? : Option String}
    {body : Code .block} (hfirst : first.Admitted) (hlimit : limit.Admitted)
    (hbody : body.Refines T call rounds) (hreads : Reads c (range first limit name? body).kinds c')
    (hp : Provided T call rounds fuel (2 * (range first limit name? body).kinds.length))
    (outermost : Bool) :
    T.Passes (Reading.range (Phrase.run fuel)) T.Matches c
      ((range first limit name? body).exec call rounds outermost) c' := by
  -- the parts of the header are found one after the other
  simp only [kinds, braced, List.length_cons, List.length_append] at hp
  obtain ⟨c₁, hkeyword, hrest⟩ := hreads.uncons
  obtain ⟨c₂, hfirstReads, hrest⟩ := hrest.of_append
  obtain ⟨c₃, hto, hrest⟩ := hrest.uncons
  obtain ⟨c₄, hlimitReads, hrest⟩ := hrest.of_append
  obtain ⟨c₅, hname, hbraced⟩ := hrest.of_append
  have hbrace : c₅.ahead = some (.symbol .leftBrace) := Cursor.ahead_of_reads hbraced
  -- behind the limit there is `with` or the block
  have hlimitEnds : limit.EndsBefore c₄.ahead := by
    cases name? with
    | some name => exact Cursor.ahead_of_reads hname ▸ Tree.endsBefore_keyword
    | none =>
      cases hname
      exact hbrace ▸ Tree.endsBefore_brace
  have hfirst := expression_follows hT hfirst hfirstReads
    (Cursor.ahead_of_reads hto ▸ Tree.endsBefore_keyword) hp (by omega)
  have hlimit := expression_follows hT hlimit hlimitReads hlimitEnds hp (by omega)
  unfold Tolerance.Passes Reading.range exec
  rw [Reading.after_of_reads hkeyword]
  refine bound_andThen hT hfirst fun n => ?_
  rw [Reading.bind_of_pure (Reading.expect_of_reads hto _)]
  refine bound_andThen hT hlimit fun m => ?_
  have hrounds := rounds_passes hbody hbraced hp (by omega) name? n
    (m.toInt - n.toInt).toNat
  -- with a loop variable its name comes before the block, and otherwise the block is next
  cases name? with
  | some name =>
    obtain ⟨c₄', hwith, hname⟩ := hname.uncons
    have hloop : (some <$> Reading.scan (Scan.identifier "loop variable name after `with`")
        : Reading (Option String)) c₄' = pure (some name, c₅) := by
      show (Reading.scan _ c₄' >>= _) = _
      rw [Reading.scan_of_ok (Scan.identifier_of_reads hname _)]
      rfl
    rw [Reading.bind_of_pure (Reading.accept_of_reads hwith)]
    simp only [if_true]
    rw [Reading.bind_of_pure hloop]
    exact hrounds
  | none =>
    cases hname
    rw [Reading.bind_of_pure (Reading.accept_of_ne (by rw [hbrace]; decide))]
    exact hrounds

omit hT in
/-- `if`. -/
private theorem conditional_passes {arms : Code .arms} (harms : arms.Refines T call rounds)
    (hreads : Reads c (conditional arms).kinds c') (hne : c'.ahead ≠ some (.keyword .elseKw))
    (hp : Provided T call rounds fuel (2 * (conditional arms).kinds.length)) (outermost : Bool) :
    T.Passes (Reading.conditional (Phrase.run fuel)) T.Matches c
      ((conditional arms).exec call rounds outermost) c' := by
  obtain ⟨c₁, hkeyword, hrest⟩ := hreads.uncons
  have hinner := harms.inner hrest hne hp (by
    simp only [kinds, List.length_cons]
    omega)
  unfold Tolerance.Passes Reading.conditional exec
  rw [Reading.after_of_reads hkeyword, ← bind_pure (arms.exec call rounds false)]
  exact Eval.Agree.bind hinner fun p v hpv => .pure ⟨.of_ofReturn hpv.1, hpv.2⟩

/-- The arms of a conditional: the block of the first if its condition holds, and otherwise what is
made of the others. -/
private theorem arms_passes {arms : Code .arms} {e : Tree .expression} {body : Code .block}
    (hkinds : arms.kinds = e.kinds ++ (braced body.kinds ++ arms.otherKinds))
    (hadmitted : e.Admitted) (hbody : body.Refines T call rounds)
    (hreads : Reads c arms.kinds c') (hne : c'.ahead ≠ some (.keyword .elseKw))
    (hp : Provided T call rounds fuel (2 * arms.kinds.length)) {y : Eval (Option Value)}
    (hothers : ∀ c₁, Reads c₁ arms.otherKinds c' → T.Passes
      (do
        if ← Reading.accept (.keyword .elseKw) then
          if ← Reading.accept (.keyword .ifKw) then
            Phrase.run fuel .arms
          else
            Reading.expect (.symbol .leftBrace) "`\x7b` after else"
            let body ← Reading.scan Scan.block
            Eval.block (Phrase.run fuel) body
        else
          return none) (Option.Rel T.Values) c₁ y c') :
    T.Passes (Reading.arms (Phrase.run fuel)) (Option.Rel T.Values) c
      (do
        if (← e.eval call).isTruthy then
          Eval.inScope (body.exec call rounds false)
        else
          y) c' := by
  rw [hkinds] at hreads hp
  -- a condition, a block, and what remains of the chain
  simp only [braced, List.length_cons, List.length_append] at hp
  obtain ⟨c₁, hcondition, hrest⟩ := hreads.of_append
  obtain ⟨c₂, hbraced, hrest⟩ := hrest.of_append
  obtain ⟨c₃, tokens, hopen, hblock, hbare⟩ := Scan.braced_of_reads hbraced body.balanced
  have he := expression_follows hT hadmitted hcondition
    (Cursor.ahead_of_reads hopen ▸ Tree.endsBefore_brace) hp (by omega)
  unfold Tolerance.Passes Reading.arms
  refine he.andThen fun v w hvw => ?_
  rw [Reading.bind_of_pure (Reading.expect_of_reads hopen _), hvw.isTruthy]
  -- on truth the block is run and the rest is skipped; on falsity it is the other way round
  split
  · rw [Reading.bind_of_pure (Reading.scan_of_ok hblock), ← bind_pure (Eval.inScope _)]
    have hblock := Follows.lift c₂ (hbody.block hbare hp (by omega))
    refine hblock.andThen fun a b hab => ?_
    cases hab with
    | some hvw => exact .pure ⟨.some hvw, by simp⟩
    | none =>
      -- the other arms are stepped over
      show Eval.Agree T _ ((Reading.scan Scan.skipArms >>= _) c₂) _
      rw [Reading.bind_of_pure (Reading.scan_of_ok (Scan.skipArms_of_reads arms hrest hne))]
      exact .pure ⟨.none, fun _ => rfl⟩
  · rw [Reading.bind_of_pure (Reading.scan_of_ok (Scan.skipBlock_of_ok hblock))]
    exact hothers c₂ hrest

/-- One arm, and none behind it. -/
private theorem lone_passes {e : Tree .expression} {body : Code .block} (hadmitted : e.Admitted)
    (hbody : body.Refines T call rounds) : (lone e body).Refines T call rounds := by
  intro c c' fuel hreads hne hp
  refine arms_passes hT (by simp [kinds, otherKinds]) hadmitted hbody hreads hne hp
    fun c₁ hothers => ?_
  cases hothers
  unfold Tolerance.Passes
  rw [Reading.bind_of_pure (Reading.accept_of_ne hne)]
  exact .pure ⟨.none, fun _ => rfl⟩

/-- Two arms, the second without a condition. -/
private theorem orElse_passes {e : Tree .expression} {body others : Code .block}
    (hadmitted : e.Admitted) (hbody : body.Refines T call rounds)
    (hothers : others.Refines T call rounds) :
    (orElse e body others).Refines T call rounds := by
  intro c c' fuel hreads hne hp
  refine arms_passes hT rfl hadmitted hbody hreads hne hp fun c₁ hrest => ?_
  -- after `else` there is no `if`, so a block is what remains
  obtain ⟨c₂, helse, hbraced⟩ := Reads.uncons hrest
  obtain ⟨c₃, tokens, hopen, hblock, hbare⟩ := Scan.braced_of_reads hbraced others.balanced
  have hif : c₂.ahead ≠ some (.keyword .ifKw) := by
    rw [Cursor.ahead_of_reads hopen]
    decide
  unfold Tolerance.Passes
  rw [Reading.bind_of_pure (Reading.accept_of_reads helse)]
  simp only [if_true]
  rw [Reading.bind_of_pure (Reading.accept_of_ne hif)]
  simp only [Bool.false_eq_true, if_false]
  rw [Reading.bind_of_pure (Reading.expect_of_reads hopen _),
    Reading.bind_of_pure (Reading.scan_of_ok hblock)]
  refine Tolerance.Passes.of_follows (.lift c' (hothers.block hbare hp ?_))
  simp only [kinds, braced, List.length_cons, List.length_append]
  omega

/-- An arm, and others that begin with a condition. -/
private theorem orIf_passes {e : Tree .expression} {body : Code .block} {others : Code .arms}
    (hadmitted : e.Admitted) (hbody : body.Refines T call rounds)
    (hothers : others.Refines T call rounds) :
    (orIf e body others).Refines T call rounds := by
  intro c c' fuel hreads hne hp
  refine arms_passes hT rfl hadmitted hbody hreads hne hp fun c₁ hrest => ?_
  -- after `else if` the chain goes on as it would from its start
  obtain ⟨c₂, helse, hrest⟩ := Reads.uncons hrest
  obtain ⟨c₃, hif, hrest⟩ := hrest.uncons
  unfold Tolerance.Passes
  rw [Reading.bind_of_pure (Reading.accept_of_reads helse)]
  simp only [if_true]
  rw [Reading.bind_of_pure (Reading.accept_of_reads hif)]
  simp only [if_true]
  refine hothers.inner hrest hne hp ?_
  simp only [kinds, List.length_cons, List.length_append]
  omega

/-- `var` and `val`. -/
private theorem declaration_passes {isFinal : Bool} {name : String} {typing : Typing}
    {e : Tree .expression} (hadmitted : e.Admitted)
    (hreads : Reads c (declaration isFinal name typing e).kinds c') (hends : e.EndsBefore c'.ahead)
    (hp : Provided T call rounds fuel (2 * (declaration isFinal name typing e).kinds.length))
    (outermost : Bool) :
    T.Passes (Reading.variableDeclaration (Phrase.run fuel)) T.Matches c
      ((declaration isFinal name typing e).exec call rounds outermost) c' := by
  simp only [kinds, List.length_cons, List.length_append] at hp
  -- keyword, name, type, `=`, and the value
  obtain ⟨c₁, hkeyword, hrest⟩ := hreads.uncons
  obtain ⟨c₂, hname, hrest⟩ := hrest.uncons
  obtain ⟨c₃, htyping, hrest⟩ := hrest.of_append
  obtain ⟨c₄, hequal, hvalue⟩ := hrest.uncons
  have he := expression_follows hT hadmitted hvalue hends hp (by omega)
  have htyped := Scan.typed_of_reads htyping (by rw [Cursor.ahead_of_reads hequal]; decide)
  have hdeclared : T.Passes (Reading.declared (Phrase.run fuel) isFinal) T.Matches c₁
      -- from the name on, `var` and `val` are read alike
      ((declaration isFinal name typing e).exec call rounds outermost) c' := by
    unfold Tolerance.Passes Reading.declared exec
    rw [Reading.here_bind,
      Reading.bind_of_pure (Reading.scan_of_ok (Scan.identifier_of_reads hname _)),
      Reading.bind_of_pure (Reading.scan_of_ok htyped),
      Reading.bind_of_pure (Reading.expect_of_reads hequal _)]
    refine he.andThen fun v w hvw => ?_
    have hdefine : Eval.Agree T (fun _ _ => True)
        (Eval.define name { isFinal, type := typing.type?, value := v })
        (Eval.define name { isFinal, type := typing.type?, value := w }) :=
      .define name (congrArg (Variable.mk isFinal typing.type?) hvw)
    exact (Follows.locate hT.places _ (.lift c' hdefine)).andThen fun _ _ _ =>
      Tolerance.Passes.done
  -- `var` is asked for first, and `val` only if that is not there
  show T.Passes (Reading.accept _ >>= _) _ _ _ _
  unfold Tolerance.Passes
  cases isFinal with
  | false =>
    have hkeyword : Reads c [.keyword .varKw] c₁ := hkeyword
    rw [Reading.bind_of_pure (Reading.accept_of_reads hkeyword)]
    exact hdeclared
  | true =>
    have hkeyword : Reads c [.keyword .valKw] c₁ := hkeyword
    have hne : c.ahead ≠ some (.keyword .varKw) := by
      rw [Cursor.ahead_of_reads hkeyword]
      decide
    rw [Reading.bind_of_pure (Reading.accept_of_ne hne)]
    simp only [Bool.false_eq_true, if_false]
    rw [Reading.after_of_reads hkeyword]
    exact hdeclared

/-- `def`: the body is kept as it looks. -/
private theorem definition_passes {name : String} {parameters : List (String × Typing)}
    {returns : Typing} {body : Code .block}
    (hreads : Reads c (definition name parameters returns body).kinds c') (outermost : Bool) :
    T.Passes Reading.functionDeclaration T.Matches c
      ((definition name parameters returns body).exec call rounds outermost) c' := by
  -- keyword, name, parameters, result type, and the body
  obtain ⟨c₁, hkeyword, hrest⟩ := hreads.uncons
  obtain ⟨c₂, hname, hrest⟩ := hrest.uncons
  obtain ⟨c₃, hparen, hrest⟩ := hrest.uncons
  obtain ⟨c₄, hparameters, hrest⟩ := hrest.of_append
  obtain ⟨c₅, hreturns, hbraced⟩ := hrest.of_append
  obtain ⟨c₆, tokens, hopen, hblock, hbare⟩ := Scan.braced_of_reads hbraced body.balanced
  have htyped := Scan.typed_of_reads hreturns (by rw [Cursor.ahead_of_reads hopen]; decide)
  -- the body that is kept has the tokens of the tree, with comments and places of its own
  have hview : T.view tokens = T.view (body.kinds.map Kind.bare) := by
    rw [hT.view, hbare, Token.bare_map_bare body.kinds_isPlain]
  unfold Tolerance.Passes Reading.functionDeclaration exec
  rw [Reading.after_of_reads hkeyword, Reading.here_bind,
    Reading.bind_of_pure (Reading.scan_of_ok (Scan.identifier_of_reads hname _)),
    Reading.bind_of_pure (Reading.expect_of_reads hparen _),
    Reading.bind_of_pure (Reading.scan_of_ok (Scan.parameters_of_reads hparameters)),
    Reading.bind_of_pure (Reading.scan_of_ok htyped),
    Reading.bind_of_pure (Reading.expect_of_reads hopen _),
    Reading.bind_of_pure (Reading.scan_of_ok hblock)]
  refine (Follows.locate hT.places _ (.lift c' (.declareFunction name _ _ hview))).andThen
    fun _ _ _ => Tolerance.Passes.done

/-- An expression as a statement. -/
private theorem expression_passes {e : Tree .expression} (hadmitted : e.Admitted)
    (hreads : Reads c (expression e).kinds c') (hends : e.EndsBefore c'.ahead)
    (hp : Provided T call rounds fuel (2 * (expression e).kinds.length)) (outermost : Bool) :
    T.Passes (Reading.expressionStatement (Phrase.run fuel)) T.Matches c
      ((expression e).exec call rounds outermost) c' := by
  -- an expression is told by its first token, so that one is looked up
  have hpos := (expression e).length_kinds_pos
  have he := expression_follows hT hadmitted hreads hends hp (by
    simp only [kinds] at hpos ⊢
    omega)
  obtain ⟨kind, hhead, hstarts⟩ := e.exists_head
  obtain ⟨others, hkinds⟩ := List.head?_eq_some_iff.mp hhead
  rw [kinds, hkinds] at hreads
  obtain ⟨token, c₁, hnext, rfl, -⟩ := hreads.of_cons
  unfold Tolerance.Passes Reading.expressionStatement exec
  rw [Reading.peek_bind, c.peek_eq, hnext]
  simp only [Option.map_some, hstarts, if_true]
  exact he.andThen fun _ _ _ => Tolerance.Passes.done

/-! ### Statements in a row -/

omit hT in
/-- The pause in front of a statement opens no scope. -/
private theorem atRoot_paused (paced : Bool) (s : Session) :
    (Reading.paused paced s).env.atRoot = s.env.atRoot := by
  cases paced with
  | true => exact congrArg Environment.atRoot (Session.pace_same s).1
  | false => rfl

/-- The pause in front of a statement makes no difference. -/
private theorem sessions_paused {s t : Session} (h : T.Sessions s t) (paced : Bool) :
    T.Sessions (Reading.paused paced s) t := by
  cases paced with
  | true => exact hT.pace h
  | false => exact h

/-- Statements may be compared behind a comment in front of them, which costs one step. -/
private theorem refines_of_plain {b : Code .block}
    (h : ∀ {c : Cursor} {fuel : Nat} (paced outermost : Bool), c.atComment = false →
      Token.bare c.rest = b.kinds.map Kind.bare →
      Provided T call rounds fuel (2 * b.kinds.length) →
      Eval.AgreeAt T outermost (fun p v => Option.Rel T.Values p.1 v)
        (Reading.statements (Phrase.run fuel) fuel paced c) (b.exec call rounds outermost)) :
    b.Refines T call rounds := by
  intro c fuel paced outermost hbare hp
  -- at a comment the row begins behind it
  cases hat : c.atComment with
  | false => exact h paced outermost hat hbare (hp.less (Nat.le_refl _) (by omega))
  | true =>
    have hclosed : c.unclosed? = none := by
      cases hopen : c.unclosed? with
      | none => rfl
      | some mark =>
        -- the mark of a comment that does not end would be a token of the statements
        have hmark := Cursor.bare_of_unclosed hopen
        rw [hbare] at hmark
        obtain ⟨kind, hkind, heq⟩ : ∃ kind ∈ b.kinds, kind.bare = Kind.bare (.symbol .commentOpen) :=
          List.mem_map.mp (hmark ▸ List.mem_singleton_self _)
        have hplain := b.kinds_isPlain kind hkind
        rw [(Token.mk.inj heq).1] at hplain
        cases hplain
    intro s t hst hroot
    rw [Reading.statements_of_comment hat hclosed]
    refine hp.inner (Nat.lt_succ_self _) (fun k hk => ?_) _ t (sessions_paused hT hst paced)
      ((atRoot_paused paced s).trans hroot)
    -- behind the comments the row has the same tokens and a little less fuel
    exact h true outermost c.atComment_settle ((Cursor.bare_rest_settle hclosed).trans hbare) hk

/-- No statement. -/
private theorem done_refines : done.Refines T call rounds := by
  refine refines_of_plain hT fun {c fuel} paced outermost hat hbare _ => ?_
  have hfront : c.front = none := by
    have hahead : c.next?.map (·.1.kind) = none := Cursor.ahead_of_bare_nil hbare
    rw [Cursor.front_of_atComment_false hat, Option.map_eq_none_iff.mp hahead]
    rfl
  rw [Reading.statements_of_none hfront]
  exact fun s t hst _ => .ok .none hst

/-- `return`. -/
private theorem returned_agree {value? : Option (Tree .expression)}
    (hwell : (returning value?).WellFormed) (hreads : Reads c (returning value?).kinds c')
    (hends : (returning value?).EndsBefore c'.ahead) (hp : Provided T call rounds fuel size)
    (hlt : (returning value?).kinds.length < size) (span : Span) (outermost : Bool) :
    Eval.AgreeAt T outermost (fun p v => ∃ w, v = some w ∧ T.Values p.1 w)
      (Reading.returned (Phrase.run fuel) span c)
      ((returning value?).exec call rounds outermost) := by
  intro s t hst hroot
  unfold Reading.returned
  show T.Ends _ ((if s.env.atRoot then _ else _ : Reading Value) c s) _
  rw [hroot, exec.eq_def]
  cases outermost with
  -- outside of functions `return` is refused before anything is read
  | true => exact .fault (.of_cause fun hp => absurd hp hT.places) hst
  | false =>
    simp only [Bool.false_eq_true, if_false]
    -- a value is read if there is anything behind the keyword
    cases value? with
    | none =>
      have hatEnd : c'.atEnd = true := c'.atEnd_iff.mpr hends
      rw [Reading.next_bind_of_reads hreads, Reading.cursor_bind, hatEnd]
      exact .ok ⟨.void, rfl, .refl _⟩ hst
    | some value =>
      obtain ⟨c₁, hkeyword, hvalue⟩ := hreads.uncons
      obtain ⟨kind, hhead, -⟩ := value.exists_head
      have hatEnd : c₁.atEnd = false := by
        rw [← Bool.not_eq_true, Cursor.atEnd_iff, Cursor.ahead_of_head hvalue hhead]
        exact nofun
      rw [Reading.next_bind_of_reads hkeyword, Reading.cursor_bind, hatEnd]
      simp only [Bool.false_eq_true, if_false]
      have he := expression_follows hT hwell hvalue hends hp (by
        simp only [kinds, List.length_cons] at hlt
        omega)
      rw [← bind_pure (Reading.locate span (Phrase.run fuel .expression) c₁)]
      exact Eval.Agree.bind (he.locate hT.places span) (fun _ w hvw => .pure ⟨w, rfl, hvw.1⟩) s t hst

/-- A `return` and what stands behind it. -/
private theorem next_returning {value? : Option (Tree .expression)} {rest : Code .block}
    (hwell : (returning value?).WellFormed) (hreads : Reads c (returning value?).kinds c')
    (hends : (returning value?).EndsBefore c'.ahead) (hp : Provided T call rounds fuel size)
    (hlt : (returning value?).kinds.length < size) {token : Token} (hfront : c.front = some token)
    (hkind : token.kind = .keyword .returnKw) (paced outermost : Bool) :
    Eval.AgreeAt T outermost (fun p v => Option.Rel T.Values p.1 v)
      (Reading.statements (Phrase.run fuel) fuel paced c)
      ((next (returning value?) rest).exec call rounds outermost) := by
  rw [Reading.statements_of_return hfront hkind]
  refine (returned_agree hT hwell hreads hends hp hlt token.span outermost).andThen fun p v hpv => ?_
  obtain ⟨w, rfl, hvw⟩ := hpv
  exact .pure (.some hvw)

/-- A statement that is no `return`, and those behind it. -/
private theorem next_dispatched {first : Code .statement} {rest : Code .block}
    (hfirst : first.Refines T call rounds) (hrest : rest.Refines T call rounds)
    (hreturn : ∀ value?, first ≠ returning value?) (hreads : Reads c first.kinds c')
    (hbare : Token.bare c'.rest = rest.kinds.map Kind.bare) (hends : first.EndsBefore c'.ahead)
    (hat : c.atComment = false)
    (hp : Provided T call rounds fuel (2 * (next first rest).kinds.length)) (token : Token)
    (outermost : Bool) :
    Eval.AgreeAt T outermost (fun p v => Option.Rel T.Values p.1 v)
      (Reading.dispatched (Phrase.run fuel) fuel token c)
      ((next first rest).exec call rounds outermost) := by
  have hpos := first.length_kinds_pos
  simp only [kinds, List.length_append] at hp
  -- statements in a row do not begin with `else`, so a conditional has no more arms
  have hne : c'.ahead ≠ some (.keyword .elseKw) := by
    rw [Cursor.ahead_of_bare rest.kinds_isPlain hbare]
    exact rest.head_ne_else
  have hstatement := hfirst outermost hreads hends hne hreturn
    (hp.less (Nat.le_refl fuel) (by omega))
  have hlocated : Eval.Agree T (fun p v => T.Matches p.1 v ∧ (v = none → p.2 = c'))
      (Reading.locate token.span (Reading.firstOf (Phrase.run fuel) fuel Construct.chain) c)
      (first.exec call rounds outermost) := by
    refine Eval.Agree.locate_first hT.places ?_
    rw [Reading.firstOf_of_not_atComment hat]
    exact hstatement
  have hkeeps := Reading.Keeps.locate token.span
    (Orderly.firstOf (Phrase.keeps .nesting fuel) fuel Construct.chain) c
  -- a statement that returns nothing ends at `c'`, where the rest is spelled
  refine Eval.AgreeAt.bind (fun s t hst _ => hlocated s t hst) hkeeps fun p v hpv => ?_
  obtain ⟨outcome, c₁⟩ := p
  obtain ⟨hmatch, hend⟩ := hpv
  cases hmatch with
  | done =>
    obtain rfl : c₁ = c' := hend rfl
    exact hp.inner (by omega) fun k hk => hrest true outermost hbare hk
  | returned hvw => exact fun s t hst _ => .ok (.some hvw) hst

/-- A statement and those behind it. -/
private theorem next_refines {first : Code .statement} {rest : Code .block}
    (hwell : (next first rest).WellFormed) (hfirst : first.Refines T call rounds)
    (hrest : rest.Refines T call rounds) : (next first rest).Refines T call rounds := by
  refine refines_of_plain hT fun {c fuel} paced outermost hat hbare hp => ?_
  -- the tokens are those of the first statement and those of the row behind it
  obtain ⟨hwellFirst, -, hends⟩ := hwell
  rw [kinds, List.map_append] at hbare
  obtain ⟨c', hreads, hbare⟩ := Cursor.reads_of_bare first.kinds_isPlain hbare
  rw [← Cursor.ahead_of_bare rest.kinds_isPlain hbare] at hends
  obtain ⟨kind, hhead, -, hbrace, hreturn⟩ := first.exists_head
  obtain ⟨others, hkinds⟩ := List.head?_eq_some_iff.mp hhead
  obtain ⟨token, c₁, hnext, hkind, -⟩ := (hkinds ▸ hreads).of_cons
  have hfront : c.front = some token := by
    rw [Cursor.front_of_atComment_false hat, hnext]
    rfl
  -- `return` is read by the row itself, everything else by one of the constructs
  by_cases hreturned : kind = .keyword .returnKw
  · obtain ⟨value?, rfl⟩ := hreturn hreturned
    have hpos := (returning value?).length_kinds_pos
    refine next_returning hT hwellFirst hreads hends hp ?_ hfront (hkind.trans hreturned) paced
      outermost
    simp only [kinds, List.length_append]
    omega
  · have hother : ∀ value?, first ≠ returning value? := by
      rintro value? rfl
      refine hreturned (Option.some.inj (hhead.symm.trans ?_))
      cases value? <;> rfl
    intro s t hst hroot
    rw [Reading.statements_of_front hfront (hkind ▸ hbrace) (hkind ▸ hreturned)]
    exact next_dispatched hT hfirst hrest hother hreads hbare hends hat hp token outermost _ t
      (sessions_paused hT hst paced) ((atRoot_paused paced s).trans hroot)

/-- The executions of tokens and of the tree that they spell agree. -/
theorem refines {code : Code part} (hwell : code.WellFormed) : code.Refines T call rounds := by
  -- the first token of a statement picks its construct, which does what the tree does
  induction code with
  | assertion e =>
    intro c c' fuel outermost hreads hends _ _ hp
    exact .firstOf_keyword .assertion (by decide) (Cursor.ahead_of_reads hreads)
      (assertion_passes hT hwell hreads hends hp outermost)
  | counted e body ih =>
    intro c c' fuel outermost hreads _ _ _ hp
    exact .firstOf_keyword .counted (by decide) (Cursor.ahead_of_reads hreads)
      (counted_passes hT hwell.1 (ih hwell.2) hreads hp outermost)
  | whileLoop e body ih =>
    intro c c' fuel outermost hreads _ _ _ hp
    exact .firstOf_keyword .whileLoop (by decide) (Cursor.ahead_of_reads hreads)
      (whileLoop_passes hT hwell.1 (ih hwell.2) hreads hp outermost)
  | range first limit name? body ih =>
    intro c c' fuel outermost hreads _ _ _ hp
    exact .firstOf_keyword .range (by decide) (Cursor.ahead_of_reads hreads)
      (range_passes hT hwell.1 hwell.2.1 (ih hwell.2.2) hreads hp outermost)
  | conditional arms ih =>
    intro c c' fuel outermost hreads _ hne _ hp
    exact .firstOf_keyword .conditional (by decide) (Cursor.ahead_of_reads hreads)
      (conditional_passes (ih hwell) hreads hne hp outermost)
  | declaration isFinal name typing e =>
    intro c c' fuel outermost hreads hends _ _ hp
    exact .firstOf_keyword .variableDeclaration (by cases isFinal <;> decide)
      (Cursor.ahead_of_reads hreads) (declaration_passes hT hwell hreads hends hp outermost)
  | definition name parameters returns body =>
    intro c c' fuel outermost hreads _ _ _ _
    exact .firstOf_keyword .functionDeclaration (by decide)
      (Cursor.ahead_of_reads hreads) (definition_passes hT hreads outermost)
  | expression e =>
    intro c c' fuel outermost hreads hends _ _ hp
    obtain ⟨kind, hhead, hstarts⟩ := e.exists_head
    exact .firstOf_expression (Cursor.ahead_of_head hreads hhead) hstarts
      (expression_passes hT hwell hreads hends hp outermost)
  | returning value? =>
    intro c c' fuel outermost _ _ _ hreturn
    exact absurd rfl (hreturn value?)
  | lone e body ih => exact lone_passes hT hwell.1 (ih hwell.2)
  | orElse e body others ih ih' => exact orElse_passes hT hwell.1 (ih hwell.2.1) (ih' hwell.2.2)
  | orIf e body others ih ih' => exact orIf_passes hT hwell.1 (ih hwell.2.1) (ih' hwell.2.2)
  | done => exact done_refines hT
  | next first rest ih ih' => exact next_refines hT hwell (ih hwell.1) (ih' hwell.2.1)

end Code

end Tern
