import Tern.Proofs.Statement.Code

/-!
# The tokens of statements

What the tokens of a statement look like, and how the scans for the fixed parts of a statement get
through them: types, parameters, blocks, and arms that are stepped over.

## Key results

- `Code.balanced`, `Code.kinds_isPlain`: every brace has its partner, and nothing begins a comment
- `Code.exists_head`: what a statement begins with
- `Scan.parameters_of_reads`, `Scan.braced_of_reads`, `Scan.skipArms_of_reads`: scans at known places
-/

namespace Tern

open Cursor (Reads)
open Scan (Balanced)

/-! ### First tokens -/

/-- An expression begins with a token that expressions can begin with. -/
theorem Tree.exists_head (t : Tree form) :
    ∃ kind, t.kinds.head? = some kind ∧ kind.startsExpression = true := by
  induction t with
  | number | text | read | group | callNone | call | assign | step => exact ⟨_, rfl, rfl⟩
  | truth b => exact ⟨_, rfl, by cases b <;> rfl⟩
  | unary op => exact ⟨_, rfl, by cases op <;> rfl⟩
  | binary _ _ _ ih | more _ _ ih =>
    obtain ⟨kind, hhead, hstarts⟩ := ih
    exact ⟨kind, by rw [kinds, List.head?_append, hhead]; rfl, hstarts⟩
  | last _ ih => exact ih

namespace Code

/-- A statement begins with no `else` and no closing brace, and with `return` only if it is one. -/
theorem exists_head (s : Code .statement) :
    ∃ kind, s.kinds.head? = some kind ∧ kind ≠ .keyword .elseKw ∧
      kind ≠ .symbol .rightBrace ∧ (kind = .keyword .returnKw → ∃ value?, s = returning value?) := by
  -- only an expression has a first token that is not given by its form
  cases s with
  | expression value =>
    obtain ⟨kind, hhead, hstarts⟩ := value.exists_head
    refine ⟨kind, hhead, ?_, ?_, ?_⟩
    · rintro rfl
      cases hstarts
    · rintro rfl
      cases hstarts
    · rintro rfl
      cases hstarts
  | returning value? =>
    refine ⟨.keyword .returnKw, ?_, by decide, by decide, fun _ => ⟨value?, rfl⟩⟩
    cases value? <;> rfl
  | declaration isFinal => cases isFinal <;> exact ⟨_, rfl, by decide, by decide, by rintro ⟨⟩⟩
  | _ => exact ⟨_, rfl, by decide, by decide, by rintro ⟨⟩⟩

/-- Every statement has a token. -/
theorem length_kinds_pos (s : Code .statement) : 0 < s.kinds.length := by
  obtain ⟨kind, hhead, -⟩ := s.exists_head
  cases hkinds : s.kinds with
  | nil => simp [hkinds] at hhead
  | cons => simp

/-- A statement and what follows it have a token. -/
theorem next_kinds_ne_nil {first : Code .statement} {rest : Code .block} :
    (next first rest).kinds ≠ [] := by
  rw [← List.length_pos_iff, kinds, List.length_append]
  exact Nat.add_pos_left first.length_kinds_pos _

/-- Statements in a row do not begin with `else`. -/
theorem head_ne_else (b : Code .block) : b.kinds.head? ≠ some (.keyword .elseKw) := by
  cases b with
  | done => simp [kinds]
  | next first rest =>
    obtain ⟨kind, hhead, hne, -⟩ := first.exists_head
    rw [kinds, List.head?_append, hhead]
    exact fun h => hne (Option.some.inj h)

/-! ### Comments and braces -/

private theorem all_isPlain_typing (typing : Typing) : typing.kinds.all Kind.isPlain = true := by
  cases typing <;> rfl

private theorem all_isPlain_further (parameters : List (String × Typing)) :
    (furtherParameterKinds parameters).all Kind.isPlain = true := by
  induction parameters with
  | nil => rfl
  | cons parameter others ih =>
    simp [furtherParameterKinds, Kind.isPlain, -List.all_eq_true, all_isPlain_typing, ih]

private theorem all_isPlain_parameters (parameters : List (String × Typing)) :
    (parameterKinds parameters).all Kind.isPlain = true := by
  cases parameters with
  | nil => rfl
  | cons parameter others =>
    simp [parameterKinds, Kind.isPlain, -List.all_eq_true, all_isPlain_typing, all_isPlain_further]

private theorem all_isPlain_tree (t : Tree form) : t.kinds.all Kind.isPlain = true :=
  List.all_eq_true.mpr t.kinds_isPlain

private theorem all_isPlain (code : Code part) : code.kinds.all Kind.isPlain = true := by
  -- along the code; nothing that is written down for it is a comment
  induction code with
  | assertion | expression => simp [kinds, Kind.isPlain, -List.all_eq_true, all_isPlain_tree]
  | returning value? =>
    cases value? with
    | none => rfl
    | some value => simp [kinds, Kind.isPlain, -List.all_eq_true, all_isPlain_tree]
  | declaration => simp [kinds, Kind.isPlain, -List.all_eq_true, all_isPlain_tree, all_isPlain_typing]
  | counted _ _ ih | whileLoop _ _ ih | lone _ _ ih =>
    simp [kinds, braced, Kind.isPlain, -List.all_eq_true, all_isPlain_tree, ih]
  | range _ _ name? _ ih =>
    cases name? <;>
      simp [kinds, loopNameKinds, braced, Kind.isPlain, -List.all_eq_true, all_isPlain_tree, ih]
  | conditional _ ih => simp [kinds, Kind.isPlain, -List.all_eq_true, ih]
  | definition _ _ _ _ ih =>
    simp [kinds, braced, Kind.isPlain, -List.all_eq_true, all_isPlain_parameters,
      all_isPlain_typing, ih]
  | orElse _ _ _ ih ih' | orIf _ _ _ ih ih' =>
    simp [kinds, braced, Kind.isPlain, -List.all_eq_true, all_isPlain_tree, ih, ih']
  | done => rfl
  | next _ _ ih ih' => simp [kinds, -List.all_eq_true, ih, ih']

/-- No token of a program begins a comment. -/
theorem kinds_isPlain (code : Code part) : ∀ k ∈ code.kinds, k.isPlain = true :=
  List.all_eq_true.mp code.all_isPlain

end Code

private theorem Typing.balanced (typing : Typing) : Balanced typing.kinds := by
  cases typing with
  | absent => exact .nil
  | any | only => exact .cons (by simp) (by simp) (.cons (by simp) (by simp) .nil)

private theorem balanced_furtherParameters (parameters : List (String × Typing)) :
    Balanced (furtherParameterKinds parameters) := by
  induction parameters with
  | nil => exact .cons (by simp) (by simp) .nil
  | cons parameter others ih =>
    exact .cons (by simp) (by simp) (.cons (by simp) (by simp) (parameter.2.balanced.append ih))

private theorem balanced_parameters (parameters : List (String × Typing)) :
    Balanced (parameterKinds parameters) := by
  cases parameters with
  | nil => exact .cons (by simp) (by simp) .nil
  | cons parameter others =>
    exact .cons (by simp) (by simp)
      (parameter.2.balanced.append (balanced_furtherParameters others))

/-- Neither brace is a token of an expression. -/
theorem Tree.brace_not_mem (t : Tree form) :
    .symbol .leftBrace ∉ t.kinds ∧ .symbol .rightBrace ∉ t.kinds :=
  ⟨fun h => Bool.noConfusion (inExpression_of_mem_kinds h : false = true),
    fun h => Bool.noConfusion (inExpression_of_mem_kinds h : false = true)⟩

private theorem Tree.balanced (t : Tree form) : Balanced t.kinds := by
  obtain ⟨hl, hr⟩ := t.brace_not_mem
  generalize t.kinds = kinds at hl hr
  induction kinds with
  | nil => exact .nil
  | cons kind kinds ih =>
    rw [List.mem_cons, not_or] at hl hr
    exact .cons (Ne.symm hl.1) (Ne.symm hr.1) (ih hl.2 hr.2)

/-- Every brace in a program has its partner. -/
theorem Code.balanced (code : Code part) : Balanced code.kinds := by
  -- along the code: braces come in pairs around what is balanced already
  induction code with
  | assertion condition => exact .cons (by simp) (by simp) condition.balanced
  | expression value => exact value.balanced
  | returning value? =>
    cases value? with
    | none => exact .cons (by simp) (by simp) .nil
    | some value => exact .cons (by simp) (by simp) value.balanced
  | declaration isFinal name typing value =>
    exact .cons (by simp) (by simp) (.cons (by simp) (by simp)
      (typing.balanced.append (.cons (by simp) (by simp) value.balanced)))
  | counted value body ih | whileLoop value body ih =>
    exact .cons (by simp) (by simp) (value.balanced.append ih.braces)
  | range first limit name? body ih =>
    refine .cons (by simp) (by simp) (first.balanced.append (.cons (by simp) (by simp)
      (limit.balanced.append (.append ?_ ih.braces))))
    cases name? with
    | none => exact .nil
    | some name => exact .cons (by simp) (by simp) (.cons (by simp) (by simp) .nil)
  | conditional arms ih => exact .cons (by simp) (by simp) ih
  | definition name parameters returns body ih =>
    exact .cons (by simp) (by simp) (.cons (by simp) (by simp) (.cons (by simp) (by simp)
      ((balanced_parameters parameters).append (returns.balanced.append ih.braces))))
  | lone condition body ih => exact condition.balanced.append ih.braces
  | orElse condition body others ih ih' =>
    exact condition.balanced.append (ih.braces.append (.cons (by simp) (by simp) ih'.braces))
  | orIf condition body others ih ih' =>
    exact condition.balanced.append (ih.braces.append
      (.cons (by simp) (by simp) (.cons (by simp) (by simp) ih')))
  | done => exact .nil
  | next first rest ih ih' => exact ih.append ih'

/-! ### Scans -/

/-- Where only tokens of these kinds are left, the first of them is next. -/
theorem Cursor.ahead_of_bare {c : Cursor} {kinds : List Kind}
    (hplain : ∀ k ∈ kinds, k.isPlain = true) (h : Token.bare c.rest = kinds.map Kind.bare) :
    c.ahead = kinds.head? := by
  cases kinds with
  | nil => exact ahead_of_bare_nil h
  | cons kind kinds =>
    rw [← List.append_nil ((kind :: kinds).map Kind.bare)] at h
    obtain ⟨c', hreads, -⟩ := reads_of_bare hplain h
    exact ahead_of_reads hreads

/-- The first token that is read is next. -/
theorem Cursor.ahead_of_head {c c' : Cursor} {kinds : List Kind} {kind : Kind}
    (h : Reads c kinds c') (hhead : kinds.head? = some kind) : c.ahead = some kind := by
  obtain ⟨others, rfl⟩ := List.head?_eq_some_iff.mp hhead
  exact ahead_of_reads h

namespace Scan

/-- The type behind a name. -/
theorem typed_of_reads {typing : Typing} {c c' : Cursor} (h : Reads c typing.kinds c')
    (hne : c'.ahead ≠ some (.symbol .colon)) : Scan.annotation c = .ok typing.type? c' := by
  unfold Scan.annotation
  -- without a type there is no colon to be accepted
  cases typing with
  | absent =>
    cases h
    rw [bind_of_ok (accept_of_ne hne)]
    rfl
  | any =>
    obtain ⟨c₁, hcolon, hname⟩ := h.uncons
    rw [bind_of_ok (accept_of_reads hcolon)]
    show typeName c₁ = _
    unfold typeName
    rw [get_bind, bind_of_ok (identifier_of_reads hname _)]
    rfl
  | only type =>
    obtain ⟨c₁, hcolon, hname⟩ := h.uncons
    rw [bind_of_ok (accept_of_reads hcolon)]
    show typeName c₁ = _
    unfold typeName
    rw [get_bind, bind_of_ok (identifier_of_reads hname _)]
    cases type <;> rfl

/-- Parameters are followed by a comma or the closing parenthesis. -/
theorem further_ahead (others : List (String × Typing)) {c c' : Cursor}
    (h : Reads c (furtherParameterKinds others) c') : c.ahead ≠ some (.symbol .colon) := by
  cases others with
  | nil =>
    rw [Cursor.ahead_of_reads h]
    decide
  | cons =>
    rw [Cursor.ahead_of_reads h]
    decide

private theorem moreParameters_of_reads {name : String} {typing : Typing}
    {others : List (String × Typing)} {c c' : Cursor} {steps : Nat}
    (h : Reads c (.ident name :: (typing.kinds ++ furtherParameterKinds others)) c')
    (hsteps : others.length < steps) :
    moreParameters steps c =
      .ok (((name, typing) :: others).map fun (name, typing) => { name, type := typing.type? })
        c' := by
  -- on the further parameters, each of which is announced by a comma
  induction others generalizing name typing c steps with
  | nil =>
    obtain ⟨steps, rfl⟩ : ∃ n, steps = n + 1 := ⟨steps - 1, by omega⟩
    obtain ⟨c₁, hname, hrest⟩ := h.uncons
    obtain ⟨c₂, htyping, hclose⟩ := hrest.of_append
    unfold moreParameters
    rw [bind_of_ok (identifier_of_reads hname _),
      bind_of_ok (typed_of_reads htyping (further_ahead [] hclose)),
      bind_of_ok (accept_of_reads hclose)]
    rfl
  | cons other others ih =>
    obtain ⟨steps, rfl⟩ : ∃ n, steps = n + 1 := ⟨steps - 1, by omega⟩
    obtain ⟨c₁, hname, hrest⟩ := h.uncons
    obtain ⟨c₂, htyping, hfurther⟩ := hrest.of_append
    have hcolon := further_ahead _ hfurther
    obtain ⟨c₃, hcomma, hothers⟩ := hfurther.uncons
    -- there is a comma, so another parameter follows
    have hclose : c₂.ahead ≠ some (.symbol .rightParen) := by
      rw [Cursor.ahead_of_reads hcomma]
      decide
    obtain ⟨token, hexpect⟩ := expect_of_reads hcomma "`,` or `)` in parameter list"
    unfold moreParameters
    rw [bind_of_ok (identifier_of_reads hname _), bind_of_ok (typed_of_reads htyping hcolon),
      bind_of_ok (accept_of_ne hclose)]
    simp only [Bool.false_eq_true, if_false]
    rw [bind_of_ok hexpect, bind_of_ok (ih hothers (Nat.lt_of_succ_lt_succ hsteps))]
    rfl

private theorem length_furtherParameterKinds (parameters : List (String × Typing)) :
    parameters.length ≤ (furtherParameterKinds parameters).length := by
  induction parameters with
  | nil => exact Nat.zero_le _
  | cons parameter others ih =>
    simp only [furtherParameterKinds, List.length_cons, List.length_append]
    omega

/-- A parameter list. -/
theorem parameters_of_reads {parameters : List (String × Typing)} {c c' : Cursor}
    (h : Reads c (parameterKinds parameters) c') :
    Scan.parameters c =
      .ok (parameters.map fun (name, typing) => { name, type := typing.type? }) c' := by
  unfold Scan.parameters
  -- the list is closed at once, or it has a first parameter
  cases parameters with
  | nil =>
    rw [bind_of_ok (accept_of_reads h)]
    rfl
  | cons parameter others =>
    have hne : c.ahead ≠ some (.symbol .rightParen) := by
      rw [Cursor.ahead_of_reads h]
      simp
    -- there are tokens enough for every further parameter
    have hlength := h.length_rest
    have hothers := length_furtherParameterKinds others
    simp only [parameterKinds, List.length_cons, List.length_append] at hlength
    rw [bind_of_ok (accept_of_ne hne)]
    simp only [Bool.false_eq_true, if_false]
    rw [get_bind]
    exact moreParameters_of_reads h (by omega)

/-- A block in braces. -/
theorem braced_of_reads {kinds : List Kind} {c c' : Cursor} (h : Reads c (braced kinds) c')
    (hb : Balanced kinds) :
    ∃ c₁ body, Reads c [.symbol .leftBrace] c₁ ∧ Scan.block c₁ = .ok body c' ∧
      Token.bare body = kinds.map Kind.bare := by
  obtain ⟨c₁, hopen, hrest⟩ := h.uncons
  exact ⟨c₁, _, hopen, block_of_reads hrest hb, hrest.passedSince_dropLast⟩

/-- Stepping over a block in braces. -/
theorem skipBlock_of_ok {c c' : Cursor} {body : List Token} (h : Scan.block c = .ok body c') :
    skipBlock c = .ok () c' := by
  unfold skipBlock
  rw [bind_of_ok h]
  rfl

end Scan

/-- The tokens behind the first block of a conditional. -/
def Code.otherKinds : Code .arms → List Kind
  | lone _ _ => []
  | orElse _ _ others => .keyword .elseKw :: braced others.kinds
  | orIf _ _ others => .keyword .elseKw :: .keyword .ifKw :: others.kinds

/-- A chain of arms is a condition, a block, and the arms behind it. -/
private theorem Code.kinds_arms (arms : Code .arms) :
    ∃ (condition : Tree .expression) (body : Code .block),
      arms.kinds = condition.kinds ++ (braced body.kinds ++ arms.otherKinds) := by
  cases arms with
  | lone condition body => exact ⟨condition, body, by simp [Code.kinds, Code.otherKinds]⟩
  | orElse condition body _ => exact ⟨condition, body, rfl⟩
  | orIf condition body _ => exact ⟨condition, body, rfl⟩

namespace Scan

/-- Stepping over the block of an `else`, which is the last one. -/
private theorem skipMoreArms_else {others : Code .block} {c c' : Cursor}
    (h : Reads c (.keyword .elseKw :: braced others.kinds) c') (steps : Nat) :
    skipMoreArms (steps + 1) c = .ok () c' := by
  obtain ⟨c₁, helse, hbraced⟩ := h.uncons
  obtain ⟨c₂, body, hopen, hblock, -⟩ := braced_of_reads hbraced others.balanced
  have hif : c₁.ahead ≠ some (.keyword .ifKw) := by
    rw [Cursor.ahead_of_reads hopen]
    decide
  obtain ⟨token, hexpect⟩ := expect_of_reads hopen "`\x7b` after else"
  unfold skipMoreArms
  rw [bind_of_ok (accept_of_reads helse)]
  simp only [if_true]
  rw [bind_of_ok (accept_of_ne hif)]
  simp only [Bool.false_eq_true, if_false]
  rw [bind_of_ok hexpect]
  exact skipBlock_of_ok hblock

/-- Stepping over the condition and the block of an `else if`. -/
private theorem skipMoreArms_elseIf {condition : Tree .expression} {body : Code .block}
    {c c' : Cursor}
    (h : Reads c (.keyword .elseKw :: .keyword .ifKw :: (condition.kinds ++ braced body.kinds)) c')
    (steps : Nat) : skipMoreArms (steps + 1) c = skipMoreArms steps c' := by
  obtain ⟨c₁, helse, hrest⟩ := h.uncons
  obtain ⟨c₂, hif, harm⟩ := hrest.uncons
  obtain ⟨c₃, hcondition, hbraced⟩ := harm.of_append
  obtain ⟨c₄, tokens, hopen, hblock, -⟩ := braced_of_reads hbraced body.balanced
  rw [skipMoreArms.eq_def]
  simp only
  rw [bind_of_ok (accept_of_reads helse)]
  simp only [if_true]
  rw [bind_of_ok (accept_of_reads hif)]
  simp only [if_true]
  rw [bind_of_ok (untilBrace_of_reads (hcondition.append hopen) condition.brace_not_mem.1 _),
    bind_of_ok (skipBlock_of_ok hblock)]

/-- Stepping over the arms behind the one that was taken. -/
private theorem skipMoreArms_of_reads (arms : Code .arms) {c c' : Cursor} {steps : Nat}
    (h : Reads c arms.otherKinds c') (hne : c'.ahead ≠ some (.keyword .elseKw))
    (hsteps : arms.otherKinds.length ≤ steps) : skipMoreArms steps c = .ok () c' := by
  -- after `else` comes the last block, and after `else if` another arm
  match arms with
  | .lone _ _ =>
    cases h
    exact skipMoreArms_of_ne hne steps
  | .orElse _ _ others =>
    obtain ⟨steps, rfl⟩ : ∃ n, steps = n + 1 := ⟨steps - 1, by
      simp only [Code.otherKinds, List.length_cons] at hsteps
      omega⟩
    exact skipMoreArms_else h steps
  | .orIf condition' body' others =>
    obtain ⟨steps, rfl⟩ : ∃ n, steps = n + 1 := ⟨steps - 1, by
      simp only [Code.otherKinds, List.length_cons] at hsteps
      omega⟩
    obtain ⟨condition, body, hkinds⟩ := others.kinds_arms
    have hsplit : (Code.orIf condition' body' others).otherKinds =
        (.keyword .elseKw :: .keyword .ifKw :: (condition.kinds ++ braced body.kinds)) ++
          others.otherKinds := by
      simp only [Code.otherKinds, hkinds, List.cons_append, List.append_assoc]
    obtain ⟨c₁, harm, hothers⟩ := Reads.of_append (hsplit ▸ h)
    rw [skipMoreArms_elseIf harm]
    -- the next arm has fewer tokens, so the steps that are left suffice
    refine skipMoreArms_of_reads others hothers hne ?_
    simp only [hsplit, List.length_append, List.length_cons] at hsteps
    omega

/-- Stepping over the arms behind the one that was taken. -/
theorem skipArms_of_reads (arms : Code .arms) {c c' : Cursor} (h : Reads c arms.otherKinds c')
    (hne : c'.ahead ≠ some (.keyword .elseKw)) : skipArms c = .ok () c' := by
  have := h.length_rest
  exact skipMoreArms_of_reads arms h hne (by omega)

end Scan

end Tern
