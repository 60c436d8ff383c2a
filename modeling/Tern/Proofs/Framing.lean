import Mathlib.Logic.Relation
import Tern.Proofs.Expression.Operand
import Tern.Proofs.Preservation
import Tern.Proofs.Scanning

/-!
# What evaluation leaves alone

Any code that is called may assign to any variable that its caller sees, so little can be said
about the values in the scopes around an expression. But nothing can be done to a final variable,
and nothing but statements can declare anything: an expression, a block or a call finds every scope
with the names, the declared types and the mutability that it had.

## Key results

- `Discipline.framing`: expressions assign, statements declare in the innermost scope as well
- `Session.finals_kept`: final variables never change
- `Session.frame_kept`: what an expression, a block or a call may do to the scopes around it, and
  what becomes of an assignment once its value is known
-/

namespace Tern

/-- Expressions do to the scopes no more than assign, and statements declare in the innermost one
besides. -/
def Discipline.framing : Discipline where
  -- an expression leaves the scopes as they are but for values; a statement may add to the
  -- innermost
  Rel
    | .expression, s, t => s.env.Framed t.env
    | .statement, s, t => s.env.Extended t.env
    | .statements, s, t => s.env.Extended t.env
  refl stage s := by
    cases stage with
    | expression => exact .refl s.env
    | statement | statements => exact .refl s.env
  trans := by
    intro stage s t u h h'
    cases stage with
    | expression => exact Environment.Framed.trans h h'
    | statement | statements => exact Environment.Extended.trans h h'
  ofExpression := by
    intro stage s t h
    cases stage with
    | expression => exact h
    | statement | statements => exact Environment.Framed.extended h
  ofStatement h := h
  define h := .of_define h
  assign h := .of_assign h
  outside s _ _ := .refl s.env
  scope h := .of_push h
  call h := h

namespace Execution

variable {fuel : Nat} {s : Session}

/-- No execution loses a variable or changes a final one. -/
theorem extended (x : Execution α) : s.env.Extended (x.after fuel s).env := by
  have h := x.keeps .framing fuel (s := s) trivial
  generalize x.stage = stage at h
  cases stage with
  | expression => exact Environment.Framed.extended h
  | statement | statements => exact h

/-- Expressions, blocks and calls only assign. -/
theorem framed (x : Execution α) (hstage : x.stage = .expression) :
    s.env.Framed (x.after fuel s).env := by
  have h := x.keeps .framing fuel (s := s) trivial
  rw [hstage] at h
  exact h

end Execution

/-! ### Final variables -/

/-- Every scope that is there before and after still has its final variables. -/
def Environment.FinalsKept (before after : Environment) : Prop :=
  ∀ number scope scope', before.scope? number = some scope → after.scope? number = some scope' →
    ∀ name b, scope.find? name = some b → b.isFinal = true → scope'.find? name = some b

theorem Environment.Extended.finalsKept {a b : Environment} (h : a.Extended b) :
    a.FinalsKept b := by
  intro number scope scope' hscope hscope' name v hv hfinal
  have hnumber := h.scope? number
  rw [hscope, hscope'] at hnumber
  cases hnumber with
  | some hgrows =>
    obtain ⟨v', hv', heq⟩ := hgrows name v hv
    rw [hv', heq hfinal]

/-- Dropping all scopes above the root leaves the root as it is. -/
theorem Environment.FinalsKept.of_reset {a b : Environment} (h : a.reset.FinalsKept b)
    (hroot : b.depth = 0) : a.FinalsKept b := by
  intro number scope scope' hscope hscope'
  -- the root is the only scope that is there before and after
  have hle : number ≤ b.depth := (b.isSome_scope? number).mp (by rw [hscope']; rfl)
  obtain rfl : number = 0 := by omega
  refine h 0 scope scope' ?_ hscope'
  rw [← hscope, scope?_zero, scope?_zero]
  rfl

namespace Session

/-- A run does to the root scope what statements may do, and the root is all that it leaves. -/
theorem runTokens_extended (s : Session) (fuel : Nat) (tokens : List Token) :
    s.env.reset.Extended (s.runTokens fuel tokens).2.env := by
  rw [runTokens_snd]
  exact Execution.extended (s := s.fresh) _

/-- A run keeps the final variables of all scopes that it leaves. -/
theorem finalsKept_runTokens (s : Session) (fuel : Nat) (tokens : List Token) :
    s.env.FinalsKept (s.runTokens fuel tokens).2.env := by
  have hroot := s.runTokens_extended fuel tokens
  exact hroot.finalsKept.of_reset hroot.depth_eq

/-- Neither a run nor a call from outside touches the final globals. -/
theorem Proceeds.global? {s t : Session} (h : s.Proceeds t) {name : String} {b : Variable}
    (hb : s.global? name = some b) (hfinal : b.isFinal = true) : t.global? name = some b := by
  -- the globals are the variables of scope number zero
  have hroot : s.env.FinalsKept t.env := by
    cases h with
    | run fuel tokens => exact s.finalsKept_runTokens fuel tokens
    | call fuel function arguments =>
      rw [call_snd]
      exact (Execution.extended _).finalsKept
  exact hroot 0 _ _ (Environment.scope?_zero _) (Environment.scope?_zero _) name b hb hfinal

/-- Final variables never change: no execution and no run touches one in any scope, and no sequence
of runs and calls touches a final global. -/
theorem finals_kept (s : Session) :
    (∀ {α : Type} (x : Execution α) (fuel : Nat), s.env.FinalsKept (x.after fuel s).env) ∧
    (∀ (fuel : Nat) (tokens : List Token), s.env.FinalsKept (s.runTokens fuel tokens).2.env) ∧
    ∀ t, Relation.ReflTransGen Proceeds s t → ∀ name b, s.global? name = some b →
      b.isFinal = true → t.global? name = some b := by
  refine ⟨fun x fuel => x.extended.finalsKept, s.finalsKept_runTokens, ?_⟩
  intro t hpath name b hb hfinal
  induction hpath with
  | refl => exact hb
  | tail _ hstep ih => exact hstep.global? ih hfinal

/-- A run declares a function that would assign to a final global, and the function is called. -/
theorem finals_kept_assignment :
    let b : Variable := ⟨true, none, .number 1⟩
    let s := ({} : Session).setGlobal "x" b
    let body := [.ident "x", .symbol .equal, .number 2].map Kind.bare
    let tokens := [.keyword .defKw, .ident "f", .symbol .leftParen, .symbol .rightParen,
      .symbol .leftBrace].map Kind.bare ++ body ++ [Kind.bare (.symbol .rightBrace)]
    let f : Callable :=
      { id := 0, name := "f", parameters := [], returns := none, body := .tokens body }
    let t := (s.runTokens 4 tokens).2
    (t.global? "f").map (·.value) = some (.function f) ∧
      (t.call 4 f []).1 = .error (.fault { cause := .constantViolation "x"
                                           span := some default
                                           unwound := ["f"] }) ∧
      (t.call 4 f []).2.global? "x" = some b := by
  intro b s body tokens f t
  -- two steps: the program is run, and what it left is called
  have hpath : Relation.ReflTransGen Proceeds s (t.call 4 f []).2 :=
    .tail (.single (.run s 4 tokens)) (.call t 4 f [])
  exact ⟨rfl, rfl, (finals_kept s).2.2 _ hpath "x" b rfl rfl⟩

end Session

/-! ### Assignments -/

section Assignment

variable {self : Evaluator} {name : String} {b : Variable} {value : Value} {c c₁ c' : Cursor}
  {s s' : Session}

/-- What is left of an assignment once the value has been evaluated. -/
theorem Reading.primary_of_assignment (hreads : c.Reads [.ident name, .symbol .equal] c₁)
    (hb : s.env.lookup name = some b) (hfinal : b.isFinal = false)
    (hvalue : self .expression c₁ s = .ok (value, c') s') :
    primary self c s =
      (do locate c.here (Eval.assign name value); return value : Reading Value) c' s' := by
  -- the name is looked up in `s`, and then the value takes `s` to `s'`
  obtain ⟨c₀, hname, hequal⟩ := hreads.uncons
  rw [primary_of_reads self hname]
  show named self name c.here c₀ s = _
  rw [named_of_lookup self hb, Cursor.ahead_of_reads hequal]
  simp only [meaning, hfinal, Bool.false_eq_true, if_false]
  rw [next_bind_of_reads hequal, bind_of_eq_ok hvalue]

/-- Writing a value: if the declared type refuses it, nothing happens but a fault. -/
theorem Eval.assign_of_lookup (hb : s.env.lookup name = some b) (hfinal : b.isFinal = false)
    (value : Value) : assign name value s =
      if b.accepts value then .ok () { s with env := s.env.overwrite name value }
      else .error (.fault
        { cause := .typeMismatch (b.type.getD .number).name value.typeName }) s := by
  have hassign : assign name value s = updateEnv name value.typeName
      (if b.accepts value then .ok (s.env.overwrite name value)
        else .error (.typeMismatch (b.type.getD .number))) s := by
    rw [← Environment.assign_eq hb hfinal]
    rfl
  rw [hassign]
  cases b.accepts value <;> rfl

/-- What becomes of an assignment if its value, whatever it did, has only assigned. -/
theorem Reading.primary_of_framed (hreads : c.Reads [.ident name, .symbol .equal] c₁)
    (hb : s.env.lookup name = some b) (hfinal : b.isFinal = false)
    (hvalue : self .expression c₁ s = .ok (value, c') s') (hframed : s.env.Framed s'.env) :
    ∃ number, s.env.resolve name = some number ∧ s'.env.resolve name = some number ∧
      if b.accepts value then
        ∃ env, primary self c s = .ok (value, c') { s' with env } ∧
          s'.env.Written env number name value
      else
        ∃ type, b.type = some type ∧ primary self c s = .error (.fault
          { cause := .typeMismatch type.name value.typeName, span := some c.here }) s' := by
  -- the name still stands for a variable, of the same declared type and no more final than before
  have hlookup := hframed.lookup name
  rw [hb] at hlookup
  generalize hb' : s'.env.lookup name = found at hlookup
  cases hlookup with
  | some hevolves =>
    obtain ⟨number, hnumber, hwritten⟩ := Environment.written_overwrite hb' value
    refine ⟨number, by rw [← hframed.resolve_eq, hnumber], hnumber, ?_⟩
    -- only the value of the variable may have changed meanwhile, and that is not asked for
    have hassign := Eval.assign_of_lookup hb' (hevolves.isFinal.trans hfinal) value
    rw [hevolves.accepts_eq, hevolves.type] at hassign
    rw [primary_of_assignment hreads hb hfinal hvalue]
    cases haccepts : b.accepts value with
    | true =>
      rw [haccepts] at hassign
      exact ⟨_, by rw [bind_of_eq_ok (locate_of_ok c.here hassign)]; rfl, hwritten⟩
    | false =>
      rw [haccepts] at hassign
      cases htype : b.type with
      | none => simp [Variable.accepts, htype] at haccepts
      | some type =>
        rw [htype] at hassign
        exact ⟨type, rfl, by rw [bind_of_eq_error (locate_of_error c.here hassign)]; rfl⟩

end Assignment

namespace Session

/-- Expressions, blocks and calls cannot reshape the scopes around them: every scope keeps its
names, their mutability and their declared types, and a value that has changed is one that the
declared type admits. So an assignment writes to the variable that it found before its value was
evaluated, and fails only if the declared type of that variable refuses the value. -/
theorem frame_kept (s : Session) (fuel : Nat) :
    (∀ {α : Type} (x : Execution α), x.stage = .expression → ∀ number,
      Option.Rel Scope.Evolves (s.env.scope? number) ((x.after fuel s).env.scope? number)) ∧
    ∀ name b c c₁ value c' s', c.Reads [.ident name, .symbol .equal] c₁ →
      s.env.lookup name = some b → b.isFinal = false →
      Phrase.run fuel .expression c₁ s = .ok (value, c') s' →
      ∃ number, s.env.resolve name = some number ∧ s'.env.resolve name = some number ∧
        if b.accepts value then
          ∃ env, Reading.primary (Phrase.run fuel) c s = .ok (value, c') { s' with env } ∧
            s'.env.Written env number name value
        else
          ∃ type, b.type = some type ∧ Reading.primary (Phrase.run fuel) c s = .error (.fault
            { cause := .typeMismatch type.name value.typeName, span := some c.here }) s' := by
  refine ⟨fun x hstage number => (x.framed hstage).scope? number, ?_⟩
  intro name b c c₁ value c' s' hreads hb hfinal hvalue
  -- the value is an expression itself, so it has only assigned
  have hframed : s.env.Framed s'.env := by
    have h : s.env.Framed (Eval.final (Phrase.run fuel .expression c₁ s)).env :=
      (Execution.expression c₁).framed rfl
    rwa [hvalue] at h
  exact Reading.primary_of_framed hreads hb hfinal hvalue hframed

/-- In `x = (x = 2) + 1` both assignments write to the global. -/
theorem frame_kept_twice :
    let b : Variable := ⟨false, some .number, .number 1⟩
    let s := ({} : Session).setGlobal "x" b
    let inner : List Kind := [.symbol .leftParen, .ident "x", .symbol .equal, .number 2,
      .symbol .rightParen, .symbol .plus, .number 1]
    let c := Cursor.start ((.ident "x" :: .symbol .equal :: inner).map Kind.bare)
    ∃ c' env, Reading.primary (Phrase.run 3) c s = .ok (.number 3, c') { s with env } ∧
      (s.setGlobal "x" { b with value := .number 2 }).env.Written env 0 "x" (.number 3) := by
  intro b s inner c
  -- behind the name, and behind the sign
  let c₀ : Cursor := ⟨[Kind.bare (.ident "x")], (.symbol .equal :: inner).map Kind.bare⟩
  let c₁ : Cursor := ⟨Kind.bare (.symbol .equal) :: c₀.seen, inner.map Kind.bare⟩
  have hname : c.next? = some (Kind.bare (.ident "x"), c₀) := rfl
  have hequal : c₀.next? = some (Kind.bare (.symbol .equal), c₁) := rfl
  -- the value is an expression that assigns to the variable on its own
  have hvalue : Phrase.run 3 .expression c₁ s =
      .ok (.number 3, ⟨(inner.map Kind.bare).reverse ++ c₁.seen, []⟩)
        (s.setGlobal "x" { b with value := .number 2 }) := rfl
  obtain ⟨number, hnumber, -, env, hprimary, hwritten⟩ :=
    (frame_kept s 3).2 "x" b _ _ _ _ _ (.cons hname (.one hequal)) rfl rfl hvalue
  obtain rfl : number = 0 := (Option.some.inj hnumber).symm
  exact ⟨_, env, hprimary, hwritten⟩

end Session

end Tern
