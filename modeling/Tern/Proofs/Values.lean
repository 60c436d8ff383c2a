import Tern.Operator
import Tern.Proofs.Scopes

/-!
# What variables hold

A function may be made anywhere, passed around, and called later. What is said about the functions
that a program can come to call is therefore said about every value: those that evaluations give,
and those that variables hold, in any scope. Only declarations and assignments change what variables
hold, and operators never give a function.

## Key results

- `Environment.All.of_define`, `Environment.All.of_assign`: what all variables hold, if the values
  that are written are as said
- `BinaryOp.computed_apply`, `UnaryOp.computed_apply`: operators give no functions
-/

namespace Tern

/-! ### Functions -/

/-- A body that is as said, if it is one of tokens. -/
def Body.Has (P : List Token → Prop) : Body → Prop
  | .tokens block => P block
  | .native .. => True

/-- A value whose body is as said, if it is a function that is written in the language. -/
def Value.Has (P : List Token → Prop) : Value → Prop
  | .function f => f.body.Has P
  | _ => True

/-- What is no function has no body. -/
theorem Value.has_of_type? {P : List Token → Prop} {v : Value} (h : v.type? ≠ some .function) :
    v.Has P := by
  cases v with
  | function f => exact absurd rfl h
  | _ => trivial

/-- Bodies that are as said are also as anything says that follows. -/
theorem Value.Has.mono {P Q : List Token → Prop} {v : Value} (h : v.Has P)
    (hPQ : ∀ block, P block → Q block) : v.Has Q := by
  cases v with
  | function f =>
    simp only [Value.Has] at h ⊢
    cases hbody : f.body with
    | tokens block =>
      rw [hbody] at h
      exact hPQ block h
    | native => trivial
  | _ => trivial

/-- What is said of all tokens. -/
theorem Value.has_of_forall {P : List Token → Prop} (h : ∀ block, P block) (v : Value) : v.Has P := by
  cases v with
  | function f =>
    simp only [Value.Has]
    cases f.body with
    | tokens block => exact h block
    | native => trivial
  | _ => trivial

/-! ### Operators -/

/-- Whether the cause is neither that a brace or a comment lacks its partner nor that too many calls
are active. -/
def Cause.isOrdinary : Cause → Bool
  | .malformed .unmatchedBrace | .malformed .unclosedBlock | .malformed .unclosedComment
  | .recursionLimit _ => false
  | _ => true

/-- What an operator may give: a value that is no function, or an ordinary cause. -/
def Computed : Except Cause Value → Prop
  | .ok v => v.type? ≠ some .function
  | .error cause => cause.isOrdinary = true

namespace BinaryOp

theorem computed_checked (operation : String) (n? : Option Number) :
    Computed (checked operation n?) := by
  cases n? with
  | none => exact rfl
  | some n => simp [checked, Computed, Value.type?]

private theorem computed_onBooleans (op : BinaryOp) (f : Bool → Bool → Bool) (left right : Value) :
    Computed (op.onBooleans f left right) := by
  unfold onBooleans
  split
  · simp [Computed, Value.type?]
  · exact rfl

private theorem computed_onOrder (op : BinaryOp) (holds : Ordering → Bool) (left right : Value) :
    Computed (op.onOrder holds left right) := by
  unfold onOrder
  split
  · simp [Computed, Value.type?]
  · exact rfl

private theorem computed_onNumbers (op : BinaryOp) {f : Number → Number → Except Cause Value}
    (hf : ∀ a b, Computed (f a b)) (left right : Value) :
    Computed (op.onNumbers f left right) := by
  unfold onNumbers
  split
  · exact hf _ _
  · exact rfl

private theorem computed_plus (left right : Value) : Computed (plus left right) := by
  unfold plus
  split
  · exact computed_checked _ _
  · simp [Computed, Value.type?]
  · simp [Computed, Value.type?]
  · exact rfl

/-- No operator between two operands gives a function: that could only be an operand, and no
operator gives one back. -/
theorem computed_apply (op : BinaryOp) (left right : Value) : Computed (op.apply left right) := by
  -- the operators fall into a few families, each with a lemma about its results
  cases op with
  | and | or => exact computed_onBooleans _ _ _ _
  | eq | ne => simp [apply, Computed, Value.type?]
  | lt | gt | le | ge => exact computed_onOrder _ _ _ _
  | add => exact computed_plus _ _
  | sub | mul => exact computed_onNumbers _ (fun _ _ => computed_checked _ _) _ _
  | div | mod =>
    refine computed_onNumbers _ (fun a b => ?_) _ _
    split
    · exact rfl
    · exact computed_checked _ _

end BinaryOp

/-- No operator in front of an operand gives a function. -/
theorem UnaryOp.computed_apply (op : UnaryOp) (operand : Value) : Computed (op.apply operand) := by
  unfold apply
  split
  · simp [Computed, Value.type?]
  · exact BinaryOp.computed_checked _ _
  · exact rfl

/-- A value that an operator has given has no body. -/
theorem Computed.has {P : List Token → Prop} {r : Except Cause Value} {v : Value} (h : Computed r)
    (hv : r = .ok v) : v.Has P := by
  subst hv
  exact Value.has_of_type? h

/-- An operator fails for ordinary causes. -/
theorem Computed.isOrdinary {r : Except Cause Value} {cause : Cause} (h : Computed r)
    (hcause : r = .error cause) : cause.isOrdinary = true := by
  subst hcause
  exact h

/-! ### Variables -/

/-- All variables, in all scopes, hold values as said. -/
def Environment.All (P : Value → Prop) (env : Environment) : Prop :=
  ∀ scope ∈ env.chain, ∀ name b, scope.find? name = some b → P b.value

namespace Environment.All

variable {P : Value → Prop} {env env' : Environment} (h : env.All P) {name : String}

include h

theorem mono {Q : Value → Prop} (hPQ : ∀ v, P v → Q v) : env.All Q :=
  fun scope hscope name b hb => hPQ _ (h scope hscope name b hb)

theorem lookup {b : Variable} (hb : env.lookup name = some b) : P b.value := by
  rw [lookup_eq] at hb
  obtain ⟨scope, hscope, hfind⟩ := List.exists_of_findSome?_eq_some hb
  exact h scope hscope name b hfind

theorem push : env.push.All P := by
  intro scope hscope
  rw [chain_push] at hscope
  rcases List.mem_cons.mp hscope with rfl | hscope
  · intro name b hb
    cases hb
  · exact h scope hscope

theorem pop : env.pop.All P := by
  refine fun scope hscope => h scope ?_
  obtain ⟨root, inner⟩ := env
  -- the root is never dropped
  cases inner with
  | nil => exact hscope
  | cons innermost outer => exact List.mem_cons_of_mem _ hscope

theorem reset : env.reset.All P := by
  refine fun scope hscope => h scope ?_
  obtain rfl : scope = env.root := List.mem_singleton.mp hscope
  exact List.mem_append_right _ List.mem_cons_self

omit h in
/-- A variable that is inserted into one of the scopes. -/
private theorem of_insert {scope : Scope} {binding : Variable} (hvalue : P binding.value)
    (hscope : ∀ name b, scope.find? name = some b → P b.value) {other : String} {b : Variable}
    (hb : (scope.insert name binding).find? other = some b) : P b.value := by
  rw [Scope.find?_insert] at hb
  split at hb
  · cases hb
    exact hvalue
  · exact hscope other b hb

/-- A declaration of a value as said. -/
theorem of_define {binding : Variable} (hvalue : P binding.value)
    (hdefine : env.define name binding = .ok env') : env'.All P := by
  have hchain := (chain_of_define hdefine).2
  have hcurrent := chain_eq env
  intro scope hscope other b hb
  rw [hchain] at hscope
  -- the variable is in the innermost scope, or further out
  rcases List.mem_cons.mp hscope with rfl | hscope
  · exact of_insert hvalue (h _ (by rw [hcurrent]; exact List.mem_cons_self)) hb
  · exact h scope (List.mem_of_mem_tail hscope) other b hb

/-- A global with a value as said. -/
theorem setGlobal {binding : Variable} (hvalue : P binding.value) :
    (env.setGlobal name binding).All P := by
  intro scope hscope other b hb
  rcases List.mem_append.mp hscope with hscope | hscope
  · exact h scope (List.mem_append_left _ hscope) other b hb
  · obtain rfl := List.mem_singleton.mp hscope
    exact of_insert hvalue (h env.root (List.mem_append_right _ List.mem_cons_self)) hb

omit h in
private theorem mem_overwriteFirst {value : Value} {scopes scopes' : List Scope} {scope : Scope}
    (hwrite : overwriteFirst name value scopes = some scopes') (hscope : scope ∈ scopes') :
    scope ∈ scopes ∨ ∃ old ∈ scopes, scope = old.overwrite name value := by
  -- the first scope that binds the name is written, all others stay
  induction scopes generalizing scopes' with
  | nil => cases hwrite
  | cons first outer ih =>
    simp only [overwriteFirst] at hwrite
    split at hwrite
    · cases hwrite
      rcases List.mem_cons.mp hscope with rfl | hscope
      · exact .inr ⟨first, List.mem_cons_self, rfl⟩
      · exact .inl (List.mem_cons_of_mem _ hscope)
    · obtain ⟨outer', houter, rfl⟩ := Option.map_eq_some_iff.mp hwrite
      rcases List.mem_cons.mp hscope with rfl | hscope
      · exact .inl List.mem_cons_self
      · rcases ih houter hscope with hmem | ⟨old, hmem, rfl⟩
        · exact .inl (List.mem_cons_of_mem _ hmem)
        · exact .inr ⟨old, List.mem_cons_of_mem _ hmem, rfl⟩

/-- An assignment of a value as said. -/
theorem of_assign {value : Value} (hvalue : P value)
    (hassign : env.assign name value = .ok env') : env'.All P := by
  obtain ⟨b, hb, -, -, rfl⟩ := Environment.of_assign hassign
  intro scope hscope other b' hb'
  -- a scope of the environment is as before, or the one that was written to
  rcases mem_overwriteFirst (chain_overwrite hb value) hscope with hmem | ⟨old, hmem, rfl⟩
  · exact h scope hmem other b' hb'
  · rw [Scope.find?_overwrite] at hb'
    split at hb'
    · obtain ⟨_, -, rfl⟩ := Option.map_eq_some_iff.mp hb'
      exact hvalue
    · exact h old hmem other b' hb'

end Environment.All

end Tern
