import Tern.Evaluation.Call
import Tern.Operator

/-!
# Values and scopes, seen through a view of function bodies

The body of a function is a token sequence, with places and comments that no program can observe.
A *view* is a function on token sequences that forgets some of this. `viewed` applies a view to
every function body inside a value, a scope or an environment, and the lemmas here say that
nothing else is touched: every operation on values and scopes can be carried out on either side of
the view.

## Key results

- `BinaryOp.apply_viewed`, `UnaryOp.apply_viewed`: operators do not look into functions
- `Environment.lookup_viewed`, `define_viewed`, `assign_viewed`: neither do scopes
- `Environment.viewed_id`: the view that forgets nothing changes nothing
-/

namespace Tern

variable (view : List Token → List Token)

/-- The body of a function, seen through the view. -/
def Body.viewed : Body → Body
  | tokens block => tokens (view block)
  | native routine variadic => native routine variadic

/-- A function with its body seen through the view. -/
def Callable.viewed (f : Callable) : Callable :=
  { f with body := f.body.viewed view }

/-- A value with the bodies in it seen through the view. -/
def Value.viewed : Value → Value
  | function f => function (f.viewed view)
  | other => other

/-- A variable with the bodies in it seen through the view. -/
def Variable.viewed (binding : Variable) : Variable :=
  { binding with value := binding.value.viewed view }

/-- A scope with the bodies in it seen through the view. -/
def Scope.viewed (scope : Scope) : Scope :=
  ⟨scope.bindings.map fun (name, binding) => (name, binding.viewed view)⟩

/-- An environment with the bodies in it seen through the view. -/
def Environment.viewed (env : Environment) : Environment :=
  { root := env.root.viewed view, inner := env.inner.map (·.viewed view) }

/-! ### Values -/

namespace Value

@[simp] theorem viewed_number (n : Number) : (number n).viewed view = number n := rfl

@[simp] theorem viewed_text (s : String) : (text s).viewed view = text s := rfl

@[simp] theorem viewed_boolean (b : Bool) : (boolean b).viewed view = boolean b := rfl

@[simp] theorem viewed_void : void.viewed view = void := rfl

@[simp] theorem type?_viewed (v : Value) : (v.viewed view).type? = v.type? := by
  cases v <;> rfl

@[simp] theorem typeName_viewed (v : Value) : (v.viewed view).typeName = v.typeName := by
  simp [typeName]

@[simp] theorem isTruthy_viewed (v : Value) : (v.viewed view).isTruthy = v.isTruthy := by
  cases v <;> rfl

@[simp] theorem number?_viewed (v : Value) : (v.viewed view).number? = v.number? := by
  cases v <;> rfl

@[simp] theorem bool?_viewed (v : Value) : (v.viewed view).bool? = v.bool? := by
  cases v <;> rfl

@[simp] theorem display_viewed (v : Value) : (v.viewed view).display = v.display := by
  cases v <;> rfl

@[simp] theorem equals_viewed (v w : Value) :
    (v.viewed view).equals (w.viewed view) = v.equals w := by
  cases v <;> cases w <;> rfl

@[simp] theorem order?_viewed (v w : Value) :
    (v.viewed view).order? (w.viewed view) = v.order? w := by
  cases v <;> cases w <;> rfl

@[simp] theorem viewed_id (v : Value) : v.viewed id = v := by
  cases v with
  | function f =>
    obtain ⟨id, name, parameters, returns, body⟩ := f
    cases body <;> rfl
  | _ => rfl

end Value

@[simp] theorem Ty.accepts_viewed (type : Ty) (v : Value) :
    type.accepts (v.viewed view) = type.accepts v := by
  simp [Ty.accepts]

/-! ### Operators -/

private theorem plus_viewed (v w : Value) :
    BinaryOp.plus (v.viewed view) (w.viewed view) = BinaryOp.plus v w := by
  cases v <;> cases w <;> rfl

/-- Binary operators do not look into functions. -/
@[simp] theorem BinaryOp.apply_viewed (op : BinaryOp) (v w : Value) :
    op.apply (v.viewed view) (w.viewed view) = op.apply v w := by
  cases op <;>
    simp [BinaryOp.apply, BinaryOp.onBooleans, BinaryOp.onOrder, BinaryOp.onNumbers,
      BinaryOp.mismatch, plus_viewed]

/-- Unary operators do not look into functions. -/
@[simp] theorem UnaryOp.apply_viewed (op : UnaryOp) (v : Value) :
    op.apply (v.viewed view) = op.apply v := by
  cases op <;> cases v <;> rfl

/-! ### Checks before a call -/

private theorem checkTypes_viewed (parameters : List Parameter) (arguments : List Value) :
    checkTypes parameters (arguments.map (·.viewed view)) = checkTypes parameters arguments := by
  induction parameters generalizing arguments with
  | nil => rfl
  | cons parameter parameters ih =>
    cases arguments with
    | nil => rfl
    | cons argument arguments => simp [checkTypes, ih]

/-- Whether a function takes some arguments does not depend on any body. -/
@[simp] theorem Callable.check_viewed (f : Callable) (arguments : List Value) :
    (f.viewed view).check (arguments.map (·.viewed view)) = f.check arguments := by
  simp [Callable.check, Callable.viewed, checkTypes_viewed]

/-! ### Scopes -/

namespace Variable

@[simp] theorem viewed_isFinal (b : Variable) : (b.viewed view).isFinal = b.isFinal := rfl

@[simp] theorem viewed_type (b : Variable) : (b.viewed view).type = b.type := rfl

@[simp] theorem viewed_value (b : Variable) :
    (b.viewed view).value = b.value.viewed view := rfl

@[simp] theorem viewed_id (b : Variable) : b.viewed id = b := by
  simp [viewed]

end Variable

namespace Scope

@[simp] theorem viewed_empty : ({} : Scope).viewed view = {} := rfl

@[simp] theorem find?_viewed (scope : Scope) (name : String) :
    (scope.viewed view).find? name = (scope.find? name).map (·.viewed view) := by
  obtain ⟨bindings⟩ := scope
  simp only [find?, viewed]
  induction bindings with
  | nil => rfl
  | cons head rest ih =>
    obtain ⟨key, binding⟩ := head
    simp only [List.map_cons, List.lookup_cons, ih]
    split <;> rfl

@[simp] theorem binds_viewed (scope : Scope) (name : String) :
    (scope.viewed view).binds name = scope.binds name := by
  simp [binds]

@[simp] theorem insert_viewed (scope : Scope) (name : String) (binding : Variable) :
    (scope.viewed view).insert name (binding.viewed view) =
      (scope.insert name binding).viewed view := by
  obtain ⟨bindings⟩ := scope
  simp only [insert, viewed, Scope.mk.injEq]
  -- along the bindings, where the one of that name is replaced or a new one is added
  induction bindings with
  | nil => rfl
  | cons head rest ih =>
    obtain ⟨key, old⟩ := head
    simp only [List.map_cons, insertInto]
    split
    · rfl
    · rw [List.map_cons, ih]

@[simp] theorem overwrite_viewed (scope : Scope) (name : String) (value : Value) :
    (scope.viewed view).overwrite name (value.viewed view) =
      (scope.overwrite name value).viewed view := by
  simp only [overwrite, find?_viewed]
  cases scope.find? name with
  | none => rfl
  | some binding => exact insert_viewed view scope name { binding with value }

@[simp] theorem viewed_id (scope : Scope) : scope.viewed id = scope := by
  obtain ⟨bindings⟩ := scope
  simp [viewed]

end Scope

/-! ### Environments -/

namespace Environment

@[simp] theorem viewed_push (env : Environment) :
    (env.viewed view).push = env.push.viewed view := rfl

@[simp] theorem viewed_pop (env : Environment) : (env.viewed view).pop = env.pop.viewed view := by
  simp [viewed, pop]

@[simp] theorem viewed_reset (env : Environment) :
    (env.viewed view).reset = env.reset.viewed view := rfl

@[simp] theorem atRoot_viewed (env : Environment) : (env.viewed view).atRoot = env.atRoot := by
  simp [viewed, atRoot]

@[simp] theorem global?_viewed (env : Environment) (name : String) :
    (env.viewed view).global? name = (env.global? name).map (·.viewed view) := by
  simp [viewed, global?]

/-- Environments that look the same have the same numbers in them, since a number has no body. -/
theorem number?_of_viewed {env env' : Environment} (h : env.viewed view = env'.viewed view)
    (name : String) :
    (env.global? name).bind (·.value.number?) = (env'.global? name).bind (·.value.number?) := by
  have hunseen : ∀ e : Environment,
      (e.global? name).bind (·.value.number?) =
        ((e.viewed view).global? name).bind (·.value.number?) := by
    intro e
    rw [global?_viewed, Option.bind_map]
    simp [Function.comp_def]
  rw [hunseen env, hunseen env', h]

private theorem current_viewed (env : Environment) :
    (env.viewed view).current = env.current.viewed view := by
  obtain ⟨root, inner⟩ := env
  cases inner <;> rfl

private theorem replaceCurrent_viewed (env : Environment) (scope : Scope) :
    (env.viewed view).replaceCurrent (scope.viewed view) =
      (env.replaceCurrent scope).viewed view := by
  obtain ⟨root, inner⟩ := env
  cases inner <;> rfl

/-- A declaration does not look into functions. -/
theorem define_viewed (env : Environment) (name : String) (binding : Variable) :
    (env.viewed view).define name (binding.viewed view) =
      (env.define name binding).map (·.viewed view) := by
  simp only [define, current_viewed, Scope.find?_viewed]
  -- whether a name may be defined is a matter of its kind, which the view leaves alone
  cases env.current.find? name with
  | none => simp [Except.map, replaceCurrent_viewed]
  | some old =>
    obtain ⟨isFinal, type, value⟩ := old
    cases isFinal with
    | true => rfl
    | false =>
      show Except.ok _ = Except.ok _
      rw [Scope.insert_viewed, replaceCurrent_viewed]

/-- A name means the same variable on either side of the view. -/
@[simp] theorem lookup_viewed (env : Environment) (name : String) :
    (env.viewed view).lookup name = (env.lookup name).map (·.viewed view) := by
  obtain ⟨root, inner⟩ := env
  simp only [lookup, viewed, List.findSome?_map, Function.comp_def, Scope.find?_viewed]
  induction inner with
  | nil => simp
  | cons scope outer ih =>
    simp only [List.findSome?_cons]
    cases scope.find? name with
    | none => exact ih
    | some binding => rfl

private theorem overwriteFirst_viewed (name : String) (value : Value) (scopes : List Scope) :
    overwriteFirst name (value.viewed view) (scopes.map (·.viewed view)) =
      (overwriteFirst name value scopes).map (List.map (·.viewed view)) := by
  induction scopes with
  | nil => rfl
  | cons scope outer ih =>
    simp only [List.map_cons, overwriteFirst, Scope.binds_viewed, ih]
    split
    · simp
    · cases overwriteFirst name value outer <;> rfl

private theorem overwrite_viewed (env : Environment) (name : String) (value : Value) :
    (env.viewed view).overwrite name (value.viewed view) =
      (env.overwrite name value).viewed view := by
  obtain ⟨root, inner⟩ := env
  simp only [overwrite, viewed, overwriteFirst_viewed]
  cases overwriteFirst name value inner with
  | none => simp
  | some scopes => rfl

/-- An assignment does not look into functions. -/
theorem assign_viewed (env : Environment) (name : String) (value : Value) :
    (env.viewed view).assign name (value.viewed view) =
      (env.assign name value).map (·.viewed view) := by
  simp only [assign, lookup_viewed]
  -- and so is whether a variable accepts a value
  cases env.lookup name with
  | none => rfl
  | some binding =>
    obtain ⟨isFinal, type, old⟩ := binding
    cases isFinal with
    | true => rfl
    | false =>
      cases type with
      | none => simp [Except.map, overwrite_viewed]
      | some type =>
        by_cases h : type.accepts value <;> simp [Except.map, overwrite_viewed, h]

/-- The view that forgets nothing changes nothing. -/
@[simp] theorem viewed_id (env : Environment) : env.viewed id = env := by
  obtain ⟨root, inner⟩ := env
  simp [viewed]

end Environment

end Tern
