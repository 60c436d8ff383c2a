import Tern.Value.Basic

/-!
# Variables and scopes

An environment is a stack of scopes: the root, which holds the globals and is always there, and
above it one scope for every block, iteration and call that is being executed. A name means its
innermost binding; the scopes further out keep theirs, hidden.

A declaration writes into the innermost scope only, an assignment into the scope that holds the
innermost binding. Neither touches a binding that is final.

* `Scope.find?_insert`: a binding that was inserted is found, and no other one has changed;
* `Environment.pop_push`: a scope that was opened and dropped leaves no trace.
-/

namespace Tern

/-- What a name stands for. -/
structure Variable where
  /-- Whether the binding can never change. -/
  isFinal : Bool
  /-- The declared type; without one every value is fine. -/
  type : Option Ty
  value : Value
  deriving DecidableEq, Repr

/-- Whether the declared type admits the value. -/
def Variable.accepts (binding : Variable) (value : Value) : Bool :=
  match binding.type with
  | some type => type.accepts value
  | none => true

/-- The bindings of one block, in the order in which their names were first bound. -/
structure Scope where
  bindings : List (String × Variable) := []
  deriving DecidableEq, Repr, Inhabited

namespace Scope

/-- The variable of that name. -/
def find? (scope : Scope) (name : String) : Option Variable :=
  scope.bindings.lookup name

/-- Whether the scope has a variable of that name. -/
def binds (scope : Scope) (name : String) : Bool :=
  (scope.find? name).isSome

/-- The bindings with `name` bound to `binding`: in the place of its old binding, or behind all
others. -/
def insertInto (name : String) (binding : Variable) :
    List (String × Variable) → List (String × Variable)
  | [] => [(name, binding)]
  | (other, old) :: rest =>
    if other = name then (name, binding) :: rest
    else (other, old) :: insertInto name binding rest

/-- Binds `name`, replacing its old binding. -/
def insert (scope : Scope) (name : String) (binding : Variable) : Scope :=
  ⟨insertInto name binding scope.bindings⟩

@[simp] theorem find?_empty (name : String) : ({} : Scope).find? name = none := rfl

/-- An inserted binding is found under its name, and all others are found as before. -/
theorem find?_insert (scope : Scope) (name other : String) (binding : Variable) :
    (scope.insert name binding).find? other =
      if other = name then some binding else scope.find? other := by
  obtain ⟨bindings⟩ := scope
  simp only [find?, insert]
  induction bindings with
  | nil =>
    by_cases h : other = name
    · simp [insertInto, h]
    · simp [insertInto, List.lookup_cons, h, beq_false_of_ne h]
  | cons head rest ih =>
    obtain ⟨key, old⟩ := head
    by_cases hk : key = name
    · subst hk
      by_cases h : other = key
      · simp [insertInto, h]
      · simp [insertInto, List.lookup_cons, h, beq_false_of_ne h]
    · by_cases h : other = key
      · subst h
        simp [insertInto, hk]
      · simp [insertInto, List.lookup_cons, hk, beq_false_of_ne h, ih]

/-- Replaces the value of `name` and keeps the rest of its binding. -/
def overwrite (scope : Scope) (name : String) (value : Value) : Scope :=
  match scope.find? name with
  | some binding => scope.insert name { binding with value }
  | none => scope

/-- Overwriting a value changes that value only. -/
theorem find?_overwrite (scope : Scope) (name other : String) (value : Value) :
    (scope.overwrite name value).find? other =
      if other = name then (scope.find? name).map ({ · with value }) else scope.find? other := by
  unfold overwrite
  cases h : scope.find? name with
  | none =>
    by_cases ho : other = name
    · simp [ho, h]
    · simp [ho]
  | some binding => simp [find?_insert]

end Scope

/-- The scopes of a running program. -/
structure Environment where
  /-- The outermost scope. -/
  root : Scope := {}
  /-- The scopes above the root, innermost first. -/
  inner : List Scope := []
  deriving DecidableEq, Repr, Inhabited

/-- Why a declaration or an assignment is refused. -/
inductive Refusal where
  /-- The binding is final. -/
  | constant
  /-- There is no binding. -/
  | undefined
  /-- The declared type does not admit the value. -/
  | typeMismatch (expected : Ty)
  deriving DecidableEq, Repr

namespace Environment

/-- The number of scopes above the root. It is also the number of the innermost scope, counted
from the root, which is number zero. -/
def depth (env : Environment) : Nat := env.inner.length

/-- Whether the root is the only scope. -/
def atRoot (env : Environment) : Bool := env.inner.isEmpty

/-- Opens a new, empty scope inside the innermost one. -/
def push (env : Environment) : Environment :=
  { env with inner := {} :: env.inner }

/-- Drops the innermost scope; the root stays. -/
def pop (env : Environment) : Environment :=
  { env with inner := env.inner.tail }

/-- Drops every scope above the root. -/
def reset (env : Environment) : Environment :=
  { env with inner := [] }

/-- A scope that was opened and dropped again leaves no trace. -/
@[simp] theorem pop_push (env : Environment) : env.push.pop = env := rfl

@[simp] theorem depth_push (env : Environment) : env.push.depth = env.depth + 1 := rfl

@[simp] theorem depth_pop (env : Environment) : env.pop.depth = env.depth - 1 := by
  simp [pop, depth]

@[simp] theorem depth_reset (env : Environment) : env.reset.depth = 0 := rfl

/-- The root is the only scope exactly at depth zero. -/
theorem atRoot_iff (env : Environment) : env.atRoot = true ↔ env.depth = 0 := by
  simp [atRoot, depth]

/-- The scope that declarations write into. -/
def current (env : Environment) : Scope :=
  env.inner.headD env.root

/-- Puts another scope in the place of the innermost one. -/
def replaceCurrent (env : Environment) (scope : Scope) : Environment :=
  match env.inner with
  | [] => { env with root := scope }
  | _ :: outer => { env with inner := scope :: outer }

/-- Binds `name` in the innermost scope, unless that scope has a final binding of it. -/
def define (env : Environment) (name : String) (binding : Variable) :
    Except Refusal Environment :=
  match env.current.find? name with
  | some { isFinal := true, .. } => .error .constant
  | _ => .ok (env.replaceCurrent (env.current.insert name binding))

/-- Binds `name` in the root, whatever was there. -/
def setGlobal (env : Environment) (name : String) (binding : Variable) : Environment :=
  { env with root := env.root.insert name binding }

/-- The number of the innermost scope that binds `name`, counted from the root. -/
def resolve (env : Environment) (name : String) : Option Nat :=
  match env.inner.findIdx? (·.binds name) with
  | some above => some (env.depth - above)
  | none => if env.root.binds name then some 0 else none

/-- The innermost variable of that name. -/
def lookup (env : Environment) (name : String) : Option Variable :=
  match env.inner.findSome? (·.find? name) with
  | some binding => some binding
  | none => env.root.find? name

/-- A scope without bindings hides nothing. -/
@[simp] theorem lookup_push (env : Environment) (name : String) :
    env.push.lookup name = env.lookup name := by
  simp only [lookup, push, List.findSome?_cons, Scope.find?_empty]

/-- The variable of that name in the root. -/
def global? (env : Environment) (name : String) : Option Variable :=
  env.root.find? name

/-- Replaces a value in the first of the scopes that binds `name`; none if no scope does. -/
def overwriteFirst (name : String) (value : Value) : List Scope → Option (List Scope)
  | [] => none
  | scope :: outer =>
    if scope.binds name then some (scope.overwrite name value :: outer)
    else (overwriteFirst name value outer).map (scope :: ·)

/-- Replaces the value of the innermost binding of `name`, without asking whether that is
allowed. -/
def overwrite (env : Environment) (name : String) (value : Value) : Environment :=
  match overwriteFirst name value env.inner with
  | some inner => { env with inner }
  | none => { env with root := env.root.overwrite name value }

/-- Gives the innermost binding of `name` a new value, if it is not final and its declared type
admits the value. -/
def assign (env : Environment) (name : String) (value : Value) :
    Except Refusal Environment :=
  match env.lookup name with
  | none => .error .undefined
  | some binding =>
    if binding.isFinal then .error .constant
    else
      match binding.type with
      | some type =>
        if type.accepts value then .ok (env.overwrite name value)
        else .error (.typeMismatch type)
      | none => .ok (env.overwrite name value)

end Environment

end Tern
