import Mathlib.Data.Nat.PSub
import Mathlib.Order.Bounds.Basic
import Tern.Proofs.Scopes

/-!
# Scopes in an arena

Scopes can be kept in one sequence, the root first, each with the number of the scope around it. A
name is then looked up by going from the last scope to the one around it, and so on. This file
carries out the operations on an environment in that way, with every access checked: a scope that is
not there, or a search that does not end, gives nothing at all.

In an arena whose scopes form a stack the search for a name ends, at the last scope that binds it,
and every operation is carried out.

## Key results

- `Arena.Linked.resolve?_cases`: the search for a name ends at the last scope that binds it
- `Arena.Linked.step?_effect`: what each operation changes, and that all else stays
-/

namespace Tern

/-- What an assignment makes of a variable. -/
def Variable.assigned (binding : Variable) (value : Value) : Except Refusal Unit × Variable :=
  if binding.isFinal then (.error .constant, binding)
  else
    match binding.type with
    | some type =>
      if type.accepts value then (.ok (), { binding with value })
      else (.error (.typeMismatch type), binding)
    | none => (.ok (), { binding with value })

namespace Variable

variable {binding : Variable} {value : Value}

/-- A final variable stays what it is. -/
theorem assigned_of_final (h : binding.isFinal = true) :
    binding.assigned value = (.error .constant, binding) := if_pos h

/-- A value that fits is taken. -/
theorem assigned_of_accepts (h : binding.isFinal = false)
    (haccepts : binding.accepts value = true) :
    binding.assigned value = (.ok (), { binding with value }) := by
  unfold assigned
  unfold accepts at haccepts
  split at haccepts <;> simp_all

/-- A value that does not fit is refused for the declared type. -/
theorem assigned_of_not_accepts (h : binding.isFinal = false)
    (haccepts : binding.accepts value = false) :
    ∃ type, binding.type = some type ∧
      binding.assigned value = (.error (.typeMismatch type), binding) := by
  unfold assigned
  unfold accepts at haccepts
  split at haccepts
  · simp_all
  · cases haccepts

end Variable

/-- The scope with another variable in the place of the one of that name, if there is one. -/
def Scope.modify (scope : Scope) (name : String) (change : Variable → Variable) : Scope :=
  match scope.find? name with
  | some binding => scope.insert name (change binding)
  | none => scope

/-- Nothing changes if a name is bound to what it is bound to already. -/
theorem Scope.insert_of_find? {scope : Scope} {name : String} {binding : Variable}
    (h : scope.find? name = some binding) : scope.insert name binding = scope := by
  obtain ⟨bindings⟩ := scope
  simp only [insert, mk.injEq]
  replace h : bindings.lookup name = some binding := h
  -- along the bindings, of which the first of that name is meant
  induction bindings with
  | nil => cases h
  | cons head rest ih =>
    obtain ⟨other, old⟩ := head
    by_cases hsame : other = name
    · subst hsame
      -- it is put in its place again
      obtain rfl : old = binding := by simpa using h
      simp [insertInto]
    · have hrest : rest.lookup name = some binding := by
        rwa [List.lookup_cons, beq_false_of_ne (Ne.symm hsame)] at h
      simp [insertInto, hsame, ih hrest]

namespace Environment

/-- Changes the innermost variable of that name in any way. -/
def modify (env : Environment) (name : String) (change : Variable → Variable) : Environment :=
  match env.inner.findIdx? (·.binds name) with
  | some above => { env with inner := env.inner.modify above (·.modify name change) }
  | none => { env with root := env.root.modify name change }

/-- Something that is done to an environment. -/
inductive Operation where
  | push
  | pop
  | reset
  | define (name : String) (binding : Variable)
  | setGlobal (name : String) (binding : Variable)
  | assign (name : String) (value : Value)
  /-- Whoever has found the innermost variable of that name may change it in any way. -/
  | modify (name : String) (change : Variable → Variable)

/-- Opens a scope, makes declarations in it and drops it. -/
def Operation.block (definitions : List (String × Variable)) : List Operation :=
  .push :: definitions.map (fun (name, binding) => .define name binding) ++ [.pop]

/-- What becomes of an environment: it stays if the change to it was refused. -/
def settled (env : Environment) :
    Except Refusal Environment → Except Refusal Unit × Environment
  | .ok env => (.ok (), env)
  | .error refusal => (.error refusal, env)

/-- Carries out an operation. -/
def step (env : Environment) : Operation → Except Refusal Unit × Environment
  | .push => (.ok (), env.push)
  | .pop => (.ok (), env.pop)
  | .reset => (.ok (), env.reset)
  | .define name binding => env.settled (env.define name binding)
  | .setGlobal name binding => (.ok (), env.setGlobal name binding)
  | .assign name value => env.settled (env.assign name value)
  | .modify name change => (.ok (), env.modify name change)

/-- Carries out operations one after the other, and says how each of them ended. -/
def run (env : Environment) : List Operation → List (Except Refusal Unit) × Environment
  | [] => ([], env)
  | operation :: later =>
    let (outcome, next) := env.step operation
    let (outcomes, last) := next.run later
    (outcome :: outcomes, last)

end Environment

open Environment (Operation)

/-! ### Arenas -/

/-- A scope of an arena. -/
structure Frame where
  scope : Scope
  /-- The number of the scope around it. -/
  parent : Option Nat
  /-- How many scopes are around it. -/
  depth : Nat

/-- Scopes with their numbers, the root first. -/
structure Arena where
  frames : List Frame

namespace Arena

/-- The arena with the root only. -/
def new : Arena := ⟨[⟨{}, none, 0⟩]⟩

/-- The number of scopes. -/
def size (arena : Arena) : Nat := arena.frames.length

/-- The variable of that name in the scope with this number. -/
def find? (arena : Arena) (number : Nat) (name : String) : Option Variable :=
  arena.frames[number]?.bind (·.scope.find? name)

/-- The number of the last scope, if there is one. -/
def current? (arena : Arena) : Option Nat := arena.size.ppred

/-- The depth of the last scope. -/
def depth (arena : Arena) : Nat := (arena.frames.getLast?.map (·.depth)).getD 0

/-- Opens a scope in the last one. -/
def push? (arena : Arena) : Option Arena := do
  let parent ← arena.current?
  return ⟨arena.frames ++ [⟨{}, some parent, arena.depth + 1⟩]⟩

/-- Drops the last scope, unless it is the root. -/
def pop (arena : Arena) : Arena :=
  if 1 < arena.size then ⟨arena.frames.dropLast⟩ else arena

/-- Drops every scope behind the root. -/
def reset (arena : Arena) : Arena := ⟨arena.frames.take 1⟩

/-- Binds a name in the scope with this number. -/
def insert? (arena : Arena) (number : Nat) (name : String) (binding : Variable) : Option Arena := do
  let frame ← arena.frames[number]?
  return ⟨arena.frames.set number { frame with scope := frame.scope.insert name binding }⟩

/-- Binds a name in the last scope, unless that scope has a final binding of it. -/
def define? (arena : Arena) (name : String) (binding : Variable) :
    Option (Except Refusal Unit × Arena) := do
  let number ← arena.current?
  let frame ← arena.frames[number]?
  if (frame.scope.find? name).any (·.isFinal) then
    return (.error .constant, arena)
  else
    return (.ok (), ← arena.insert? number name binding)

/-- The number of the scope in which a search that has come to `from?` finds the name, after so many
steps at most. -/
def resolveFrom? (arena : Arena) (name : String) :
    (steps : Nat) → (from? : Option Nat) → Option (Option Nat)
  | _, none => some none
  | 0, some _ => none
  | steps + 1, some number => do
    let frame ← arena.frames[number]?
    if frame.scope.binds name then return some number
    else arena.resolveFrom? name steps frame.parent

/-- The number of the scope in which a name is found. No scope is visited twice. -/
def resolve? (arena : Arena) (name : String) : Option (Option Nat) := do
  arena.resolveFrom? name arena.size (some (← arena.current?))

/-- The variable that a name stands for. -/
def lookup? (arena : Arena) (name : String) : Option (Option Variable) := do
  match ← arena.resolve? name with
  | none => return none
  | some number => return (← arena.frames[number]?).scope.find? name

/-- Hands out the variable that a name stands for, for something to be made of it and another one to
be put in its place. -/
def access? (arena : Arena) (name : String) (use : Variable → α × Variable) :
    Option (Option α × Arena) := do
  match ← arena.resolve? name with
  | none => return (none, arena)
  | some number =>
    let binding ← (← arena.frames[number]?).scope.find? name
    let (result, changed) := use binding
    return (some result, ← arena.insert? number name changed)

/-- Gives the variable that a name stands for a new value, if that is allowed. -/
def assign? (arena : Arena) (name : String) (value : Value) :
    Option (Except Refusal Unit × Arena) := do
  let (outcome, next) ← arena.access? name (·.assigned value)
  return (outcome.getD (.error .undefined), next)

/-- Carries out an operation. -/
def step? (arena : Arena) : Operation → Option (Except Refusal Unit × Arena)
  | .push => do return (.ok (), ← arena.push?)
  | .pop => return (.ok (), arena.pop)
  | .reset => return (.ok (), arena.reset)
  | .define name binding => arena.define? name binding
  | .setGlobal name binding => do return (.ok (), ← arena.insert? 0 name binding)
  | .assign name value => arena.assign? name value
  | .modify name change => do
    let (_, next) ← arena.access? name fun binding => ((), change binding)
    return (.ok (), next)

/-- Carries out operations one after the other, and says how each of them ended. -/
def run? (arena : Arena) : List Operation → Option (List (Except Refusal Unit) × Arena)
  | [] => return ([], arena)
  | operation :: later => do
    let (outcome, next) ← arena.step? operation
    let (outcomes, last) ← next.run? later
    return (outcome :: outcomes, last)

/-! ### The search for a name -/

/-- The scopes form a stack: there is a root, and every other scope stands in the one before it. -/
structure Linked (arena : Arena) : Prop where
  pos : 0 < arena.size
  depth : ∀ (number : Nat) (frame : Frame), arena.frames[number]? = some frame →
    frame.depth = number
  parent : ∀ (number : Nat) (frame : Frame), arena.frames[number]? = some frame →
    frame.parent = number.ppred

/-- The last scope that binds the name is the one with this number, and this is the variable. -/
def Innermost (arena : Arena) (name : String) (number : Nat) (binding : Variable) : Prop :=
  arena.find? number name = some binding ∧
    IsGreatest { n | (arena.find? n name).isSome = true } number

theorem Innermost.lt_size {arena : Arena} {name : String} {number : Nat} {binding : Variable}
    (h : arena.Innermost name number binding) : number < arena.size := by
  obtain ⟨frame, hframe, -⟩ := Option.bind_eq_some_iff.mp h.1
  exact (List.getElem?_eq_some_iff.mp hframe).1

theorem exists_frame {arena : Arena} {number : Nat} (h : number < arena.size) :
    ∃ frame, arena.frames[number]? = some frame :=
  ⟨_, List.getElem?_eq_getElem h⟩

theorem find?_of_frame {arena : Arena} {number : Nat} {frame : Frame}
    (h : arena.frames[number]? = some frame) (name : String) :
    arena.find? number name = frame.scope.find? name := by
  simp [find?, h]

theorem find?_of_size_le {arena : Arena} {number : Nat} (h : arena.size ≤ number) (name : String) :
    arena.find? number name = none := by
  simp [find?, List.getElem?_eq_none h]

private theorem resolveFrom?_none (arena : Arena) (name : String) (steps : Nat) :
    arena.resolveFrom? name steps none = some none := by
  cases steps <;> rfl

namespace Linked

variable {arena : Arena} (h : arena.Linked)

include h

theorem current?_eq : arena.current? = some (arena.size - 1) :=
  Nat.ppred_eq_some.mpr (Nat.succ_pred_eq_of_pos h.pos)

theorem depth_eq : arena.depth = arena.size - 1 := by
  obtain ⟨frame, hframe⟩ := exists_frame (Nat.pred_lt_of_lt h.pos)
  have hlast : arena.frames.getLast? = some frame := by
    rw [List.getLast?_eq_getElem?]
    exact hframe
  simp [Arena.depth, hlast, h.depth _ frame hframe]

/-- From any scope on, the search goes outward and ends where the name is bound. -/
private theorem resolveFrom?_cases (name : String) {number steps : Nat}
    (hsize : number < arena.size) (hsteps : number < steps) :
    (arena.resolveFrom? name steps (some number) = some none ∧
      ∀ n ≤ number, arena.find? n name = none) ∨
    ∃ found binding, arena.resolveFrom? name steps (some number) = some (some found) ∧
      arena.find? found name = some binding ∧
      ∀ n ≤ number, (arena.find? n name).isSome = true → n ≤ found := by
  induction steps generalizing number with
  -- along the scopes from the innermost outwards, each of which takes a step
  | zero => omega
  | succ steps ih =>
    obtain ⟨frame, hframe⟩ := exists_frame hsize
    have hfind := find?_of_frame hframe name
    cases hbinding : frame.scope.find? name with
    -- it is bound right here
    | some binding =>
      refine .inr ⟨number, binding, ?_, hfind.trans hbinding, fun n hn _ => hn⟩
      simp [resolveFrom?, hframe, Scope.binds, hbinding]
    | none =>
      rw [hbinding] at hfind
      -- otherwise the search goes on in the scope around
      have hstep : arena.resolveFrom? name (steps + 1) (some number) =
          arena.resolveFrom? name steps number.ppred := by
        simp [resolveFrom?, hframe, Scope.binds, hbinding, h.parent number frame hframe]
      rw [hstep]
      cases number with
      | zero =>
        -- the root is the last one to be asked
        refine .inl ⟨resolveFrom?_none .., fun n hn => ?_⟩
        rwa [Nat.le_zero.mp hn]
      | succ number =>
        -- the scope around it is the one before it, and this one does not count
        obtain ⟨hnone, houter⟩ | ⟨found, binding, hfound, hbound, houter⟩ :=
          ih (Nat.lt_of_succ_lt hsize) (Nat.lt_of_succ_lt_succ hsteps)
        · refine .inl ⟨hnone, fun n hn => ?_⟩
          obtain hn | rfl := Nat.le_succ_iff.mp hn
          · exact houter n hn
          · exact hfind
        · refine .inr ⟨found, binding, hfound, hbound, fun n hn hsome => ?_⟩
          obtain hn | rfl := Nat.le_succ_iff.mp hn
          · exact houter n hn hsome
          · rw [hfind] at hsome
            cases hsome

/-- The search for a name ends, and finds the last scope that binds it. -/
theorem resolve?_cases (name : String) :
    (arena.resolve? name = some none ∧ ∀ n, arena.find? n name = none) ∨
    ∃ number binding, arena.resolve? name = some (some number) ∧
      arena.Innermost name number binding := by
  have hlast : arena.size - 1 < arena.size := Nat.pred_lt_of_lt h.pos
  -- beyond the innermost scope there is nothing
  have hbeyond : ∀ n, arena.size - 1 < n → arena.find? n name = none := fun n hn =>
    find?_of_size_le (by omega) name
  have hstart : arena.resolve? name =
      arena.resolveFrom? name arena.size (some (arena.size - 1)) := by
    simp [resolve?, h.current?_eq]
  rw [hstart]
  obtain ⟨hnone, houter⟩ | ⟨number, binding, hfound, hbound, houter⟩ :=
    h.resolveFrom?_cases name hlast hlast
  -- a scope that binds the name would have been met on the way
  · refine .inl ⟨hnone, fun n => ?_⟩
    by_cases hn : n ≤ arena.size - 1
    · exact houter n hn
    · exact hbeyond n (Nat.lt_of_not_le hn)
  -- none further in binds the name
  · refine .inr ⟨number, binding, hfound, hbound, Option.isSome_of_eq_some hbound, fun n hn => ?_⟩
    by_cases hle : n ≤ arena.size - 1
    · exact houter n hle hn
    · have hsome : (arena.find? n name).isSome = true := hn
      rw [hbeyond n (Nat.lt_of_not_le hle)] at hsome
      cases hsome

end Linked

/-! ### What operations change -/

/-- The two arenas have the same scopes and variables, apart from this variable of that name in the
scope with this number. -/
def Rebound (arena next : Arena) (number : Nat) (name : String) (binding : Variable) : Prop :=
  next.size = arena.size ∧ ∀ n other, next.find? n other =
    if n = number ∧ other = name then some binding else arena.find? n other

/-- What an operation does to an arena. -/
def Effect (arena : Arena) (outcome : Except Refusal Unit) (next : Arena) : Operation → Prop
  -- what comes about is told by what is found under each name, not by how it is stored
  | .push =>
    outcome = .ok () ∧ next.size = arena.size + 1 ∧
      ∀ n name, next.find? n name = arena.find? n name
  | .pop =>
    outcome = .ok () ∧ next.size = max 1 (arena.size - 1) ∧
      ∀ n < next.size, ∀ name, next.find? n name = arena.find? n name
  | .reset =>
    outcome = .ok () ∧ next.size = 1 ∧ ∀ name, next.find? 0 name = arena.find? 0 name
  | .define name binding =>
    if (arena.find? (arena.size - 1) name).any (·.isFinal) then
      outcome = .error .constant ∧ next = arena
    else
      outcome = .ok () ∧ arena.Rebound next (arena.size - 1) name binding
  | .setGlobal name binding => outcome = .ok () ∧ arena.Rebound next 0 name binding
  | .assign name value =>
    ((∀ n, arena.find? n name = none) ∧ outcome = .error .undefined ∧ next = arena) ∨
    ∃ number binding, arena.Innermost name number binding ∧
      if binding.isFinal then
        outcome = .error .constant ∧ next = arena
      else if binding.accepts value then
        outcome = .ok () ∧ arena.Rebound next number name { binding with value }
      else
        (∃ type, binding.type = some type ∧ outcome = .error (.typeMismatch type)) ∧ next = arena
  | .modify name change =>
    outcome = .ok () ∧
      (((∀ n, arena.find? n name = none) ∧ next = arena) ∨
      ∃ number binding, arena.Innermost name number binding ∧
        arena.Rebound next number name (change binding))

/-- A name is bound in a scope that is there, and nothing else changes. -/
private theorem insert?_of_lt {arena : Arena} {number : Nat} (h : number < arena.size)
    (name : String) (binding : Variable) :
    ∃ next, arena.insert? number name binding = some next ∧
      arena.Rebound next number name binding := by
  obtain ⟨frame, hframe⟩ := exists_frame h
  refine ⟨⟨arena.frames.set number { frame with scope := frame.scope.insert name binding }⟩,
    by simp [insert?, hframe], by simp [size], fun n other => ?_⟩
  by_cases hn : n = number
  · subst hn
    rw [find?_of_frame (List.getElem?_set_self h), find?_of_frame hframe, Scope.find?_insert]
    simp
  · simp [find?, List.getElem?_set_ne (Ne.symm hn), hn]

/-- Nothing changes if a name is bound to what it is bound to already. -/
private theorem insert?_of_find? {arena : Arena} {number : Nat} {name : String} {binding : Variable}
    (h : arena.find? number name = some binding) :
    arena.insert? number name binding = some arena := by
  obtain ⟨frame, hframe, hbinding⟩ := Option.bind_eq_some_iff.mp h
  have hset : arena.frames.set number frame = arena.frames := by
    obtain ⟨hlt, rfl⟩ := List.getElem?_eq_some_iff.mp hframe
    exact List.set_getElem_self hlt
  simp only [insert?, hframe, Scope.insert_of_find? hbinding, Option.bind_eq_bind, Option.bind_some]
  exact congrArg (fun frames => some (mk frames)) hset

/-- What is handed out is the variable in the last scope that binds the name, and what is made of it
is put there. -/
private theorem Linked.access?_cases {arena : Arena} (h : arena.Linked) (name : String)
    (use : Variable → α × Variable) :
    (arena.access? name use = some (none, arena) ∧ ∀ n, arena.find? n name = none) ∨
    ∃ number binding next, arena.access? name use = some (some (use binding).1, next) ∧
      arena.Innermost name number binding ∧
      arena.insert? number name (use binding).2 = some next ∧
      arena.Rebound next number name (use binding).2 := by
  obtain ⟨hnone, hall⟩ | ⟨number, binding, hfound, hinnermost⟩ := h.resolve?_cases name
  · exact .inl ⟨by simp [access?, hnone], hall⟩
  · obtain ⟨frame, hframe, hbinding⟩ := Option.bind_eq_some_iff.mp hinnermost.1
    obtain ⟨next, hnext, hrebound⟩ := insert?_of_lt hinnermost.lt_size name (use binding).2
    refine .inr ⟨number, binding, next, ?_, hinnermost, hnext, hrebound⟩
    simp [access?, hfound, hframe, hbinding, hnext]

private theorem Linked.push_effect {arena : Arena} (h : arena.Linked) :
    ∃ next, arena.push? = some next ∧ arena.Effect (.ok ()) next .push := by
  refine ⟨⟨arena.frames ++ [⟨{}, some (arena.size - 1), arena.depth + 1⟩]⟩,
    by simp [push?, h.current?_eq], rfl, by simp [size], fun n name => ?_⟩
  -- the new scope binds nothing, just like a scope that is not there
  rcases Nat.lt_trichotomy n arena.size with hn | rfl | hn
  · simp [find?, List.getElem?_append_left hn]
  · simp [find?, size]
  · have hbeyond : arena.frames.length + 1 ≤ n := hn
    rw [find?_of_size_le (Nat.le_of_lt hn), find?_of_size_le (by simpa [size] using hbeyond)]

private theorem Linked.pop_effect {arena : Arena} (h : arena.Linked) :
    arena.Effect (.ok ()) arena.pop .pop := by
  have hpos := h.pos
  unfold pop
  split
  · rename_i hinner
    refine ⟨rfl, by simp [size] at hinner ⊢; omega, fun n hn name => ?_⟩
    have hlt : n < arena.frames.length - 1 := by simpa [size] using hn
    rw [find?, find?, List.getElem?_dropLast, if_pos hlt]
  · exact ⟨rfl, by omega, fun n hn name => rfl⟩

private theorem Linked.define_effect {arena : Arena} (h : arena.Linked) (name : String)
    (binding : Variable) :
    ∃ outcome next, arena.define? name binding = some (outcome, next) ∧
      arena.Effect outcome next (.define name binding) := by
  have hlast : arena.size - 1 < arena.size := Nat.pred_lt_of_lt h.pos
  obtain ⟨frame, hframe⟩ := exists_frame hlast
  obtain ⟨next, hnext, hrebound⟩ := insert?_of_lt hlast name binding
  have hfind := find?_of_frame hframe name
  by_cases hfinal : (frame.scope.find? name).any (·.isFinal) = true
  · exact ⟨.error .constant, arena, by simp [define?, h.current?_eq, hframe, hfinal],
      by simp [Effect, hfind, hfinal]⟩
  · exact ⟨.ok (), next, by simp [define?, h.current?_eq, hframe, hfinal, hnext],
      by simp [Effect, hfind, hfinal, hrebound]⟩

private theorem Linked.assign_effect {arena : Arena} (h : arena.Linked) (name : String)
    (value : Value) :
    ∃ outcome next, arena.assign? name value = some (outcome, next) ∧
      arena.Effect outcome next (.assign name value) := by
  obtain ⟨hnone, hall⟩ | ⟨number, binding, next, haccess, hinnermost, hnext, hrebound⟩ :=
    h.access?_cases name (·.assigned value)
  -- nothing of the name is found, and nothing happens
  · exact ⟨.error .undefined, arena, by simp [assign?, hnone], .inl ⟨hall, rfl, rfl⟩⟩
  refine ⟨(binding.assigned value).1, next, by simp [assign?, haccess], .inr ⟨number, binding,
    hinnermost, ?_⟩⟩
  -- a refused assignment puts the variable back that was there
  have hkept : (binding.assigned value).2 = binding → next = arena := fun hsame => by
    rw [hsame, insert?_of_find? hinnermost.1] at hnext
    exact (Option.some.inj hnext).symm
  cases hfinal : binding.isFinal with
  | true =>
    rw [Variable.assigned_of_final hfinal] at hkept ⊢
    exact ⟨rfl, hkept rfl⟩
  | false =>
    cases haccepts : binding.accepts value with
    | true =>
      rw [Variable.assigned_of_accepts hfinal haccepts] at hrebound ⊢
      exact ⟨rfl, hfinal ▸ hrebound⟩
    | false =>
      obtain ⟨type, htype, hassigned⟩ := Variable.assigned_of_not_accepts hfinal haccepts
      rw [hassigned] at hkept ⊢
      exact ⟨⟨type, htype, rfl⟩, hkept rfl⟩

/-- Every operation is carried out, and this is what it does. -/
theorem Linked.step?_effect {arena : Arena} (h : arena.Linked) (operation : Operation) :
    ∃ outcome next, arena.step? operation = some (outcome, next) ∧
      arena.Effect outcome next operation := by
  cases operation with
  | push =>
    obtain ⟨next, hnext, heffect⟩ := h.push_effect
    exact ⟨.ok (), next, by simp [step?, hnext], heffect⟩
  | pop => exact ⟨.ok (), arena.pop, rfl, h.pop_effect⟩
  -- the root stays, and all scopes behind it go
  | reset =>
    have hsize : min 1 arena.size = 1 := Nat.min_eq_left h.pos
    exact ⟨.ok (), arena.reset, rfl, rfl, by simpa [size, reset] using hsize,
      by simp [find?, reset]⟩
  | define name binding => exact h.define_effect name binding
  | setGlobal name binding =>
    obtain ⟨next, hnext, hrebound⟩ := insert?_of_lt h.pos name binding
    exact ⟨.ok (), next, by simp [step?, hnext], rfl, hrebound⟩
  | assign name value => exact h.assign_effect name value
  | modify name change =>
    -- a change is made to the variable that is found, or to none
    obtain ⟨hnone, hall⟩ | ⟨number, binding, next, haccess, hinnermost, -, hrebound⟩ :=
      h.access?_cases name fun binding => ((), change binding)
    · exact ⟨.ok (), arena, by simp [step?, hnone], rfl, .inl ⟨hall, rfl⟩⟩
    · exact ⟨.ok (), next, by simp [step?, haccess], rfl,
        .inr ⟨number, binding, hinnermost, hrebound⟩⟩

/-- One scope at most is the last that binds a name. -/
theorem Innermost.unique {arena : Arena} {name : String} {number other : Nat}
    {binding otherBinding : Variable} (h : arena.Innermost name number binding)
    (h' : arena.Innermost name other otherBinding) : number = other ∧ binding = otherBinding := by
  obtain rfl := h.2.unique h'.2
  exact ⟨rfl, Option.some.inj (h.1.symm.trans h'.1)⟩

end Arena

end Tern
