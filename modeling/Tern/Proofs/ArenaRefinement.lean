import Tern.Proofs.Arena

/-!
# Environments as arenas

The scopes of an environment can be put into an arena. There they form a stack, and everything that
can be done to an environment does the same to its arena. So whatever is done, starting with the
root only, the arena is a stack of scopes and no access to it fails.

## Key results

- `Environment.resolve_cases`: where a name is looked up, and what changing its variable does
- `Environment.step?_arena`, `Environment.run?_arena`: the arena of an environment does what the
  environment does
- `Environment.run_block`: a scope that is opened, filled and dropped leaves no trace
- `Environment.arena_refines`: all of that, after any operations
-/

namespace Tern

open Environment (Operation)

/-! ### The arena of an environment -/

namespace Environment

/-- The scopes of an environment, the root first. -/
def stack (env : Environment) : List Scope := env.root :: env.inner.reverse

/-- The arena with the scopes of an environment. -/
def arena (env : Environment) : Arena :=
  ⟨env.stack.mapIdx fun number scope => ⟨scope, number.ppred, number⟩⟩

theorem size_arena (env : Environment) : env.arena.size = env.depth + 1 := by
  simp [Arena.size, arena, stack, depth]

theorem frames_arena (env : Environment) (number : Nat) :
    env.arena.frames[number]? =
      env.stack[number]?.map fun scope => ⟨scope, number.ppred, number⟩ :=
  List.getElem?_mapIdx

theorem find?_arena (env : Environment) (number : Nat) (name : String) :
    env.arena.find? number name = env.stack[number]?.bind (·.find? name) := by
  rw [Arena.find?, frames_arena]
  cases env.stack[number]? <;> rfl

/-- The scopes of an environment form a stack. -/
theorem linked_arena (env : Environment) : env.arena.Linked where
  pos := by simp [size_arena]
  depth number frame hframe := by
    rw [frames_arena] at hframe
    obtain ⟨scope, -, rfl⟩ := Option.map_eq_some_iff.mp hframe
    rfl
  parent number frame hframe := by
    rw [frames_arena] at hframe
    obtain ⟨scope, -, rfl⟩ := Option.map_eq_some_iff.mp hframe
    rfl

theorem stack_injective {env env' : Environment} (h : env.stack = env'.stack) : env = env' := by
  obtain ⟨root, inner⟩ := env
  obtain ⟨root', inner'⟩ := env'
  simpa [stack] using h

/-- Another scope in the place of one. -/
private theorem insert?_arena {env env' : Environment} {number : Nat} {scope : Scope}
    {name : String} {binding : Variable} (hscope : env.stack[number]? = some scope)
    (hstack : env'.stack = env.stack.set number (scope.insert name binding)) :
    env.arena.insert? number name binding = some env'.arena := by
  have hframe : env.arena.frames[number]? = some ⟨scope, number.ppred, number⟩ := by
    rw [frames_arena, hscope]
    rfl
  have hset : env.arena.frames.set number ⟨scope.insert name binding, number.ppred, number⟩ =
      env'.arena.frames := by
    simp only [arena, hstack, List.mapIdx_set]
  simp only [Arena.insert?, hframe, Option.bind_eq_bind, Option.bind_some]
  exact congrArg (fun frames => some (Arena.mk frames)) hset

/-! ### Names in an environment -/

/-- A scope that binds a name, where those inside it do not. -/
private theorem innermost_of_stack {env : Environment} {around inside : List Scope} {scope : Scope}
    {name : String} {binding : Variable} (hstack : env.stack = around ++ scope :: inside)
    (hscope : scope.find? name = some binding)
    (hinside : ∀ other ∈ inside, other.find? name = none) :
    env.arena.Innermost name around.length binding := by
  refine ⟨?_, ?_, fun n hn => ?_⟩
  · simp [find?_arena, hstack, hscope]
  · simp [find?_arena, hstack, hscope]
  · -- a scope with a greater number is one of those inside
    by_contra hlt
    obtain ⟨above, rfl⟩ := Nat.exists_eq_add_of_lt (Nat.lt_of_not_le hlt)
    have hsome : (env.arena.find? (around.length + above + 1) name).isSome = true := hn
    rw [find?_arena, hstack, Nat.add_assoc, List.getElem?_append_right (Nat.le_add_right ..),
      Nat.add_sub_cancel_left, List.getElem?_cons_succ] at hsome
    obtain ⟨binding', hfound⟩ := Option.isSome_iff_exists.mp hsome
    obtain ⟨other, hother, hbinding'⟩ := Option.bind_eq_some_iff.mp hfound
    rw [hinside other (List.mem_of_getElem? hother)] at hbinding'
    cases hbinding'

/-- Where a name is looked up, and what changing its variable does. -/
theorem resolve_cases (env : Environment) (name : String) :
    (env.resolve name = none ∧ env.lookup name = none ∧ (∀ n, env.arena.find? n name = none) ∧
      ∀ change, env.modify name change = env) ∨
    ∃ number scope binding, env.resolve name = some number ∧ env.lookup name = some binding ∧
      env.arena.Innermost name number binding ∧ env.stack[number]? = some scope ∧
      ∀ change, (env.modify name change).stack =
        env.stack.set number (scope.insert name (change binding)) := by
  -- the root is asked last, after all scopes in it
  cases hinner : env.inner.findSome? (·.find? name) with
  -- a scope inside binds it: the first of them from the inside
  | some binding =>
    obtain ⟨above, scope, outer, hsplit, hscope, habove⟩ := List.findSome?_eq_some_iff.mp hinner
    have hindex : env.inner.findIdx? (·.binds name) = some above.length := by
      have hnone : above.findIdx? (·.binds name) = none :=
        List.findIdx?_eq_none_iff.mpr fun other hother => by simp [Scope.binds, habove other hother]
      rw [hsplit, List.findIdx?_append, hnone]
      simp [List.findIdx?_cons, Scope.binds, hscope]
    -- in the stack it stands behind the root and those outside of it
    have hstack : env.stack = (env.root :: outer.reverse) ++ scope :: above.reverse := by
      simp [stack, hsplit]
    refine .inr ⟨outer.length + 1, scope, binding, ?_, by simp [lookup, hinner], ?_, ?_,
      fun change => ?_⟩
    · have hnumber : env.depth - above.length = outer.length + 1 := by simp [depth, hsplit]
      simp only [resolve, hindex, hnumber]
    · simpa using innermost_of_stack hstack hscope (by simpa using habove)
    · simp [hstack]
    · have hinnerChange : env.inner.modify above.length (·.modify name change) =
          above ++ scope.insert name (change binding) :: outer := by
        rw [hsplit, List.modify_eq_take_cons_drop (by simp)]
        simp [Scope.modify, hscope]
      rw [modify, hindex, hstack]
      simp [stack, hinnerChange]
  -- only the root is left
  | none =>
    have hnone := List.findSome?_eq_none_iff.mp hinner
    have hindex : env.inner.findIdx? (·.binds name) = none :=
      List.findIdx?_eq_none_iff.mpr fun other hother => by simp [Scope.binds, hnone other hother]
    cases hroot : env.root.find? name with
    | some binding =>
      have hbinds : env.root.binds name = true := by simp [Scope.binds, hroot]
      refine .inr ⟨0, env.root, binding, by simp [resolve, hindex, hbinds],
        by simp [lookup, hinner, hroot], ?_, rfl, fun change => ?_⟩
      · exact innermost_of_stack (List.nil_append _).symm hroot (by simpa using hnone)
      · simp [modify, hindex, stack, Scope.modify, hroot]
    | none =>
      have hbinds : env.root.binds name = false := by simp [Scope.binds, hroot]
      refine .inl ⟨by simp [resolve, hindex, hbinds], by simp [lookup, hinner, hroot],
        fun n => ?_, fun change => by simp [modify, hindex, Scope.modify, hroot]⟩
      -- in no scope, so nowhere in the stack
      rw [find?_arena, Option.bind_eq_none_iff]
      intro scope hscope
      obtain rfl | hmem := List.mem_cons.mp (List.mem_of_getElem? hscope)
      · exact hroot
      · exact hnone scope (List.mem_reverse.mp hmem)

private theorem overwriteFirst_eq (name : String) (value : Value) (scopes : List Scope) :
    overwriteFirst name value scopes =
      (scopes.findIdx? (·.binds name)).map fun above =>
        scopes.modify above (·.overwrite name value) := by
  induction scopes with
  | nil => rfl
  | cons scope outer ih =>
    rw [overwriteFirst, List.findIdx?_cons, ih]
    split
    · rfl
    · cases outer.findIdx? (·.binds name) <;> rfl

/-- Another value is one of the changes that a variable may undergo. -/
theorem overwrite_eq_modify (env : Environment) (name : String) (value : Value) :
    env.overwrite name value = env.modify name ({ · with value }) := by
  rw [overwrite, modify, overwriteFirst_eq]
  cases env.inner.findIdx? (·.binds name) <;> rfl

/-! ### The arena does the same -/

/-- The search in the arena finds the scope that the name belongs to. -/
theorem resolve?_arena (env : Environment) (name : String) :
    env.arena.resolve? name = some (env.resolve name) := by
  obtain ⟨hnone, -, hall, -⟩ | ⟨number, scope, binding, hsome, -, hinner, -⟩ :=
      env.resolve_cases name <;>
    obtain ⟨hnone?, hall?⟩ | ⟨number?, binding?, hsome?, hinner?⟩ :=
      env.linked_arena.resolve?_cases name
  -- both or neither find the name, as both are about the variables in the scopes
  · rw [hnone, hnone?]
  · exact absurd (hall number?) (by simp [hinner?.1])
  · exact absurd (hall? number) (by simp [hinner.1])
  · rw [hsome, hsome?, (hinner.unique hinner?).1]

/-- A variable is handed out and changed in the arena as in the environment. -/
theorem access?_arena (env : Environment) (name : String) (use : Variable → α × Variable) :
    env.arena.access? name use =
      some ((env.lookup name).map fun binding => (use binding).1,
        (env.modify name fun binding => (use binding).2).arena) := by
  obtain ⟨hresolve, hlookup, -, hmodify⟩ |
    ⟨number, scope, binding, hresolve, hlookup, hinner, hscope, hmodify⟩ := env.resolve_cases name
  · simp [Arena.access?, resolve?_arena, hresolve, hlookup, hmodify]
  · have hbinding : scope.find? name = some binding := by
      simpa [find?_arena, hscope] using hinner.1
    have hinsert := insert?_arena hscope (hmodify fun binding => (use binding).2)
    simp [Arena.access?, resolve?_arena, hresolve, hlookup, frames_arena, hscope, hbinding, hinsert]

/-- A name stands for the same variable in the arena and in the environment. -/
theorem lookup?_arena (env : Environment) (name : String) :
    env.arena.lookup? name = some (env.lookup name) := by
  obtain ⟨hresolve, hlookup, -⟩ | ⟨number, scope, binding, hresolve, hlookup, hinner, hscope, -⟩ :=
    env.resolve_cases name
  · simp [Arena.lookup?, resolve?_arena, hresolve, hlookup]
  · have hbinding : scope.find? name = some binding := by
      simpa [find?_arena, hscope] using hinner.1
    simp [Arena.lookup?, resolve?_arena, hresolve, hlookup, frames_arena, hscope, hbinding]

theorem stack_push (env : Environment) : env.push.stack = env.stack ++ [({} : Scope)] := by
  simp [stack, push]

theorem stack_current (env : Environment) : env.stack[env.depth]? = some env.current := by
  obtain ⟨root, inner⟩ := env
  cases inner <;> simp [stack, depth, current]

theorem stack_replaceCurrent (env : Environment) (scope : Scope) :
    (env.replaceCurrent scope).stack = env.stack.set env.depth scope := by
  obtain ⟨root, inner⟩ := env
  cases inner with
  | nil => rfl
  | cons innermost outer => simp [stack, depth, replaceCurrent]

private theorem push?_arena (env : Environment) : env.arena.push? = some env.push.arena := by
  have hlength : env.stack.length = env.depth + 1 := by simp [stack, depth]
  simp only [Arena.push?, env.linked_arena.current?_eq, env.linked_arena.depth_eq, size_arena,
    Nat.add_sub_cancel, Option.bind_eq_bind, Option.bind_some]
  simp only [arena, stack_push, List.mapIdx_concat, hlength]
  rfl

private theorem pop_arena (env : Environment) : env.arena.pop = env.pop.arena := by
  obtain ⟨root, inner⟩ := env
  cases inner with
  -- the root is not taken off
  | nil => rfl
  | cons innermost outer =>
    have hinner : 1 < (Environment.mk root (innermost :: outer)).arena.size := by
      simp [size_arena, depth]
    have hstack : stack ⟨root, innermost :: outer⟩ = stack ⟨root, outer⟩ ++ [innermost] := by
      simp [stack]
    rw [Arena.pop, if_pos hinner]
    simp [arena, hstack, List.mapIdx_concat, pop]

private theorem reset_arena (env : Environment) : env.arena.reset = env.reset.arena := by
  simp [Arena.reset, arena, stack, reset, List.mapIdx_cons]

/-- A declaration is refused exactly if the innermost scope has a final variable of that name. -/
theorem define_eq (env : Environment) (name : String) (binding : Variable) :
    env.define name binding =
      if (env.current.find? name).any (·.isFinal) then .error .constant
      else .ok (env.replaceCurrent (env.current.insert name binding)) := by
  unfold define
  cases env.current.find? name with
  | none => rfl
  | some old =>
    obtain ⟨isFinal, type, value⟩ := old
    cases isFinal <;> rfl

private theorem define?_arena (env : Environment) (name : String) (binding : Variable) :
    env.arena.define? name binding =
      let (outcome, next) := env.settled (env.define name binding)
      some (outcome, next.arena) := by
  have hcurrent : env.arena.current? = some env.depth := by
    simp [env.linked_arena.current?_eq, size_arena]
  have hinsert := insert?_arena env.stack_current
    (env.stack_replaceCurrent (env.current.insert name binding))
  simp only [Arena.define?, hcurrent, frames_arena, env.stack_current, Option.bind_eq_bind,
    Option.bind_some, Option.map_some, hinsert, define_eq]
  split <;> rfl

/-- What is made of a variable counts, and nothing else that could be made of others. -/
private theorem modify_congr {env : Environment} {name : String} {binding : Variable}
    (h : env.lookup name = some binding) {change change' : Variable → Variable}
    (hsame : change binding = change' binding) :
    env.modify name change = env.modify name change' := by
  obtain ⟨-, hnone, -⟩ | ⟨number, scope, found, -, hfound, -, -, hmodify⟩ := env.resolve_cases name
  · rw [h] at hnone
    cases hnone
  · obtain rfl : binding = found := Option.some.inj (h.symm.trans hfound)
    exact stack_injective (by rw [hmodify, hmodify, hsame])

/-- A variable that is left as it is. -/
private theorem modify_of_eq {env : Environment} {name : String} {binding : Variable}
    (h : env.lookup name = some binding) {change : Variable → Variable}
    (hsame : change binding = binding) : env.modify name change = env := by
  obtain ⟨-, -, -, hmodify⟩ | ⟨number, scope, found, -, hfound, hinner, hscope, hmodify⟩ :=
    env.resolve_cases name
  -- nothing is bound, so nothing is changed
  · exact hmodify change
  -- the binding that is put back is the one that was there
  · obtain rfl : binding = found := Option.some.inj (h.symm.trans hfound)
    have hbinding : scope.find? name = some binding := by
      simpa [find?_arena, hscope] using hinner.1
    -- so the scope stays, and with it the stack
    have hset : env.stack.set number scope = env.stack := by
      obtain ⟨hlt, rfl⟩ := List.getElem?_eq_some_iff.mp hscope
      exact List.set_getElem_self hlt
    exact stack_injective (by rw [hmodify, hsame, Scope.insert_of_find? hbinding, hset])

/-- An assignment makes of the innermost variable what it makes of variables. -/
theorem settled_assign {env : Environment} {name : String} {binding : Variable}
    (h : env.lookup name = some binding) (value : Value) :
    env.settled (env.assign name value) =
      ((binding.assigned value).1, env.modify name fun old => (old.assigned value).2) := by
  cases hfinal : binding.isFinal with
  | true =>
    -- what is refused is put back as it was, and that is no change
    have hassigned : binding.assigned value = (.error .constant, binding) :=
      Variable.assigned_of_final hfinal
    rw [modify_of_eq h (by rw [hassigned]), hassigned]
    simp [assign, h, hfinal, settled]
  -- what is accepted is written where the name was found
  | false =>
    rw [assign_eq h hfinal]
    cases haccepts : binding.accepts value with
    | true =>
      have hassigned := Variable.assigned_of_accepts hfinal haccepts
      rw [overwrite_eq_modify, hassigned]
      simp only [if_true, settled, Prod.mk.injEq, true_and]
      exact modify_congr h (by rw [hassigned])
    -- a type that does not fit is refused with the variable as it was
    | false =>
      obtain ⟨type, htype, hassigned⟩ := Variable.assigned_of_not_accepts hfinal haccepts
      rw [modify_of_eq h (by rw [hassigned]), hassigned, htype]
      rfl

private theorem assign?_arena (env : Environment) (name : String) (value : Value) :
    env.arena.assign? name value =
      let (outcome, next) := env.settled (env.assign name value)
      some (outcome, next.arena) := by
  rw [Arena.assign?, access?_arena]
  cases hlookup : env.lookup name with
  | none =>
    obtain ⟨-, -, -, hmodify⟩ | ⟨_, _, _, -, hsome, -⟩ := env.resolve_cases name
    · simp [assign, hlookup, settled, hmodify]
    · rw [hlookup] at hsome
      cases hsome
  | some binding => simp [settled_assign hlookup]

/-- The arena of an environment does what the environment does. -/
theorem step?_arena (env : Environment) (operation : Operation) :
    env.arena.step? operation =
      let (outcome, next) := env.step operation
      some (outcome, next.arena) := by
  cases operation with
  | push => simp [Arena.step?, push?_arena, step]
  | pop => simp [Arena.step?, pop_arena, step]
  | reset => simp [Arena.step?, reset_arena, step]
  | define name binding => exact env.define?_arena name binding
  | setGlobal name binding =>
    have hstack : (env.setGlobal name binding).stack =
        env.stack.set 0 (env.root.insert name binding) := rfl
    simp [Arena.step?, insert?_arena (rfl : env.stack[0]? = some env.root) hstack, step]
  | assign name value => exact env.assign?_arena name value
  | modify name change => simp [Arena.step?, access?_arena, step]

/-- It does so however often. -/
theorem run?_arena (env : Environment) (operations : List Operation) :
    env.arena.run? operations =
      let (outcomes, last) := env.run operations
      some (outcomes, last.arena) := by
  induction operations generalizing env with
  | nil => rfl
  | cons operation later ih =>
    simp [Arena.run?, step?_arena, ih, run]

/-- Declarations change the innermost scope only, which is dropped afterwards. -/
private theorem run_definitions {env : Environment} (hinner : env.inner ≠ [])
    (definitions : List (String × Variable)) :
    (env.run (definitions.map (fun (name, binding) => .define name binding) ++ [.pop])).2 =
      env.pop := by
  induction definitions generalizing env with
  | nil => rfl
  | cons definition definitions ih =>
    obtain ⟨name, binding⟩ := definition
    -- refused or not, only the innermost scope is another one
    obtain ⟨hpop, hstill⟩ : (env.step (.define name binding)).2.pop = env.pop ∧
        (env.step (.define name binding)).2.inner ≠ [] := by
      simp only [step, define_eq]
      split
      · exact ⟨rfl, hinner⟩
      · obtain ⟨root, inner⟩ := env
        cases inner with
        | nil => exact absurd rfl hinner
        | cons innermost outer => exact ⟨rfl, List.cons_ne_nil _ _⟩
    -- so the scope that is taken off in the end is taken off now
    rw [← hpop]
    exact ih hstill

/-- A scope that is opened, filled and dropped leaves no trace. -/
theorem run_block (env : Environment) (definitions : List (String × Variable)) :
    (env.run (Operation.block definitions)).2 = env := by
  have hinner : env.push.inner ≠ [] := List.cons_ne_nil _ _
  exact run_definitions hinner definitions

/-- An arena of scopes does what the environment does, and it is a stack of scopes by their names.
After any operations, starting with the root only:

* no access has failed, every operation has ended as in the environment, and the arena has the
  scopes of the environment. There is a root, which stands in no scope and has depth zero, and the
  scope with number `n + 1` stands in the one with number `n` and has depth `n + 1`;
* the search for a name ends. It finds the greatest number of a scope that binds the name, and the
  name stands for the variable there;
* any further operation is carried out, as in the environment. An assignment and a change are made
  to that variable only, a declaration in the last scope only and that of a global in the root only,
  and what is refused changes nothing;
* a scope that is opened, filled with any declarations and dropped leaves no trace. -/
theorem arena_refines (history : List Operation) :
    let env := (run {} history).2
    Arena.new.run? history = some ((run {} history).1, env.arena) ∧ env.arena.Linked ∧
    (∀ name, env.arena.resolve? name = some (env.resolve name) ∧
      env.arena.lookup? name = some (env.lookup name) ∧
      ((env.resolve name = none ∧ env.lookup name = none ∧ ∀ n, env.arena.find? n name = none) ∨
      ∃ number binding, env.resolve name = some number ∧ env.lookup name = some binding ∧
        env.arena.Innermost name number binding)) ∧
    (∀ operation, let (outcome, next) := env.step operation
      env.arena.step? operation = some (outcome, next.arena) ∧
        env.arena.Effect outcome next.arena operation) ∧
    ∀ definitions, ∃ outcomes, env.arena.run? (Operation.block definitions) =
      some (outcomes, env.arena) := by
  intro env
  refine ⟨run?_arena {} history, env.linked_arena, fun name => ?_, fun operation => ?_,
    fun definitions => ?_⟩
  -- names are resolved to the same scope, and mean the same there
  · refine ⟨env.resolve?_arena name, env.lookup?_arena name, ?_⟩
    obtain ⟨hresolve, hlookup, hall, -⟩ | ⟨number, _, binding, hresolve, hlookup, hinner, -⟩ :=
      env.resolve_cases name
    · exact .inl ⟨hresolve, hlookup, hall⟩
    · exact .inr ⟨number, binding, hresolve, hlookup, hinner⟩
  -- the step on the arena is the step on the environment, and has its effect
  · obtain ⟨outcome, next, hstep, heffect⟩ := env.linked_arena.step?_effect operation
    have hsame := env.step?_arena operation
    rw [hstep] at hsame
    cases hsame
    exact ⟨hstep, heffect⟩
  -- a block takes back whatever it has defined
  · have hdropped := env.run_block definitions
    rw [run?_arena]
    generalize env.run (Operation.block definitions) = result at hdropped ⊢
    obtain ⟨outcomes, last⟩ := result
    obtain rfl : last = env := hdropped
    exact ⟨outcomes, rfl⟩

end Environment

end Tern
