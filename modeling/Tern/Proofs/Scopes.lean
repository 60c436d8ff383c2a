import Mathlib.Data.List.Forall2
import Tern.Environment

/-!
# How scopes change

An assignment gives a variable another value, and a declaration adds a variable to the innermost
scope or replaces one there. This file says what is left alone: `Scope.Evolves` is what assignments
may do to a scope, `Scope.Grows` what declarations may do besides.

An environment is looked at as the chain of its scopes, innermost first. The number of a scope is
counted from the other end, so that it stays the same while scopes are opened and dropped above it:
the root is number zero, and the scope with number `n + 1` stands in the one with number `n`.

## Key results

- `Variable.Evolves.eq_of_isFinal`: a final variable does not change
- `Environment.Framed.of_assign`: an assignment changes one value, to one that fits
- `Environment.Extended.of_define`: a declaration leaves the scopes further out alone
- `Environment.Framed.of_push`: a block does to the scopes around it only what assignments do
- `Environment.Framed.resolve_eq`: assignments do not change which scope a name belongs to
- `Environment.written_overwrite`, `Environment.lookup_overwrite`: what is written, and where
-/

namespace Tern

/-! ### Variables -/

/-- What assignments may do to a variable: unless it is final it may have another value, if that is
one that its declared type admits. -/
structure Variable.Evolves (before after : Variable) : Prop where
  isFinal : after.isFinal = before.isFinal
  type : after.type = before.type
  value : after.value = before.value ∨ before.isFinal = false ∧ before.accepts after.value = true

namespace Variable.Evolves

protected theorem refl (b : Variable) : Evolves b b := ⟨rfl, rfl, .inl rfl⟩

/-- Variables of the same declared type accept the same values. -/
theorem accepts_eq {b b' : Variable} (h : Evolves b b') (v : Value) :
    b'.accepts v = b.accepts v := by
  unfold Variable.accepts
  rw [h.type]

protected theorem trans {b b' b'' : Variable} (h : Evolves b b') (h' : Evolves b' b'') :
    Evolves b b'' := by
  refine ⟨h'.isFinal.trans h.isFinal, h'.type.trans h.type, ?_⟩
  rcases h'.value with hsame | ⟨hfinal, haccepts⟩
  · rw [hsame]
    exact h.value
  · -- the later write was checked against the declared type in between, which is the first one
    rw [h.isFinal] at hfinal
    rw [h.accepts_eq] at haccepts
    exact .inr ⟨hfinal, haccepts⟩

/-- A final variable does not change. -/
theorem eq_of_isFinal {b b' : Variable} (h : Evolves b b') (hfinal : b.isFinal = true) :
    b' = b := by
  obtain ⟨isFinal, type, value⟩ := b
  obtain ⟨isFinal', type', value'⟩ := b'
  obtain ⟨hisFinal, htype, hvalue⟩ := h
  have hvalue : value' = value := by
    rcases hvalue with hsame | ⟨hnot, -⟩
    · exact hsame
    · rw [hfinal] at hnot
      cases hnot
  simp_all

end Variable.Evolves

/-! ### Scopes -/

namespace Scope

/-- What assignments may do to a scope: the same names stay bound, each to what has become of its
variable. -/
def Evolves (before after : Scope) : Prop :=
  ∀ name, Option.Rel Variable.Evolves (before.find? name) (after.find? name)

/-- What declarations may do to the scope that they are made in: no name gets lost, and final
variables stay. -/
def Grows (before after : Scope) : Prop :=
  ∀ name b, before.find? name = some b →
    ∃ b', after.find? name = some b' ∧ (b.isFinal = true → b' = b)

protected theorem Evolves.refl (scope : Scope) : scope.Evolves scope := by
  intro name
  cases scope.find? name with
  | none => exact .none
  | some b => exact .some (.refl b)

protected theorem Evolves.trans {a b c : Scope} (h : a.Evolves b) (h' : b.Evolves c) :
    a.Evolves c := by
  intro name
  have hname := h name
  have hname' := h' name
  generalize a.find? name = x, b.find? name = y, c.find? name = z at hname hname'
  cases hname with
  | none => exact hname'
  | some hxy =>
    cases hname' with
    | some hyz => exact .some (hxy.trans hyz)

/-- The same names are bound. -/
theorem Evolves.binds_eq {a b : Scope} (h : a.Evolves b) (name : String) :
    b.binds name = a.binds name := by
  have hname := h name
  unfold binds
  generalize a.find? name = x, b.find? name = y at hname
  cases hname <;> rfl

protected theorem Grows.refl (scope : Scope) : scope.Grows scope :=
  fun _ b hb => ⟨b, hb, fun _ => rfl⟩

protected theorem Grows.trans {a b c : Scope} (h : a.Grows b) (h' : b.Grows c) : a.Grows c := by
  intro name v hv
  -- a name that is bound to a final variable in between is not rebound later
  obtain ⟨v', hv', hfinal⟩ := h name v hv
  obtain ⟨v'', hv'', hfinal'⟩ := h' name v' hv'
  refine ⟨v'', hv'', fun hisFinal => ?_⟩
  obtain rfl := hfinal hisFinal
  exact hfinal' hisFinal

/-- Assignments do no more than declarations. -/
theorem Evolves.grows {a b : Scope} (h : a.Evolves b) : a.Grows b := by
  intro name v hv
  have hname := h name
  rw [hv] at hname
  generalize hb : b.find? name = x at hname
  cases hname with
  | some hvw => exact ⟨_, rfl, hvw.eq_of_isFinal⟩

/-- Writing a value that fits into a variable that is not final. -/
theorem evolves_overwrite {scope : Scope} {name : String} {b : Variable} {value : Value}
    (hb : scope.find? name = some b) (hfinal : b.isFinal = false)
    (haccepts : b.accepts value = true) : scope.Evolves (scope.overwrite name value) := by
  intro other
  rw [find?_overwrite]
  split
  · rename_i heq
    rw [heq, hb]
    exact .some ⟨rfl, rfl, .inr ⟨hfinal, haccepts⟩⟩
  · exact Evolves.refl scope other

/-- Binding a name that is not bound to a final variable. -/
theorem grows_insert {scope : Scope} {name : String}
    (hfinal : ∀ b, scope.find? name = some b → b.isFinal = false) (binding : Variable) :
    scope.Grows (scope.insert name binding) := by
  intro other b hb
  rw [find?_insert]
  split
  · -- the old variable is replaced, which it would not be if it were final
    rename_i heq
    rw [heq] at hb
    refine ⟨binding, rfl, fun hisFinal => ?_⟩
    rw [hfinal b hb] at hisFinal
    cases hisFinal
  · exact ⟨b, hb, fun _ => rfl⟩

end Scope

/-! ### Chains of scopes -/

namespace Environment

/-- The scopes, innermost first. -/
def chain (env : Environment) : List Scope := env.inner ++ [env.root]

@[simp] theorem length_chain (env : Environment) : env.chain.length = env.depth + 1 := by
  simp [chain, depth]

/-- The innermost scope heads the chain. -/
theorem chain_eq (env : Environment) : env.chain = env.current :: env.chain.tail := by
  obtain ⟨root, inner⟩ := env
  cases inner <;> rfl

@[simp] theorem chain_push (env : Environment) : env.push.chain = {} :: env.chain := rfl

/-- Dropping the innermost scope, if it is not the root. -/
theorem chain_pop {env : Environment} (h : env.chain.tail ≠ []) :
    env.pop.chain = env.chain.tail := by
  obtain ⟨root, inner⟩ := env
  cases inner with
  | nil => exact absurd rfl h
  | cons scope outer => rfl

@[simp] theorem chain_replaceCurrent (env : Environment) (scope : Scope) :
    (env.replaceCurrent scope).chain = scope :: env.chain.tail := by
  obtain ⟨root, inner⟩ := env
  cases inner <;> rfl

/-- A name is looked up along the chain. -/
theorem lookup_eq (env : Environment) (name : String) :
    env.lookup name = env.chain.findSome? (·.find? name) := by
  unfold lookup chain
  rw [List.findSome?_append]
  cases env.inner.findSome? (·.find? name) with
  | none => simp
  | some b => rfl

private theorem overwriteFirst_append (name : String) (value : Value) (inner : List Scope)
    (root : Scope) : overwriteFirst name value (inner ++ [root]) =
      match overwriteFirst name value inner with
      | some inner => some (inner ++ [root])
      | none => if root.binds name then some (inner ++ [root.overwrite name value]) else none := by
  -- along the scopes, of which the root is the last
  induction inner with
  | nil => rfl
  | cons scope outer ih =>
    simp only [List.cons_append, overwriteFirst, ih]
    by_cases hscope : scope.binds name
    · simp [hscope]
    · simp only [hscope, Bool.false_eq_true, if_false]
      cases overwriteFirst name value outer with
      | some outer' => rfl
      | none => by_cases hroot : root.binds name <;> simp [hroot]

/-- A value is written into the first scope of the chain that binds the name. -/
theorem chain_overwrite {env : Environment} {name : String} {b : Variable}
    (h : env.lookup name = some b) (value : Value) :
    overwriteFirst name value env.chain = some (env.overwrite name value).chain := by
  unfold chain overwrite
  rw [overwriteFirst_append]
  -- it is written inside, or in the root
  cases hinner : overwriteFirst name value env.inner with
  | some inner => rfl
  | none =>
    -- no inner scope binds the name, so it is the root that was found
    have hnone : env.inner.findSome? (·.find? name) = none := by
      rw [List.findSome?_eq_none_iff]
      generalize env.inner = scopes at hinner
      induction scopes with
      | nil => simp
      | cons scope outer ih =>
        simp only [overwriteFirst] at hinner
        split at hinner
        · cases hinner
        · rename_i hbinds
          have houter := ih (Option.map_eq_none_iff.mp hinner)
          simp only [Scope.binds, Bool.not_eq_true, Option.isSome_eq_false_iff,
            Option.isNone_iff_eq_none] at hbinds
          intro x hx
          rcases List.mem_cons.mp hx with rfl | hx
          · exact hbinds
          · exact houter x hx
    have hroot : env.root.binds name = true := by
      unfold lookup at h
      rw [hnone] at h
      simp [Scope.binds, h]
    simp [hroot]

/-- What a declaration does, unless it is refused. -/
theorem chain_of_define {env env' : Environment} {name : String} {binding : Variable}
    (h : env.define name binding = .ok env') :
    (∀ b, env.current.find? name = some b → b.isFinal = false) ∧
      env'.chain = env.current.insert name binding :: env.chain.tail := by
  unfold define at h
  -- what is defined already may not be for good
  split at h
  · cases h
  · rename_i hnot
    cases h
    refine ⟨fun b hb => ?_, chain_replaceCurrent ..⟩
    obtain ⟨isFinal, type, value⟩ := b
    cases isFinal with
    | true => exact absurd hb (hnot type value)
    | false => rfl

/-- What an assignment does, and when it is refused. -/
theorem assign_eq {env : Environment} {name : String} {b : Variable}
    (h : env.lookup name = some b) (hfinal : b.isFinal = false) (value : Value) :
    env.assign name value =
      if b.accepts value then .ok (env.overwrite name value)
      else .error (.typeMismatch (b.type.getD .number)) := by
  unfold assign Variable.accepts
  rw [h]
  cases htype : b.type with
  | none => simp [hfinal, htype]
  | some type => simp [hfinal, htype]

/-- An assignment that is not refused. -/
theorem of_assign {env env' : Environment} {name : String} {value : Value}
    (h : env.assign name value = .ok env') :
    ∃ b, env.lookup name = some b ∧ b.isFinal = false ∧ b.accepts value = true ∧
      env' = env.overwrite name value := by
  -- an assignment is accepted only for a variable that is there, may change and takes the value
  cases hb : env.lookup name with
  | none =>
    unfold assign at h
    rw [hb] at h
    cases h
  | some b =>
    cases hfinal : b.isFinal with
    | true =>
      unfold assign at h
      simp only [hb, hfinal, if_true] at h
      cases h
    | false =>
      rw [assign_eq hb hfinal] at h
      split at h
      · rename_i haccepts
        cases h
        exact ⟨b, rfl, hfinal, haccepts, rfl⟩
      · cases h

/-! ### What is kept of an environment -/

/-- What expressions and whole blocks may do to the scopes around them: no more than assign. -/
def Framed (before after : Environment) : Prop :=
  List.Forall₂ Scope.Evolves before.chain after.chain

/-- What statements may do: they declare variables in the innermost scope as well. -/
structure Extended (before after : Environment) : Prop where
  current : before.current.Grows after.current
  outer : List.Forall₂ Scope.Evolves before.chain.tail after.chain.tail

private theorem evolves_refl (scopes : List Scope) : List.Forall₂ Scope.Evolves scopes scopes :=
  List.forall₂_same.mpr fun scope _ => .refl scope

private theorem evolves_trans {as bs cs : List Scope} (h : List.Forall₂ Scope.Evolves as bs)
    (h' : List.Forall₂ Scope.Evolves bs cs) : List.Forall₂ Scope.Evolves as cs := by
  induction h generalizing cs with
  | nil => exact h'
  | cons hab _ ih =>
    cases h' with
    | cons hbc hrest => exact .cons (hab.trans hbc) (ih hrest)

protected theorem Framed.refl (env : Environment) : env.Framed env := evolves_refl _

protected theorem Framed.trans {a b c : Environment} (h : a.Framed b) (h' : b.Framed c) :
    a.Framed c :=
  evolves_trans h h'

protected theorem Extended.refl (env : Environment) : env.Extended env :=
  ⟨.refl _, evolves_refl _⟩

protected theorem Extended.trans {a b c : Environment} (h : a.Extended b) (h' : b.Extended c) :
    a.Extended c :=
  ⟨h.current.trans h'.current, evolves_trans h.outer h'.outer⟩

/-- Expressions do no more than statements. -/
theorem Framed.extended {a b : Environment} (h : a.Framed b) : a.Extended b := by
  unfold Framed at h
  rw [chain_eq a, chain_eq b] at h
  cases h with
  | cons hcurrent houter => exact ⟨hcurrent.grows, houter⟩

/-- Scopes are neither opened nor dropped. -/
theorem Extended.depth_eq {a b : Environment} (h : a.Extended b) : b.depth = a.depth := by
  have hlength := h.outer.length_eq
  simp only [List.length_tail, length_chain] at hlength
  omega

private theorem evolves_overwriteFirst {name : String} {value : Value} {b : Variable}
    (hfinal : b.isFinal = false) (haccepts : b.accepts value = true) {scopes scopes' : List Scope}
    (hlookup : scopes.findSome? (·.find? name) = some b)
    (hwrite : overwriteFirst name value scopes = some scopes') :
    List.Forall₂ Scope.Evolves scopes scopes' := by
  -- along the scopes up to the one that binds the name
  induction scopes generalizing scopes' with
  | nil => cases hwrite
  | cons scope outer ih =>
    simp only [overwriteFirst] at hwrite
    rw [List.findSome?_cons] at hlookup
    cases hfind : scope.find? name with
    | some b' =>
      simp only [hfind, Option.some.injEq] at hlookup
      subst hlookup
      -- this scope binds the name, so it is written and those further out are not
      simp only [Scope.binds, hfind, Option.isSome_some, if_true, Option.some.injEq] at hwrite
      subst hwrite
      exact .cons (Scope.evolves_overwrite hfind hfinal haccepts) (evolves_refl outer)
    | none =>
      simp only [hfind] at hlookup
      simp only [Scope.binds, hfind, Option.isSome_none, Bool.false_eq_true, if_false] at hwrite
      obtain ⟨outer', houter, rfl⟩ := Option.map_eq_some_iff.mp hwrite
      exact .cons (.refl scope) (ih hlookup houter)

/-- An assignment changes one value, to one that fits. -/
theorem Framed.of_assign {env env' : Environment} {name : String} {value : Value}
    (h : env.assign name value = .ok env') : env.Framed env' := by
  obtain ⟨b, hb, hfinal, haccepts, rfl⟩ := Environment.of_assign h
  have hlookup := hb
  rw [lookup_eq] at hlookup
  exact evolves_overwriteFirst hfinal haccepts hlookup (chain_overwrite hb value)

/-- A declaration leaves the scopes further out alone. -/
theorem Extended.of_define {env env' : Environment} {name : String} {binding : Variable}
    (h : env.define name binding = .ok env') : env.Extended env' := by
  obtain ⟨hfinal, hchain⟩ := chain_of_define h
  have hcurrent : env'.current = env.current.insert name binding := by
    rw [chain_eq env'] at hchain
    exact (List.cons.inj hchain).1
  refine ⟨?_, ?_⟩
  · rw [hcurrent]
    exact Scope.grows_insert hfinal binding
  · rw [hchain]
    exact evolves_refl _

/-- To the scopes around it, a block does only what assignments do. -/
theorem Framed.of_push {env env' : Environment} (h : env.push.Extended env') :
    env.Framed env'.pop := by
  -- the scopes around the block are those further out than its own, in which statements declare
  -- nothing
  have houter : List.Forall₂ Scope.Evolves env.chain env'.chain.tail := h.outer
  unfold Framed
  rw [chain_pop]
  · exact houter
  · intro hnil
    rw [hnil, chain_eq env] at houter
    cases houter

/-! ### Scopes by their numbers -/

/-- The scope with this number, counted from the root, which is number zero. -/
def scope? (env : Environment) (number : Nat) : Option Scope := env.chain.reverse[number]?

@[simp] theorem scope?_zero (env : Environment) : env.scope? 0 = some env.root := by
  simp [scope?, chain]

/-- There are as many scopes as the depth says, and the root. -/
theorem isSome_scope? (env : Environment) (number : Nat) :
    (env.scope? number).isSome = true ↔ number ≤ env.depth := by
  rw [scope?, Option.isSome_iff_ne_none, ne_eq, List.getElem?_eq_none_iff, List.length_reverse,
    length_chain]
  omega

private theorem rel_getElem? {R : Scope → Scope → Prop} {as bs : List Scope}
    (h : List.Forall₂ R as bs) (i : Nat) : Option.Rel R as[i]? bs[i]? := by
  induction h generalizing i with
  | nil => exact .none
  | cons hab _ ih =>
    cases i with
    | zero => exact .some hab
    | succ i => exact ih i

/-- Every scope keeps its number. -/
theorem Framed.scope? {a b : Environment} (h : a.Framed b) (number : Nat) :
    Option.Rel Scope.Evolves (a.scope? number) (b.scope? number) :=
  rel_getElem? (List.forall₂_reverse_iff.mpr h) number

/-- Every scope keeps its number, and its final variables. -/
theorem Extended.scope? {a b : Environment} (h : a.Extended b) (number : Nat) :
    Option.Rel Scope.Grows (a.scope? number) (b.scope? number) := by
  have hchain : List.Forall₂ Scope.Grows a.chain b.chain := by
    rw [chain_eq a, chain_eq b]
    exact .cons h.current (h.outer.imp fun _ _ hab => hab.grows)
  exact rel_getElem? (List.forall₂_reverse_iff.mpr hchain) number

/-- The number of the scope that a name belongs to. -/
theorem resolve_eq (env : Environment) (name : String) :
    env.resolve name = (env.chain.findIdx? (·.binds name)).map (env.depth - ·) := by
  unfold resolve chain
  rw [List.findIdx?_append]
  cases env.inner.findIdx? (·.binds name) with
  | some above => rfl
  | none => by_cases hroot : env.root.binds name <;> simp [hroot, depth]

/-- Assignments do not change which scope a name belongs to. -/
theorem Framed.resolve_eq {a b : Environment} (h : a.Framed b) (name : String) :
    b.resolve name = a.resolve name := by
  have hindex : b.chain.findIdx? (·.binds name) = a.chain.findIdx? (·.binds name) := by
    unfold Framed at h
    -- scope by scope the same names are bound, so the search stops at the same place
    generalize a.chain = as, b.chain = bs at h
    induction h with
    | nil => rfl
    | cons hab _ ih => simp only [List.findIdx?_cons, hab.binds_eq name, ih]
  rw [Environment.resolve_eq, Environment.resolve_eq, hindex, h.extended.depth_eq]

/-- What has become of the variable that a name stands for. -/
theorem Framed.lookup {a b : Environment} (h : a.Framed b) (name : String) :
    Option.Rel Variable.Evolves (a.lookup name) (b.lookup name) := by
  rw [lookup_eq, lookup_eq]
  unfold Framed at h
  generalize a.chain = as, b.chain = bs at h
  -- scope by scope; what is found in one is found in the other
  induction h with
  | nil => exact .none
  | cons hab _ ih =>
    rename_i scope scope' _ _ _
    have hname := hab name
    rw [List.findSome?_cons, List.findSome?_cons]
    generalize scope.find? name = x, scope'.find? name = y at hname
    cases hname with
    | none => exact ih
    | some hxy => exact .some hxy

private theorem length_overwriteFirst {name : String} {value : Value}
    {scopes scopes' : List Scope} (h : overwriteFirst name value scopes = some scopes') :
    scopes'.length = scopes.length := by
  induction scopes generalizing scopes' with
  | nil => cases h
  | cons scope outer ih =>
    simp only [overwriteFirst] at h
    split at h
    · cases h
      rfl
    · obtain ⟨outer', houter, rfl⟩ := Option.map_eq_some_iff.mp h
      simp [ih houter]

private theorem getElem?_overwriteFirst {name : String} {value : Value}
    {scopes scopes' : List Scope} (h : overwriteFirst name value scopes = some scopes') :
    ∃ i, scopes.findIdx? (·.binds name) = some i ∧
      ∀ j, scopes'[j]? = if j = i then scopes[i]?.map (·.overwrite name value) else scopes[j]? := by
  -- the number of the scope that is written, counted along
  induction scopes generalizing scopes' with
  | nil => cases h
  | cons scope outer ih =>
    simp only [overwriteFirst] at h
    rw [List.findIdx?_cons]
    split at h
    · rename_i hbinds
      cases h
      refine ⟨0, by simp [hbinds], fun j => ?_⟩
      cases j <;> simp
    · rename_i hbinds
      obtain ⟨outer', houter, rfl⟩ := Option.map_eq_some_iff.mp h
      -- among the scopes further out the numbers are less by one
      obtain ⟨i, hi, hwritten⟩ := ih houter
      refine ⟨i + 1, by simp [hbinds, hi], fun j => ?_⟩
      cases j with
      | zero => simp
      | succ j => simp [hwritten]

/-- The environments differ in the value of `name` in the scope with this number, and nowhere
else. -/
def Written (before after : Environment) (number : Nat) (name : String) (value : Value) : Prop :=
  ∀ n, after.scope? n =
    if n = number then (before.scope? n).map (·.overwrite name value) else before.scope? n

/-- A value is written into the scope that the name belongs to, and all others stay. -/
theorem written_overwrite {env : Environment} {name : String} {b : Variable}
    (h : env.lookup name = some b) (value : Value) :
    ∃ number, env.resolve name = some number ∧
      env.Written (env.overwrite name value) number name value := by
  -- the chain is written at the place that the search for the name finds
  obtain ⟨i, hi, hwritten⟩ := getElem?_overwriteFirst (chain_overwrite h value)
  have hlt : i < env.chain.length := (List.findIdx?_eq_some_iff_findIdx_eq.mp hi).1
  have hlength := length_overwriteFirst (chain_overwrite h value)
  refine ⟨env.depth - i, by rw [resolve_eq, hi, Option.map_some], fun n => ?_⟩
  simp only [length_chain] at hlt hlength
  unfold scope?
  by_cases hn : n ≤ env.depth
  · -- counted from the other end, scope `n` stands at place `depth - n` of the chain
    rw [List.getElem?_reverse (by simp; omega), List.getElem?_reverse (by simp; omega),
      length_chain, length_chain, hlength, hwritten]
    have hplace : env.depth + 1 - 1 - n = i ↔ n = env.depth - i := by omega
    simp only [hplace]
    split
    · rename_i hn
      rw [hplace.mpr hn]
    · rfl
  · have hne : n ≠ env.depth - i := by omega
    rw [if_neg hne, List.getElem?_eq_none (by simp; omega),
      List.getElem?_eq_none (by simp; omega)]

/-- The variable that a name stands for has the value that was written. -/
theorem lookup_overwrite {env : Environment} {name : String} {b : Variable}
    (h : env.lookup name = some b) (value : Value) :
    (env.overwrite name value).lookup name = some { b with value } := by
  have hwrite := chain_overwrite h value
  rw [lookup_eq] at h ⊢
  generalize env.chain = scopes, (env.overwrite name value).chain = scopes' at h hwrite
  -- the first scope that binds the name is the one that was written
  induction scopes generalizing scopes' with
  | nil => cases h
  | cons scope outer ih =>
    rw [List.findSome?_cons] at h
    simp only [overwriteFirst, Scope.binds] at hwrite
    cases hfind : scope.find? name with
    | some b' =>
      simp only [hfind, Option.some.injEq, Option.isSome_some, if_true] at h hwrite
      subst h hwrite
      simp [Scope.find?_overwrite, hfind]
    | none =>
      -- this scope stays as it is, so the search goes on behind it
      simp only [hfind, Option.isSome_none, Bool.false_eq_true, if_false] at h hwrite
      obtain ⟨outer', houter, rfl⟩ := Option.map_eq_some_iff.mp hwrite
      rw [List.findSome?_cons, hfind]
      exact ih _ h houter

end Environment

end Tern
