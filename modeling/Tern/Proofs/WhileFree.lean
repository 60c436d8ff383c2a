import Tern.Proofs.Preservation
import Tern.Proofs.Settling
import Tern.Proofs.Values

/-!
# Without `while`

A function may be made anywhere, passed around, and called later. Whether a program can come to a
`while` loop therefore depends on every function that it can reach: those in any scope, those that
evaluations give, those that the host hands out. This file says what it means that none of them has
a `while` in its body, and that single steps of an evaluation keep it so.

The tokens ahead of a cursor are counted along the way, as reading goes forward.

## Key results

- `Session.Tame.define`, `Session.Tame.assign`: scopes stay free of `while`
- `Session.Tame.enter`, `Session.Tame.leave`: a call uses up one of those that may be entered
- `Cursor.Clear.step`, `Cursor.Clear.of_block`: a step leaves fewer tokens ahead, and a block has
  fewer tokens than were ahead of its brace
-/

namespace Tern

/-! ### No `while` -/

/-- None of the tokens is `while`. -/
def Token.WhileFree (tokens : List Token) : Prop :=
  ∀ token ∈ tokens, token.kind ≠ .keyword .whileKw

instance (tokens : List Token) : Decidable (Token.WhileFree tokens) :=
  inferInstanceAs (Decidable (∀ token ∈ tokens, token.kind ≠ .keyword .whileKw))

/-- A body without `while`. -/
def Body.WhileFree : Body → Prop
  | .tokens block => Token.WhileFree block
  | .native .. => True

/-- A value that is no function with a `while` in its body. -/
def Value.WhileFree : Value → Prop
  | .function f => f.body.WhileFree
  | _ => True

/-- A routine that gives no function with a `while` in its body, unless it was given one. -/
def Routine.WhileFree (routine : Routine) : Prop :=
  ∀ arguments value, (∀ v ∈ arguments, v.WhileFree) → routine arguments = .ok value →
    value.WhileFree

/-- No variable in any scope holds a function with a `while` in its body. -/
def Environment.WhileFree (env : Environment) : Prop :=
  ∀ scope ∈ env.chain, ∀ name b, scope.find? name = some b → b.value.WhileFree

theorem Environment.WhileFree.all {env : Environment} (h : env.WhileFree) :
    env.All Value.WhileFree := h

theorem Environment.WhileFree.reset {env : Environment} (h : env.WhileFree) :
    env.reset.WhileFree := h.all.reset

/-- A value that an operator has given is no function. -/
theorem Value.whileFree_of_computed {r : Except Cause Value} {v : Value} (h : Computed r)
    (hv : r = .ok v) : v.WhileFree := by
  subst hv
  cases v with
  | function f => exact absurd rfl h
  | _ => trivial

/-- A session in which no function has a `while` in its body, and in which `calls` more calls may be
entered up to the limit. -/
structure Session.Tame (limit calls : Nat) (s : Session) : Prop where
  limit_eq : s.settings.maxCallDepth = limit
  calls_eq : s.callDepth + calls = limit
  env : s.env.WhileFree
  routines : ∀ routine ∈ s.routines, routine.WhileFree

/-- At most `n` tokens are ahead, and none of them is `while`. -/
structure Cursor.Clear (n : Nat) (c : Cursor) : Prop where
  length_le : c.rest.length ≤ n
  whileFree : Token.WhileFree c.rest

namespace Cursor.Clear

variable {n : Nat} {c c' : Cursor} (h : c.Clear n)

include h

theorem mono {m : Nat} (hle : n ≤ m) : c.Clear m := ⟨Nat.le_trans h.length_le hle, h.whileFree⟩

/-- Reading goes forward. -/
theorem of_reads {kinds : List Kind} (hreads : Reads c kinds c') : c'.Clear (n - kinds.length) := by
  -- comments in between are stepped over, so more tokens may be gone than were read
  obtain ⟨passed, hrest, -, -⟩ := hreads.split
  have hlength := hreads.length_rest
  have hle := h.length_le
  refine ⟨by omega, fun token htoken => h.whileFree token ?_⟩
  rw [hrest]
  exact List.mem_append_right _ htoken

/-- A step over one token. -/
theorem of_next? {token : Token} (hnext : c.next? = some (token, c')) :
    ∃ m, n = m + 1 ∧ c'.Clear m := by
  have hclear := h.of_reads (.one hnext)
  have hlt := length_rest_of_next? hnext
  have hle := h.length_le
  exact ⟨n - 1, by omega, hclear⟩

/-- A step over a token of one kind. -/
theorem step {kind : Kind} (hreads : Reads c [kind] c') : ∃ m, n = m + 1 ∧ c'.Clear m := by
  obtain ⟨token, c₁, hnext, -, hend⟩ := hreads.of_cons
  cases hend
  exact h.of_next? hnext

/-- Scans go forward. -/
theorem of_moves {x : Scan α} {a : α} (hx : Scan.Moves x) (hok : x c = .ok a c') : c'.Clear n := by
  obtain ⟨kinds, hreads⟩ := hx hok
  exact (h.of_reads hreads).mono (Nat.sub_le ..)

/-- No `while` is read. -/
theorem ahead_ne : c.ahead ≠ some (.keyword .whileKw) := by
  intro hahead
  -- comments may stand in front of it, but it is one of the tokens ahead
  obtain ⟨c', hreads⟩ := reads_of_ahead hahead
  obtain ⟨token, c₁, hnext, hkind, -⟩ := hreads.of_cons
  obtain ⟨-, skipped, hrest, -, -⟩ := next?_split hnext
  refine h.whileFree token ?_ hkind
  rw [hrest]
  exact List.mem_append_right _ List.mem_cons_self

/-- The tokens of a block. -/
theorem of_block {body : List Token} (hok : Scan.block c = .ok body c') :
    (Cursor.start body).Clear n ∧ c'.Clear n := by
  have hbody := Scan.infix_of_block hok
  exact ⟨⟨Nat.le_trans hbody.length_le h.length_le, fun token htoken =>
    h.whileFree token (hbody.subset htoken)⟩, h.of_moves .block hok⟩

/-- The tokens of a block behind its opening brace. -/
theorem braced {c₁ : Cursor} {body : List Token} (hreads : Reads c [.symbol .leftBrace] c₁)
    (hok : Scan.block c₁ = .ok body c') :
    ∃ m, n = m + 1 ∧ (Cursor.start body).Clear m ∧ c'.Clear m := by
  obtain ⟨m, rfl, hc₁⟩ := h.step hreads
  exact ⟨m, rfl, hc₁.of_block hok⟩

/-- A comment in front is stepped over. -/
theorem settle (hat : c.atComment = true) : ∃ m, n = m + 1 ∧ c.settle.Clear m := by
  have hsuffix := suffix_settle_of_atComment hat
  have hlength := hsuffix.length_le
  have hle := h.length_le
  have hpos : 0 < c.rest.length := by
    refine List.length_pos_of_ne_nil fun hnil => ?_
    simp [atComment, front, hnil] at hat
  rw [List.length_tail] at hlength
  refine ⟨n - 1, by omega, by omega, fun token htoken => h.whileFree token ?_⟩
  exact List.mem_of_mem_tail (hsuffix.subset htoken)

end Cursor.Clear

/-! ### Single steps -/

namespace Session.Tame

variable {limit calls fewer : Nat} {s : Session} (h : s.Tame limit calls)

include h

theorem push : { s with env := s.env.push }.Tame limit calls :=
  ⟨h.limit_eq, h.calls_eq, h.env.all.push, h.routines⟩

theorem pop : { s with env := s.env.pop }.Tame limit calls :=
  ⟨h.limit_eq, h.calls_eq, h.env.all.pop, h.routines⟩

/-- One call more is active, so one fewer may be entered. -/
theorem enter (hcalls : calls = fewer + 1) :
    { s with callDepth := s.callDepth + 1 }.Tame limit fewer := by
  refine ⟨h.limit_eq, ?_, h.env, h.routines⟩
  have := h.calls_eq
  show s.callDepth + 1 + fewer = limit
  omega

/-- The call is over. There is one, as some may be entered around it. -/
theorem leave (hlimit : calls < limit) :
    { s with callDepth := s.callDepth - 1 }.Tame limit (calls + 1) := by
  refine ⟨h.limit_eq, ?_, h.env, h.routines⟩
  have := h.calls_eq
  show s.callDepth - 1 + (calls + 1) = limit
  omega

theorem pace : s.pace.Tame limit calls := by
  unfold Session.pace
  split
  · split
    · exact ⟨h.limit_eq, h.calls_eq, h.env, h.routines⟩
    · exact h
  · exact h

theorem print (text : String) : (s.print text).Tame limit calls := by
  unfold Session.print
  split
  · exact h
  · exact ⟨h.limit_eq, h.calls_eq, h.env, h.routines⟩

private theorem updateEnv {name got : String} {x : Except Refusal Environment}
    (henv : ∀ env, x = .ok env → env.WhileFree) :
    Eval.Settles (fun _ => Eval.updateEnv name got x) s fun _ t => t.Tame limit calls := by
  cases x with
  | ok env => exact .modifying ⟨h.limit_eq, h.calls_eq, henv env rfl, h.routines⟩
  | error refusal => exact .raise

theorem define {name : String} {binding : Variable} (hvalue : binding.value.WhileFree) :
    Eval.Settles (fun _ => Eval.define name binding) s fun _ t => t.Tame limit calls :=
  .getting (h.updateEnv fun _ => h.env.all.of_define hvalue)

theorem assign {name : String} {value : Value} (hvalue : value.WhileFree) :
    Eval.Settles (fun _ => Eval.assign name value) s fun _ t => t.Tame limit calls :=
  .getting (h.updateEnv fun _ => h.env.all.of_assign hvalue)

theorem step {name : String} {binding : Variable} (hvalue : binding.value.WhileFree)
    (increment : Bool) :
    Eval.Settles (fun _ => Eval.step name binding increment) s
      fun v t => v.WhileFree ∧ t.Tame limit calls := by
  unfold Eval.step
  -- final variables, what is no number, and overflows end in a fault before anything is written
  split
  · exact .raise
  · split
    · exact .raise
    · split
      · exact .raise
      · exact .bind (h.assign trivial) fun _ _ ht => .pure ⟨hvalue, ht⟩

theorem declareFunction {name : String} {parameters : List Parameter} {returns : Option Ty}
    {body : List Token} (hbody : Token.WhileFree body) :
    Eval.Settles (fun _ => Eval.declareFunction name parameters returns body) s
      fun _ t => t.Tame limit calls := by
  refine .getting (.bind (P := fun _ t => t.Tame limit calls) (.modifying ?_) fun _ _ ht => ?_)
  · exact ⟨h.limit_eq, h.calls_eq, h.env, h.routines⟩
  · exact ht.define hbody

theorem bindParameters {parameters : List Parameter} {arguments : List Value}
    (harguments : ∀ v ∈ arguments, v.WhileFree) :
    Eval.Settles (fun _ => Eval.bindParameters parameters arguments) s
      fun _ t => t.Tame limit calls := by
  induction parameters generalizing arguments s with
  | nil => exact .pure h
  | cons parameter parameters ih =>
    cases arguments with
    | nil => exact .pure h
    | cons argument arguments =>
      obtain ⟨hargument, harguments⟩ := List.forall_mem_cons.mp harguments
      exact .bind (h.define hargument) fun _ _ ht => ih ht harguments

theorem native {routine : Native} {arguments : List Value}
    (harguments : ∀ v ∈ arguments, v.WhileFree) :
    Eval.Settles (fun _ => routine.run arguments) s
      fun v t => v.WhileFree ∧ t.Tame limit calls := by
  cases routine with
  -- natives of the language hand back nothing
  | print | println => exact .bind (.modifying (h.print _)) fun _ _ ht => .pure ⟨trivial, ht⟩
  | checkNotNull =>
    simp only [Native.run]
    split
    · exact .raise
    · exact .raise
    · exact .pure ⟨trivial, h⟩
  | checkArgument =>
    simp only [Native.run]
    split
    · exact .raise
    · exact .pure ⟨trivial, h⟩
    · exact .raise
    · exact .raise
  | host slot =>
    refine .getting ?_
    split
    · rename_i routine hroutine
      cases hresult : routine arguments with
      | ok value =>
        -- a routine may hand back a function that it was given, and those are free of `while`
        have hmem : routine ∈ s.routines := Array.mem_of_getElem? hroutine
        exact .pure ⟨h.routines routine hmem arguments value harguments hresult, h⟩
      | error fault => exact .const (.fault _ _)
    · exact .pure ⟨trivial, h⟩

end Session.Tame

end Tern
