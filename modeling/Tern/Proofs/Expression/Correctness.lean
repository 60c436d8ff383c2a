import Tern.Proofs.Expression.Refinement

/-!
# Expressions mean what their trees mean

The evaluator for expressions has no trees, yet it behaves as if there were: it accepts the token
sequences of the grammar, each of which has one tree, and does what the evaluation of that tree
does.

## Key results

- `Tree.evaluation_of_tokens`: evaluation from tokens and evaluation of trees are the same
-/

namespace Tern

open Cursor (Reads)

namespace Tree

/-- The tree as it is evaluated when calls may use so much fuel. -/
abbrev evaluate (t : Tree form) (fuel : Nat) : Eval form.Result :=
  t.eval (Eval.call (Phrase.run fuel))

/-- Calls with less fuel do the same or run out of it. -/
private theorem calls_of_le {p : Prop} {k fuel : Nat} (hle : k ≤ fuel) :
    CallsAlike (.exact p True False) (Phrase.run k) (Eval.call (Phrase.run fuel)) := by
  intro f g vs ws hfg hargs s t hst
  have hst := Tolerance.exact_sessions.mp hst
  have hsame := (Phrase.alike_of_le hle).call hfg hargs s t (Tolerance.exact_sessions.mpr hst)
  exact hsame.weaken (fun _ => trivial) id id

/-- Calls with more fuel do the same, unless the others run out of it. -/
private theorem calls_of_ge {p : Prop} {k fuel : Nat} (hle : fuel ≤ k) :
    CallsAlike (.exact p False True) (Phrase.run k) (Eval.call (Phrase.run fuel)) := by
  intro f g vs ws hfg hargs s t hst
  have hst := Tolerance.exact_sessions.mp hst
  have hsame := (Phrase.alike_of_le hle).call hfg.symm hargs.symm t s
    (Tolerance.exact_sessions.mpr hst.symm)
  exact Tolerance.Ends.symm (hsame.weaken (fun _ => trivial) id id) |>.mono fun _ _ h => h.symm

section

variable {c c' : Cursor} {t : Tree .expression} (h : Parses .whole c t c') (s : Session)

include h

/-- What is evaluated from tokens is evaluated from the tree. -/
private theorem tokens_le_tree (fuel : Nat) :
    (Tolerance.exact False True False).Ends (fun p v => p = (v, c'))
      (Phrase.run (fuel + 1) .expression c s) (t.evaluate fuel s) := by
  have hagree := h.agree (T := .exact False True False) id fuel
    ⟨.inl trivial, fun k hk _ => calls_of_le hk⟩ s s (Tolerance.exact_sessions.mpr rfl)
  exact hagree.mono fun p v hpv => Prod.ext (Tolerance.exact_values.mp hpv.1) hpv.2

/-- What is evaluated from the tree is evaluated from tokens. -/
private theorem tree_le_tokens (fuel : Nat) :
    (Tolerance.exact False False True).Ends (fun p v => p = (v, c'))
      (Phrase.run (fuel + t.size + 1) .expression c s) (t.evaluate fuel s) := by
  have hagree := h.agree (T := .exact False False True) id (fuel + t.size)
    ⟨.inr (Nat.le_add_left ..), fun k _ hle => calls_of_ge (Nat.le_of_add_le_add_right hle)⟩
    s s (Tolerance.exact_sessions.mpr rfl)
  exact hagree.mono fun p v hpv => Prod.ext (Tolerance.exact_values.mp hpv.1) hpv.2

end

/-- The tokens that are read for a tree are the tree's, comments aside. -/
private theorem kinds_eq {c c' : Cursor} {t : Tree .expression} (h : Parses .whole c t c') :
    t.kinds = (Token.kept (c'.passedSince c.position)).map (·.kind) := by
  have hreads := h.reads
  rw [closing, List.append_nil] at hreads
  exact kinds_of_reads hreads

/-- An evaluation that ends had some fuel. -/
private theorem fuel_pos {c : Cursor} {s : Session} {fuel : Nat}
    {r : EStateM.Result Halt Session (Value × Cursor)}
    (h : Phrase.run fuel .expression c s = r) (hr : ∀ s', r ≠ .error .outOfFuel s') :
    ∃ k, fuel = k + 1 := by
  cases fuel with
  | zero => exact absurd h.symm (hr s)
  | succ k => exact ⟨k, rfl⟩

section

variable {c c' : Cursor} {t : Tree .expression} (h : Parses .whole c t c') {s s' : Session}

include h

/-- The values of the tokens at a cursor are those of the tree that stands there. -/
private theorem value_iff (v : Value) (c'' : Cursor) :
    (∃ fuel, Phrase.run fuel .expression c s = .ok (v, c'') s') ↔
      c'' = c' ∧ ∃ n, t.evaluate n s = .ok v s' := by
  constructor
  · rintro ⟨fuel, hrun⟩
    obtain ⟨k, rfl⟩ := fuel_pos hrun (by simp)
    have hends := tokens_le_tree h s k
    rw [hrun] at hends
    -- the fuel of the tokens is enough for the tree
    generalize hy : t.evaluate k s = y at hends
    cases hends with
    | ok hp hst =>
      cases hp
      exact ⟨rfl, k, Tolerance.exact_sessions.mp hst ▸ hy⟩
    | second hF => exact hF.elim
  · rintro ⟨rfl, n, htree⟩
    -- tokens need a step for each node of the tree beyond what calls need
    have hends := tree_le_tokens h s n
    rw [htree] at hends
    generalize hx : Phrase.run (n + t.size + 1) .expression c s = x at hends
    cases hends with
    | ok hp hst =>
      cases hp
      exact ⟨_, Tolerance.exact_sessions.mp hst ▸ hx⟩
    | first hF => exact hF.elim

/-- The tokens at a cursor fail as the tree that stands there. -/
private theorem fault_iff (cause : Cause) (unwound : List String) :
    (∃ fuel span,
      Phrase.run fuel .expression c s = .error (.fault { cause, span, unwound }) s') ↔
    ∃ n span, t.evaluate n s = .error (.fault { cause, span, unwound }) s' := by
  constructor
  · rintro ⟨fuel, span, hrun⟩
    obtain ⟨k, rfl⟩ := fuel_pos hrun (by simp)
    have hends := tokens_le_tree h s k
    -- tokens give places to faults, which a tree has no notion of
    rw [hrun] at hends
    generalize hy : t.evaluate k s = y at hends
    cases hends with
    | @fault _ g _ _ hF hst =>
      obtain ⟨rfl, rfl, -⟩ := hF
      exact ⟨k, g.span, Tolerance.exact_sessions.mp hst ▸ hy⟩
    | second hF => exact hF.elim
  · rintro ⟨n, span, htree⟩
    -- and the other way around with a step more for each node
    have hends := tree_le_tokens h s n
    rw [htree] at hends
    generalize hx : Phrase.run (n + t.size + 1) .expression c s = x at hends
    cases hends with
    | @fault f _ _ _ hF hst =>
      obtain ⟨hcause, hunwound, -⟩ := hF
      obtain ⟨cause', span', unwound'⟩ := f
      cases hcause
      cases hunwound
      exact ⟨_, span', Tolerance.exact_sessions.mp hst ▸ hx⟩
    | first hF => exact hF.elim

end

/-- Evaluation from tokens is evaluation of trees.

Whenever the evaluation of an expression succeeds, the tokens that it has read, comments aside, are
those of exactly one admitted tree, and the evaluation of that tree gives the same value and the
same session. And wherever the tokens of an admitted tree stand in front of one that does not carry
them on, both evaluations succeed with the same results, and both fail for the same causes in the
same sessions. -/
theorem evaluation_of_tokens (c : Cursor) (s : Session) :
    (∀ fuel v c' s', Phrase.run fuel .expression c s = .ok (v, c') s' →
      ∃ t : Tree .expression, t.Admitted ∧
        t.kinds = (Token.kept (c'.passedSince c.position)).map (·.kind) ∧
        (∃ n, t.evaluate n s = .ok v s') ∧
        ∀ u : Tree .expression, u.Admitted →
          u.kinds = (Token.kept (c'.passedSince c.position)).map (·.kind) → u = t) ∧
    (∀ (t : Tree .expression) c', t.Admitted → Reads c t.kinds c' → t.EndsBefore c'.ahead →
      (∀ v c'' s', (∃ fuel, Phrase.run fuel .expression c s = .ok (v, c'') s') ↔
        c'' = c' ∧ ∃ n, t.evaluate n s = .ok v s') ∧
      (∀ cause unwound s',
        (∃ fuel span,
          Phrase.run fuel .expression c s = .error (.fault { cause, span, unwound }) s') ↔
        ∃ n span, t.evaluate n s = .error (.fault { cause, span, unwound }) s')) := by
  constructor
  -- what was read is a tree, and its value is that of the tokens
  · intro fuel v c' s' hrun
    obtain ⟨t, ht⟩ := (Phrase.sound fuel).expression c s v c' s' hrun
    obtain ⟨-, hvalue⟩ := (value_iff ht v c').mp ⟨fuel, hrun⟩
    refine ⟨t, ht.admitted.1, kinds_eq ht, hvalue, fun u hu hkinds => ?_⟩
    exact kinds_injective hu ht.admitted.1 (hkinds.trans (kinds_eq ht).symm)
  -- a tree whose tokens are ahead is read from them, if nothing carries it on
  · intro t c' hadmitted hreads hends
    have ht : Parses .whole c t c' := by
      refine .of_reads hadmitted t.level_le ?_ (stops_whole_iff.mpr hends)
      rwa [closing, List.append_nil]
    exact ⟨fun v c'' s' => value_iff ht v c'', fun cause unwound s' => fault_iff ht cause unwound⟩

/-- The tokens of `10 - 3 - 2` with a comment among them are those of `10 - (3 - 2)`, and evaluate
as that tree does. -/
theorem evaluation_of_difference :
    let tokens := [Kind.number 10, .symbol .minus, .lineComment " less", .number 3,
      .symbol .minus, .number 2].map Kind.bare
    let c := Cursor.start tokens
    let c' : Cursor := ⟨tokens.reverse, []⟩
    let t : Tree .expression := binary .sub (number 10) (binary .sub (number 3) (number 2))
    Phrase.run 3 .expression c {} = .ok (.number 9, c') {} ∧
      (∃ t : Tree .expression, t.Admitted ∧
        t.kinds = (Token.kept (c'.passedSince c.position)).map (·.kind) ∧
        (∃ n, t.evaluate n {} = .ok (.number 9) {}) ∧
        ∀ u : Tree .expression, u.Admitted →
          u.kinds = (Token.kept (c'.passedSince c.position)).map (·.kind) → u = t) ∧
      t.Admitted ∧ Reads c t.kinds c' ∧ t.EndsBefore c'.ahead ∧
      ((∃ fuel, Phrase.run fuel .expression c {} = .ok (.number 9, c') {}) ↔
        c' = c' ∧ ∃ n, t.evaluate n {} = .ok (.number 9) {}) := by
  intro tokens c c' t
  have hrun : Phrase.run 3 .expression c {} = .ok (.number 9, c') {} := by rfl
  have hreads : Reads c [(Kind.number 10).bare.kind, (Kind.symbol .minus).bare.kind,
      (Kind.number 3).bare.kind, (Kind.symbol .minus).bare.kind, (Kind.number 2).bare.kind] c' :=
    .cons rfl (.cons rfl (.cons rfl (.cons rfl (.cons rfl (.nil _)))))
  have hends : t.EndsBefore c'.ahead := ⟨fun tier => by cases tier <;> rfl, fun _ => rfl⟩
  have hadmitted : t.Admitted := by decide
  exact ⟨hrun, (evaluation_of_tokens c {}).1 3 _ _ _ hrun, hadmitted, hreads, hends,
    ((evaluation_of_tokens c {}).2 t c' hadmitted hreads hends).1 _ _ _⟩

end Tree

end Tern
