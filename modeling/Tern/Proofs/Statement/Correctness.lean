import Tern.Proofs.Statement.Approximation
import Tern.Proofs.Statement.Refinement
import Tern.Proofs.Statement.Unambiguity

/-!
# Programs mean what their trees mean

There are no trees in the execution of a program, yet it behaves as if there were: a token sequence
that spells well-formed statements does what the execution of these statements does, whatever
comments stand among the tokens.

Each execution bounds its steps in a way of its own, so each of the two directions is about the one
that comes to an end. What calls do is compared by induction on how deeply they may be nested.

## Key results

- `Code.execution_of_tokens`: execution from tokens and execution of trees are the same
-/

namespace Tern

namespace Tolerance

variable {q r : Prop}

/-- Whether evaluations may run out of fuel does not matter for sessions. -/
theorem Sessions.of_bare {q' r' : Prop} {s t : Session} (h : (bare q r).Sessions s t) :
    (bare q' r').Sessions s t :=
  ⟨h.env, h.outside, h.callDepth, h.nextId, h.routines, fun routine hroutine =>
    (Routine.Unaware.of_respects (h.respected routine hroutine)).respects q' r'⟩

/-- The two sides of a comparison may be exchanged. -/
theorem Ends.symm_of_bare {R : α → β → Prop} {x : EStateM.Result Halt Session α}
    {y : EStateM.Result Halt Session β} (h : (bare q r).Ends R x y) :
    (bare r q).Ends (fun b a => R a b) y x := by
  have hT := unpaced_bare q r
  cases h with
  | ok hab hst => exact .ok hab (hst.symm hT).of_bare
  | fault hF hst =>
    exact .fault ⟨hF.cause.symm, hF.unwound.symm, False.elim⟩ (hst.symm hT).of_bare
  | first hT => exact .second hT
  | second hT => exact .first hT

end Tolerance

namespace Code

/-! ### Bodies of functions -/

section

variable {q r : Prop}

/-- The execution of tokens agrees with what is made of a body. -/
private def BodiesAlike (q r : Prop) (fuel : Nat)
    (execute : List Token → Eval (Option Value)) : Prop :=
  ∀ ⦃xs ys : List Token⦄, Token.bare xs = Token.bare ys →
    Eval.AgreeAt (.bare q r) false (Option.Rel (Tolerance.bare q r).Values)
      (Reading.onTokens xs (Phrase.run fuel (.statements true))) (execute ys)

/-- Calls agree if bodies do. -/
private theorem BodiesAlike.calls {fuel : Nat} {execute : List Token → Eval (Option Value)}
    (h : BodiesAlike q r fuel execute) :
    CallsAlike (.bare q r) (Phrase.run fuel) (Eval.callWith execute) := by
  intro f g vs ws hfg hargs
  rw [Eval.call_eq]
  exact (Alignment.bareWith q r).callWith (fun hview => h hview) hfg hargs

/-- The tokens of a body agree with what they spell, or with themselves. -/
private theorem bodiesAlike_of_provided {call : Callable → List Value → Eval Value}
    {rounds fuel : Nat} {xs ys : List Token} (hbare : Token.bare xs = Token.bare ys)
    (hp : Provided (.bare q r) call rounds fuel (2 * (Token.bare ys).length + 1))
    (hself : Eval.Agree (.bare q r) (Option.Rel (Tolerance.bare q r).Values)
      (Reading.onTokens xs (Phrase.run (fuel + 1) (.statements true)))
      (Reading.onTokens ys (Phrase.run (2 * (rounds + 1)) (.statements true)))) :
    Eval.AgreeAt (.bare q r) false (Option.Rel (Tolerance.bare q r).Values)
      (Reading.onTokens xs (Phrase.run (fuel + 1) (.statements true)))
      (execTokens call rounds ys) := by
  by_cases hspelled : ∃ code, Spells ys code
  · obtain ⟨code, hspells⟩ := hspelled
    obtain ⟨hwell, hkinds⟩ := hspells
    rw [hkinds, List.length_map] at hp
    rw [execTokens_of_spells ⟨hwell, hkinds⟩]
    exact .onTokens (refines (Tolerance.bare_lenient q r) hwell true false (hbare.trans hkinds) hp)
  · unfold execTokens
    rw [dif_neg hspelled]
    exact fun s t hst _ => hself s t hst

end

/-- With no more fuel than calls may be nested, bodies do the same or run out of it. -/
private theorem bodiesAlike_of_le {fuel n : Nat} (hle : fuel ≤ n) :
    BodiesAlike True False fuel (execBody n) := by
  -- on the calls that are left to the trees
  induction n generalizing fuel with
  | zero =>
    obtain rfl : fuel = 0 := Nat.le_zero.mp hle
    exact fun _ _ _ _ _ _ _ => .first trivial
  | succ n ih =>
    intro xs ys hbare
    cases fuel with
    | zero => exact fun s t _ _ => .first trivial
    | succ fuel =>
      have hle := Nat.le_of_succ_le_succ hle
      -- at the call both sides look at tokens, and the calls further in are by induction
      refine bodiesAlike_of_provided hbare ?_ ?_
      · exact {
          enough := .inl trivial
          calls := fun k hk _ => (ih (Nat.le_trans hk hle)).calls
          rounds := fun k hk _ => .inl ⟨trivial, Nat.le_trans hk hle⟩ }
      · exact ((Phrase.alike_of_bare (by omega)).agree (.statements true)
          (Alignment.bare.start hbare)).onTokens

/-- With enough fuel, bodies of bounded length do the same, unless their calls are nested too
deeply. -/
private theorem bodiesAlike_of_ge (bound n : Nat) :
    ∃ enough, ∀ fuel, enough ≤ fuel → BodiesAlike False True fuel (execWithin bound n) := by
  -- on the calls that are left to the bounded side
  induction n with
  | zero => exact ⟨0, fun _ _ _ _ _ s t _ _ => .second trivial⟩
  | succ n ih =>
    obtain ⟨enough, henough⟩ := ih
    -- fuel that is enough for the calls further in, for the tokens and for their rounds
    refine ⟨enough + 5 * n + 2 * bound + 5, fun fuel hfuel xs ys hbare => ?_⟩
    obtain ⟨fuel, rfl⟩ : ∃ k, fuel = k + 1 := ⟨fuel - 1, by omega⟩
    rw [execWithin]
    split
    · exact fun s t _ _ => .second trivial
    · refine bodiesAlike_of_provided hbare ?_ ?_
      · exact {
          enough := .inr (by omega)
          calls := fun k _ hk => (henough k (by omega)).calls
          rounds := fun k _ hk => .inr ⟨trivial, by omega⟩ }
      · -- the tokens on both sides are executed from tokens, the second with less fuel
        intro s t hst
        have hagree := ((Phrase.alike_of_bare (n := 2 * (n + 1)) (m := fuel + 1) (by omega)).agree
          (.statements true) (Alignment.bare.start hbare.symm)).onTokens
        have hends := (hagree t s (hst.symm (Tolerance.unpaced_bare _ _)).of_bare).symm_of_bare
        -- the values are the same in either order
        refine hends.mono fun a b hab => ?_
        cases hab with
        | some hvw => exact .some hvw.symm
        | none => exact .none

/-! ### Programs -/

section

variable {tokens : List Token} {code : Code .block} (hspells : Spells tokens code) {s : Session}
  (hs : ∀ routine ∈ s.routines, routine.Unaware)

include hspells hs

/-- The outermost statements, where calls agree. -/
private theorem outermost_ends {q r : Prop} {call : Callable → List Value → Eval Value}
    {rounds fuel : Nat}
    (hp : Provided (.bare q r) call rounds fuel (2 * code.kinds.length + 1)) :
    (Tolerance.bare q r).Ends (Option.Rel (Tolerance.bare q r).Values)
      (Reading.onTokens tokens (Phrase.run (fuel + 1) (.statements false))
        { s with env := s.env.reset, callDepth := 0 })
      (code.exec call rounds true { s with env := s.env.reset, callDepth := 0 }) := by
  have hstatements := refines (Tolerance.bare_lenient q r) hspells.1 false true
    (c := Cursor.start tokens) hspells.2 hp
  exact (Eval.AgreeAt.onTokens hstatements) _ _ (.refl_of_unaware hs) rfl

/-- What comes to an end from tokens does so from the tree. -/
private theorem run_of_tokens {fuel : Nat} (h : Finished (s.runTokens fuel tokens)) :
    SameResult (s.runTokens fuel tokens) (code.run fuel s) := by
  cases fuel with
  | zero => exact absurd rfl h
  | succ fuel =>
    have hp : Provided (.bare True False) (Eval.callWith (execBody (fuel + 1))) (fuel + 1) fuel
        (2 * code.kinds.length + 1) := {
      enough := .inl trivial
      calls := fun k hk _ => (bodiesAlike_of_le (Nat.le_succ_of_le hk)).calls
      rounds := fun k hk _ => .inl ⟨trivial, Nat.le_succ_of_le hk⟩ }
    exact .of_ends (outermost_ends hspells hs hp).getD (fun _ => h) False.elim

/-- What comes to an end from the tree does so from tokens. -/
private theorem tokens_of_run {n : Nat} (h : Finished (code.run n s)) :
    ∃ fuel, SameResult (s.runTokens fuel tokens) (code.run n s) := by
  have hends : ∀ s', code.exec (Eval.callWith (execBody n)) n true
      { s with env := s.env.reset, callDepth := 0 } ≠ .error .outOfFuel s' := by
    intro s' hstarved
    refine h ?_
    unfold run Session.evaluate
    simp only [Bind.bind, EStateM.bind, hstarved]
  -- only so many bodies are called, so a bound on their length makes no difference,
  -- and below it one amount of fuel is enough for all of them
  obtain ⟨bound, hbound⟩ :=
    code.approaches (Eval.callWith_approaches (execWithin_approaches n)) n true _ hends
  obtain ⟨enough, henough⟩ := bodiesAlike_of_ge bound n
  have hp : Provided (.bare False True) (Eval.callWith (execWithin bound n)) n
      (enough + n + 2 * code.kinds.length + 1) (2 * code.kinds.length + 1) := {
    enough := .inr (by omega)
    calls := fun k _ hk => (henough k (by omega)).calls
    rounds := fun k _ hk => .inr ⟨trivial, by omega⟩ }
  have hstatements := outermost_ends hspells hs hp
  have hsame : code.exec (Eval.callWith (execWithin bound n)) n true _ = _ :=
    hbound bound (Nat.le_refl bound)
  rw [hsame] at hstatements
  exact ⟨_, .of_ends hstatements.getD False.elim fun _ => h⟩

end

/-- Execution from tokens is execution of trees.

Take a token sequence that spells well-formed statements, comments and places aside. The program
made of these tokens comes to an end if and only if the execution of the statements does. They then
print the same, give the same value or fail for the same cause with the same backtrace, and leave
the same variables. -/
theorem execution_of_tokens (code : Code .block) (tokens : List Token)
    (hspells : Spells tokens code) (s : Session)
    (hs : ∀ routine ∈ s.routines, routine.Unaware) :
    ((∃ n, Finished (s.runTokens n tokens)) ↔ ∃ n, Finished (code.run n s)) ∧
      ∀ n m, Finished (s.runTokens n tokens) → Finished (code.run m s) →
        SameResult (s.runTokens n tokens) (code.run m s) := by
  refine ⟨⟨?_, ?_⟩, ?_⟩
  · rintro ⟨n, hn⟩
    exact ⟨n, (run_of_tokens hspells hs hn).finished.2⟩
  · rintro ⟨m, hm⟩
    obtain ⟨n, hsame⟩ := tokens_of_run hspells hs hm
    exact ⟨n, hsame.finished.1⟩
  · intro n m hn hm
    obtain ⟨k, hsame⟩ := tokens_of_run hspells hs hm
    rwa [Session.runTokens_unique hsame.finished.1 hn] at hsame

/-- A function that returns out of a loop, a comment in its body, and a routine of the host. -/
theorem execution_of_search :
    let count : Routine := fun arguments => .ok (.number (Int64.ofNat arguments.length))
    let s := ({} : Session).addRoutine "count" none count
    let exceeds : Tree .expression :=
      .binary .gt (.binary .mul (.read "i") (.read "i")) (.read "n")
    let search : Code .block :=
      next (range (.number 0) (.read "n") (some "i")
        (next (conditional (lone exceeds (next (returning (some (.read "i"))) done))) done)) done
    let code : Code .block :=
      next (definition "first" [("n", .only .number)] .absent search)
        (next (assertion (.binary .eq (.call "first" (.last (.number 3)))
          (.call "count" (.more (.number 7) (.last (.text "x")))))) done)
    let tokens := (code.kinds.take 9 ++ .lineComment " the square" :: code.kinds.drop 9).map Kind.bare
    Spells tokens code ∧ (∀ routine ∈ s.routines, routine.Unaware) ∧
      Finished (s.runTokens 24 tokens) ∧
      ∃ m, Finished (code.run m s) ∧ SameResult (s.runTokens 24 tokens) (code.run m s) := by
  -- five lines of source; the search stops before the square is reached
  intro count s exceeds search code tokens
  obtain ⟨hspells, hfinished⟩ : Spells tokens code ∧ Finished (s.runTokens 24 tokens) := by
    decide +kernel
  have hcount : count.Unaware := .of_length fun n => .ok (.number (Int64.ofNat n))
  have hs : ∀ routine ∈ s.routines, routine.Unaware := by simpa [s] using hcount
  have h := execution_of_tokens code tokens hspells s hs
  obtain ⟨m, hm⟩ := h.1.mp ⟨24, hfinished⟩
  exact ⟨hspells, hs, hfinished, m, hm, h.2 24 m hfinished hm⟩

end Code

end Tern
