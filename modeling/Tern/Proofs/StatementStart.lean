import Tern.Proofs.Continuation
import Tern.Proofs.Locatable

/-!
# Faults and the statement that failed

The statements of a program are executed one after the other, and a fault ends the last one that was
begun. If the fault was not raised in a function, its place is not in front of that statement: the
statement is evaluated under the contract for the tokens from its first one on, whatever stood in
front of it, and those tokens are in the order of the text.

The exception is the condition of a `while` that has no tokens. The tokens of the condition are read
by themselves, so there is nothing that could tell where they would have stood, and the fault is put
at the front of the text.

## Key results

- `Phrase.lastBegun`: the token at which the last statement begins that is begun
- `Phrase.given_of_fault`: faults of statements are found among the tokens from there on
- `Session.faults_behind_statement`: faults of runs are not found in front of it
-/

namespace Tern

/-! ### The last statement -/

/-- The token at which the last of the statements begins that are begun, if there is one: a brace
that closes nothing, a `return`, or a statement that is offered to the constructs. -/
def Phrase.lastBegun : (fuel : Nat) → (paced : Bool) → Cursor → Session → Option Token
  | 0, _, _, _ => none
  | fuel + 1, paced, c, s =>
    match c.front with
    | none => none
    | some token =>
      match token.kind with
      -- these are statements of their own kind, which no handler is offered
      | .symbol .rightBrace | .keyword .returnKw => some token
      | _ =>
        -- a statement that is done was the last one only if none begins behind it
        match Reading.firstOf (run fuel) fuel Construct.chain c (Reading.paused paced s) with
        | .ok (.done, c') s' => (lastBegun fuel true c' s').or (some token)
        | _ => some token

namespace Phrase

variable {fuel : Nat} {paced : Bool} {c : Cursor} {s : Session}

/-- The statement in front is the last one, or it is done and others may follow. -/
private theorem lastBegun_cases {token : Token} (hfront : c.front = some token) (fuel : Nat)
    (paced : Bool) (s : Session) :
    lastBegun (fuel + 1) paced c s = some token ∨
      ∃ c' s', token.kind ≠ .symbol .rightBrace ∧ token.kind ≠ .keyword .returnKw ∧
        Reading.firstOf (run fuel) fuel Construct.chain c (Reading.paused paced s) =
          .ok (.done, c') s' ∧
        lastBegun (fuel + 1) paced c s = (lastBegun fuel true c' s').or (some token) := by
  rw [lastBegun, hfront]
  simp only
  -- only for what is offered to the handlers it matters how it ends
  split
  · exact .inl rfl
  · exact .inl rfl
  · rename_i hbrace hreturn
    split
    · rename_i c' s' hdone
      exact .inr ⟨c', s', hbrace, hreturn, hdone, rfl⟩
    · exact .inl rfl

/-! ### Where it fails -/

section

variable {Known : Token → Prop} (hknown : ∀ token, Known token)

/-- The contract for the tokens ahead of a cursor, if all tokens are known. -/
abbrev locatingAhead (c : Cursor) : Contract :=
  .locating fun token (_ : token ∈ c.rest) => hknown token

/-- What holds of a session does not depend on the tokens ahead. -/
private theorem holds_locatingAhead {c : Cursor} (h : (locatingAhead hknown c).Holds s) (c' : Cursor) :
    (locatingAhead hknown c').Holds s :=
  ⟨h.env, h.routines, trivial⟩

private theorem among_rest {token : Token} (hfront : c.front = some token) :
    Cursor.Among c.rest 0 c := by
  refine ⟨List.infix_refl _, fun hempty => ?_, nofun⟩
  rw [Cursor.front, hempty] at hfront
  cases hfront

/-- Behind a statement that is done, tokens of the same text are ahead. -/
private theorem behind_done {token : Token} {c' : Cursor} {s' : Session}
    (hs : (locatingAhead hknown c).Holds s) (hfront : c.front = some token)
    (hdone : Reading.firstOf (run fuel) fuel Construct.chain c (Reading.paused paced s) =
      .ok (.done, c') s') :
    c'.rest <:+: c.rest ∧ (locatingAhead hknown c).Holds s' := by
  have hpaused : (locatingAhead hknown c).Holds (Reading.paused paced s) := by
    cases paced with
    | true => exact hs.pace
    | false => exact hs
  have hends := (located_compliant fuel fun token (_ : token ∈ c.rest) => hknown token).firstOf fuel
    Construct.chain (among_rest hfront) _ hpaused
  rw [hdone] at hends
  cases hends with
  | ok hbehind hs' => exact ⟨hbehind.2.rest, hs'⟩

/-- A fault of statements that has left no function is found among the tokens from the last statement
on. -/
theorem given_of_fault {f : Fault} {t : Session} (hs : (locatingAhead hknown c).Holds s)
    (hfault : run fuel (.statements paced) c s = .error (.fault f) t) (hroot : f.unwound = []) :
    ∃ token others, lastBegun fuel paced c s = some token ∧ token :: others <:+: c.rest ∧
      ∀ span ∈ f.span, span.Given (token :: others) := by
  induction fuel generalizing paced c s with
  | zero => cases hfault
  | succ fuel ih =>
    cases hfront : c.front with
    | none =>
      rw [run_succ, rule, Reading.statements_of_none hfront] at hfault
      cases hfault
    | some token =>
      obtain ⟨others, hrest⟩ := List.head?_eq_some_iff.mp hfront
      rcases lastBegun_cases hfront fuel paced s with
        hlast | ⟨c', s', hbrace, hreturn, hdone, hlast⟩
      · -- it fails in this statement, so the contract for the tokens from here on says where
        refine ⟨token, others, hlast, hrest ▸ List.infix_refl _, fun span hspan => ?_⟩
        have hends := located_complies (fuel + 1) (fun token (_ : token ∈ c.rest) => hknown token)
          (.statements paced) (.inr (among_rest hfront)) s hs
        rw [hfault] at hends
        cases hends with
        | fault hlocated => exact hrest ▸ (hlocated span hspan).2 hroot
      · -- it fails in one of the statements behind
        obtain ⟨hpart, hs'⟩ := behind_done hknown hs hfront hdone
        rw [run_succ, rule, Reading.statements_of_done hfront hbrace hreturn hdone] at hfault
        obtain ⟨last, behind, hbegun, hmore, hgiven⟩ := ih (holds_locatingAhead hknown hs' c') hfault
        exact ⟨last, behind, by rw [hlast, hbegun, Option.some_or], hmore.trans hpart, hgiven⟩

end

end Phrase

/-! ### Runs -/

/-- Places among the tokens of a text from one on are not in front of that token. -/
theorem Span.Given.start_le {source : String} {token : Token} {others : List Token} {span : Span}
    (h : span.Given (token :: others)) (hpart : token :: others <:+: tokenize source) :
    token.span.start ≤ span.start ∨ Token.BareWhile (token :: others) ∧ span = .point 0 := by
  -- tokens lie one behind the other in their text
  have hapart := (Munched.scan source.toList 0).apart.2.sublist hpart.sublist
  have hstop : ∀ other ∈ token :: others, other.span.start ≤ other.span.stop := fun other hmem =>
    (Token.within_of_mem (hpart.subset hmem)).start_le_stop
  have hbehind : ∀ other ∈ token :: others, token.span.start ≤ other.span.start := by
    refine List.forall_mem_cons.mpr ⟨Nat.le_refl _, fun other hmem => ?_⟩
    exact Nat.le_trans (hstop token List.mem_cons_self)
      ((List.pairwise_cons.mp hapart).1 other hmem)
  -- the place is that of a token, or right behind one
  refine h.imp_left ?_
  rintro ⟨other, hmem, rfl | rfl⟩
  · exact hbehind other hmem
  · exact Nat.le_trans (hbehind other hmem) (hstop other hmem)

namespace Session

/-- Faults are not found in front of the statement that failed. If the routines of the host give no
places to faults, then a fault that ends a run and has left no function has a place. It does not
begin before the token at which the last statement was begun; or it is the front of the text, and
from that token on a `while` is followed at once by its opening brace. -/
theorem faults_behind_statement (s : Session)
    (hs : ∀ routine ∈ s.routines, ∀ arguments fault,
      routine arguments = .error fault → fault.span = none)
    {fuel : Nat} {source : String} {f : Fault}
    (hfault : (s.run fuel source).1 = .error (.fault f)) (hroot : f.backtrace = []) :
    ∃ token others span,
      Phrase.lastBegun fuel false (.start (tokenize source)) s.fresh = some token ∧
      token :: others <:+: tokenize source ∧ f.span = some span ∧
      (token.span.start ≤ span.start ∨
        Token.BareWhile (token :: others) ∧ span = .point 0) := by
  obtain ⟨t, hstatements⟩ := eq_fault_of_run hfault
  obtain ⟨span, hspan⟩ := Phrase.statements_placed fuel false _ _ f t hstatements
  have hknown : ∀ token : Token, (fun _ => True) token := fun _ => trivial
  -- a fault that has left no function was raised outside of bodies, so any token may be in them
  have hanything : ∀ v : Value, v.Has fun body => ∀ token ∈ body, (fun _ => True) token :=
    Value.has_of_forall fun _ _ _ => trivial
  have hfresh : (Phrase.locatingAhead hknown (.start (tokenize source))).Holds s.fresh := by
    refine ⟨fun _ _ _ b _ => hanything b.value, fun routine hroutine => ?_, trivial⟩
    exact ⟨hs routine hroutine, fun _ value _ _ => hanything value⟩
  have hunwound : f.unwound = [] := List.reverse_eq_nil_iff.mp hroot
  obtain ⟨token, others, hbegun, hpart, hgiven⟩ :=
    Phrase.given_of_fault hknown hfresh hstatements hunwound
  exact ⟨token, others, span, hbegun, hpart, hspan, (hgiven span hspan).start_le hpart⟩

/-- A routine of the host that fails in the third statement of a program. -/
theorem faults_behind_statement_third :
    let fail : Routine := fun _ => .error { cause := .native "no" }
    let s := (create {} true).addRoutine "fail" none fail
    let source := "var x = 1\nrepeat 2 \x7b x++ \x7d\nif x == 3 \x7b fail(x) \x7d print(x)"
    let fault : Fault := { cause := .native "no", span := some ⟨39, 43⟩ }
    let third : Token := ⟨.keyword .ifKw, ⟨27, 29⟩⟩
    (∀ routine ∈ s.routines, ∀ arguments fault,
        routine arguments = .error fault → fault.span = none) ∧
      (s.run 14 source).1 = .error (.fault fault) ∧ fault.backtrace = [] ∧
      Phrase.lastBegun 14 false (.start (tokenize source)) s.fresh = some third ∧
      ∃ token others span,
        Phrase.lastBegun 14 false (.start (tokenize source)) s.fresh = some token ∧
        token :: others <:+: tokenize source ∧ fault.span = some span ∧
        (token.span.start ≤ span.start ∨
          Token.BareWhile (token :: others) ∧ span = .point 0) := by
  intro fail s source fault third
  have hs : ∀ routine ∈ s.routines, ∀ arguments fault,
      routine arguments = .error fault → fault.span = none := by
    -- the routine fails without a place
    have hfail : ∀ arguments fault, fail arguments = .error fault → fault.span = none := by
      intro arguments fault hfault
      cases hfault
      rfl
    simpa [s] using hfail
  obtain ⟨hfault, hlast⟩ : (s.run 14 source).1 = .error (.fault fault) ∧
      Phrase.lastBegun 14 false (.start (tokenize source)) s.fresh = some third := by
    decide +kernel
  exact ⟨hs, hfault, rfl, hlast, faults_behind_statement s hs hfault rfl⟩

/-- Where a `while` has no condition, the fault is put at the front of the text, and not where the
statement begins. -/
theorem bare_while_misplaced :
    let s := create {} true
    let source := "print(1)\nwhile \x7b \x7d"
    (s.run 9 source).1 = .error (.fault (.malformed (.endOfInput "expression") (.point 0))) ∧
      Phrase.lastBegun 9 false (.start (tokenize source)) s.fresh =
        some ⟨.keyword .whileKw, ⟨9, 14⟩⟩ := by
  decide +kernel

end Session

end Tern
