import Tern.Proofs.Statement.Code

/-!
# The numbers that a range loop visits

A range loop evaluates its bounds once, the left one first, and then executes its block for each
number from the left bound on below the right one. Every round has a scope of its own, which
starts with the loop variable and nothing else, and begins in the session that the round before it
has left. A round that returns or fails is the last one.

The bounds may be any numbers: how many rounds there are may not fit a word, but the numbers visited
all do, since they are between two words.

## Key results

- `Eval.Visits`: what it means to visit the integers from one on below another
- `Eval.Visits.rounds_eq`: how many rounds there are if none returns or fails
- `Eval.visits_iterate`: counting up from a word visits the integers from it on
- `Reading.range_visits`: a range loop does so
-/

namespace Tern

open Cursor (Reads)

/-- What is in scope at the beginning of a round: the loop variable, if there is one, which is final
and stands for a number. -/
def Scope.ofLoop (name? : Option String) (i : Number) : Scope where
  bindings := name?.toList.map fun name =>
    (name, { isFinal := true, type := some .number, value := .number i })

namespace Eval

/-! ### One round -/

/-- Runs `x` in a new scope inside the innermost one that starts as given, and drops the innermost
scope afterwards. -/
def startingWith (scope : Scope) (x : Eval α) : Eval α := fun session =>
  match x { session with env := { session.env with inner := scope :: session.env.inner } } with
  | .ok result session => .ok result { session with env := session.env.pop }
  | .error halt session => .error halt { session with env := session.env.pop }

/-- A round of a range loop is its block, in a scope that starts with the loop variable. -/
theorem rangeRound_eq (self : Evaluator) (name? : Option String) (body : List Token) (i : Number) :
    rangeRound self name? body i =
      startingWith (.ofLoop name? i) (Reading.onTokens body (self (.statements true))) := by
  funext s
  cases name? with
  | none => rfl
  | some name => rfl

/-! ### Counting up -/

/-- Executing a round for each integer from one on below `limit`, in this order: how many rounds
there are and how they end. A round that returns or fails is the last. -/
inductive Visits (round : Number → Eval (Option Value)) (limit : Int) :
    (next : Int) → Session → (rounds : Nat) → EStateM.Result Halt Session Outcome → Prop
  | done {next : Int} {s : Session} : limit ≤ next → Visits round limit next s 0 (.ok .done s)
  | next {i : Number} {s s' : Session} {rounds : Nat}
      {result : EStateM.Result Halt Session Outcome} : i.toInt < limit → round i s = .ok none s' →
      Visits round limit (i.toInt + 1) s' rounds result →
      Visits round limit i.toInt s (rounds + 1) result
  | returned {i : Number} {s s' : Session} {value : Value} : i.toInt < limit →
      round i s = .ok (some value) s' → Visits round limit i.toInt s 1 (.ok (.returned value) s')
  | failed {i : Number} {s s' : Session} {halt : Halt} : i.toInt < limit →
      round i s = .error halt s' → Visits round limit i.toInt s 1 (.error halt s')

variable {round : Number → Eval (Option Value)} {limit : Int}

/-- If no round returns or fails, there is one for each integer. -/
theorem Visits.rounds_eq {next : Int} {s s' : Session} {rounds : Nat}
    (h : Visits round limit next s rounds (.ok .done s')) :
    (rounds : Int) = max 0 (limit - next) := by
  generalize hresult : EStateM.Result.ok Outcome.done s' = result at h
  induction h with
  | done hle => omega
  | next hlt _ _ ih =>
    have := ih hresult
    omega
  | returned => cases hresult
  | failed => cases hresult

/-- Counting up from a word, with the integers below the limit all words, visits each of them. -/
theorem visits_iterate {first : Int} (hfirst : -0x8000000000000000 ≤ first)
    (hlimit : limit ≤ 0x8000000000000000) (index count : Nat)
    (hcount : count = (limit - (first + index)).toNat) (s : Session) :
    ∃ rounds, Visits round limit (first + index) s rounds
      (iterate (fun k => do return (← round (Int64.ofInt (first + k))).map Outcome.returned)
        (return .done) index count s) := by
  -- on the rounds that are left, which the limit and the next number determine
  induction count generalizing index s with
  | zero => exact ⟨0, .done (by omega)⟩
  | succ count ih =>
    -- below the limit every integer is a word, so counting up does not wrap around
    have hword : (Int64.ofInt (first + index)).toInt = first + index :=
      Int64.toInt_ofInt_of_le (by omega) (by omega)
    have hlt : (Int64.ofInt (first + index)).toInt < limit := by omega
    rw [iterate_succ]
    cases hround : round (Int64.ofInt (first + index)) s with
    | error halt s' =>
      refine ⟨1, ?_⟩
      rw [bind_of_error (bind_of_error hround)]
      exact hword ▸ .failed hlt hround
    | ok value? s' =>
      have hbody : (do return (← round (Int64.ofInt (first + index))).map Outcome.returned :
          Eval (Option Outcome)) s = .ok (value?.map .returned) s' := bind_of_ok hround
      rw [bind_of_ok hbody]
      -- a value ends the loop, and otherwise the next number follows
      cases value? with
      | some value => exact ⟨1, hword ▸ .returned hlt hround⟩
      | none =>
        obtain ⟨rounds, hothers⟩ := ih (index + 1) (by omega) s'
        have hnext : first + (index + 1 : Nat) = (Int64.ofInt (first + index)).toInt + 1 := by omega
        rw [hnext] at hothers
        exact ⟨rounds + 1, hword ▸ .next hlt hround hothers⟩

/-- Counting up from one word to another visits the integers from the first on below the second. -/
theorem visits_between (round : Number → Eval (Option Value)) (a b : Number) (s : Session) :
    ∃ rounds, Visits round b.toInt a.toInt s rounds
      (iterate (fun k => do return (← round (Int64.ofInt (a.toInt + k))).map Outcome.returned)
        (return .done) 0 (b.toInt - a.toInt).toNat s) := by
  obtain ⟨rounds, hvisits⟩ := visits_iterate a.le_toInt (Int.le_of_lt b.toInt_lt) 0
    (b.toInt - a.toInt).toNat (by simp) s
  rw [Int.natCast_zero, Int.add_zero] at hvisits
  exact ⟨rounds, hvisits⟩

end Eval

/-! ### Range loops -/

namespace Reading

variable {self : Evaluator} {c c' : Cursor} {s s' : Session}

/-- A bound that is a number. -/
theorem bound_of_number {n : Number} (h : self .expression c s = .ok (.number n, c') s') :
    bound self c s = .ok (n, c') s' := by
  unfold bound
  rw [here_bind, bind_of_eq_ok h]
  rfl

/-- A bound that fails. -/
theorem bound_of_error {halt : Halt} (h : self .expression c s = .error halt s') :
    bound self c s = .error halt s' := by
  unfold bound
  rw [here_bind, bind_of_eq_error h]

/-- An evaluation that reads nothing, behind which the cursor is where it was. -/
theorem lift_of_result (x : Eval α) :
    (liftM x : Reading α) c s =
      match x s with
      | .ok result s' => .ok (result, c) s'
      | .error halt s' => .error halt s' := by
  show (x >>= fun a => pure (a, c)) s = _
  cases hx : x s with
  | ok result s' => rw [bind_of_ok hx]; rfl
  | error halt s' => rw [bind_of_error hx]

section

variable {c₁ c₂ c₃ c₄ c₅ : Cursor} {s₁ s₂ : Session} {first limit : Number}
  (hfrom : Reads c [.keyword .fromKw] c₁)

include hfrom

/-- A range loop whose left bound fails. -/
theorem range_of_left_error {halt : Halt} (h : self .expression c₁ s = .error halt s') :
    range self c s = .error halt s' := by
  unfold range after
  rw [bind_of_pure (accept_of_reads hfrom)]
  exact bind_of_eq_error (bound_of_error h)

variable (hfirst : self .expression c₁ s = .ok (.number first, c₂) s₁)
  (hto : Reads c₂ [.keyword .toKw] c₃)

include hfirst hto

/-- A range loop whose right bound fails, behind a left one that is a number. -/
theorem range_of_right_error {halt : Halt} (h : self .expression c₃ s₁ = .error halt s') :
    range self c s = .error halt s' := by
  unfold range after
  rw [bind_of_pure (accept_of_reads hfrom)]
  simp only [if_true]
  rw [bind_of_eq_ok (bound_of_number hfirst), bind_of_pure (expect_of_reads hto _)]
  exact bind_of_eq_error (bound_of_error h)

variable (hlimit : self .expression c₃ s₁ = .ok (.number limit, c₄) s₂) {name? : Option String}
  (hname : Reads c₄ (loopNameKinds name? ++ [.symbol .leftBrace]) c₅) {body : List Token}
  (hbody : Scan.block c₅ = .ok body c')

include hlimit hname hbody

/-- Behind its header, a range loop counts up. -/
theorem range_of_header :
    range self c s =
      (liftM (Eval.iterate (fun k => do
        let i := Int64.ofInt (first.toInt + (k : Nat))
        return (← Eval.rangeRound self name? body i).map Outcome.returned) (return .done) 0
          (limit.toInt - first.toInt).toNat) : Reading Outcome) c' s₂ := by
  unfold range after
  rw [bind_of_pure (accept_of_reads hfrom)]
  simp only [if_true]
  rw [bind_of_eq_ok (bound_of_number hfirst), bind_of_pure (expect_of_reads hto _),
    bind_of_eq_ok (bound_of_number hlimit)]
  -- without a name the brace follows the limit
  cases name? with
  | none =>
    have hne : c₄.ahead ≠ some (.keyword .withKw) := by
      rw [Cursor.ahead_of_reads hname]
      simp
    rw [bind_of_pure (accept_of_ne hne)]
    simp only [Bool.false_eq_true, if_false, pure_bind]
    rw [bind_of_pure (expect_of_reads hname _), bind_of_pure (scan_of_ok hbody)]
  -- with one, `with` and the name stand in between
  | some name =>
    obtain ⟨c₆, hwith, hrest⟩ := Reads.uncons hname
    obtain ⟨c₇, hident, hbrace⟩ := hrest.uncons
    have hloop : (some <$> scan (Scan.identifier "loop variable name after `with`") :
        Reading (Option String)) c₆ = pure (some name, c₇) := by
      show (scan _ c₆ >>= _) = _
      rw [scan_of_ok (Scan.identifier_of_reads hident _)]
      rfl
    rw [bind_of_pure (accept_of_reads hwith)]
    simp only [if_true]
    rw [bind_of_pure hloop, bind_of_pure (expect_of_reads hbrace _),
      bind_of_pure (scan_of_ok hbody)]

end

/-- A range loop visits the half-open interval between its bounds. The left bound is evaluated
first, and then the right one; if one of them fails, so does the loop. Behind a header with two
numbers, the block is executed for each integer from the left one on below the right one, in a
scope that starts with the loop variable only, until a round returns or fails. If none does, the
number of rounds is the difference of the bounds, or zero if that is negative. -/
theorem range_visits (n : Nat) (s : Session) {c c₁ : Cursor}
    (hfrom : Reads c [.keyword .fromKw] c₁) :
    (∀ halt s₁, Phrase.run n .expression c₁ s = .error halt s₁ →
        range (Phrase.run n) c s = .error halt s₁) ∧
      ∀ a c₂ c₃ s₁, Phrase.run n .expression c₁ s = .ok (.number a, c₂) s₁ →
        Reads c₂ [.keyword .toKw] c₃ →
        (∀ halt s₂, Phrase.run n .expression c₃ s₁ = .error halt s₂ →
          range (Phrase.run n) c s = .error halt s₂) ∧
        ∀ b c₄ s₂ name? c₅ body c', Phrase.run n .expression c₃ s₁ = .ok (.number b, c₄) s₂ →
          Reads c₄ (loopNameKinds name? ++ [.symbol .leftBrace]) c₅ →
          Scan.block c₅ = .ok body c' →
          ∃ rounds result,
            Eval.Visits (fun i => Eval.startingWith (.ofLoop name? i)
                (onTokens body (Phrase.run n (.statements true))))
              b.toInt a.toInt s₂ rounds result ∧
            (∀ s', result = .ok .done s' → (rounds : Int) = max 0 (b.toInt - a.toInt)) ∧
            match result with
            | .ok outcome s' => range (Phrase.run n) c s = .ok (outcome, c') s'
            | .error halt s' => range (Phrase.run n) c s = .error halt s' := by
  refine ⟨fun halt s₁ h => range_of_left_error hfrom h, fun a c₂ c₃ s₁ hfirst hto => ?_⟩
  refine ⟨fun halt s₂ h => range_of_right_error hfrom hfirst hto h, ?_⟩
  intro b c₄ s₂ name? c₅ body c' hlimit hname hbody
  -- header and rounds are told apart: what is left is to count the rounds
  have hrange := range_of_header hfrom hfirst hto hlimit hname hbody
  simp only [Eval.rangeRound_eq] at hrange
  rw [lift_of_result] at hrange
  obtain ⟨rounds, hvisits⟩ := Eval.visits_between (fun i => Eval.startingWith (.ofLoop name? i)
    (onTokens body (Phrase.run n (.statements true)))) a b s₂
  generalize Eval.iterate _ _ 0 _ s₂ = result at hrange hvisits
  refine ⟨rounds, result, hvisits, fun s' hdone => ?_, ?_⟩
  · rw [hdone] at hvisits
    exact hvisits.rounds_eq
  · cases result with
    | ok outcome s' => exact hrange
    | error halt s' => exact hrange

/-- A loop up to the greatest number, in a session where its variable is not bound. -/
theorem range_visits_greatest :
    let a : Number := 0x7ffffffffffffffd
    let b : Number := 0x7fffffffffffffff
    let body : List Kind := [.ident "x", .symbol .equal, .ident "i"]
    let kinds : List Kind :=
      [.keyword .fromKw, .number a, .keyword .toKw, .number b, .keyword .withKw, .ident "i",
        .symbol .leftBrace] ++ body ++ [.symbol .rightBrace]
    let c (k : Nat) : Cursor :=
      ⟨((kinds.map Kind.bare).take k).reverse, (kinds.map Kind.bare).drop k⟩
    let s (x : Number) : Session := { env := { root := ⟨[("x", ⟨false, none, .number x⟩)]⟩ } }
    range (Phrase.run 6) (c 0) (s 0) = .ok (.done, c 11) (s 0x7ffffffffffffffe) ∧
      ∃ rounds result,
        Eval.Visits (fun i => Eval.startingWith (.ofLoop (some "i") i)
            (onTokens (body.map Kind.bare) (Phrase.run 6 (.statements true))))
          b.toInt a.toInt (s 0) rounds result ∧
        (∀ s', result = .ok .done s' → (rounds : Int) = max 0 (b.toInt - a.toInt)) ∧
        match result with
        | .ok outcome s' => range (Phrase.run 6) (c 0) (s 0) = .ok (outcome, c 11) s'
        | .error halt s' => range (Phrase.run 6) (c 0) (s 0) = .error halt s' := by
  intro a b body kinds c s
  -- the tokens are read one by one, with a cursor for each place between them
  have hnext : ∀ kind (c c' : Cursor), c.next? = some (Kind.bare kind, c') → Reads c [kind] c' :=
    fun _ _ _ h => .one h
  have hfrom : Reads (c 0) [.keyword .fromKw] (c 1) := hnext _ _ _ rfl
  have hfirst : Phrase.run 6 .expression (c 1) (s 0) = .ok (.number a, c 2) (s 0) := by rfl
  have hto : Reads (c 2) [.keyword .toKw] (c 3) := hnext _ _ _ rfl
  have hlimit : Phrase.run 6 .expression (c 3) (s 0) = .ok (.number b, c 4) (s 0) := by rfl
  have hname : Reads (c 4) (loopNameKinds (some "i") ++ [.symbol .leftBrace]) (c 7) :=
    (hnext _ _ (c 5) rfl).append ((hnext _ _ (c 6) rfl).append (hnext _ _ _ rfl))
  have hbody : Scan.block (c 7) = .ok (body.map Kind.bare) (c 11) := by rfl
  have hcount : (b.toInt - a.toInt).toNat = 2 := by decide
  have hright := ((range_visits 6 (s 0) hfrom).2 a _ _ _ hfirst hto).2
  refine ⟨?_, hright b _ _ _ _ _ _ hlimit hname hbody⟩
  rw [range_of_header hfrom hfirst hto hlimit hname hbody, hcount]
  rfl

end Reading

end Tern
