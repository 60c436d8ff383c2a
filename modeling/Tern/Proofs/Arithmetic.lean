import Tern.Proofs.Framing

/-!
# Arithmetic is exact

An operation on numbers gives the integer that it should, or a fault: nothing wraps around. Sums,
differences, products and opposites are given whenever they fit a word. Division fails for a zero
divisor and for the one quotient that does not fit; otherwise quotient and remainder are those of
the division toward zero. A step up or down gives what a sum would, and writes it only if the
variable takes numbers.

## Key results

- `Number.fits_tdiv_iff`: the one quotient that does not fit
- `Reading.steps_primary`: what becomes of a step up or down
- `arithmetic_exact`: every operation on numbers
-/

namespace Tern

open Cursor (Reads)

/-! ### Quotients that fit -/

namespace Number

/-- A number is known by its value. -/
theorem toInt_eq_iff {a b : Number} {i : Int} (h : b.toInt = i) : a.toInt = i ↔ a = b := by
  rw [← h, Int64.toInt_inj]

theorem toInt_minValue : Int64.minValue.toInt = -0x8000000000000000 := rfl

theorem toInt_ne_zero {b : Number} (hb : b ≠ 0) : b.toInt ≠ 0 := by
  rw [ne_eq, toInt_eq_iff Int64.toInt_zero]
  exact hb

/-- A remainder is less than the divisor, whatever the signs. -/
theorem natAbs_tmod_lt (i : Int) {j : Int} (hj : j ≠ 0) : (i.tmod j).natAbs < j.natAbs := by
  rw [Int.natAbs_tmod]
  exact Nat.mod_lt _ (Int.natAbs_pos.mpr hj)

/-- What fits is a number. -/
theorem exists_ofInt? {i : Int} (h : Fits i) : ∃ n : Number, n.toInt = i ∧ ofInt? i = some n := by
  refine ⟨Int64.ofInt i, Int64.toInt_ofInt_of_le h.1 h.2, ?_⟩
  rw [ofInt?, if_pos h]

/-- Of all quotients there is one that does not fit. -/
theorem fits_tdiv_iff {a b : Number} :
    Fits (a.toInt.tdiv b.toInt) ↔ ¬(a = Int64.minValue ∧ b = -1) := by
  have hone : Int64.toInt (-1) = -1 := rfl
  rw [← toInt_eq_iff toInt_minValue, ← toInt_eq_iff hone]
  have ha : Fits a.toInt := fits_toInt a
  generalize a.toInt = i, b.toInt = j at ha ⊢
  unfold Fits at ha ⊢
  by_cases hj : j = 0
  · rw [hj, Int.tdiv_zero]
    omega
  -- a quotient is at most the dividend in size, so at most one beyond the greatest number
  have hle := Int.natAbs_tdiv_le_natAbs i j
  have hmod := Int.tdiv_mul_add_tmod i j
  have hlt := natAbs_tmod_lt i hj
  generalize i.tdiv j = q, i.tmod j = r at hle hmod hlt
  constructor
  · rintro ⟨-, hq⟩ ⟨rfl, rfl⟩
    omega
  · intro hnot
    -- if it is that one, the dividend is about as many times as large as the divisor
    have hq : q ≠ 0x8000000000000000 := by
      rintro rfl
      omega
    omega

/-- Only that quotient is refused. -/
theorem div?_eq_none_iff {a b : Number} : div? a b = none ↔ a = Int64.minValue ∧ b = -1 := by
  rw [div?, ofInt?_eq_none_iff, fits_tdiv_iff, not_not]

/-- A remainder fits. -/
theorem fits_tmod (a : Number) {b : Number} (hb : b ≠ 0) : Fits (a.toInt.tmod b.toInt) := by
  have hlt := natAbs_tmod_lt a.toInt (toInt_ne_zero hb)
  have hb := fits_toInt b
  unfold Fits at hb ⊢
  omega

end Number

/-! ### Results -/

/-- An operation whose result is `i` gives it if it fits, and fails otherwise. -/
structure Exact (operation : String) (i : Int) (result : Except Cause Value) : Prop where
  fits : Number.Fits i → ∃ n : Number, n.toInt = i ∧ result = .ok (.number n)
  overflows : ¬Number.Fits i → result = .error (.integerOverflow operation)

/-- A division of `a` by `b` whose result is `i` fails for a zero divisor, and for the quotient of
the least number and -1, and gives the result otherwise. -/
structure Divides (operation : String) (a b : Number) (i : Int) (result : Except Cause Value) :
    Prop where
  byZero : result = .error .divisionByZero ↔ b = 0
  overflows : result = .error (.integerOverflow operation) ↔ a = Int64.minValue ∧ b = -1
  fits : b ≠ 0 → ¬(a = Int64.minValue ∧ b = -1) →
    ∃ n : Number, n.toInt = i ∧ result = .ok (.number n)

/-- `q` and `r` are quotient and remainder of the division toward zero. -/
structure Quotient (a b q r : Int) : Prop where
  eq : a = q * b + r
  lt : r.natAbs < b.natAbs
  sign : r = 0 ∨ r.sign = a.sign

/-- What is computed as an integer and then checked is exact. -/
theorem exact_checked (operation : String) (i : Int) :
    Exact operation i (BinaryOp.checked operation (Number.ofInt? i)) := by
  constructor
  · intro hfits
    obtain ⟨n, hn, hsome⟩ := Number.exists_ofInt? hfits
    exact ⟨n, hn, by rw [hsome]; rfl⟩
  · intro hnot
    rw [Number.ofInt?_eq_none_iff.mpr hnot]
    rfl

/-- A division is checked for a zero divisor first, and then for an overflow. -/
theorem divides_checked {operation : String} {a b : Number} {i : Int} {n? : Option Number}
    (hnone : a = Int64.minValue ∧ b = -1 → n? = none)
    (hsome : b ≠ 0 → ¬(a = Int64.minValue ∧ b = -1) → ∃ n : Number, n.toInt = i ∧ n? = some n) :
    Divides operation a b i
      (if b = 0 then .error .divisionByZero else BinaryOp.checked operation n?) := by
  -- a divisor is not both zero and -1, so no division fails in both ways
  by_cases hzero : b = 0
  · subst hzero
    exact ⟨by simp, by simp, fun hne => absurd rfl hne⟩
  rw [if_neg hzero]
  by_cases hover : a = Int64.minValue ∧ b = -1
  · rw [hnone hover]
    exact ⟨by simp [BinaryOp.checked, hzero], by simp [BinaryOp.checked, hover],
      fun _ hnot => absurd hover hnot⟩
  · obtain ⟨n, hn, rfl⟩ := hsome hzero hover
    exact ⟨by simp [BinaryOp.checked, hzero], by simp [BinaryOp.checked, hover],
      fun _ _ => ⟨n, hn, rfl⟩⟩

/-- A quotient is given unless it is the one that does not fit. -/
theorem divides_div (a b : Number) : Divides "division" a b (a.toInt.tdiv b.toInt)
    (BinaryOp.div.apply (.number a) (.number b)) :=
  divides_checked Number.div?_eq_none_iff.mpr fun _ hnot =>
    Number.exists_ofInt? (Number.fits_tdiv_iff.mpr hnot)

/-- A remainder is given if the quotient is. -/
theorem divides_mod (a b : Number) : Divides "remainder" a b (a.toInt.tmod b.toInt)
    (BinaryOp.mod.apply (.number a) (.number b)) := by
  show Divides _ a b _ (if b = 0 then _ else BinaryOp.checked _ (Number.rem? a b))
  refine divides_checked (fun hover => ?_) fun hzero hnot => ?_
  · rw [Number.rem?, Number.div?_eq_none_iff.mpr hover]
    rfl
  · -- the remainder is asked for once the quotient has been found to fit
    obtain ⟨q, -, hq⟩ := Number.exists_ofInt? (Number.fits_tdiv_iff.mpr hnot)
    rw [Number.rem?, Number.div?, hq]
    exact Number.exists_ofInt? (Number.fits_tmod a hzero)

/-- A division that succeeds gives the result. -/
theorem Divides.toInt_eq {operation : String} {a b n : Number} {i : Int}
    {result : Except Cause Value} (h : Divides operation a b i result)
    (hn : result = .ok (.number n)) : b ≠ 0 ∧ n.toInt = i := by
  subst hn
  have hzero : b ≠ 0 := fun hb => by cases h.byZero.mpr hb
  have hnot : ¬(a = Int64.minValue ∧ b = -1) := fun hover => by cases h.overflows.mpr hover
  obtain ⟨m, hm, heq⟩ := h.fits hzero hnot
  cases heq
  exact ⟨hzero, hm⟩

/-- Division toward zero splits the dividend. -/
theorem quotient_tdiv (i : Int) {j : Int} (hj : j ≠ 0) :
    Quotient i j (i.tdiv j) (i.tmod j) := by
  refine ⟨(Int.tdiv_mul_add_tmod i j).symm, Number.natAbs_tmod_lt i hj, ?_⟩
  -- a remainder has the sign of the dividend, unless nothing remains
  by_cases hdvd : j ∣ i
  · exact .inl (Int.tmod_eq_zero_of_dvd hdvd)
  · exact .inr (by rw [Int.sign_tmod, if_neg hdvd])

/-! ### Steps up and down -/

/-- The symbol of a step. -/
def stepMark (increment : Bool) : Symbol := if increment then .plusPlus else .minusMinus

/-- What a step does to a number. -/
def stepBy (increment : Bool) : Int := if increment then 1 else -1

/-- What a step is called in messages. -/
def stepName (increment : Bool) : String := if increment then "increment" else "decrement"

/-- Steps are computed as sums. -/
theorem step_eq_ofInt? (n : Number) (increment : Bool) :
    (if increment then Number.add? n 1 else Number.sub? n 1) =
      Number.ofInt? (n.toInt + stepBy increment) := by
  cases increment <;> rfl

/-- A step of the variable `b` with the number `n`, as it stands at `c`, writes what it leads to
and gives the old number. It fails if there is no such number, or if the variable may not have it,
and then nothing has happened. -/
structure Steps (name : String) (b : Variable) (n : Number) (increment : Bool) (c c' : Cursor)
    (s : Session) (result : EStateM.Result Halt Session (Value × Cursor)) : Prop where
  fits : Number.Fits (n.toInt + stepBy increment) → b.type = none ∨ b.type = some .number →
    ∃ m env number, m.toInt = n.toInt + stepBy increment ∧
      result = .ok (.number n, c') { s with env } ∧
      env.lookup name = some { b with value := .number m } ∧
      s.env.resolve name = some number ∧ s.env.Written env number name (.number m)
  overflows : ¬Number.Fits (n.toInt + stepBy increment) → result = .error (.fault
    { cause := .integerOverflow (stepName increment), span := some c.here }) s
  refused : Number.Fits (n.toInt + stepBy increment) → ∀ type, b.type = some type →
    type ≠ .number → result = .error (.fault
      { cause := .typeMismatch type.name Ty.number.name, span := some c.here }) s

/-- The declared types that admit numbers. -/
theorem Variable.accepts_number_iff (b : Variable) (m : Number) :
    b.accepts (.number m) = true ↔ b.type = none ∨ b.type = some .number := by
  unfold accepts
  cases htype : b.type with
  | none => simp
  | some type => simp [Ty.accepts, Value.type?, eq_comm]

section Step

variable {self : Evaluator} {name : String} {b : Variable} {n : Number} {increment : Bool}
  {c c' : Cursor} {s : Session}

/-- A step is the name's business. -/
theorem Reading.primary_of_step (hreads : c.Reads [.ident name, .symbol (stepMark increment)] c')
    (hb : s.env.lookup name = some b) :
    primary self c s = (locate c.here (Eval.step name b increment) : Reading Value) c' s := by
  obtain ⟨c₁, hname, hmark⟩ := hreads.uncons
  rw [primary_of_reads self hname]
  show named self name c.here c₁ s = _
  rw [named_of_lookup self hb, Cursor.ahead_of_reads hmark]
  -- the token behind the name tells what becomes of the variable, and is stepped over
  cases increment with
  | true | false =>
    show (next >>= fun _ => _ : Reading Value) c₁ s = _
    rw [next_bind_of_reads hmark]

/-- A step that overflows does nothing. -/
theorem Eval.step_of_not_fits (hfinal : b.isFinal = false) (hvalue : b.value = .number n)
    (hfits : ¬Number.Fits (n.toInt + stepBy increment)) :
    step name b increment = raise (.integerOverflow (stepName increment)) := by
  have hnone := Number.ofInt?_eq_none_iff.mpr hfits
  rw [← step_eq_ofInt?] at hnone
  simp only [step, hfinal, hvalue, Value.number?, hnone, Bool.false_eq_true, if_false, stepName]

/-- A step that does not overflow assigns. -/
theorem Eval.step_of_fits (hfinal : b.isFinal = false) (hvalue : b.value = .number n) {m : Number}
    (hm : Number.ofInt? (n.toInt + stepBy increment) = some m) :
    step name b increment = (do assign name (.number m); return .number n) := by
  rw [← step_eq_ofInt?] at hm
  simp only [step, hfinal, hvalue, Value.number?, hm, Bool.false_eq_true, if_false]

/-- What becomes of a step up or down. -/
theorem Reading.steps_primary (hreads : c.Reads [.ident name, .symbol (stepMark increment)] c')
    (hb : s.env.lookup name = some b) (hfinal : b.isFinal = false)
    (hvalue : b.value = .number n) :
    Steps name b n increment c c' s (primary self c s) := by
  rw [primary_of_step hreads hb]
  constructor
  · intro hfits htype
    obtain ⟨m, hm, hsome⟩ := Number.exists_ofInt? hfits
    -- nothing happens between the look at the variable and the assignment to it
    have hassign := Eval.assign_of_lookup hb hfinal (.number m)
    rw [(b.accepts_number_iff m).mpr htype, if_pos rfl] at hassign
    obtain ⟨number, hnumber, hwritten⟩ := Environment.written_overwrite hb (.number m)
    refine ⟨m, _, number, hm, ?_, Environment.lookup_overwrite hb _, hnumber, hwritten⟩
    refine locate_of_ok _ ?_
    rw [Eval.step_of_fits hfinal hvalue hsome]
    exact bind_of_ok hassign
  · intro hfits
    -- the number is computed before anything is written
    rw [Eval.step_of_not_fits hfinal hvalue hfits]
    rfl
  · intro hfits type htype hne
    obtain ⟨m, hm, hsome⟩ := Number.exists_ofInt? hfits
    have hnot : ¬b.accepts (.number m) = true := by
      rw [b.accepts_number_iff, htype]
      simpa using hne
    have hassign := Eval.assign_of_lookup hb hfinal (.number m)
    rw [if_neg hnot, htype] at hassign
    have hstep : Eval.step name b increment s =
        .error (.fault { cause := .typeMismatch type.name Ty.number.name }) s := by
      rw [Eval.step_of_fits hfinal hvalue hsome]
      exact bind_of_error hassign
    -- the fault has no place yet, and gets that of the name
    exact locate_of_error c.here hstep

end Step

/-! ### All of it -/

/-- Arithmetic is exact. Sums, differences, products and opposites are the integers that they
should be, unless these do not fit. Quotients go toward zero and remainders have the sign of the
dividend, unless the divisor is zero or the quotient does not fit. A step up or down of a variable
that is not final writes the next number exactly if there is one and the variable takes numbers. -/
theorem arithmetic_exact :
    (∀ a b : Number,
      Exact "addition" (a.toInt + b.toInt) (BinaryOp.add.apply (.number a) (.number b)) ∧
      Exact "subtraction" (a.toInt - b.toInt) (BinaryOp.sub.apply (.number a) (.number b)) ∧
      Exact "multiplication" (a.toInt * b.toInt) (BinaryOp.mul.apply (.number a) (.number b)) ∧
      Exact "negation" (-a.toInt) (UnaryOp.neg.apply (.number a)) ∧
      Divides "division" a b (a.toInt.tdiv b.toInt)
        (BinaryOp.div.apply (.number a) (.number b)) ∧
      Divides "remainder" a b (a.toInt.tmod b.toInt)
        (BinaryOp.mod.apply (.number a) (.number b)) ∧
      ∀ q r : Number, BinaryOp.div.apply (.number a) (.number b) = .ok (.number q) →
        BinaryOp.mod.apply (.number a) (.number b) = .ok (.number r) →
        Quotient a.toInt b.toInt q.toInt r.toInt) ∧
    ∀ (self : Evaluator) (name : String) (b : Variable) (n : Number) (increment : Bool)
      (c c' : Cursor) (s : Session), c.Reads [.ident name, .symbol (stepMark increment)] c' →
      s.env.lookup name = some b → b.isFinal = false → b.value = .number n →
      Steps name b n increment c c' s (Reading.primary self c s) := by
  constructor
  · intro a b
    have hdiv := divides_div a b
    have hmod := divides_mod a b
    refine ⟨exact_checked _ _, exact_checked _ _, exact_checked _ _, exact_checked _ _, hdiv, hmod,
      fun q r hq hr => ?_⟩
    -- there is a quotient, so the divisor is not zero
    obtain ⟨hzero, hq⟩ := hdiv.toInt_eq hq
    obtain ⟨-, hr⟩ := hmod.toInt_eq hr
    rw [hq, hr]
    exact quotient_tdiv _ (Number.toInt_ne_zero hzero)
  · intro self name b n increment c c' s hreads hb hfinal hvalue
    exact Reading.steps_primary hreads hb hfinal hvalue

/-- The quotient of the least number and -1, a division of a negative number, and a step up from
the greatest number. -/
theorem arithmetic_exact_limits :
    let b : Variable := ⟨false, some .number, .number Int64.maxValue⟩
    let s := ({} : Session).setGlobal "x" b
    let c := Cursor.start ([.ident "x", .symbol .plusPlus].map Kind.bare)
    BinaryOp.div.apply (.number Int64.minValue) (.number (-1)) =
        .error (.integerOverflow "division") ∧
      Quotient (-7) 2 (-3) (-1) ∧
      Reading.primary (Phrase.run 0) c s = .error (.fault
        { cause := .integerOverflow "increment", span := some c.here }) s := by
  intro b s c
  let c₁ : Cursor := ⟨[Kind.bare (.ident "x")], [Kind.bare (.symbol .plusPlus)]⟩
  have hname : c.next? = some (Kind.bare (.ident "x"), c₁) := rfl
  have hmark : c₁.next? = some (Kind.bare (.symbol .plusPlus), ⟨_, []⟩) := rfl
  obtain ⟨-, -, -, -, hdiv, -⟩ := arithmetic_exact.1 Int64.minValue (-1)
  obtain ⟨-, -, -, -, -, -, hquotient⟩ := arithmetic_exact.1 (-7) 2
  have hsteps := arithmetic_exact.2 (Phrase.run 0) "x" b Int64.maxValue true c _ s
    (.cons hname (.one hmark)) rfl rfl rfl
  exact ⟨hdiv.overflows.mpr (by decide), hquotient (-3) (-1) rfl rfl, hsteps.overflows (by decide)⟩

end Tern
