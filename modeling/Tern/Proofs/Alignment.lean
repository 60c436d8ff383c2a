import Tern.Proofs.Agreement
import Tern.Proofs.Landing

/-!
# Aligned cursors

Two runs of a program may go over different token sequences, or over the same one with different
fuel. An `Alignment` says which cursors correspond to each other and what that entails: the same
token is next, and the tokens passed so far look the same. From this every scan is shown to do the
same on both sides.

## Key results

- `Alignment.Scans.bind`: scans that do the same may be sequenced
- `Alignment.block`, `Alignment.untilBrace`: stretches of tokens that look the same
- `Alignment.parameters`, `Alignment.skipArms`: the fixed parts of declarations and conditionals
- `Reading.Agree`: readings that do the same, from scans and evaluations that do
-/

namespace Tern

open Cursor (Reads)

/-- A tolerance together with the cursors that correspond to each other. -/
structure Alignment extends Tolerance where
  /-- Whether the cursors correspond to each other. -/
  Aligned : Cursor → Cursor → Prop
  /-- The same token is next, if any is. -/
  next : ∀ {c d}, Aligned c d → (c.next? = none ∧ d.next? = none) ∨
    ∃ p q c' d', c.next? = some (p, c') ∧ d.next? = some (q, d') ∧ p.kind = q.kind ∧
      (places → p.span = q.span) ∧ Aligned c' d'
  here : ∀ {c d}, Aligned c d → places → c.here = d.here
  behind : ∀ {c d}, Aligned c d → places → c.seen.head? = d.seen.head?
  /-- Token sequences that look the same are read from the start. -/
  start : ∀ {xs ys}, view xs = view ys → Aligned (.start xs) (.start ys)
  /-- The tokens between corresponding cursors, without the last one, look the same. -/
  passed : ∀ {c d c' d' ks ls k l}, Aligned c d → Aligned c' d' →
    Reads c (ks ++ [k]) c' → Reads d (ls ++ [l]) d' →
    view (c'.passedSince c.position).dropLast = view (d'.passedSince d.position).dropLast
  /-- The tokens between corresponding cursors read the same. -/
  quoted : ∀ {c d c' d' ks ls}, Aligned c d → Aligned c' d' → Reads c ks c' → Reads d ls d' →
    normalize (c'.passedSince c.position) = normalize (d'.passedSince d.position)
  maxCallDepth : ∀ {σ τ es fs}, outside σ es τ fs → σ.maxCallDepth = τ.maxCallDepth
  print : ∀ {s t : Session} (text : String),
    outside s.settings s.transcript t.settings t.transcript →
    outside (s.print text).settings (s.print text).transcript
      (t.print text).settings (t.print text).transcript
  pace : ∀ {s t : Session}, s.env.viewed view = t.env.viewed view →
    outside s.settings s.transcript t.settings t.transcript →
    outside s.pace.settings s.pace.transcript t.pace.settings t.pace.transcript

namespace Alignment

variable (A : Alignment)

/-- Ends of two scans that count as the same. -/
inductive Scans (R : α → β → Prop) :
    EStateM.Result Fault Cursor α → EStateM.Result Fault Cursor β → Prop
  | ok {a b c d} : R a b → A.Aligned c d → Scans R (.ok a c) (.ok b d)
  | fault {f g c d} : A.Faults f g → Scans R (.error f c) (.error g d)

variable {A}

/-- Scans that do the same, followed by scans that do the same on what the first ones give. -/
protected theorem Scans.bind {R : α → β → Prop} {S : γ → δ → Prop} {x : Scan α} {y : Scan β}
    {f : α → Scan γ} {g : β → Scan δ} {c d : Cursor} (h : A.Scans R (x c) (y d))
    (hfg : ∀ a b c' d', x c = .ok a c' → y d = .ok b d' → R a b → A.Aligned c' d' →
      A.Scans S (f a c') (g b d')) :
    A.Scans S ((x >>= f) c) ((y >>= g) d) := by
  -- both scans succeed or both fail, so only two of the four cases are there
  cases hx : x c with
  | ok a c' =>
    cases hy : y d with
    | ok b d' =>
      rw [bind_of_ok hx, bind_of_ok hy]
      rw [hx, hy] at h
      cases h with
      | ok hab hcd => exact hfg a b c' d' hx hy hab hcd
    | error g d' =>
      rw [hx, hy] at h
      cases h
  | error f c' =>
    cases hy : y d with
    | ok b d' =>
      rw [hx, hy] at h
      cases h
    | error g d' =>
      rw [bind_of_error hx, bind_of_error hy]
      rw [hx, hy] at h
      cases h with
      | fault hF => exact .fault hF

variable {c d : Cursor}

/-! ### One token -/

/-- The same kind of token is next. -/
theorem ahead_eq (h : A.Aligned c d) : c.ahead = d.ahead := by
  unfold Cursor.ahead
  obtain ⟨hc, hd⟩ | ⟨p, q, c', d', hc, hd, hkind, -, -⟩ := A.next h
  · rw [hc, hd]
  · rw [hc, hd]
    exact congrArg some hkind

/-- What is read at one cursor is read at the other. -/
theorem reads {kind : Kind} {c' : Cursor} (h : A.Aligned c d) (hreads : Reads c [kind] c') :
    ∃ d', Reads d [kind] d' ∧ A.Aligned c' d' := by
  obtain ⟨token, c₁, hnext, hkind, hend⟩ := hreads.of_cons
  cases hend
  obtain ⟨hc, -⟩ | ⟨p, q, c', d', hc, hd, hpq, -, hcd⟩ := A.next h
  · rw [hc] at hnext
    cases hnext
  · rw [hc] at hnext
    cases hnext
    exact ⟨d', hkind ▸ hpq ▸ Reads.one hd, hcd⟩

/-- Stepping over the next token. -/
theorem scanNext (h : A.Aligned c d) :
    A.Scans (Option.Rel fun p q => p.kind = q.kind ∧ (A.places → p.span = q.span))
      (Scan.next c) (Scan.next d) := by
  obtain ⟨hc, hd⟩ | ⟨p, q, c', d', hc, hd, hkind, hspan, hcd⟩ := A.next h
  · rw [Scan.next_of_none hc, Scan.next_of_none hd]
    exact .ok .none h
  · rw [Scan.next_of_some hc, Scan.next_of_some hd]
    exact .ok (.some ⟨hkind, hspan⟩) hcd

/-- Accepting a token. -/
theorem accept (h : A.Aligned c d) (kind : Kind) :
    A.Scans Eq (Scan.accept kind c) (Scan.accept kind d) := by
  by_cases hc : c.ahead = some kind
  · obtain ⟨c', hreads⟩ := Cursor.reads_of_ahead hc
    obtain ⟨d', hreads', hcd⟩ := reads h hreads
    rw [Scan.accept_of_reads hreads, Scan.accept_of_reads hreads']
    exact .ok rfl hcd
  · rw [Scan.accept_of_ne hc, Scan.accept_of_ne (ahead_eq h ▸ hc)]
    exact .ok rfl h

/-- Faults of scans that expect the same thing at corresponding cursors. -/
private theorem malformed (h : A.Aligned c d) (complaint : Malformed) :
    A.Faults (.malformed complaint c.here) (.malformed complaint d.here) :=
  .of_cause fun hp => congrArg some (A.here h hp)

/-- Expecting something of the next token that only depends on its kind. -/
theorem expecting (h : A.Aligned c d) (what : String) {select select' : Token → Option α}
    {R : α → α → Prop}
    (hselect : ∀ p q : Token, p.kind = q.kind → Option.Rel R (select p) (select' q)) :
    A.Scans R (Scan.expecting what select c) (Scan.expecting what select' d) := by
  -- without a token both complain of the end, at places that correspond
  obtain ⟨hc, hd⟩ | ⟨p, q, c', d', hc, hd, hkind, -, hcd⟩ := A.next h
  · rw [Scan.expecting_of_none hc, Scan.expecting_of_none hd]
    exact .fault (malformed h _)
  · have hpq := hselect p q hkind
    -- with one token each, both are accepted or neither is
    cases hp : select p with
    | none =>
      cases hq : select' q with
      | none =>
        rw [Scan.expecting_of_refused hc hp, Scan.expecting_of_refused hd hq, hkind]
        exact .fault (malformed h _)
      | some b =>
        rw [hp, hq] at hpq
        cases hpq
    | some a =>
      cases hq : select' q with
      | none =>
        rw [hp, hq] at hpq
        cases hpq
      | some b =>
        rw [hp, hq] at hpq
        rw [Scan.expecting_of_some hc hp, Scan.expecting_of_some hd hq]
        cases hpq with
        | some hab => exact .ok hab hcd

/-- Expecting a token of one kind. -/
theorem expect (h : A.Aligned c d) (kind : Kind) (what : String) :
    A.Scans (fun _ _ => True) (Scan.expect kind what c) (Scan.expect kind what d) := by
  refine expecting h what fun p q hpq => ?_
  rw [hpq]
  split
  · exact .some trivial
  · exact .none

/-- Expecting a name. -/
theorem identifier (h : A.Aligned c d) (what : String) :
    A.Scans Eq (Scan.identifier what c) (Scan.identifier what d) := by
  refine expecting h what fun p q hpq => ?_
  rw [hpq]
  cases q.kind.ident? with
  | none => exact .none
  | some name => exact .some rfl

/-! ### Stretches of tokens -/

/-- The tokens through the first one that is searched for. Where the steps last as long as the
tokens, it makes no difference how many there are. -/
private theorem through (done : Nat → Kind → Bool) (h : A.Aligned c d) {steps steps' : Nat}
    (hs : c.rest.length ≤ steps) (hs' : d.rest.length ≤ steps') (depth : Nat) :
    A.Scans Eq (Scan.through done steps depth c) (Scan.through done steps' depth d) := by
  induction steps generalizing c d steps' depth with
  | zero =>
    -- no steps are needed where no token is left
    obtain ⟨hc, hd⟩ | ⟨p, q, c', d', hc, -⟩ := A.next h
    · rw [Scan.through_of_none hc, Scan.through_of_none hd]
      exact .ok rfl h
    · have := Cursor.length_rest_of_next? hc
      omega
  | succ steps ih =>
    -- both read a token of the same kind, so both stop or both go on at the same depth
    obtain ⟨hc, hd⟩ | ⟨p, q, c', d', hc, hd, hkind, -, hcd⟩ := A.next h
    · rw [Scan.through_of_none hc, Scan.through_of_none hd]
      exact .ok rfl h
    · have hlt := Cursor.length_rest_of_next? hc
      have hlt' := Cursor.length_rest_of_next? hd
      obtain ⟨steps', rfl⟩ : ∃ n, steps' = n + 1 := ⟨steps' - 1, by omega⟩
      rw [Scan.through_of_next hc, Scan.through_of_next hd, hkind]
      split
      · exact .ok rfl hcd
      · exact ih hcd (by omega) (by omega) _

/-- The tokens of a block. -/
theorem block (h : A.Aligned c d) :
    A.Scans (fun xs ys => A.view xs = A.view ys) (Scan.block c) (Scan.block d) := by
  unfold Scan.block
  rw [get_bind, get_bind]
  -- where the search ends is the same for both
  refine .bind (through _ h (Nat.le_refl _) (Nat.le_refl _) 0) fun a b c' d' hx hy hab hcd => ?_
  subst hab
  cases a with
  -- what was passed on the way looks the same
  | true =>
    obtain ⟨ks, k, hreads⟩ := Scan.reads_of_through hx
    obtain ⟨ls, l, hreads'⟩ := Scan.reads_of_through hy
    exact .ok (A.passed h hcd hreads hreads') hcd
  -- without a closing brace the complaint is about the brace that was read before, or the end
  | false =>
    refine .fault (.of_cause fun hp => ?_)
    rw [A.behind h hp, A.here hcd hp]

/-- Stepping over a block. -/
theorem skipBlock (h : A.Aligned c d) :
    A.Scans (fun _ _ => True) (Scan.skipBlock c) (Scan.skipBlock d) :=
  .bind (block h) fun _ _ _ _ _ _ _ hcd => .ok trivial hcd

/-- The tokens in front of an opening brace. -/
theorem untilBrace (h : A.Aligned c d) (what : String) :
    A.Scans (fun xs ys => A.view xs = A.view ys) (Scan.untilBrace what c)
      (Scan.untilBrace what d) := by
  unfold Scan.untilBrace
  rw [get_bind, get_bind]
  refine .bind (through _ h (Nat.le_refl _) (Nat.le_refl _) 0) fun a b c' d' hx hy hab hcd => ?_
  subst hab
  cases a with
  | true =>
    obtain ⟨ks, k, hreads⟩ := Scan.reads_of_through hx
    obtain ⟨ls, l, hreads'⟩ := Scan.reads_of_through hy
    exact .ok (A.passed h hcd hreads hreads') hcd
  | false => exact .fault (malformed hcd _)

/-! ### Headers and skipped arms -/

/-- A type name. -/
theorem typeName (h : A.Aligned c d) : A.Scans Eq (Scan.typeName c) (Scan.typeName d) := by
  unfold Scan.typeName
  rw [get_bind, get_bind]
  refine .bind (identifier h _) fun name name' c' d' _ _ hname hcd => ?_
  subst hname
  split
  · exact .ok rfl hcd
  · cases Ty.ofName? name with
    | some type => exact .ok rfl hcd
    | none => exact .fault (malformed h _)

/-- A type annotation. -/
theorem typed (h : A.Aligned c d) :
    A.Scans Eq ( Scan.annotation c) ( Scan.annotation d) := by
  refine .bind (accept h _) fun a b c' d' _ _ hab hcd => ?_
  subst hab
  cases a with
  | true => exact typeName hcd
  | false => exact .ok rfl hcd

private theorem length_lt_of_expecting {what : String} {select : Token → Option α} {a : α}
    {c c' : Cursor} (h : Scan.expecting what select c = .ok a c') :
    c'.rest.length < c.rest.length := by
  obtain ⟨token, hnext, -⟩ := Scan.next_of_expecting h
  exact Cursor.length_rest_of_next? hnext

/-- One or more parameters. Each takes a step and a token at least. -/
theorem moreParameters (h : A.Aligned c d) {steps steps' : Nat}
    (hs : c.rest.length < steps) (hs' : d.rest.length < steps') :
    A.Scans Eq (Scan.moreParameters steps c) (Scan.moreParameters steps' d) := by
  induction steps generalizing c d steps' with
  | zero => omega
  -- a parameter has at least one token, so one step is left on either side
  | succ steps ih =>
    obtain ⟨steps', rfl⟩ : ∃ n, steps' = n + 1 := ⟨steps' - 1, by omega⟩
    unfold Scan.moreParameters
    refine .bind (identifier h _) fun name name' c₁ d₁ hx hy hname hcd₁ => ?_
    refine .bind (typed hcd₁) fun type type' c₂ d₂ hx₂ hy₂ htype hcd₂ => ?_
    subst hname htype
    -- the list ends with its bracket, or a comma and more parameters follow
    refine .bind (accept hcd₂ _) fun a b c₃ d₃ hx₃ hy₃ hab hcd₃ => ?_
    subst hab
    cases a with
    | true => exact .ok rfl hcd₃
    | false =>
      refine .bind (expect hcd₃ _ _) fun _ _ c₄ d₄ hx₄ hy₄ _ hcd₄ => ?_
      -- a parameter is a name at least, so fewer tokens are left than steps
      have hlt := length_lt_of_expecting hx
      have hlt' := length_lt_of_expecting hy
      have := Scan.Moves.typed.length_le hx₂
      have := Scan.Moves.typed.length_le hy₂
      have := (Scan.Moves.accept _).length_le hx₃
      have := (Scan.Moves.accept _).length_le hy₃
      have := (Scan.Moves.expecting ..).length_le hx₄
      have := (Scan.Moves.expecting ..).length_le hy₄
      refine .bind (ih hcd₄ (by omega) (by omega)) fun ps qs c₅ d₅ _ _ hpq hcd₅ => ?_
      exact .ok (hpq ▸ rfl) hcd₅

/-- A parameter list. -/
theorem parameters (h : A.Aligned c d) : A.Scans Eq (Scan.parameters c) (Scan.parameters d) := by
  refine .bind (accept h _) fun a b c' d' _ _ hab hcd => ?_
  subst hab
  cases a with
  | true => exact .ok rfl hcd
  | false => exact moreParameters hcd (Nat.lt_succ_self _) (Nat.lt_succ_self _)

/-- The arms that are not executed. -/
theorem skipMoreArms (h : A.Aligned c d) {steps steps' : Nat}
    (hs : c.rest.length ≤ steps) (hs' : d.rest.length ≤ steps') :
    A.Scans (fun _ _ => True) (Scan.skipMoreArms steps c) (Scan.skipMoreArms steps' d) := by
  induction steps generalizing c d steps' with
  | zero =>
    -- `else` is a token, so there is none where no step is left
    have hne : c.ahead ≠ some (.keyword .elseKw) := by
      intro helse
      obtain ⟨c', hreads⟩ := Cursor.reads_of_ahead helse
      have := hreads.length_rest
      rw [List.length_singleton] at this
      omega
    rw [Scan.skipMoreArms_of_ne hne, Scan.skipMoreArms_of_ne (ahead_eq h ▸ hne)]
    exact .ok trivial h
  | succ steps ih =>
    by_cases helse : c.ahead = some (.keyword .elseKw)
    · obtain ⟨c₁, hreads⟩ := Cursor.reads_of_ahead helse
      obtain ⟨d₁, hreads', hcd₁⟩ := reads h hreads
      have hlt := hreads.length_rest
      have hlt' := hreads'.length_rest
      rw [List.length_singleton] at hlt hlt'
      obtain ⟨steps', rfl⟩ : ∃ n, steps' = n + 1 := ⟨steps' - 1, by omega⟩
      rw [Scan.skipMoreArms, Scan.skipMoreArms, bind_of_ok (Scan.accept_of_reads hreads),
        bind_of_ok (Scan.accept_of_reads hreads')]
      refine .bind (accept hcd₁ _) fun a b c₂ d₂ hx₂ hy₂ hab hcd₂ => ?_
      subst hab
      -- every scan leaves fewer tokens, or as many, so the steps that are left are enough
      have := (Scan.Moves.accept _).length_le hx₂
      have := (Scan.Moves.accept _).length_le hy₂
      cases a with
      | true =>
        refine .bind (untilBrace hcd₂ _) fun _ _ c₃ d₃ hx₃ hy₃ _ hcd₃ => ?_
        refine .bind (skipBlock hcd₃) fun _ _ c₄ d₄ hx₄ hy₄ _ hcd₄ => ?_
        have := (Scan.Moves.untilBrace _).length_le hx₃
        have := (Scan.Moves.untilBrace _).length_le hy₃
        have := Scan.Moves.skipBlock.length_le hx₄
        have := Scan.Moves.skipBlock.length_le hy₄
        exact ih hcd₄ (by omega) (by omega)
      | false => exact .bind (expect hcd₂ _ _) fun _ _ _ _ _ _ _ hcd₃ => skipBlock hcd₃
    · rw [Scan.skipMoreArms_of_ne helse, Scan.skipMoreArms_of_ne (ahead_eq h ▸ helse)]
      exact .ok trivial h

/-- Stepping over the arms that are not executed. -/
theorem skipArms (h : A.Aligned c d) :
    A.Scans (fun _ _ => True) (Scan.skipArms c) (Scan.skipArms d) :=
  skipMoreArms h (Nat.le_refl _) (Nat.le_refl _)

end Alignment

namespace Reading

/-- At these cursors both readings end in the same way. -/
def Agree (A : Alignment) (R : α → β → Prop) (x : Reading α) (c : Cursor) (y : Reading β)
    (d : Cursor) : Prop :=
  Eval.Agree A.toTolerance (fun p q => R p.1 q.1 ∧ A.Aligned p.2 q.2) (x c) (y d)

namespace Agree

variable {A : Alignment} {R : α → β → Prop} {S : γ → δ → Prop} {c d : Cursor}

/-- Results that count as the same agree. -/
protected theorem pure {a : α} {b : β} (h : R a b) (hcd : A.Aligned c d) :
    Agree A R (pure a) c (pure b) d :=
  Eval.Agree.pure ⟨h, hcd⟩

/-- Readings that agree, followed by readings that agree on what the first ones give. -/
protected theorem bind {x : Reading α} {y : Reading β} {f : α → Reading γ} {g : β → Reading δ}
    (h : Agree A R x c y d)
    (hfg : ∀ a b c' d', R a b → A.Aligned c' d' → Agree A S (f a) c' (g b) d') :
    Agree A S (x >>= f) c (y >>= g) d :=
  Eval.Agree.bind h fun p q hpq => hfg p.1 q.1 p.2 q.2 hpq.1 hpq.2

/-- What is known of where readings land is known of their results. -/
theorem landing {x : Reading α} {y : Reading β} {P : α → Cursor → Prop} {Q : β → Cursor → Prop}
    (h : Agree A R x c y d) (hx : Lands x c P) (hy : Lands y d Q)
    {f : α → Reading γ} {g : β → Reading δ}
    (hfg : ∀ a b c' d', R a b → A.Aligned c' d' → P a c' → Q b d' →
      Agree A S (f a) c' (g b) d') :
    Agree A S (x >>= f) c (y >>= g) d := by
  refine Eval.Agree.bind
    (R := fun p q => (R p.1 q.1 ∧ A.Aligned p.2 q.2) ∧ P p.1 p.2 ∧ Q q.1 q.2) ?_
    fun p q hpq => hfg p.1 q.1 p.2 q.2 hpq.1.1 hpq.1.2 hpq.2.1 hpq.2.2
  intro s t hst
  have hends := h s t hst
  -- only where both have a result something is known of it
  cases hxs : x c s with
  | ok p s' =>
    cases hyt : y d t with
    | ok q t' =>
      rw [hxs, hyt] at hends
      cases hends with
      | ok hR hst' => exact .ok ⟨hR, hx _ _ _ _ hxs, hy _ _ _ _ hyt⟩ hst'
    -- the second one fails alone only by running out of fuel
    | error e t' =>
      rw [hxs, hyt] at hends
      cases hends with
      | second hT => exact .second hT
  | error e s' =>
    rw [hxs] at hends
    generalize y d t = q at hends ⊢
    -- and so does the first one
    cases hends with
    | fault hF hst' => exact .fault hF hst'
    | first hT => exact .first hT
    | second hT => exact .second hT

/-- Faults that count as the same agree. -/
theorem raiseAt {span span' : Span} (cause : Cause) (h : A.places → span = span') :
    Agree A R (Reading.raiseAt span cause) c (Reading.raiseAt span' cause) d :=
  Eval.Agree.fault (.of_cause fun hp => congrArg some (h hp))

/-- Adding places to faults. -/
theorem locate {x : Reading α} {y : Reading β} {span span' : Span} (h : Agree A R x c y d)
    (hs : A.places → span = span') :
    Agree A R (Reading.locate span x) c (Reading.locate span' y) d :=
  Eval.Agree.adaptFault h fun _ _ hfg => hfg.located hs

/-- Evaluations that agree and read nothing. -/
theorem lift {x : Eval α} {y : Eval β} (h : Eval.Agree A.toTolerance R x y)
    (hcd : A.Aligned c d) : Agree A R (liftM x) c (liftM y) d :=
  Eval.Agree.bind h fun _ _ hab => .pure ⟨hab, hcd⟩

/-- Scans that do the same. -/
theorem scan {x : Scan α} {y : Scan β} (h : A.Scans R (x c) (y d)) :
    Agree A R (Reading.scan x) c (Reading.scan y) d := by
  intro s t hst
  unfold Reading.scan
  generalize x c = p, y d = q at h ⊢
  cases h with
  | ok hab hcd => exact .ok ⟨hab, hcd⟩ hst
  | fault hF => exact .fault hF hst

/-- What follows a look at the cursor. -/
theorem getting {f : Cursor → Reading α} {g : Cursor → Reading β} (h : Agree A R (f c) c (g d) d) :
    Agree A R (MonadState.get >>= f) c (MonadState.get >>= g) d :=
  h

/-- Changing the results. -/
theorem map {R' : γ → δ → Prop} {x : Reading α} {y : Reading β} {f : α → γ} {g : β → δ}
    (h : Agree A R x c y d) (hfg : ∀ a b, R a b → R' (f a) (g b)) :
    Agree A R' (f <$> x) c (g <$> y) d :=
  Eval.Agree.bind h fun _ _ hpq => .pure ⟨hfg _ _ hpq.1, hpq.2⟩

/-- Looking at the next token. -/
theorem peek (hcd : A.Aligned c d) :
    Agree A (Option.Rel fun p q => p.kind = q.kind ∧ (A.places → p.span = q.span))
      Reading.peek c Reading.peek d := by
  refine .pure (a := c.peek) (b := d.peek) ?_ hcd
  rw [Cursor.peek_eq, Cursor.peek_eq]
  obtain ⟨hc, hd⟩ | ⟨p, q, c', d', hc, hd, hkind, hspan, -⟩ := A.next hcd
  · rw [hc, hd]
    exact .none
  · rw [hc, hd]
    exact .some ⟨hkind, hspan⟩

/-- Looking at the kind of the next token. -/
theorem peekKind (hcd : A.Aligned c d) :
    Agree A Eq Reading.peekKind c Reading.peekKind d := by
  refine .pure (a := c.peek.map Token.kind) (b := d.peek.map Token.kind) ?_ hcd
  rw [Cursor.peek_map_kind, Cursor.peek_map_kind, Alignment.ahead_eq hcd]

/-- The place of the next token. -/
theorem here (hcd : A.Aligned c d) :
    Agree A (fun p q => A.places → p = q) Reading.here c Reading.here d := by
  show Agree A (fun p q => A.places → p = q) (pure c.here) c (pure d.here) d
  exact .pure (A.here hcd) hcd

/-- Stepping over the next token. -/
theorem next (hcd : A.Aligned c d) :
    Agree A (Option.Rel fun p q => p.kind = q.kind ∧ (A.places → p.span = q.span))
      Reading.next c Reading.next d :=
  scan (Alignment.scanNext hcd)

/-- Accepting a token. -/
theorem accept (hcd : A.Aligned c d) (kind : Kind) :
    Agree A Eq (Reading.accept kind) c (Reading.accept kind) d :=
  scan (Alignment.accept hcd kind)

/-- Expecting a token. -/
theorem expect (hcd : A.Aligned c d) (kind : Kind) (what : String) :
    Agree A (fun _ _ => True) (Reading.expect kind what) c (Reading.expect kind what) d :=
  .bind (scan (Alignment.expect hcd kind what)) fun _ _ _ _ _ hcd' => .pure trivial hcd'

/-- Reading a token sequence of its own. -/
theorem onTokens {xs ys : List Token} {x : Reading α} {y : Reading β}
    (h : Agree A R x (.start xs) y (.start ys)) :
    Eval.Agree A.toTolerance R (Reading.onTokens xs x) (Reading.onTokens ys y) :=
  Eval.Agree.bind h fun _ _ hpq => .pure hpq.1

end Agree

end Reading

end Tern
