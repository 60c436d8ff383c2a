import Tern.Evaluation.Phrase
import Tern.Proofs.Stepping

/-!
# What scans do at a known place

Each scan is described by what the cursor reads: where the tokens ahead are known, so is the
result. The lemmas turn a reading step into an equation between evaluations, which removes the
cursor from a proof one token at a time.

## Key results

- `Reading.accept_of_reads`, `Reading.expect_of_reads`: steps over an expected token
- `Scan.untilBrace_of_reads`: the tokens in front of an opening brace
- `Scan.block_of_reads`: the tokens of a block, up to the brace that closes it
- `Scan.Moves`: scans go forward token by token
-/

namespace Tern

namespace Cursor

/-- The kind of the next token outside comments. -/
def ahead (c : Cursor) : Option Kind := c.next?.map (·.1.kind)

/-- Looking at the next token and stepping over it see the same token. -/
theorem peek_eq (c : Cursor) : c.peek = c.next?.map (·.1) := by
  unfold peek next?
  split <;> simp_all

/-- Looking at the kind of the next token. -/
theorem peek_map_kind (c : Cursor) : c.peek.map Token.kind = c.ahead := by
  rw [peek_eq, ahead, Option.map_map]
  rfl

/-- The next token is read. -/
theorem ahead_of_reads {c c' : Cursor} {kind : Kind} {kinds : List Kind}
    (h : Reads c (kind :: kinds) c') : c.ahead = some kind := by
  obtain ⟨token, c₁, hnext, hkind, -⟩ := h.of_cons
  simp [ahead, hnext, hkind]

/-- What is read next is determined. -/
theorem Reads.head_unique {c c₁ c₂ : Cursor} {k₁ k₂ : Kind} (h₁ : Reads c [k₁] c₁)
    (h₂ : Reads c [k₂] c₂) : k₁ = k₂ ∧ c₁ = c₂ := by
  have hk := (ahead_of_reads h₁).symm.trans (ahead_of_reads h₂)
  obtain rfl := Option.some.inj hk
  exact ⟨rfl, h₁.unique h₂⟩

/-- Only the next token is read. -/
theorem reads_of_ahead {c : Cursor} {kind : Kind} (h : c.ahead = some kind) :
    ∃ c', Reads c [kind] c' := by
  unfold ahead at h
  cases hnext : c.next? with
  | none => simp [hnext] at h
  | some p =>
    obtain ⟨token, c'⟩ := p
    simp only [hnext, Option.map_some, Option.some.injEq] at h
    exact ⟨c', h ▸ Reads.one hnext⟩

/-- Nothing is next where nothing but comments is left. -/
theorem ahead_of_bare_nil {c : Cursor} (h : Token.bare c.rest = []) : c.ahead = none := by
  rw [bare_rest] at h
  cases hnext : c.next? with
  | none => rw [ahead, hnext, Option.map_none]
  | some p =>
    rw [hnext] at h
    cases h

/-- Whether a kind of token is next. -/
theorem isAt_iff (c : Cursor) (kind : Kind) : c.isAt kind = true ↔ c.ahead = some kind := by
  unfold isAt
  rw [peek_eq, ahead]
  cases c.next? <;> simp

/-- At the end there is no next token. -/
theorem atEnd_iff (c : Cursor) : c.atEnd = true ↔ c.ahead = none := by
  unfold atEnd
  rw [peek_eq, ahead]
  cases c.next? <;> simp

end Cursor

/-- What follows a computation that has given a result. -/
theorem bind_of_ok {x : EStateM ε σ α} {f : α → EStateM ε σ β} {s s' : σ} {a : α}
    (h : x s = .ok a s') : (x >>= f) s = f a s' := by
  show EStateM.bind x f s = _
  rw [EStateM.bind, h]

/-- Nothing follows a computation that has failed. -/
theorem bind_of_error {x : EStateM ε σ α} {f : α → EStateM ε σ β} {s s' : σ} {e : ε}
    (h : x s = .error e s') : (x >>= f) s = .error e s' := by
  show EStateM.bind x f s = _
  rw [EStateM.bind, h]

/-- A sequence gives a result only if both parts do. -/
theorem ok_of_bind {x : EStateM ε σ α} {f : α → EStateM ε σ β} {s s' : σ} {b : β}
    (h : (x >>= f) s = .ok b s') : ∃ a s₁, x s = .ok a s₁ ∧ f a s₁ = .ok b s' := by
  cases hx : x s with
  | ok a s₁ =>
    rw [bind_of_ok hx] at h
    exact ⟨a, s₁, rfl, h⟩
  | error e s₁ =>
    rw [bind_of_error hx] at h
    cases h

/-- What follows a look at the state. -/
theorem get_bind (f : σ → EStateM ε σ β) (s : σ) : (get >>= f) s = f s s := rfl

open Cursor (Reads)

namespace Scan

/-! ### One token -/

/-- Stepping over a token that is there. -/
theorem next_of_some {c c' : Cursor} {token : Token} (h : c.next? = some (token, c')) :
    next c = .ok (some token) c' := by
  unfold next
  rw [get_bind, h]
  rfl

/-- Stepping over a token that is not there. -/
theorem next_of_none {c : Cursor} (h : c.next? = none) : next c = .ok none c := by
  unfold next
  rw [get_bind, h]
  rfl

/-- Stepping over comments that end. -/
theorem comments_of_closed {c : Cursor} (h : c.unclosed? = none) :
    comments c = .ok () c.settle := by
  unfold comments
  rw [get_bind, h]
  rfl

/-- Comments that do not end are not stepped over. -/
theorem comments_of_unclosed {c : Cursor} {mark : Token} (h : c.unclosed? = some mark) :
    comments c = .error (.malformed .unclosedComment mark.span) c := by
  unfold comments
  rw [get_bind, h]
  rfl

/-- Accepting the token that is next. -/
theorem accept_of_reads {c c' : Cursor} {kind : Kind} (h : Reads c [kind] c') :
    accept kind c = .ok true c' := by
  obtain ⟨token, c₁, hnext, -, hend⟩ := h.of_cons
  cases hend
  unfold accept
  rw [get_bind,
    if_pos ((Cursor.isAt_iff c kind).mpr (Cursor.ahead_of_reads h)),
    bind_of_ok (next_of_some hnext)]
  rfl

/-- Accepting nothing if another token is next. -/
theorem accept_of_ne {c : Cursor} {kind : Kind} (h : c.ahead ≠ some kind) :
    accept kind c = .ok false c := by
  unfold accept
  rw [get_bind,
    if_neg fun hat => h ((Cursor.isAt_iff c kind).mp hat)]
  rfl

/-- A token that is expected and fits. -/
theorem expecting_of_some {c c' : Cursor} {token : Token} {what : String}
    {select : Token → Option α} {result : α} (h : c.next? = some (token, c'))
    (hs : select token = some result) : expecting what select c = .ok result c' := by
  unfold expecting
  rw [get_bind, bind_of_ok (next_of_some h)]
  simp only [hs]
  rfl

/-- A token that is expected and does not fit. -/
theorem expecting_of_refused {c c' : Cursor} {token : Token} {what : String}
    {select : Token → Option α} (h : c.next? = some (token, c')) (hs : select token = none) :
    expecting what select c = .error (.malformed (.expected what token.kind.text) c.here) c' := by
  unfold expecting
  rw [get_bind, bind_of_ok (next_of_some h)]
  simp only [hs]
  rfl

/-- A token that is expected and not there. -/
theorem expecting_of_none {c : Cursor} {what : String} {select : Token → Option α}
    (h : c.next? = none) :
    expecting what select c = .error (.malformed (.endOfInput what) c.here) c := by
  unfold expecting
  rw [get_bind, bind_of_ok (next_of_none h)]
  rfl

/-- What is expected is there if the scan succeeds. -/
theorem next_of_expecting {c c' : Cursor} {what : String} {select : Token → Option α} {a : α}
    (h : expecting what select c = .ok a c') :
    ∃ token, c.next? = some (token, c') ∧ select token = some a := by
  -- there is a next token, and it is one of those that are asked for
  cases hnext : c.next? with
  | none =>
    rw [expecting_of_none hnext] at h
    cases h
  | some p =>
    obtain ⟨token, c₁⟩ := p
    cases hs : select token with
    | none =>
      rw [expecting_of_refused hnext hs] at h
      cases h
    | some result =>
      rw [expecting_of_some hnext hs] at h
      cases h
      exact ⟨token, rfl, hs⟩

/-- The token that is expected is there if the scan succeeds. -/
theorem reads_of_expect {c c' : Cursor} {kind : Kind} {what : String} {token : Token}
    (h : expect kind what c = .ok token c') : Reads c [kind] c' := by
  obtain ⟨token', hnext, hs⟩ := next_of_expecting h
  by_cases hk : token'.kind = kind
  · exact hk ▸ Reads.one hnext
  · rw [if_neg hk] at hs
    cases hs

/-- A token that is expected and there. -/
theorem expect_of_reads {c c' : Cursor} {kind : Kind} (h : Reads c [kind] c') (what : String) :
    ∃ token, expect kind what c = .ok token c' := by
  obtain ⟨token, c₁, hnext, hkind, hend⟩ := h.of_cons
  cases hend
  exact ⟨token, expecting_of_some hnext (by rw [if_pos hkind])⟩

/-- A name that is expected and there. -/
theorem identifier_of_reads {c c' : Cursor} {name : String} (h : Reads c [.ident name] c')
    (what : String) : identifier what c = .ok name c' := by
  obtain ⟨token, c₁, hnext, hkind, hend⟩ := h.of_cons
  cases hend
  exact expecting_of_some hnext (by rw [hkind]; rfl)

/-! ### Stretches of tokens -/

/-- The nesting of braces behind a token; none if it closes a brace that was not opened. -/
def nest : (kind : Kind) → (depth : Nat) → Option Nat
  | .symbol .leftBrace, depth => some (depth + 1)
  | .symbol .rightBrace, 0 => none
  | .symbol .rightBrace, depth + 1 => some depth
  | _, depth => some depth

/-- The nesting of braces behind tokens of these kinds. -/
def nesting (depth : Nat) (kinds : List Kind) : Option Nat :=
  kinds.foldlM (fun depth kind => nest kind depth) depth

/-- The nesting behind a first token and others. -/
theorem nesting_cons (depth : Nat) (kind : Kind) (kinds : List Kind) :
    nesting depth (kind :: kinds) = (nest kind depth).bind (nesting · kinds) := rfl

/-- Tokens among which every brace has its partner. -/
def Balanced (kinds : List Kind) : Prop := ∀ depth, nesting depth kinds = some depth

/-- Nothing is balanced. -/
theorem Balanced.nil : Balanced [] := fun _ => rfl

/-- The nesting behind two stretches in a row. -/
theorem nesting_append (depth : Nat) (kinds more : List Kind) :
    nesting depth (kinds ++ more) = (nesting depth kinds).bind (nesting · more) := by
  unfold nesting
  rw [List.foldlM_append]
  rfl

/-- Balanced stretches in a row are balanced. -/
theorem Balanced.append {kinds more : List Kind} (h : Balanced kinds) (h' : Balanced more) :
    Balanced (kinds ++ more) := by
  intro depth
  rw [nesting_append, h depth]
  exact h' depth

/-- A token that is no brace keeps the nesting. -/
theorem nest_of_ne {kind : Kind} (hl : kind ≠ .symbol .leftBrace)
    (hr : kind ≠ .symbol .rightBrace) (depth : Nat) : nest kind depth = some depth := by
  unfold nest
  split <;> simp_all

/-- A token that is no brace, and a balanced stretch. -/
theorem Balanced.cons {kind : Kind} {kinds : List Kind} (hl : kind ≠ .symbol .leftBrace)
    (hr : kind ≠ .symbol .rightBrace) (h : Balanced kinds) : Balanced (kind :: kinds) := by
  intro depth
  rw [nesting_cons, nest_of_ne hl hr]
  exact h depth

/-- A balanced stretch in braces is balanced. -/
theorem Balanced.braces {kinds : List Kind} (h : Balanced kinds) :
    Balanced (.symbol .leftBrace :: kinds ++ [.symbol .rightBrace]) := by
  intro depth
  rw [nesting_append]
  show (nesting (depth + 1) kinds).bind _ = _
  rw [h (depth + 1)]
  rfl

/-- What a token does to the nesting. -/
theorem nest_cases {kind : Kind} {depth next : Nat} (h : nest kind depth = some next) :
    (kind = .symbol .leftBrace ∧ next = depth + 1) ∨
      (kind = .symbol .rightBrace ∧ depth = next + 1) ∨
      (kind ≠ .symbol .leftBrace ∧ kind ≠ .symbol .rightBrace ∧ next = depth) := by
  by_cases hl : kind = .symbol .leftBrace
  · subst hl
    exact .inl ⟨rfl, (Option.some.inj h).symm⟩
  · by_cases hr : kind = .symbol .rightBrace
    · subst hr
      cases depth with
      | zero => cases h
      | succ depth => exact .inr (.inl ⟨rfl, congrArg (· + 1) (Option.some.inj h)⟩)
    · rw [nest_of_ne hl hr] at h
      exact .inr (.inr ⟨hl, hr, (Option.some.inj h).symm⟩)

/-- The nesting is lost only at a closing brace where none is open. -/
theorem nest_eq_none {kind : Kind} {depth : Nat} (h : nest kind depth = none) :
    kind = .symbol .rightBrace ∧ depth = 0 := by
  unfold nest at h
  split at h <;> simp_all

/-- More braces around change nothing inside. -/
theorem nesting_add {kinds : List Kind} {depth left : Nat} (h : nesting depth kinds = some left)
    (more : Nat) : nesting (depth + more) kinds = some (left + more) := by
  -- each kind changes the depth by as much, wherever it begins
  induction kinds generalizing depth with
  | nil =>
    cases h
    rfl
  | cons kind kinds ih =>
    rw [nesting_cons] at h ⊢
    obtain ⟨next, hnest, hrest⟩ := Option.bind_eq_some_iff.mp h
    have hnest' : nest kind (depth + more) = some (next + more) := by
      rcases nest_cases hnest with ⟨rfl, rfl⟩ | ⟨rfl, rfl⟩ | ⟨hl, hr, rfl⟩
      · rw [Nat.add_right_comm]
        rfl
      · rw [Nat.add_right_comm]
        rfl
      · exact nest_of_ne hl hr _
    rw [hnest']
    exact ih hrest

/-- What leaves no brace open, and closes none from outside, is balanced. -/
theorem balanced_iff {kinds : List Kind} : Balanced kinds ↔ nesting 0 kinds = some 0 := by
  refine ⟨fun h => h 0, fun h depth => ?_⟩
  simpa using nesting_add h depth

/-- A search finds nothing where nothing is ahead. -/
theorem through_of_none {c : Cursor} (h : c.next? = none) (done : Nat → Kind → Bool)
    (steps depth : Nat) : through done steps depth c = .ok false c := by
  cases steps with
  | zero => rfl
  | succ steps =>
    rw [through, bind_of_ok (next_of_none h)]
    rfl

/-- The depth at which a search goes on behind a token. -/
def depthBehind (kind : Kind) (depth : Nat) : Nat :=
  if kind = .symbol .leftBrace then depth + 1
  else if kind = .symbol .rightBrace then depth - 1
  else depth

/-- A search ends with the next token or goes on behind it. -/
theorem through_of_next {c c' : Cursor} {token : Token} (h : c.next? = some (token, c'))
    (done : Nat → Kind → Bool) (steps depth : Nat) :
    through done (steps + 1) depth c =
      if done depth token.kind then .ok true c'
      else through done steps (depthBehind token.kind depth) c' := by
  rw [through, bind_of_ok (next_of_some h)]
  unfold depthBehind
  simp only
  split
  · rfl
  · split
    · rfl
    · split <;> rfl

/-- If there is a step for every token ahead, there are enough behind the next one as well. -/
theorem through_of_reads {c c' : Cursor} {kind : Kind} {kinds : List Kind} {steps : Nat}
    (h : Reads c (kind :: kinds) c') (hs : c.rest.length ≤ steps) :
    ∃ c₁ steps', Reads c₁ kinds c' ∧ c₁.rest.length ≤ steps' ∧
      ∀ done depth, through done steps depth c =
        if done depth kind then .ok true c₁
        else through done steps' (depthBehind kind depth) c₁ := by
  obtain ⟨token, c₁, hnext, rfl, hrest⟩ := h.of_cons
  have hlength := Cursor.length_rest_of_next? hnext
  obtain ⟨steps, rfl⟩ : ∃ n, steps = n + 1 := ⟨steps - 1, by omega⟩
  exact ⟨c₁, steps, hrest, by omega, fun done depth => through_of_next hnext done steps depth⟩

/-- A search that succeeds does so with the next token or behind it. -/
theorem next_of_through {done : Nat → Kind → Bool} {steps depth : Nat} {c c' : Cursor}
    (h : through done (steps + 1) depth c = .ok true c') :
    ∃ token c₁, c.next? = some (token, c₁) ∧
      (done depth token.kind = true ∧ c₁ = c' ∨
        done depth token.kind = false ∧
          through done steps (depthBehind token.kind depth) c₁ = .ok true c') := by
  -- the search has found something, so there is a next token
  cases hnext : c.next? with
  | none =>
    rw [through_of_none hnext] at h
    cases h
  | some p =>
    obtain ⟨token, c₁⟩ := p
    refine ⟨token, c₁, rfl, ?_⟩
    rw [through_of_next hnext] at h
    split at h
    · cases h
      exact .inl ⟨‹_›, rfl⟩
    · exact .inr ⟨Bool.eq_false_iff.mpr ‹_›, h⟩

/-- A search that succeeds has read at least the token it was for. -/
theorem reads_of_through {done : Nat → Kind → Bool} {steps depth : Nat} {c c' : Cursor}
    (h : through done steps depth c = .ok true c') : ∃ kinds kind, Reads c (kinds ++ [kind]) c' := by
  induction steps generalizing depth c with
  | zero => cases h
  | succ steps ih =>
    obtain ⟨token, c₁, hnext, ⟨-, rfl⟩ | ⟨-, hmore⟩⟩ := next_of_through h
    · exact ⟨[], token.kind, .one hnext⟩
    · -- a search that goes on has read one token more than from there
      obtain ⟨kinds, kind, hreads⟩ := ih hmore
      exact ⟨token.kind :: kinds, kind, .cons hnext hreads⟩

/-- Without `else` no arm is stepped over. -/
theorem skipMoreArms_of_ne {c : Cursor} (h : c.ahead ≠ some (.keyword .elseKw)) (steps : Nat) :
    skipMoreArms steps c = .ok () c := by
  cases steps with
  | zero => rfl
  | succ steps =>
    rw [skipMoreArms, bind_of_ok (accept_of_ne h)]
    rfl

/-- What ends the search for a closing brace. -/
private abbrev closes (depth : Nat) (kind : Kind) : Bool :=
  depth == 0 && kind == .symbol .rightBrace

/-- The search goes on at the nesting behind a token, unless that closes what was not opened. -/
private theorem nest_eq (kind : Kind) (depth : Nat) :
    nest kind depth = if closes depth kind then none else some (depthBehind kind depth) := by
  by_cases hl : kind = .symbol .leftBrace
  · subst hl
    simp [nest, depthBehind]
  by_cases hr : kind = .symbol .rightBrace
  · subst hr
    cases depth <;> simp [nest, depthBehind]
  · rw [nest_of_ne hl hr]
    simp [depthBehind, hl, hr]

private theorem through_closes {c c' : Cursor} {kinds : List Kind} {depth steps : Nat}
    (h : Reads c (kinds ++ [.symbol .rightBrace]) c') (hn : nesting depth kinds = some 0)
    (hs : c.rest.length ≤ steps) : through closes steps depth c = .ok true c' := by
  induction kinds generalizing c depth steps with
  -- the braces in between are matched, so none of them closes the search
  | nil =>
    cases hn
    obtain ⟨c₁, steps', hend, -, hthrough⟩ := through_of_reads h hs
    cases hend
    rw [hthrough]
    rfl
  | cons kind kinds ih =>
    -- one kind is read, and the search goes on at the depth behind it
    obtain ⟨c₁, steps', hrest, hs', hthrough⟩ := through_of_reads h hs
    rw [nesting_cons, nest_eq] at hn
    rw [hthrough]
    split at hn
    · cases hn
    · rw [if_neg ‹_›]
      exact ih hrest hn hs'

/-- A block whose tokens are balanced ends with the brace behind them. -/
theorem block_of_reads {c c' : Cursor} {kinds : List Kind}
    (h : Reads c (kinds ++ [.symbol .rightBrace]) c') (hb : Balanced kinds) :
    block c = .ok (c'.passedSince c.position).dropLast c' := by
  unfold block
  rw [get_bind, bind_of_ok (through_closes h (hb 0) (Nat.le_refl _))]
  rfl

private theorem reads_of_closes {c c' : Cursor} {depth steps : Nat}
    (h : through closes steps depth c = .ok true c') :
    ∃ kinds, Reads c (kinds ++ [.symbol .rightBrace]) c' ∧ nesting depth kinds = some 0 := by
  induction steps generalizing c depth with
  | zero => cases h
  | succ steps ih =>
    obtain ⟨token, c₁, hnext, ⟨hcloses, rfl⟩ | ⟨hopen, hmore⟩⟩ := next_of_through h
    -- the token closes the search, or it is one of those in between
    · obtain ⟨hdepth, hkind⟩ : depth = 0 ∧ token.kind = .symbol .rightBrace := by
        simpa using hcloses
      refine ⟨[], hkind ▸ .one hnext, ?_⟩
      rw [hdepth]
      rfl
    · obtain ⟨kinds, hreads, hnesting⟩ := ih hmore
      refine ⟨token.kind :: kinds, .cons hnext hreads, ?_⟩
      rw [nesting_cons, nest_eq, hopen]
      exact hnesting

/-- A block that is found ends with the first brace that closes nothing inside it. -/
theorem reads_of_block {c c' : Cursor} {body : List Token} (h : block c = .ok body c') :
    ∃ kinds, Reads c (kinds ++ [.symbol .rightBrace]) c' ∧ Balanced kinds := by
  obtain ⟨start, c₁, hstart, h⟩ := ok_of_bind h
  cases hstart
  obtain ⟨closed, c₂, hthrough, h⟩ := ok_of_bind h
  -- a block is found only if the search has found its brace
  cases closed with
  | true =>
    cases h
    obtain ⟨kinds, hreads, hkinds⟩ := reads_of_closes hthrough
    exact ⟨kinds, hreads, balanced_iff.mpr hkinds⟩
  | false =>
    obtain ⟨stop, c₃, -, h⟩ := ok_of_bind h
    cases h

/-- The tokens of a block are those passed, without the closing brace. -/
theorem passed_of_block {c c' : Cursor} {body : List Token} (h : block c = .ok body c') :
    body = (c'.passedSince c.position).dropLast := by
  obtain ⟨start, c₁, hstart, h⟩ := ok_of_bind h
  cases hstart
  obtain ⟨closed, c₂, -, h⟩ := ok_of_bind h
  split at h
  · cases h
    rfl
  · obtain ⟨stop, c₃, -, h⟩ := ok_of_bind h
    cases h

/-- The tokens of a block were ahead. -/
theorem infix_of_block {c c' : Cursor} {body : List Token} (h : block c = .ok body c') :
    body <:+: c.rest := by
  obtain ⟨kinds, hreads, -⟩ := reads_of_block h
  rw [passed_of_block h]
  exact hreads.dropLast_passedSince_infix

/-- What ends the search for an opening brace. -/
private abbrev opens (_ : Nat) (kind : Kind) : Bool := kind == .symbol .leftBrace

private theorem through_opens {c c' : Cursor} {kinds : List Kind} {depth steps : Nat}
    (h : Reads c (kinds ++ [.symbol .leftBrace]) c') (hk : .symbol .leftBrace ∉ kinds)
    (hs : c.rest.length ≤ steps) : through opens steps depth c = .ok true c' := by
  induction kinds generalizing c depth steps with
  | nil =>
    obtain ⟨c₁, steps', hend, -, hthrough⟩ := through_of_reads h hs
    cases hend
    rw [hthrough]
    rfl
  | cons kind kinds ih =>
    -- no other kind opens a block, whatever the depth
    obtain ⟨c₁, steps', hrest, hs', hthrough⟩ := through_of_reads h hs
    rw [List.mem_cons, not_or] at hk
    obtain ⟨hne, hk⟩ := hk
    rw [hthrough, if_neg (by simpa using Ne.symm hne)]
    exact ih hrest hk hs'

/-- The tokens up to an opening brace. -/
theorem untilBrace_of_reads {c c' : Cursor} {kinds : List Kind}
    (h : Reads c (kinds ++ [.symbol .leftBrace]) c') (hk : .symbol .leftBrace ∉ kinds)
    (what : String) : untilBrace what c = .ok (c'.passedSince c.position).dropLast c' := by
  unfold untilBrace
  rw [get_bind, bind_of_ok (through_opens h hk (Nat.le_refl _))]
  rfl

private theorem reads_of_opens {c c' : Cursor} {depth steps : Nat}
    (h : through opens steps depth c = .ok true c') :
    ∃ kinds, Reads c (kinds ++ [.symbol .leftBrace]) c' ∧ .symbol .leftBrace ∉ kinds := by
  induction steps generalizing c depth with
  | zero => cases h
  | succ steps ih =>
    obtain ⟨token, c₁, hnext, ⟨hopens, rfl⟩ | ⟨hnot, hmore⟩⟩ := next_of_through h
    · have hkind : token.kind = .symbol .leftBrace := by simpa using hopens
      exact ⟨[], hkind ▸ .one hnext, List.not_mem_nil⟩
    · obtain ⟨kinds, hreads, hnone⟩ := ih hmore
      have hne : token.kind ≠ .symbol .leftBrace := by simpa using hnot
      exact ⟨token.kind :: kinds, .cons hnext hreads, by simp [hne.symm, hnone]⟩

/-- What is found in front of an opening brace has none itself. -/
theorem reads_of_untilBrace {c c' : Cursor} {what : String} {condition : List Token}
    (h : untilBrace what c = .ok condition c') :
    condition = (c'.passedSince c.position).dropLast ∧
      ∃ kinds, Reads c (kinds ++ [.symbol .leftBrace]) c' ∧ .symbol .leftBrace ∉ kinds := by
  obtain ⟨start, c₁, hstart, h⟩ := ok_of_bind h
  cases hstart
  obtain ⟨found, c₂, hthrough, h⟩ := ok_of_bind h
  cases found with
  | true =>
    cases h
    exact ⟨rfl, reads_of_opens hthrough⟩
  | false =>
    obtain ⟨stop, c₃, -, h⟩ := ok_of_bind h
    cases h

/-! ### Scans go forward -/

/-- Where the scan succeeds it has read token by token. -/
def Moves (x : Scan α) : Prop := ∀ ⦃c a c'⦄, x c = .ok a c' → ∃ kinds, Reads c kinds c'

namespace Moves

/-- Nothing is behind the cursor that was ahead of it before. -/
theorem length_le {x : Scan α} (h : Moves x) {c c' : Cursor} {a : α} (hx : x c = .ok a c') :
    c'.rest.length ≤ c.rest.length := by
  obtain ⟨kinds, hreads⟩ := h hx
  have := hreads.length_rest
  omega

protected theorem pure (a : α) : Moves (pure a) := by
  intro c a' c' hx
  cases hx
  exact ⟨[], .nil c⟩

protected theorem throw (fault : Fault) : Moves (throw fault : Scan α) := by
  intro c a' c' hx
  cases hx

protected theorem get : Moves (MonadState.get : Scan Cursor) := by
  intro c a' c' hx
  cases hx
  exact ⟨[], .nil c⟩

/-- Scans in sequence. -/
protected theorem bind {x : Scan α} {f : α → Scan β} (h : Moves x) (hf : ∀ a, Moves (f a)) :
    Moves (x >>= f) := by
  intro c b c' hx
  cases h₁ : x c with
  | ok a c₁ =>
    rw [bind_of_ok h₁] at hx
    obtain ⟨kinds, hreads⟩ := h h₁
    obtain ⟨more, hreads'⟩ := hf a hx
    exact ⟨kinds ++ more, hreads.append hreads'⟩
  | error f c₁ =>
    rw [bind_of_error h₁] at hx
    cases hx

theorem next : Moves Scan.next := by
  intro c a c' hx
  cases hnext : c.next? with
  | none =>
    rw [next_of_none hnext] at hx
    cases hx
    exact ⟨[], .nil c⟩
  | some p =>
    rw [next_of_some hnext] at hx
    cases hx
    exact ⟨_, .one hnext⟩

theorem accept (kind : Kind) : Moves (Scan.accept kind) := by
  refine .bind .get fun c => ?_
  split
  · exact .bind next fun _ => .pure true
  · exact .pure false

theorem expecting (what : String) (select : Token → Option α) :
    Moves (Scan.expecting what select) := by
  intro c a c' hx
  obtain ⟨token, hnext, -⟩ := next_of_expecting hx
  exact ⟨_, .one hnext⟩

theorem through (done : Nat → Kind → Bool) (steps depth : Nat) :
    Moves (Scan.through done steps depth) := by
  -- the search reads token by token, so it moves as they do
  induction steps generalizing depth with
  | zero => exact .pure false
  | succ steps ih =>
    refine .bind next fun token => ?_
    split
    · exact .pure false
    · split
      · exact .pure true
      · split
        · exact ih _
        · split
          · exact ih _
          · exact ih _

theorem block : Moves Scan.block := by
  refine .bind .get fun start => .bind (through ..) fun found => ?_
  split
  · exact .bind .get fun _ => .pure _
  · exact .bind .get fun _ => .throw _

theorem skipBlock : Moves Scan.skipBlock :=
  .bind block fun _ => .pure ()

theorem untilBrace (what : String) : Moves (Scan.untilBrace what) := by
  refine .bind .get fun start => .bind (through ..) fun found => ?_
  split
  · exact .bind .get fun _ => .pure _
  · exact .bind .get fun _ => .throw _

theorem typed : Moves Scan.annotation := by
  refine .bind (accept _) fun colon => ?_
  split
  · refine .bind .get fun _ => .bind (expecting ..) fun name => ?_
    split
    · exact .pure none
    · split
      · exact .pure _
      · exact .throw _
  · exact .pure none

private theorem moreParameters (steps : Nat) : Moves (Scan.moreParameters steps) := by
  induction steps with
  | zero => exact .pure _
  | succ steps ih =>
    refine .bind (expecting ..) fun name => .bind typed fun type => ?_
    refine .bind (accept _) fun closed => ?_
    split
    · exact .pure _
    · exact .bind (expecting ..) fun _ => .bind ih fun _ => .pure _

theorem parameters : Moves Scan.parameters := by
  refine .bind (accept _) fun closed => ?_
  split
  · exact .pure _
  · exact .bind .get fun _ => moreParameters _

private theorem skipMoreArms (steps : Nat) : Moves (Scan.skipMoreArms steps) := by
  induction steps with
  | zero => exact .pure ()
  | succ steps ih =>
    -- each arm is read by parts that move
    refine .bind (accept _) fun found => ?_
    split
    · refine .bind (accept _) fun again => ?_
      split
      · exact .bind (untilBrace _) fun _ => .bind skipBlock fun _ => ih
      · exact .bind (expecting ..) fun _ => skipBlock
    · exact .pure ()

theorem skipArms : Moves Scan.skipArms := .bind .get fun _ => skipMoreArms _

end Moves

end Scan

namespace Reading

/-! ### Steps of an evaluation -/

/-- A scan that gives a result moves the cursor and does nothing else. -/
theorem scan_of_ok {x : Scan α} {c c' : Cursor} {a : α} (h : x c = .ok a c') :
    scan x c = pure (a, c') := by
  funext s
  unfold scan
  rw [h]
  rfl

/-- A scan that fails makes the evaluation fail. -/
theorem scan_of_error {x : Scan α} {c c' : Cursor} {f : Fault} (h : x c = .error f c') :
    scan x c = throw (.fault f) := by
  funext s
  unfold scan
  rw [h]
  rfl

/-- What follows a step that only moves the cursor. -/
theorem bind_of_pure {x : Reading α} {f : α → Reading β} {c c' : Cursor} {a : α}
    (h : x c = pure (a, c')) : (x >>= f) c = f a c' := by
  show (x c >>= fun p => f p.1 p.2) = _
  rw [h]
  rfl

/-- What follows a step that has given a result. -/
theorem bind_of_eq_ok {x : Reading α} {f : α → Reading β} {c c' : Cursor} {s s' : Session} {a : α}
    (h : x c s = .ok (a, c') s') : (x >>= f) c s = f a c' s' := by
  show (x c >>= fun p => f p.1 p.2) s = _
  rw [bind_of_ok h]

/-- Nothing follows a step that has failed. -/
theorem bind_of_eq_error {x : Reading α} {f : α → Reading β} {c : Cursor} {s s' : Session}
    {halt : Halt} (h : x c s = .error halt s') : (x >>= f) c s = .error halt s' := by
  show (x c >>= fun p => f p.1 p.2) s = _
  rw [bind_of_error h]

/-- What follows a look at the cursor. -/
theorem cursor_bind (f : Cursor → Reading α) (c : Cursor) :
    ((MonadState.get : Reading Cursor) >>= f) c = f c c := rfl

/-- What follows a look at the session. -/
theorem session_bind (f : Session → Reading α) (c : Cursor) (s : Session) :
    ((getThe Session : Reading Session) >>= f) c s = f s c s := rfl

/-- What follows a look at the next token. -/
theorem peek_bind (f : Option Token → Reading α) (c : Cursor) :
    (peek >>= f) c = f c.peek c := rfl

/-- What follows a look at the kind of the next token. -/
theorem peekKind_bind (f : Option Kind → Reading α) (c : Cursor) :
    (peekKind >>= f) c = f c.ahead c := by
  rw [← c.peek_map_kind]
  rfl

/-- What follows a look at the place of the next token. -/
theorem here_bind (f : Span → Reading α) (c : Cursor) : (here >>= f) c = f c.here c := rfl

/-- Stepping over a token that is there. -/
theorem next_of_some {c c' : Cursor} {token : Token} (h : c.next? = some (token, c')) :
    next c = pure (some token, c') :=
  scan_of_ok (Scan.next_of_some h)

/-- What follows a step over a token that is there. -/
theorem next_bind_of_reads {c c' : Cursor} {kind : Kind} (h : Reads c [kind] c')
    (f : Reading α) : (next >>= fun _ => f) c = f c' := by
  obtain ⟨token, c₁, hnext, -, hend⟩ := h.of_cons
  cases hend
  exact bind_of_pure (next_of_some hnext)

/-- Accepting the token that is next. -/
theorem accept_of_reads {c c' : Cursor} {kind : Kind} (h : Reads c [kind] c') :
    accept kind c = pure (true, c') :=
  scan_of_ok (Scan.accept_of_reads h)

/-- Accepting nothing if another token is next. -/
theorem accept_of_ne {c : Cursor} {kind : Kind} (h : c.ahead ≠ some kind) :
    accept kind c = pure (false, c) :=
  scan_of_ok (Scan.accept_of_ne h)

/-- A token that is expected and there. -/
theorem expect_of_reads {c c' : Cursor} {kind : Kind} (h : Reads c [kind] c') (what : String) :
    expect kind what c = pure ((), c') := by
  obtain ⟨token, hexpect⟩ := Scan.expect_of_reads h what
  unfold expect
  rw [bind_of_pure (scan_of_ok hexpect)]
  rfl

end Reading

end Tern
