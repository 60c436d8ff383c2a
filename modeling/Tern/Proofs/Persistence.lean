import Tern.Proofs.Consumption

/-!
# What follows a statement

Statements have no mark at their end: a statement ends where nothing that is ahead carries it on. So
what a statement does depends on the token behind it, but only on whether that token carries it on.
Here tokens are added behind all others, the first of which does not. Whatever was evaluated with
success at the end of the tokens is evaluated in the same way in front of more of them.

At the very end a reading may look for a token, not find it, and go on. In front of more tokens it
might find it. Then the reading has to fail at the end for another reason; an optional type, for
one, is followed by a token that has to be there.

## Key results

- `Cursor.ahead_extend`: what is next in front of more tokens
- `Scan.Persists`, `Reading.Persists`: scans and readings that do the same in front of more tokens
- `Phrase.persistent`: expressions and conditionals do
- `Persistent.attempt`: so does every construct
-/

namespace Tern

open Cursor (Reads)
open Reading (Lands)

/-- Whether the token can carry a statement on: it belongs to a comment, is an operator between two
operands, acts on a name in front of it, or adds an arm to a conditional. -/
def Kind.CarriesOn (kind : Kind) : Prop :=
  kind.isComment = true ∨ (∃ op : BinaryOp, kind = .symbol op.mark) ∨ kind.actsOnName = true ∨
    kind = .keyword .elseKw

theorem Kind.carriesOn_else : CarriesOn (.keyword .elseKw) := .inr (.inr (.inr rfl))

/-- Tokens of which the first carries no statement on. -/
def Token.StartAnew (tokens : List Token) : Prop :=
  ∀ token ∈ tokens.head?, ¬token.kind.CarriesOn

/-- The first of them begins no comment. -/
theorem Token.StartAnew.isPlain {tokens : List Token} (h : StartAnew tokens) :
    ∀ token ∈ tokens.head?, token.kind.isPlain = true := by
  intro token htoken
  have hcomment : token.kind.isComment ≠ true := fun hc => h token htoken (.inl hc)
  exact Kind.isPlain_of_isComment (Bool.not_eq_true _ ▸ hcomment)

/-- The first of them is no operator between two operands. -/
theorem Token.StartAnew.absent {tokens : List Token} (h : StartAnew tokens) (tier : Tier) :
    tier.Absent (tokens.head?.map (·.kind)) := by
  cases hhead : tokens.head? with
  | none => rfl
  | some token =>
    show tier.operator? token.kind = none
    cases hop : tier.operator? token.kind with
    | none => rfl
    | some op =>
      have hkind := (Tier.operator?_eq_some_iff.mp hop).1
      exact absurd (.inr (.inl ⟨op, hkind⟩)) (h token hhead)

/-- The first of them does nothing to a name in front of it. -/
theorem Token.StartAnew.inert {tokens : List Token} (h : StartAnew tokens) :
    (tokens.head?.map (·.kind)).any Kind.actsOnName = false := by
  cases hhead : tokens.head? with
  | none => rfl
  | some token =>
    show token.kind.actsOnName = false
    rw [← Bool.not_eq_true]
    exact fun hacts => h token hhead (.inr (.inr (.inl hacts)))

namespace Cursor

/-- The cursor with more tokens behind those that are ahead. -/
def extend (c : Cursor) (tail : List Token) : Cursor := ⟨c.seen, c.rest ++ tail⟩

@[simp] theorem length_rest_extend (c : Cursor) (tail : List Token) :
    (c.extend tail).rest.length = c.rest.length + tail.length := List.length_append

/-- What is in front stays in front. -/
theorem front_extend {c : Cursor} {token : Token} (h : c.front = some token) (tail : List Token) :
    (c.extend tail).front = some token := by
  obtain ⟨rest, hrest⟩ := List.head?_eq_some_iff.mp h
  rw [front, extend, hrest]
  rfl

/-- Every comment that is ahead ends. -/
def Closed (c : Cursor) : Prop := Kind.bare (.symbol .commentOpen) ∉ Token.bare c.rest

/-- Where tokens were read, comments end. -/
theorem Closed.of_reads {c c' : Cursor} {kinds : List Kind} (h : c.Closed)
    (hreads : Reads c kinds c') : c'.Closed := by
  intro hmem
  refine h ?_
  rw [hreads.bare_rest]
  exact List.mem_append_right _ hmem

/-- Nor do those in front of tokens that are read end later. -/
theorem Closed.reads_of {c c' : Cursor} {kinds : List Kind} (h : c'.Closed)
    (hreads : Reads c kinds c') : c.Closed := by
  intro hmem
  rw [hreads.bare_rest] at hmem
  rcases List.mem_append.mp hmem with hmem | hmem
  · obtain ⟨kind, hkind, heq⟩ := List.mem_map.mp hmem
    have hplain := hreads.isPlain kind hkind
    rw [(Token.mk.inj heq).1] at hplain
    cases hplain
  · exact h hmem

/-- No comment in front lacks its end. -/
theorem Closed.unclosed? {c : Cursor} (h : c.Closed) : c.unclosed? = none := by
  cases hopen : c.unclosed? with
  | none => rfl
  | some mark =>
    refine absurd ?_ h
    rw [bare_of_unclosed hopen]
    exact List.mem_cons_self

theorem Closed.settle {c : Cursor} (h : c.Closed) : c.settle.Closed := by
  unfold Closed
  rw [bare_rest_settle h.unclosed?]
  exact h

/-- There is a token unless the cursor is at the end. -/
theorem exists_next? {c : Cursor} (hmore : c.ahead ≠ none) :
    ∃ token c', c.next? = some (token, c') := by
  cases hnext : c.next? with
  | none => exact absurd (Option.map_eq_none_iff.mpr hnext) hmore
  | some p => exact ⟨p.1, p.2, rfl⟩

section

variable {tail : List Token} (htail : Token.StartAnew tail)

include htail

private theorem settleFrom_extend {inside : Bool} {seen rest : List Token}
    (h : Kind.bare (.symbol .commentOpen) ∉ Token.bareFrom inside rest) :
    settleFrom inside seen (rest ++ tail) = (settleFrom inside seen rest).extend tail := by
  -- along the tokens, inside comments and outside
  induction rest generalizing inside seen with
  | nil =>
    cases inside with
    | true => exact absurd List.mem_cons_self h
    | false =>
      -- the comments end with the tokens, and what is added begins no other
      have hat : (⟨seen, tail⟩ : Cursor).atComment = false := by
        cases tail with
        | nil => rfl
        | cons token tail => simpa [atComment, front] using htail.isPlain token rfl
      exact settle_of_atComment hat
  | cons token rest ih =>
    cases inside with
    | true => exact ih h
    | false =>
      simp only [List.cons_append, settleFrom, Token.bareFrom] at h ⊢
      -- a line comment, a mark, or the token where the comments end
      split
      · rename_i hk
        exact ih (by simpa [hk] using h)
      · rename_i hk
        exact ih (by simpa [hk] using h)
      · rfl

/-- Stepping over comments in front of more tokens. -/
theorem settle_extend {c : Cursor} (h : c.Closed) :
    (c.extend tail).settle = c.settle.extend tail :=
  settleFrom_extend htail h

/-- The next token in front of more of them. -/
theorem next?_extend {c c' : Cursor} {token : Token} (h : c.Closed)
    (hnext : c.next? = some (token, c')) :
    (c.extend tail).next? = some (token, c'.extend tail) := by
  obtain ⟨seen, rest, hsettle, rfl⟩ := next?_eq_some_iff.mp hnext
  refine next?_eq_some_iff.mpr ⟨seen, rest ++ tail, ?_, rfl⟩
  rw [settle_extend htail h, hsettle]
  rfl

/-- Reading in front of more tokens. -/
theorem Reads.extend {c c' : Cursor} {kinds : List Kind} (h : c.Closed)
    (hreads : Reads c kinds c') : Reads (c.extend tail) kinds (c'.extend tail) := by
  induction hreads with
  | nil c => exact .nil _
  | cons hnext _ ih => exact .cons (next?_extend htail h hnext) (ih (h.of_reads (.one hnext)))

/-- What is next in front of more tokens: the same, or the first of them. -/
theorem ahead_extend {c : Cursor} (h : c.Closed) :
    (c.extend tail).ahead = c.ahead.or (tail.head?.map (·.kind)) := by
  cases hnext : c.next? with
  | some p =>
    rw [ahead, next?_extend htail h hnext, ahead, hnext]
    rfl
  | none =>
    have hsettle : c.settle.rest = [] := next?_eq_none_iff.mp hnext
    rw [← peek_map_kind, peek, settle_extend htail h, ahead, hnext]
    simp [extend, hsettle]

theorem ahead_extend_of_some {c : Cursor} (h : c.Closed) {kind : Kind}
    (hahead : c.ahead = some kind) : (c.extend tail).ahead = some kind := by
  rw [ahead_extend htail h, hahead]
  rfl

/-- Comments in front of more tokens end. -/
theorem unclosed?_extend {c : Cursor} (h : c.Closed) : (c.extend tail).unclosed? = none := by
  -- what is behind the end begins anew, so no comment is there
  by_cases hmore : (c.extend tail).ahead = none
  · -- there are no more tokens
    rw [ahead_extend htail h, Option.or_eq_none_iff, Option.map_eq_none_iff] at hmore
    have htokens : tail = [] := List.head?_eq_none_iff.mp hmore.2
    rw [htokens, extend, List.append_nil]
    exact h.unclosed?
  · obtain ⟨token, c', hnext⟩ := exists_next? hmore
    -- a mark that stays open would be ahead, but another token is
    cases hopen : (c.extend tail).unclosed? with
    | none => rfl
    | some mark =>
      have hbare := bare_of_unclosed hopen
      rw [bare_rest, hnext] at hbare
      have hkind : token.kind = .symbol .commentOpen := (Token.mk.inj (List.cons.inj hbare).1).1
      have hplain := (next?_split hnext).1
      rw [hkind] at hplain
      cases hplain

/-- A kind of token that carries statements on is not found in front of more tokens either. -/
theorem ahead_extend_ne {c : Cursor} (h : c.Closed) {kind : Kind} (hne : c.ahead ≠ some kind)
    (hmore : c.ahead ≠ none ∨ kind.CarriesOn) : (c.extend tail).ahead ≠ some kind := by
  cases hahead : c.ahead with
  | some other =>
    rw [ahead_extend_of_some htail h hahead, ← hahead]
    exact hne
  | none =>
    rw [ahead_extend htail h, hahead, Option.none_or]
    intro hkind
    obtain ⟨token, htoken, rfl⟩ := Option.map_eq_some_iff.mp hkind
    exact htail token htoken (hmore.resolve_left fun hsome => hsome hahead)

end

end Cursor

/-! ### Scans -/

namespace Scan

/-- Where the scan succeeds it does the same in front of more tokens. -/
def Persists (tail : List Token) (x : Scan α) (c : Cursor) : Prop :=
  ∀ a c', x c = .ok a c' → x (c.extend tail) = .ok a (c'.extend tail) ∧ c'.Closed

/-- Where the steps last longer than the tokens, it makes no difference how many there are. -/
private theorem moreParameters_of_length_lt {c c' : Cursor} {steps steps' : Nat}
    {parameters : List Parameter} (hs : c.rest.length < steps) (hs' : c.rest.length < steps')
    (h : moreParameters steps c = .ok parameters c') :
    moreParameters steps' c = .ok parameters c' := by
  have hsame := Alignment.moreParameters (A := .exact) (rfl : c = c) hs hs'
  rw [h] at hsame
  generalize hy : moreParameters steps' c = y at hsame
  cases hsame with
  | ok hparameters hcd => rw [hparameters, show c' = _ from hcd]

/-! ### At the end of the tokens -/

section

variable {c : Cursor} (hend : c.ahead = none)

include hend

/-- No token is accepted. -/
private theorem accept_of_end (kind : Kind) : accept kind c = .ok false c :=
  accept_of_ne (by simp [hend])

/-- No type is found. -/
private theorem annotation_of_end : annotation c = .ok none c := by
  unfold annotation
  rw [bind_of_ok (accept_of_end hend _)]
  rfl

/-- A scan fails that goes on to fail where a token is not accepted. -/
private theorem accept_fails {kind : Kind} {f : Bool → Scan α}
    (h : ∀ a c', f false c ≠ .ok a c') (a : α) (c' : Cursor) :
    (accept kind >>= f) c ≠ .ok a c' := by
  rw [bind_of_ok (accept_of_end hend kind)]
  exact h a c'

/-- A scan fails that expects a token. -/
private theorem expecting_fails {what : String} {select : Token → Option α} {f : α → Scan β} (b : β)
    (c' : Cursor) : (expecting what select >>= f) c ≠ .ok b c' := by
  have hnone : c.next? = none := Option.map_eq_none_iff.mp hend
  rw [bind_of_error (expecting_of_none hnone)]
  nofun

end

namespace Persists

variable {tail : List Token} {c : Cursor}

/-- Scans in sequence. -/
protected theorem bind {x : Scan α} {f : α → Scan β} (hx : Persists tail x c)
    (hf : ∀ a c', c'.Closed → Persists tail (f a) c') : Persists tail (x >>= f) c := by
  intro b c' hxf
  obtain ⟨a, c₁, ha, hb⟩ := ok_of_bind hxf
  obtain ⟨ha', hc₁⟩ := hx a c₁ ha
  rw [bind_of_ok ha']
  exact hf a c₁ hc₁ b c' hb

/-- A scan that fails at the end of the tokens has to persist elsewhere only. -/
theorem of_ahead {x : Scan α} (hend : c.ahead = none → ∀ a c', x c ≠ .ok a c')
    (h : c.ahead ≠ none → Persists tail x c) : Persists tail x c := by
  by_cases hahead : c.ahead = none
  · intro a c' hx
    exact absurd hx (hend hahead a c')
  · exact h hahead

variable (hc : c.Closed)

include hc

protected theorem pure (a : α) : Persists tail (pure a) c := by
  intro a' c' hx
  cases hx
  exact ⟨rfl, hc⟩

variable (htail : Token.StartAnew tail)

include htail

/-- A scan that is known by what it reads. -/
private theorem of_reads {x : Scan α}
    (h : ∀ a c', x c = .ok a c' → ∃ kinds, Reads c kinds c' ∧
      (Reads (c.extend tail) kinds (c'.extend tail) →
        x (c.extend tail) = .ok a (c'.extend tail))) : Persists tail x c := by
  intro a c' hx
  obtain ⟨kinds, hreads, hsame⟩ := h a c' hx
  exact ⟨hsame (hreads.extend htail hc), hc.of_reads hreads⟩

/-- Stepping over a token of one kind, if it is next. At the end of the tokens none is, and the
first of those behind them must not be one. -/
theorem accept {kind : Kind} (hmore : c.ahead ≠ none ∨ kind.CarriesOn) :
    Persists tail (Scan.accept kind) c := by
  -- the token is there already, or none of this kind comes with those behind the end
  by_cases hahead : c.ahead = some kind
  · obtain ⟨c₁, hreads⟩ := Cursor.reads_of_ahead hahead
    intro b c' hx
    rw [accept_of_reads hreads] at hx
    cases hx
    exact ⟨accept_of_reads (hreads.extend htail hc), hc.of_reads hreads⟩
  · intro b c' hx
    rw [accept_of_ne hahead] at hx
    cases hx
    exact ⟨accept_of_ne (Cursor.ahead_extend_ne htail hc hahead hmore), hc⟩

theorem expecting (what : String) (select : Token → Option α) :
    Persists tail (Scan.expecting what select) c := by
  intro a c' hx
  obtain ⟨token, hnext, hselect⟩ := next_of_expecting hx
  exact ⟨expecting_of_some (Cursor.next?_extend htail hc hnext) hselect, hc.of_reads (.one hnext)⟩

omit hc htail in
/-- The tokens passed do not depend on those ahead. -/
private theorem passed_extend (c c' : Cursor) :
    ((c'.extend tail).passedSince (c.extend tail).position).dropLast =
      (c'.passedSince c.position).dropLast := rfl

theorem block : Persists tail Scan.block c := by
  refine of_reads hc htail fun body c' hx => ?_
  obtain ⟨kinds, hreads, hkinds⟩ := reads_of_block hx
  refine ⟨_, hreads, fun hreads' => ?_⟩
  rw [block_of_reads hreads' hkinds, passed_of_block hx, passed_extend]

theorem skipBlock : Persists tail Scan.skipBlock c :=
  .bind (block hc htail) fun _ _ hc' => .pure hc' _

theorem untilBrace (what : String) : Persists tail (Scan.untilBrace what) c := by
  refine of_reads hc htail fun condition c' hx => ?_
  obtain ⟨hcondition, kinds, hreads, hnone⟩ := reads_of_untilBrace hx
  refine ⟨_, hreads, fun hreads' => ?_⟩
  rw [untilBrace_of_reads hreads' hnone, hcondition, passed_extend]

/-- A type name. Its place is of use for a fault only. -/
private theorem typeName : Persists tail Scan.typeName c := by
  intro type c' hx
  unfold Scan.typeName at hx ⊢
  rw [get_bind] at hx ⊢
  obtain ⟨name, c₁, hname, hx⟩ := ok_of_bind hx
  obtain ⟨hname', hc₁⟩ := expecting hc htail _ _ name c₁ hname
  have hname' : identifier "type name" (c.extend tail) = .ok name (c₁.extend tail) := hname'
  rw [bind_of_ok hname']
  -- `any` is no type of its own
  by_cases hany : name = "any"
  · simp only [hany, if_true] at hx ⊢
    cases hx
    exact ⟨rfl, hc₁⟩
  · simp only [hany, if_false] at hx ⊢
    cases htype : Ty.ofName? name with
    | some type =>
      rw [htype] at hx
      cases hx
      exact ⟨rfl, hc₁⟩
    | none =>
      rw [htype] at hx
      cases hx

/-- An optional type, unless it is looked for at the very end. -/
theorem typed (hmore : c.ahead ≠ none) : Persists tail Scan.annotation c := by
  refine .bind (accept hc htail (.inl hmore)) fun found c₁ hc₁ => ?_
  cases found with
  | true => exact typeName hc₁ htail
  | false => exact .pure hc₁ none

/-- One or more parameters. At the very end of the tokens the list is not closed, whatever is read
of it. -/
private theorem moreParameters (steps : Nat) : Persists tail (Scan.moreParameters steps) c := by
  -- a list of parameters has to go on, so its end is not behind the end of the tokens
  induction steps generalizing c with
  | zero => exact .pure hc _
  | succ steps ih =>
    unfold Scan.moreParameters
    refine .bind (expecting hc htail _ _) fun name c₁ hc₁ => ?_
    refine of_ahead (fun hend => ?_) fun hmore =>
      .bind (typed hc₁ htail hmore) fun type c₂ hc₂ => ?_
    · rw [bind_of_ok (annotation_of_end hend)]
      exact accept_fails hend (expecting_fails hend)
    refine of_ahead (fun hend => accept_fails hend (expecting_fails hend)) fun hmore => ?_
    refine .bind (accept hc₂ htail (.inl hmore)) fun closed c₃ hc₃ => ?_
    -- the bracket that closes the list, or a comma and the next parameter
    cases closed with
    | true => exact .pure hc₃ _
    | false =>
      refine .bind (expecting hc₃ htail _ _) fun _ c₄ hc₄ => ?_
      exact .bind (ih hc₄) fun _ c₅ hc₅ => .pure hc₅ _

/-- A parameter list. -/
theorem parameters : Persists tail Scan.parameters c := by
  refine of_ahead (fun hend => accept_fails hend (expecting_fails hend)) fun hmore => ?_
  refine .bind (accept hc htail (.inl hmore)) fun closed c₁ hc₁ => ?_
  cases closed with
  | true => exact .pure hc₁ _
  | false =>
    intro ps c' hx
    -- more tokens are ahead and more steps are taken, but these do not count
    have hlength := c₁.length_rest_extend tail
    have hsteps : Scan.moreParameters ((c₁.extend tail).rest.length + 1) c₁ = .ok ps c' :=
      moreParameters_of_length_lt (Nat.lt_succ_self _) (by omega) hx
    exact moreParameters hc₁ htail _ ps c' hsteps

/-- Arms that are stepped over. -/
private theorem skipMoreArms (steps : Nat) : Persists tail (Scan.skipMoreArms steps) c := by
  induction steps generalizing c with
  | zero => exact .pure hc _
  | succ steps ih =>
    unfold Scan.skipMoreArms
    refine .bind (accept hc htail (.inr Kind.carriesOn_else)) fun more c₁ hc₁ => ?_
    -- another arm follows only with `else`, which does not begin what is behind
    cases more with
    | false => exact .pure hc₁ _
    | true =>
      refine of_ahead (fun hend => accept_fails hend (expecting_fails hend)) fun hmore => ?_
      refine .bind (accept hc₁ htail (.inl hmore)) fun condition c₂ hc₂ => ?_
      cases condition with
      | true =>
        refine .bind (untilBrace hc₂ htail _) fun _ c₃ hc₃ => ?_
        exact .bind (skipBlock hc₃ htail) fun _ c₄ hc₄ => ih hc₄
      | false => exact .bind (expecting hc₂ htail _ _) fun _ c₃ hc₃ => skipBlock hc₃ htail

/-- The arms of a conditional behind the one that was taken. -/
theorem skipArms : Persists tail Scan.skipArms c := by
  intro _ c' hx
  have hsteps : Scan.skipMoreArms (c.extend tail).rest.length c = .ok () c' :=
    skipMoreArms_of_length_le (Nat.le_refl _) (by simp) hx
  exact skipMoreArms hc htail _ () c' hsteps

end Persists

end Scan

/-! ### Readings -/

namespace Reading

/-- Where the reading succeeds it does the same in front of more tokens. -/
def Persists (tail : List Token) (x : Reading α) (c : Cursor) : Prop :=
  ∀ s a c' s', x c s = .ok (a, c') s' →
    x (c.extend tail) s = .ok (a, c'.extend tail) s' ∧ c'.Closed

namespace Persists

variable {tail : List Token} {c : Cursor}

/-- Readings in sequence, with what is known of where the first one lands. -/
theorem landing {x : Reading α} {f : α → Reading β} {P : α → Cursor → Prop}
    (hx : Persists tail x c) (hP : Lands x c P)
    (hf : ∀ a c', c'.Closed → P a c' → Persists tail (f a) c') : Persists tail (x >>= f) c := by
  intro s b c' s' hxf
  obtain ⟨a, c₁, s₁, ha, hb⟩ := eq_ok_of_bind hxf
  obtain ⟨ha', hc₁⟩ := hx s a c₁ s₁ ha
  rw [bind_of_eq_ok ha']
  exact hf a c₁ hc₁ (hP s a c₁ s₁ ha) s₁ b c' s' hb

/-- Readings in sequence. -/
protected theorem bind {x : Reading α} {f : α → Reading β} (hx : Persists tail x c)
    (hf : ∀ a c', c'.Closed → Persists tail (f a) c') : Persists tail (x >>= f) c :=
  landing (P := fun _ _ => True) hx (fun _ _ _ _ _ => trivial) fun a c' hc' _ => hf a c' hc'

/-- A reading that fails has nothing to repeat. -/
theorem of_fails {x : Reading α} (h : Lands x c fun _ _ => False) : Persists tail x c :=
  fun s a c' s' hx => (h s a c' s' hx).elim

theorem raiseAt {span : Span} {cause : Cause} :
    Persists tail (Reading.raiseAt span cause : Reading α) c :=
  of_fails .raiseAt

/-- A reading that fails at the end of the tokens has to persist elsewhere only. -/
theorem of_ahead {x : Reading α} (hend : c.ahead = none → Lands x c fun _ _ => False)
    (h : c.ahead ≠ none → Persists tail x c) : Persists tail x c := by
  by_cases hahead : c.ahead = none
  · exact of_fails (hend hahead)
  · exact h hahead

/-- Changing the result. -/
theorem map {x : Reading α} {f : α → β} (h : Persists tail x c) : Persists tail (f <$> x) c := by
  rw [map_eq_pure_bind]
  exact .bind h fun _ _ hc' _ _ _ _ hx => by cases hx; exact ⟨rfl, hc'⟩

/-- Adding places to faults. -/
theorem locate {x : Reading α} (span : Span) (h : Persists tail x c) :
    Persists tail (Reading.locate span x) c := by
  intro s a c' s' hx
  obtain ⟨hsame, hc'⟩ := h s a c' s' (locate_eq_ok_iff.mp hx)
  exact ⟨locate_eq_ok_iff.mpr hsame, hc'⟩

/-- Scans. -/
theorem scan {x : Scan α} (h : x.Persists tail c) : Persists tail (Reading.scan x) c := by
  intro s a c' s' hx
  unfold Reading.scan at hx
  split at hx
  · rename_i hx'
    cases hx
    obtain ⟨hsame, hc'⟩ := h _ _ hx'
    exact ⟨by rw [scan_of_ok hsame]; rfl, hc'⟩
  · cases hx

variable (hc : c.Closed)

include hc

protected theorem pure (a : α) : Persists tail (pure a) c := by
  intro s a' c' s' hx
  cases hx
  exact ⟨rfl, hc⟩

/-- An evaluation that reads nothing. -/
theorem lift (x : Eval α) : Persists tail (liftM x) c := by
  intro s a c' s' hx
  obtain ⟨a', s₁, ha, hx⟩ := ok_of_bind (x := x) (f := fun a => pure (a, c)) hx
  cases hx
  exact ⟨bind_of_ok (x := x) (f := fun a => pure (a, c.extend tail)) ha, hc⟩

/-- The result of an operator. -/
theorem computed (span : Span) (result : Except Cause Value) :
    Persists tail (Reading.computed span result) c := by
  cases result with
  | ok value => exact .pure hc value
  | error cause => exact .raiseAt

variable (htail : Token.StartAnew tail)

include htail

/-- What follows a look at the next token, where there is one. -/
theorem peek {f : Option Token → Reading β} {token : Token} {c₁ : Cursor}
    (hnext : c.next? = some (token, c₁)) (h : Persists tail (f (some token)) c) :
    Persists tail (Reading.peek >>= f) c := by
  intro s b c' s' hx
  rw [peek_bind, Cursor.peek_of_next? hnext] at hx
  rw [peek_bind, Cursor.peek_of_next? (Cursor.next?_extend htail hc hnext)]
  exact h s b c' s' hx

omit hc htail in
/-- What follows a look at the kind of the next token, if it is the same in front of more tokens. -/
theorem peekKind {f : Option Kind → Reading β} (hsame : f (c.extend tail).ahead = f c.ahead)
    (h : Persists tail (f c.ahead) c) : Persists tail (Reading.peekKind >>= f) c := by
  intro s b c' s' hx
  rw [peekKind_bind] at hx
  rw [peekKind_bind, hsame]
  exact h s b c' s' hx

/-- What follows a look at the place of the next token, where there is one. -/
theorem here {f : Span → Reading β} (hmore : c.ahead ≠ none)
    (h : ∀ span, Persists tail (f span) c) : Persists tail (Reading.here >>= f) c := by
  obtain ⟨token, c₁, hnext⟩ := Cursor.exists_next? hmore
  have hsame : (c.extend tail).here = c.here := by
    unfold Cursor.here
    rw [Cursor.peek_of_next? hnext, Cursor.peek_of_next? (Cursor.next?_extend htail hc hnext)]
  intro s b c' s' hx
  rw [here_bind] at hx
  rw [here_bind, hsame]
  exact h c.here s b c' s' hx

/-- What follows a step over the next token, where there is one. -/
theorem next {f : Option Token → Reading β} {token : Token} {c₁ : Cursor}
    (hnext : c.next? = some (token, c₁)) (h : c₁.Closed → Persists tail (f (some token)) c₁) :
    Persists tail (Reading.next >>= f) c := by
  intro s b c' s' hx
  rw [bind_of_pure (next_of_some hnext)] at hx
  rw [bind_of_pure (next_of_some (Cursor.next?_extend htail hc hnext))]
  exact h (hc.of_reads (.one hnext)) s b c' s' hx

/-- Stepping over a token of one kind, if it is next. -/
theorem accept {kind : Kind} (hmore : c.ahead ≠ none ∨ kind.CarriesOn) :
    Persists tail (Reading.accept kind) c :=
  scan (.accept hc htail hmore)

/-- Stepping over a token that has to be there. -/
theorem expect (kind : Kind) (what : String) : Persists tail (Reading.expect kind what) c :=
  .bind (scan (.expecting hc htail _ _)) fun _ _ hc' => .pure hc' ()

/-- What follows a look for an operator. -/
theorem operatorAhead {tier : Tier} {f : Option (BinaryOp × Span) → Reading β}
    (hnone : Persists tail (f none) c)
    (hsome : ∀ op span, c.ahead ≠ none → Persists tail (f (some (op, span))) c) :
    Persists tail (Reading.operatorAhead tier >>= f) c := by
  -- an operator ahead is there already
  by_cases hend : c.ahead = none
  · -- the first of the tokens behind the end is no operator either
    have habsent : tier.Absent (c.extend tail).ahead := by
      rw [Cursor.ahead_extend htail hc, hend, Option.none_or]
      exact htail.absent tier
    intro s b c' s' hx
    rw [bind_of_pure (operatorAhead_of_absent (by rw [hend]; rfl))] at hx
    rw [bind_of_pure (operatorAhead_of_absent habsent)]
    exact hnone s b c' s' hx
  · obtain ⟨token, c₁, hnext⟩ := Cursor.exists_next? hend
    unfold Reading.operatorAhead
    rw [bind_assoc]
    refine peek hc htail hnext ?_
    simp only [pure_bind]
    cases tier.operator? token.kind with
    | none => exact hnone
    | some op => exact hsome op token.span hend

end Persists

/-! ### At the end of the tokens -/

section

variable {c : Cursor} (hend : c.ahead = none)

include hend

/-- No token is read. -/
private theorem not_reads {kind : Kind} {c' : Cursor} : ¬Reads c [kind] c' := by
  intro hreads
  rw [Cursor.ahead_of_reads hreads] at hend
  cases hend

/-- A reading fails that goes on to fail where a token is not accepted. -/
private theorem accept_fails {kind : Kind} {f : Bool → Reading α}
    (h : Lands (f false) c fun _ _ => False) :
    Lands (accept kind >>= f) c fun _ _ => False :=
  .bind (.accept (fun _ hreads => absurd hreads (not_reads hend)) fun _ => h)

/-- A reading fails that expects a token. -/
private theorem expect_fails {kind : Kind} {what : String} {f : Unit → Reading α} :
    Lands (expect kind what >>= f) c fun _ _ => False :=
  .bind (.expect fun _ hreads => absurd hreads (not_reads hend))

/-- A reading fails that expects a name. -/
private theorem identifier_fails {what : String} {f : String → Reading α} :
    Lands (scan (Scan.identifier what) >>= f) c fun _ _ => False := by
  refine .bind (.scan fun name c' hx => ?_)
  obtain ⟨token, hnext, -⟩ := Scan.next_of_expecting hx
  exact absurd (Reads.one hnext) (not_reads hend)

/-- A reading fails that goes on to fail where no type is found. -/
private theorem annotation_fails {f : Option Ty → Reading α}
    (h : Lands (f none) c fun _ _ => False) :
    Lands (scan Scan.annotation >>= f) c fun _ _ => False := by
  refine .bind (.scan fun type c' hx => ?_)
  rw [Scan.annotation_of_end hend] at hx
  cases hx
  exact h

/-- A reading of an expression fails. -/
private theorem sound_fails {rank : Rank form} {x : Reading form.Result}
    (h : rank.Sound x) : Lands x c fun _ _ => False := by
  refine (h c).mono fun _ c' ⟨t, ht⟩ => ?_
  have hstarts := ht.starts
  rw [hend] at hstarts
  cases hstarts

end

end Reading

/-! ### Phrases -/

/-- An evaluator that does the same in front of more tokens, statements excepted, and that reads
expressions by the rules of the grammar. -/
structure Persistent (tail : List Token) (e : Evaluator) : Prop where
  expression : ∀ {c : Cursor}, c.Closed → Reading.Persists tail (e .expression) c
  additive : ∀ {c : Cursor}, c.Closed → Reading.Persists tail (e .additive) c
  multiplicative : ∀ {c : Cursor}, c.Closed → Reading.Persists tail (e .multiplicative) c
  unary : ∀ {c : Cursor}, c.Closed → Reading.Persists tail (e .unary) c
  arguments : ∀ {c : Cursor}, c.Closed → Reading.Persists tail (e .arguments) c
  arms : ∀ {c : Cursor}, c.Closed → Reading.Persists tail (e .arms) c
  sound : Sound e

/-- A tier whose operators group to the right. -/
private theorem rightGrouped_persists {tail : List Token} (htail : Token.StartAnew tail)
    {tier : Tier} {operand others : Reading Value}
    (hoperand : ∀ {c : Cursor}, c.Closed → Reading.Persists tail operand c)
    (hothers : ∀ {c : Cursor}, c.Closed → Reading.Persists tail others c) {c : Cursor}
    (hc : c.Closed) : Reading.Persists tail (Reading.rightGrouped tier operand others) c := by
  refine .bind (hoperand hc) fun left c₁ hc₁ => ?_
  refine .operatorAhead hc₁ htail (.pure hc₁ left) fun op span hmore => ?_
  obtain ⟨token, c₂, hnext⟩ := Cursor.exists_next? hmore
  refine .next hc₁ htail hnext fun hc₂ => .bind (hothers hc₂) fun right c₃ hc₃ => ?_
  exact .computed hc₃ span _

namespace Persistent

variable {tail : List Token} (htail : Token.StartAnew tail) {e : Evaluator}
  (h : Persistent tail e) {c : Cursor} (hc : c.Closed)

include htail h hc

/-- The arguments of a call. -/
private theorem callArguments : Reading.Persists tail (Reading.callArguments e) c := by
  refine .of_ahead (fun hend => ?_) fun hmore => ?_
  · exact Reading.accept_fails hend (Reading.sound_fails hend h.sound.arguments)
  refine .bind (.accept hc htail (.inl hmore)) fun closed c₁ hc₁ => ?_
  cases closed with
  | true => exact .pure hc₁ []
  | false => exact h.arguments hc₁

/-- What a name means. -/
private theorem named (name : String) (span : Span) :
    Reading.Persists tail (Reading.named e name span) c := by
  unfold Reading.named
  refine .bind (.lift hc _) fun session c₁ hc₁ => ?_
  -- what follows the name is looked at, and it may be behind the end
  cases session.env.lookup name with
  | none => exact .raiseAt
  | some b =>
    simp only
    by_cases hend : c₁.ahead = none
    · -- what is behind the end does nothing to the name
      have hinert := htail.inert
      refine .peekKind ?_ ?_
      · rw [Cursor.ahead_extend htail hc₁, hend, Option.none_or]
        generalize tail.head?.map (·.kind) = next at hinert
        split
        · cases hinert
        · cases hinert
        · cases hinert
        · cases hinert
        · rfl
      · rw [hend]
        exact .pure hc₁ _
    · obtain ⟨token, c₂, hnext⟩ := Cursor.exists_next? hend
      have hahead : c₁.ahead = some token.kind := by rw [Cursor.ahead, hnext]; rfl
      refine .peekKind (by rw [Cursor.ahead_extend_of_some htail hc₁ hahead, hahead]) ?_
      split
      -- a call
      · split
        · refine .next hc₁ htail hnext fun hc₂ => .locate span ?_
          exact .bind (h.callArguments htail hc₂) fun _ c₃ hc₃ => .lift hc₃ _
        · exact .raiseAt
      -- an assignment
      · split
        · exact .raiseAt
        · refine .next hc₁ htail hnext fun hc₂ => .bind (h.expression hc₂) fun value c₃ hc₃ => ?_
          exact .bind (.locate span (.lift hc₃ _)) fun _ c₄ hc₄ => .pure hc₄ value
      -- a step up or down, and otherwise the value of the name
      · exact .next hc₁ htail hnext fun hc₂ => .locate span (.lift hc₂ _)
      · exact .next hc₁ htail hnext fun hc₂ => .locate span (.lift hc₂ _)
      · exact .pure hc₁ _

/-- A primary. -/
private theorem primary : Reading.Persists tail (Reading.primary e) c := by
  -- an operand has a first token, so the end is not reached before it
  refine .of_ahead (fun hend => Reading.sound_fails hend h.sound.primary) fun hmore => ?_
  obtain ⟨⟨kind, place⟩, c₁, hnext⟩ := Cursor.exists_next? hmore
  refine .here hc htail hmore fun span => .next hc htail hnext fun hc₁ => ?_
  cases kind with
  | symbol mark =>
    cases mark with
    | leftParen =>
      refine .bind (h.expression hc₁) fun value c₂ hc₂ => ?_
      exact .bind (.expect hc₂ htail _ _) fun _ c₃ hc₃ => .pure hc₃ value
    | _ => exact .raiseAt
  | keyword word =>
    cases word with
    | trueKw | falseKw => exact .pure hc₁ _
    | _ => exact .raiseAt
  | str _ | number _ => exact .pure hc₁ _
  | ident name => exact h.named htail hc₁ name span
  | unknown _ | lineComment _ => exact .raiseAt

/-- An operand with its unary operators. -/
private theorem unaryRule : Reading.Persists tail (Reading.unary e) c := by
  refine .of_ahead (fun hend => Reading.sound_fails hend h.sound.unaryRule) fun hmore => ?_
  obtain ⟨token, c₁, hnext⟩ := Cursor.exists_next? hmore
  refine .peek hc htail hnext ?_
  simp only
  split
  · exact h.primary htail hc
  · refine .next hc htail hnext fun hc₁ => .bind (h.unary hc₁) fun operand c₂ hc₂ => ?_
    exact .computed hc₂ _ _

/-- Factors. -/
private theorem multiplicativeRule : Reading.Persists tail (Reading.multiplicative e) c :=
  rightGrouped_persists htail (h.unaryRule htail) h.multiplicative hc

/-- Terms. -/
private theorem additiveRule : Reading.Persists tail (Reading.additive e) c :=
  rightGrouped_persists htail (h.multiplicativeRule htail) h.additive hc

/-- One sum, or two of them compared. -/
private theorem comparison : Reading.Persists tail (Reading.comparison e) c := by
  refine .bind (h.additiveRule htail hc) fun left c₁ hc₁ => ?_
  refine .operatorAhead hc₁ htail (.pure hc₁ left) fun op span hmore => ?_
  obtain ⟨token, c₂, hnext⟩ := Cursor.exists_next? hmore
  refine .next hc₁ htail hnext fun hc₂ => .bind (h.additiveRule htail hc₂) fun right c₃ hc₃ => ?_
  exact .operatorAhead hc₃ htail (.computed hc₃ span _) fun _ _ _ => .raiseAt

/-- A whole expression. -/
private theorem logical : Reading.Persists tail (Reading.logical e) c :=
  rightGrouped_persists htail (h.comparison htail) h.expression hc

/-- One or more arguments. -/
private theorem argumentsRule : Reading.Persists tail (Reading.arguments e) c := by
  refine .bind (h.expression hc) fun first c₁ hc₁ => ?_
  refine .of_ahead (fun hend => ?_) fun hmore => ?_
  · exact Reading.accept_fails hend (Reading.expect_fails hend)
  refine .bind (.accept hc₁ htail (.inl hmore)) fun closed c₂ hc₂ => ?_
  cases closed with
  | true => exact .pure hc₂ _
  | false =>
    refine .bind (.expect hc₂ htail _ _) fun _ c₃ hc₃ => ?_
    exact .bind (h.arguments hc₃) fun others c₄ hc₄ => .pure hc₄ _

/-- The arms of a conditional. -/
private theorem armsRule : Reading.Persists tail (Reading.arms e) c := by
  refine .bind (h.expression hc) fun condition c₁ hc₁ => ?_
  refine .bind (.expect hc₁ htail _ _) fun _ c₂ hc₂ => ?_
  -- the condition holds or not, which the tokens behind have no part in
  split
  · refine .bind (.scan (.block hc₂ htail)) fun body c₃ hc₃ => ?_
    refine .bind (.lift hc₃ _) fun returned c₄ hc₄ => ?_
    cases returned with
    | some value => exact .pure hc₄ _
    | none => exact .bind (.scan (.skipArms hc₄ htail)) fun _ c₅ hc₅ => .pure hc₅ none
  · refine .bind (.scan (.skipBlock hc₂ htail)) fun _ c₃ hc₃ => ?_
    -- there may be another arm, unless the tokens end here
    refine .bind (.accept hc₃ htail (.inr Kind.carriesOn_else)) fun more c₄ hc₄ => ?_
    cases more with
    | false => exact .pure hc₄ none
    | true =>
      refine .of_ahead (fun hend => ?_) fun hmore => ?_
      · exact Reading.accept_fails hend (Reading.expect_fails hend)
      refine .bind (.accept hc₄ htail (.inl hmore)) fun condition c₅ hc₅ => ?_
      cases condition with
      | true => exact h.arms hc₅
      | false =>
        refine .bind (.expect hc₅ htail _ _) fun _ c₆ hc₆ => ?_
        exact .bind (.scan (.block hc₆ htail)) fun body c₇ hc₇ => .lift hc₇ _

end Persistent

/-- With whatever fuel, expressions and conditionals are evaluated in the same way in front of more
tokens. -/
theorem Phrase.persistent {tail : List Token} (htail : Token.StartAnew tail) (fuel : Nat) :
    Persistent tail (run fuel) := by
  induction fuel with
  | zero =>
    refine ⟨?_, ?_, ?_, ?_, ?_, ?_, sound 0⟩ <;> exact fun _ => .of_fails .throw
  | succ fuel ih =>
    exact ⟨ih.logical htail, ih.additiveRule htail, ih.multiplicativeRule htail,
      ih.unaryRule htail, ih.argumentsRule htail, ih.armsRule htail, sound (fuel + 1)⟩

/-! ### Constructs -/

/-- A construct that begins with a keyword. -/
private theorem after_persists {tail : List Token} (htail : Token.StartAnew tail)
    {keyword : Keyword} {x : Reading Outcome}
    (hx : ∀ {c : Cursor}, c.Closed → Reading.Persists tail x c) {c : Cursor}
    (hc : c.Closed) (hmore : c.ahead ≠ none) :
    Reading.Persists tail (Reading.after keyword x) c := by
  refine .bind (.accept hc htail (.inl hmore)) fun found c₁ hc₁ => ?_
  cases found with
  | true => exact hx hc₁
  | false => exact .pure hc₁ _

namespace Persistent

variable {tail : List Token} (htail : Token.StartAnew tail) {e : Evaluator}
  (h : Persistent tail e) {c : Cursor} (hc : c.Closed)

include htail h hc

/-- An expression whose value is a number. -/
private theorem bound : Reading.Persists tail (Reading.bound e) c := by
  refine .of_ahead (fun hend => ?_) fun hmore => ?_
  · exact .bind (.here (.bind ((Reading.sound_fails hend h.sound.expression).mono
      fun _ _ hfalse => hfalse.elim)))
  refine .here hc htail hmore fun span => .bind (h.expression hc) fun value c₁ hc₁ => ?_
  cases value.number? with
  | some n => exact .pure hc₁ n
  | none => exact .raiseAt

/-- A declaration behind `var` or `val`. At the very end of the tokens it is not complete. -/
private theorem declared (isFinal : Bool) :
    Reading.Persists tail (Reading.declared e isFinal) c := by
  refine .of_ahead (fun hend => .bind (.here (Reading.identifier_fails hend))) fun hmore => ?_
  refine .here hc htail hmore fun span => ?_
  refine .bind (.scan (.expecting hc htail _ _)) fun name c₁ hc₁ => ?_
  refine .of_ahead (fun hend => Reading.annotation_fails hend (Reading.expect_fails hend))
    fun hmore => .bind (.scan (.typed hc₁ htail hmore)) fun type c₂ hc₂ => ?_
  refine .bind (.expect hc₂ htail _ _) fun _ c₃ hc₃ => ?_
  refine .bind (h.expression hc₃) fun value c₄ hc₄ => ?_
  exact .bind (.locate span (.lift hc₄ _)) fun _ c₅ hc₅ => .pure hc₅ _

omit h in
/-- `def`. -/
private theorem functionDeclaration (hmore : c.ahead ≠ none) :
    Reading.Persists tail Reading.functionDeclaration c := by
  refine after_persists htail (fun hc₁ => ?_) hc hmore
  -- a declaration is not complete before its block is closed
  refine .of_ahead (fun hend => .bind (.here (Reading.identifier_fails hend))) fun hmore => ?_
  refine .here hc₁ htail hmore fun span => ?_
  refine .bind (.scan (.expecting hc₁ htail _ _)) fun name c₂ hc₂ => ?_
  refine .bind (.expect hc₂ htail _ _) fun _ c₃ hc₃ => ?_
  refine .bind (.scan (.parameters hc₃ htail)) fun parameters c₄ hc₄ => ?_
  refine .of_ahead (fun hend => Reading.annotation_fails hend (Reading.expect_fails hend))
    fun hmore => .bind (.scan (.typed hc₄ htail hmore)) fun returns c₅ hc₅ => ?_
  refine .bind (.expect hc₅ htail _ _) fun _ c₆ hc₆ => ?_
  refine .bind (.scan (.block hc₆ htail)) fun body c₇ hc₇ => ?_
  exact .bind (.locate span (.lift hc₇ _)) fun _ c₈ hc₈ => .pure hc₈ _

/-- `from` and `to`. -/
private theorem range (hmore : c.ahead ≠ none) : Reading.Persists tail (Reading.range e) c := by
  refine after_persists htail (fun hc₁ => ?_) hc hmore
  refine .bind (h.bound htail hc₁) fun first c₂ hc₂ => ?_
  refine .bind (.expect hc₂ htail _ _) fun _ c₃ hc₃ => ?_
  refine .bind (h.bound htail hc₃) fun limit c₄ hc₄ => ?_
  refine .of_ahead (fun hend => ?_) fun hmore => ?_
  · exact Reading.accept_fails hend (.bind (.pure (Reading.expect_fails hend)))
  refine .bind (.accept hc₄ htail (.inl hmore)) fun found c₅ hc₅ => ?_
  -- the rounds are executed away from the cursor, so no token behind the text is seen by them
  have hrounds : ∀ (name? : Option String) {c : Cursor}, c.Closed →
      Reading.Persists tail (do
        Reading.expect (.symbol .leftBrace) "`\x7b` after range"
        let body ← Reading.scan Scan.block
        Eval.iterate (fun k => do
          return (← Eval.rangeRound e name? body (Int64.ofInt (first.toInt + k))).map
            Outcome.returned) (return .done) 0 (limit.toInt - first.toInt).toNat) c := by
    intro name? c hc
    refine .bind (.expect hc htail _ _) fun _ c₁ hc₁ => ?_
    exact .bind (.scan (.block hc₁ htail)) fun body c₂ hc₂ => .lift hc₂ _
  cases found with
  | true =>
    exact .bind (.map (.scan (.expecting hc₅ htail _ _))) fun name? c₆ hc₆ => hrounds name? hc₆
  | false => exact hrounds none hc₅

/-- `assert`. What is quoted is of use for a fault only. -/
private theorem assertion (hmore : c.ahead ≠ none) :
    Reading.Persists tail (Reading.assertion e) c := by
  refine after_persists htail (fun {c₁} hc₁ s outcome c' s' hx => ?_) hc hmore
  rw [Reading.cursor_bind] at hx ⊢
  -- the condition is the same with and without the tokens behind
  obtain ⟨value, c₂, s₁, hvalue, hx⟩ := Reading.eq_ok_of_bind hx
  obtain ⟨hvalue', hc₂⟩ := h.expression hc₁ s value c₂ s₁ hvalue
  rw [Reading.bind_of_eq_ok hvalue']
  cases htrue : value.isTruthy with
  | true =>
    simp only [htrue, if_true] at hx ⊢
    cases hx
    exact ⟨rfl, hc₂⟩
  | false =>
    simp only [htrue, Bool.false_eq_true, if_false] at hx
    cases hx

/-- Every construct but a comment. -/
theorem attempt (fuel : Nat) {construct : Construct} (hne : construct ≠ .comment)
    (hmore : c.ahead ≠ none) : Reading.Persists tail (Reading.attempt e fuel construct) c := by
  cases construct with
  | comment => exact absurd rfl hne
  | assertion => exact h.assertion htail hc hmore
  -- the count and the block are all that the loop reads
  | counted =>
    refine after_persists htail (fun hc₁ => ?_) hc hmore
    refine .bind (h.bound htail hc₁) fun count c₂ hc₂ => ?_
    refine .bind (.expect hc₂ htail _ _) fun _ c₃ hc₃ => ?_
    exact .bind (.scan (.block hc₃ htail)) fun body c₄ hc₄ => .lift hc₄ _
  -- the tokens of the condition are taken up to the brace, and those of the block behind it
  | whileLoop =>
    refine after_persists htail (fun hc₁ => ?_) hc hmore
    refine .bind (.scan (.untilBrace hc₁ htail _)) fun condition c₂ hc₂ => ?_
    exact .bind (.scan (.block hc₂ htail)) fun body c₃ hc₃ => .lift hc₃ _
  | range => exact h.range htail hc hmore
  | conditional =>
    refine after_persists htail (fun hc₁ => ?_) hc hmore
    exact .bind (h.arms hc₁) fun returned c₂ hc₂ => .pure hc₂ _
  | variableDeclaration =>
    -- without `var` the cursor stays, so it is still known what is ahead for `val`
    refine .landing (.accept hc htail (.inl hmore)) (P := fun found c' => found = false → c' = c)
      ?_ fun found c₁ hc₁ hstays => ?_
    · exact .accept (fun _ _ hfalse => by cases hfalse) fun _ _ => rfl
    cases found with
    | true => exact h.declared htail hc₁ false
    | false =>
      obtain rfl := hstays rfl
      exact after_persists htail (fun hc₂ => h.declared htail hc₂ true) hc₁ hmore
  | functionDeclaration => exact functionDeclaration htail hc hmore
  | expression =>
    obtain ⟨token, c₁, hnext⟩ := Cursor.exists_next? hmore
    -- some token is ahead, and it tells whether an expression begins
    refine .peek hc htail hnext ?_
    simp only
    split
    · exact .bind (h.expression hc) fun _ c₂ hc₂ => .pure hc₂ _
    · exact .pure hc _

end Persistent

end Tern
