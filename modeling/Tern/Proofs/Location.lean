import Tern.Proofs.Compliance

/-!
# Where faults are found

A fault gets its place from the tokens that are read: it is the place of one of them, or the place
behind one. That holds for the tokens of a statement, whatever blocks are cut out of them, and for
the body of a function if the fault has left that function. There is one exception: a `while` that is
followed by its opening brace at once has a condition without tokens, which gives no place but the
front of the text.

## Key results

- `Cursor.Among.here`: the place at a cursor is that of a token, or the exception
- `Contract.locating`: what is trusted about places, for some tokens that are evaluated
- `Phrase.located_complies`: evaluation puts faults at places of the tokens it is given
-/

namespace Tern

open Cursor (Reads)

/-- The place of a token as said, or the place behind one. -/
def Span.Marks (P : Token → Prop) (span : Span) : Prop :=
  ∃ token, P token ∧ (span = token.span ∨ span = .point token.span.stop)

/-- Somewhere among the tokens a `while` is followed by an opening brace at once. -/
def Token.BareWhile (tokens : List Token) : Prop :=
  ∃ word brace, [word, brace] <:+: tokens ∧ word.kind = .keyword .whileKw ∧
    brace.kind = .symbol .leftBrace

/-- A place that a fault gets where these tokens are evaluated: that of a token, or the front of the
text if there is a `while` without a condition. -/
def Span.Given (tokens : List Token) (span : Span) : Prop :=
  span.Marks (· ∈ tokens) ∨ Token.BareWhile tokens ∧ span = .point 0

theorem Span.Given.of_mem {tokens : List Token} {token : Token} (h : token ∈ tokens) :
    token.span.Given tokens :=
  .inl ⟨token, h, .inl rfl⟩

namespace Cursor

/-! ### Cursors among tokens -/

/-- A cursor in front of some of these tokens, where so many braces are open. What is behind it
counts only if no token is ahead, or if it is an opening brace. -/
structure Among (tokens : List Token) (opened : Nat) (c : Cursor) : Prop where
  rest : c.rest <:+: tokens
  last : c.rest = [] →
    (∃ token ∈ tokens, c.seen.head? = some token) ∨ Token.BareWhile tokens ∧ c.seen = []
  brace : 0 < opened → ∃ token ∈ tokens, c.seen.head? = some token

/-- Tokens that were passed, the last of which is behind the cursor. -/
private theorem behind_of_passed {passed seen seen' : List Token}
    (hseen : seen' = passed.reverse ++ seen) (hne : passed ≠ []) :
    ∃ token ∈ passed, seen'.head? = some token := by
  obtain ⟨front, token, rfl⟩ : ∃ front token, passed = front ++ [token] :=
    ⟨_, _, (List.dropLast_concat_getLast hne).symm⟩
  refine ⟨token, by simp, ?_⟩
  simp [hseen]

/-- The last token that is read was ahead. -/
private theorem Reads.behind {c c' : Cursor} {kinds : List Kind} (h : Reads c kinds c')
    (hne : kinds ≠ []) : ∃ token ∈ c.rest, c'.seen.head? = some token := by
  obtain ⟨passed, hrest, hseen, -⟩ := h.split
  have hpassed : passed ≠ [] := by
    rintro rfl
    have hlength := h.length_rest
    have := List.length_pos_iff.mpr hne
    rw [hrest, List.nil_append] at hlength
    omega
  obtain ⟨token, hmem, hhead⟩ := behind_of_passed hseen hpassed
  exact ⟨token, hrest ▸ List.mem_append_left _ hmem, hhead⟩

/-- The mark of a comment that does not end was ahead. -/
private theorem mem_of_unclosedFrom {opened : Option Token} {rest : List Token} {mark : Token}
    (h : unclosedFrom opened rest = some mark) : opened = some mark ∨ mark ∈ rest := by
  -- along the tokens, with the mark that is open
  induction rest generalizing opened with
  | nil => exact .inl (by cases opened <;> exact h)
  | cons token rest ih =>
    cases opened with
    | some first =>
      -- inside a comment the mark stays or is closed
      simp only [unclosedFrom] at h
      refine (ih h).imp (fun hopened => ?_) (List.mem_cons_of_mem _)
      split at hopened
      · cases hopened
      · exact hopened
    | none =>
      simp only [unclosedFrom] at h
      -- a line comment opens nothing, a mark opens a comment, any other token ends the search
      split at h
      · refine .inr ((ih h).elim (fun hopened => ?_) (List.mem_cons_of_mem _))
        cases hopened
      · refine .inr ((ih h).elim (fun hopened => ?_) (List.mem_cons_of_mem _))
        cases hopened
        exact List.mem_cons_self
      · cases h

namespace Among

variable {tokens : List Token} {n : Nat} {c c' : Cursor} {kinds : List Kind}

/-- A cursor in front of all of some tokens. -/
theorem start {block : List Token} (h : block <:+: tokens) (hne : block ≠ []) :
    Among tokens 0 (.start block) :=
  ⟨h, fun hempty => absurd hempty hne, nofun⟩

variable (h : Among tokens n c)

include h

theorem mem {token : Token} (hmem : token ∈ c.rest) : token ∈ tokens := h.rest.subset hmem

/-- Behind something that was read, whatever braces are open. -/
theorem of_reads (hreads : Reads c kinds c') (hne : kinds ≠ []) (m : Nat) : Among tokens m c' := by
  obtain ⟨token, hmem, hhead⟩ := hreads.behind hne
  have hbehind : ∃ token ∈ tokens, c'.seen.head? = some token := ⟨token, h.mem hmem, hhead⟩
  exact ⟨hreads.suffix.isInfix.trans h.rest, fun _ => .inl hbehind, fun _ => hbehind⟩

/-- Behind the comments ahead. -/
theorem settle : Among tokens n c.settle := by
  obtain ⟨skipped, hrest, hseen⟩ := c.settle_passes
  -- nothing was skipped, so the cursor is the same
  by_cases hempty : skipped = []
  · subst hempty
    rw [List.reverse_nil, List.nil_append] at hseen
    rw [List.nil_append] at hrest
    exact ⟨hrest ▸ h.rest, fun hnone => hseen ▸ h.last (hrest.trans hnone),
      fun hopened => hseen ▸ h.brace hopened⟩
  -- or a token was skipped, and it is the one behind now
  · obtain ⟨token, hmem, hhead⟩ := behind_of_passed hseen hempty
    have hbehind : ∃ token ∈ tokens, c.settle.seen.head? = some token :=
      ⟨token, h.mem (hrest ▸ List.mem_append_left _ hmem), hhead⟩
    have hsuffix : c.settle.rest <:+ c.rest := ⟨skipped, hrest.symm⟩
    exact ⟨hsuffix.isInfix.trans h.rest, fun _ => .inl hbehind, fun _ => hbehind⟩

/-- The place at the cursor. -/
theorem here : c.here.Given tokens := by
  unfold Cursor.here
  -- the next token, or else the last one, or else the one behind
  cases hpeek : c.peek with
  | some token => exact .of_mem (h.settle.mem (List.mem_of_head? hpeek))
  | none =>
    cases hlast : c.rest.getLast? with
    | some token => exact .inl ⟨token, h.mem (List.mem_of_getLast? hlast), .inr rfl⟩
    | none =>
      obtain ⟨token, hmem, hhead⟩ | ⟨hbare, hseen⟩ := h.last (List.getLast?_eq_none_iff.mp hlast)
      · simp only [hhead, Option.none_or]
        exact .inl ⟨token, hmem, .inr rfl⟩
      · simp only [hseen, List.head?_nil, Option.or_none]
        exact .inr ⟨hbare, rfl⟩

/-- The place wherever reading gets to. -/
theorem here_of_reads (hreads : Reads c kinds c') : c'.here.Given tokens := by
  cases hreads with
  | nil => exact h.here
  | cons hnext hrest => exact (h.of_reads (.cons hnext hrest) (List.cons_ne_nil _ _) 0).here

/-- The mark of a comment that does not end. -/
theorem mem_of_unclosed {mark : Token} (hmark : c.unclosed? = some mark) : mark ∈ tokens :=
  h.mem ((mem_of_unclosedFrom hmark).resolve_left nofun)

/-- A block that was cut out. -/
theorem block {body : List Token} (hblock : Scan.block c = .ok body c') : body <:+: tokens :=
  (Scan.infix_of_block hblock).trans h.rest

/-- The condition of a `while`. It has no tokens if the brace follows at once. -/
theorem condition {what : String} {condition : List Token} {c₁ c₂ : Cursor}
    (hwhile : Reads c [.keyword .whileKw] c₁)
    (hscan : Scan.untilBrace what c₁ = .ok condition c₂) : Among tokens 0 (.start condition) := by
  obtain ⟨rfl, kinds, hreads, -⟩ := Scan.reads_of_untilBrace hscan
  have h₁ := h.of_reads hwhile (List.cons_ne_nil _ _) 0
  -- the condition is empty only if the brace follows its word
  refine ⟨hreads.dropLast_passedSince_infix.trans h₁.rest, fun hempty => .inr ⟨?_, rfl⟩, nofun⟩
  obtain ⟨front, brace, hpassed, hbrace, -⟩ := hreads.passedSince_concat
  obtain ⟨word, c₁', hnext, hword, hend⟩ := hwhile.of_cons
  cases hend
  obtain ⟨-, skipped, hrest, -, -⟩ := next?_split hnext
  -- the brace is the first token behind the word
  obtain rfl : front = [] := by
    rw [← hempty]
    show front = (c₂.passedSince c₁.position).dropLast
    rw [hpassed, List.dropLast_concat]
  have hadjacent : c.rest = skipped ++ [word, brace] ++ c₂.rest := by
    rw [hrest, hreads.rest_eq, hpassed]
    simp
  have hpart : [word, brace] <:+: c.rest := ⟨skipped, c₂.rest, hadjacent.symm⟩
  exact ⟨word, brace, hpart.trans h.rest, hword, hbrace⟩

end Among

end Cursor

/-! ### The contract -/

/-- A routine that gives no places to faults, and hands out only functions whose bodies are as said
if it is given such functions. -/
structure Routine.Modest (P : List Token → Prop) (routine : Routine) : Prop where
  fault : ∀ arguments fault, routine arguments = .error fault → fault.span = none
  result : ∀ arguments value, (∀ v ∈ arguments, v.Has P) → routine arguments = .ok value →
    value.Has P

/-- A fault that arose where these tokens were evaluated, with functions made of other tokens
around. Its place is that of some token, and of one of these if it has left no function. -/
def Fault.LocatedIn (Known : Token → Prop) (tokens : List Token) (fault : Fault) : Prop :=
  ∀ span ∈ fault.span, (span.Marks Known ∨ span = .point 0) ∧
    (fault.unwound = [] → span.Given tokens)

section

variable {Known : Token → Prop} {tokens : List Token} (hknown : ∀ token ∈ tokens, Known token)

include hknown

private theorem Span.Given.known {span : Span} (h : span.Given tokens) :
    span.Marks Known ∨ span = .point 0 := by
  obtain ⟨token, hmem, hspan⟩ | ⟨-, hspan⟩ := h
  · exact .inl ⟨token, hknown token hmem, hspan⟩
  · exact .inr hspan

private theorem Fault.locatedIn_of_given {cause : Cause} {span? : Option Span}
    (h : ∀ span ∈ span?, span.Given tokens) :
    Fault.LocatedIn Known tokens { cause, span := span? } :=
  fun span hspan => ⟨(h span hspan).known hknown, fun _ => h span hspan⟩

private theorem Fault.malformed_locatedIn {complaint : Malformed} {span : Span}
    (h : span.Given tokens) : (Fault.malformed complaint span).LocatedIn Known tokens :=
  Fault.locatedIn_of_given hknown (by simpa using h)

end

/-- Where these tokens are evaluated, faults get their places from them, and functions are made of
tokens that are known. -/
def Contract.locating {Known : Token → Prop} {tokens : List Token}
    -- blocks are pieces of the tokens, and what is ahead is a piece as well
    (hknown : ∀ token ∈ tokens, Known token) : Contract where
  Body body := ∀ token ∈ body, Known token
  Block block := block <:+: tokens
  Ahead := Cursor.Among tokens
  Place := Span.Given tokens
  Hosts := Routine.Modest fun body => ∀ token ∈ body, Known token
  Counts _ _ := True
  Raised := Fault.LocatedIn Known tokens
  change := id
  started h hne := .start h hne
  settled h _ := h.settle
  plain h hreads _ _ := h.of_reads hreads (List.cons_ne_nil _ _) _
  opened h hreads := h.of_reads hreads (List.cons_ne_nil _ _) _
  -- a block lies between two tokens of the sequence
  block {body c c'} h hblock := by
    have hbody := h.block hblock
    obtain ⟨kinds, hreads, -⟩ := Scan.reads_of_block hblock
    exact ⟨fun token hmem => hknown token (hbody.subset hmem), hbody,
      h.of_reads hreads (by simp) _⟩
  header h hscan := by
    obtain ⟨-, kinds, hreads, -⟩ := Scan.reads_of_untilBrace hscan
    exact h.of_reads hreads (by simp) _
  condition h hwhile hscan := h.condition hwhile hscan
  here h hreads := h.here_of_reads hreads
  front h hfront := .of_mem (h.mem (List.mem_of_head? hfront))
  ordinary _ hspan := Fault.locatedIn_of_given hknown hspan
  unmatchedBrace h hfront _ :=
    Fault.malformed_locatedIn hknown (.of_mem (h.mem (List.mem_of_head? hfront)))
  -- the brace that opened the block is the one behind the cursor
  unclosedBlock {span c c'} h hblock := by
    obtain ⟨brace, hmem, hhead⟩ := h.brace Nat.one_pos
    obtain ⟨stop, hfault⟩ := Scan.fault_of_block hblock
    rw [hhead] at hfault
    rw [hfault]
    exact Fault.malformed_locatedIn hknown (.of_mem hmem)
  unclosedComment h hmark :=
    Fault.malformed_locatedIn hknown (.of_mem (h.mem_of_unclosed hmark))
  hosted hmodest harguments hvalue := hmodest.result _ _ harguments hvalue
  -- routines of the host fail without a place
  refused {routine arguments fault} hmodest _ hfault := by
    refine ⟨fun span hspan => ?_, rfl⟩
    rw [hmodest.fault arguments fault hfault] at hspan
    cases hspan
  -- the first place a fault gets is the one it keeps
  located {fault span} hplace hraised := by
    intro place hmem
    cases hspan : fault.span with
    | some first =>
      rw [Fault.located, hspan] at hmem
      cases hmem
      exact hraised _ hspan
    | none =>
      rw [Fault.located, hspan] at hmem
      cases hmem
      exact ⟨hplace.known hknown, fun _ => hplace⟩
  change_of_nil := Fault.id_of_nil
  change_located := Fault.id_located

/-- A body under the contract for its own tokens, where a function that is called leaves it. -/
private theorem Contract.locating_inCall {Known : Token → Prop} {tokens body : List Token}
    (hknown : ∀ token ∈ tokens, Known token) (hbody : ∀ token ∈ body, Known token) (name : String)
    {x y : Eval α} {Q : α → Prop} (h : Eval.Meets (.locating hbody) x y Q) :
    Eval.Meets (.locating hknown) (Eval.inCall name x) (Eval.inCall name y) Q := by
  -- neither the tokens nor the number of calls matter to the session
  refine h.inside (fun hs => ⟨hs.env, hs.routines, trivial⟩)
    (fun hs => ⟨hs.env, hs.routines, trivial⟩) fun hf => ⟨fun span hspan => ?_, rfl⟩
  exact ⟨(hf span hspan).1, fun hnil => absurd hnil (List.cons_ne_nil _ _)⟩

namespace Phrase

variable {Known : Token → Prop}

/-- A call, if bodies are evaluated under the contract for their own tokens. -/
private theorem located_call {fuel : Nat}
    (hbodies : ∀ {tokens : List Token} (hknown : ∀ token ∈ tokens, Known token) {α : Type}
      (phrase : Phrase α), phrase.Complies (.locating hknown) (run fuel phrase) (run fuel phrase))
    {tokens : List Token} (hknown : ∀ token ∈ tokens, Known token) (function : Callable)
    (arguments : List Value) (hfunction : function.body.Has (Contract.locating hknown).Body)
    (harguments : ∀ v ∈ arguments, v.Has (Contract.locating hknown).Body) :
    Eval.Meets (.locating hknown) (Eval.call (run fuel) function arguments)
      (Eval.call (run fuel) function arguments) (Value.Has (Contract.locating hknown).Body) := by
  unfold Eval.call
  -- natives know their arguments only, and a body is made of known tokens
  split
  · exact .native harguments
  · exact .bind (.check _ _) fun _ _ => .native harguments
  · rename_i body hbody
    rw [hbody] at hfunction
    have hbody : ∀ token ∈ body, Known token := hfunction
    refine .bind (.check _ _) fun _ _ => .getting fun s hs => ?_
    split
    · exact .throw nofun rfl
    -- a body is read from its own front, so the contract there is that of its own tokens
    · have hblock := (hbodies hbody (.statements true)).onTokens (List.infix_refl body)
      have hscope := hblock.body function.parameters harguments
      exact .bind (Contract.locating_inCall hknown hbody _ hscope) fun v? hv =>
        .pure (Value.has_getD hv)

/-- Evaluation puts faults at places of the tokens it is given, wherever a phrase begins. -/
theorem located_complies (fuel : Nat) {tokens : List Token}
    (hknown : ∀ token ∈ tokens, Known token) (phrase : Phrase α) :
    phrase.Complies (.locating hknown) (run fuel phrase) (run fuel phrase) := by
  -- bodies have tokens of their own, so the induction is for all of them
  induction fuel generalizing tokens α phrase with
  | zero => exact phrase.starved_complies
  | succ fuel ih =>
    have hcompliant : Compliant (.locating hknown) (run fuel) (run fuel) (Eval.call (run fuel)) :=
      ⟨fun phrase => (ih hknown phrase).inside, located_call (fun h _ => ih h) hknown⟩
    have hrule := hcompliant.rule (ih hknown (.statements true)) fuel phrase
    rwa [ruleWith_call] at hrule

theorem located_compliant (fuel : Nat) {tokens : List Token}
    (hknown : ∀ token ∈ tokens, Known token) :
    Compliant (.locating hknown) (run fuel) (run fuel) (Eval.call (run fuel)) :=
  ⟨fun phrase => (located_complies fuel hknown phrase).inside,
    located_call (fun h _ => located_complies fuel h) hknown⟩

end Phrase

end Tern
