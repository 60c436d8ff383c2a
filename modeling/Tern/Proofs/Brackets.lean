import Tern.Proofs.Compliance

/-!
# Complaints about brackets

A program can be refused because a closing brace has no opening one, because a block does not end, or
because a comment does not end. All three are noticed only when evaluation comes to the place. They
are never raised if the brackets are all right: whatever an evaluation reads, be it the rest of a
program, a block, a condition or the body of a function, is well-bracketed again.

## Key results

- `Token.wellBracketed_iff`: prefixes and totals against one count from left to right
- `Contract.bracketed`: evaluation stays among well-bracketed tokens, and raises none of the three
- `Session.brackets_sound`: so no run of a well-bracketed program does, whatever came before it
-/

namespace Tern

open Cursor (Reads)

/-! ### Counting braces -/

namespace Scan

/-- Without opening braces, nothing that closes one can be passed outside of all. -/
theorem nesting_of_notMem {kinds : List Kind} {left : Nat} (hl : .symbol .leftBrace ∉ kinds)
    (h : nesting 0 kinds = some left) : nesting 0 kinds = some 0 := by
  induction kinds with
  | nil => rfl
  | cons kind kinds ih =>
    have hkind : kind ≠ .symbol .leftBrace := fun heq => hl (by simp [heq])
    by_cases hr : kind = .symbol .rightBrace
    · subst hr
      cases h
    · rw [nesting_cons, nest_of_ne hkind hr] at h ⊢
      exact ih (fun hm => hl (List.mem_cons_of_mem _ hm)) h

/-- Where the nesting is lost, a brace is closed behind a stretch that closes all that are open. -/
theorem exists_closing_of_none {kinds : List Kind} {depth : Nat} (h : nesting depth kinds = none) :
    ∃ body rest, kinds = body ++ .symbol .rightBrace :: rest ∧ nesting depth body = some 0 := by
  induction kinds generalizing depth with
  | nil => cases h
  | cons kind kinds ih =>
    rw [nesting_cons] at h
    cases hnest : nest kind depth with
    -- the first brace that nothing opened is the one searched for
    | none =>
      obtain ⟨rfl, rfl⟩ := nest_eq_none hnest
      exact ⟨[], kinds, rfl, rfl⟩
    | some next =>
      -- otherwise it stands behind the first kind, which belongs to the body
      rw [hnest] at h
      obtain ⟨body, rest, rfl, hbody⟩ := ih h
      refine ⟨kind :: body, rest, rfl, ?_⟩
      rw [nesting_cons, hnest]
      exact hbody

/-- Where more braces are open than `depth`, and none is in the end, one of them is closed behind a
stretch that closes those `depth`. -/
theorem exists_closing {kinds : List Kind} {depth outer : Nat}
    (h : nesting (depth + (outer + 1)) kinds = some 0) :
    ∃ body rest, kinds = body ++ .symbol .rightBrace :: rest ∧ nesting depth body = some 0 := by
  refine exists_closing_of_none ?_
  cases hnesting : nesting depth kinds with
  | none => rfl
  | some left =>
    -- the other braces would be left open
    have hopen := nesting_add hnesting (outer + 1)
    rw [h] at hopen
    cases hopen

/-- Comments are no braces. -/
theorem nesting_filter (depth : Nat) (kinds : List Kind) :
    nesting depth (kinds.filter (!·.isComment)) = nesting depth kinds := by
  induction kinds generalizing depth with
  | nil => rfl
  | cons kind kinds ih =>
    by_cases hkind : kind.isComment = true
    -- a comment is no brace, so it leaves the depth alone
    · have hl : kind ≠ .symbol .leftBrace := fun heq => by simp [heq, Kind.isComment] at hkind
      have hr : kind ≠ .symbol .rightBrace := fun heq => by simp [heq, Kind.isComment] at hkind
      rw [List.filter_cons, if_neg (by simpa using hkind), nesting_cons, nest_of_ne hl hr, ih]
      rfl
    -- any other kind is passed by both counts
    · rw [List.filter_cons, if_pos (by simpa using hkind), nesting_cons, nesting_cons]
      congr 1
      funext next
      exact ih next

/-- What a token does to the nesting it does to the counts of braces. -/
private theorem count_of_nest {kind : Kind} {depth next : Nat} (h : nest kind depth = some next)
    (kinds : List Kind) :
    (kind :: kinds).count (.symbol .rightBrace) + next + kinds.count (.symbol .leftBrace) =
      depth + (kind :: kinds).count (.symbol .leftBrace) + kinds.count (.symbol .rightBrace) := by
  rcases nest_cases h with ⟨rfl, rfl⟩ | ⟨rfl, rfl⟩ | ⟨hl, hr, rfl⟩
  · rw [List.count_cons_self, List.count_cons_of_ne (by simp)]
    omega
  · rw [List.count_cons_self, List.count_cons_of_ne (by simp)]
    omega
  · rw [List.count_cons_of_ne hr, List.count_cons_of_ne hl]
    omega

/-- A prefix is empty, or it begins with the first token. -/
private theorem forall_prefix_cons_iff {kind : Kind} {kinds : List Kind} {P : List Kind → Prop} :
    (∀ front, front <+: kind :: kinds → P front) ↔
      P [] ∧ ∀ front, front <+: kinds → P (kind :: front) := by
  constructor
  · intro h
    refine ⟨h [] List.nil_prefix, fun front hfront => h _ ?_⟩
    exact List.cons_prefix_cons.mpr ⟨rfl, hfront⟩
  · rintro ⟨hnil, hcons⟩ front hfront
    rcases List.prefix_cons_iff.mp hfront with rfl | ⟨rest, rfl, hrest⟩
    · exact hnil
    · exact hcons rest hrest

/-- Counting from left to right gives a result exactly if no prefix closes more braces than are open
in front of it, and the result is what the totals say. -/
theorem nesting_eq_some_iff {kinds : List Kind} {depth left : Nat} :
    nesting depth kinds = some left ↔
      (∀ front, front <+: kinds →
        front.count (.symbol .rightBrace) ≤ depth + front.count (.symbol .leftBrace)) ∧
      kinds.count (.symbol .rightBrace) + left = depth + kinds.count (.symbol .leftBrace) := by
  induction kinds generalizing depth with
  -- nothing is read: no brace is lost and the depth stays
  | nil =>
    show some depth = some left ↔ _
    simp [eq_comm]
  | cons kind kinds ih =>
    rw [nesting_cons, forall_prefix_cons_iff]
    cases hnest : nest kind depth with
    | none =>
      -- a closing brace where none is open
      obtain ⟨rfl, rfl⟩ := nest_eq_none hnest
      simp only [Option.bind_none, reduceCtorEq, false_iff]
      rintro ⟨⟨-, hcons⟩, -⟩
      have hone := hcons [] List.nil_prefix
      simp at hone
    | some next =>
      -- the rest begins at another depth, by which every count behind it is shifted
      show nesting next kinds = some left ↔ _
      rw [ih]
      have htotal := count_of_nest hnest kinds
      constructor
      · rintro ⟨hfront, hleft⟩
        refine ⟨⟨by simp, fun front hmem => ?_⟩, by omega⟩
        have := count_of_nest hnest front
        have := hfront front hmem
        omega
      · rintro ⟨⟨-, hfront⟩, hleft⟩
        refine ⟨fun front hmem => ?_, by omega⟩
        have := count_of_nest hnest front
        have := hfront front hmem
        omega

end Scan

/-! ### Tokens -/

namespace Token

/-- Tokens whose brackets are all right: every block comment ends, and outside comments no prefix has
more closing than opening braces, and the whole has as many of both. -/
structure WellBracketed (tokens : List Token) : Prop where
  closed : ∀ before mark after, tokens = before ++ mark :: after →
    mark.kind = .symbol .commentOpen → ∃ token ∈ after, token.kind = .symbol .commentClose
  nested : ∀ front, front <+: (kept tokens).map (·.kind) →
    front.count (.symbol .rightBrace) ≤ front.count (.symbol .leftBrace)
  paired : ((kept tokens).map (·.kind)).count (.symbol .rightBrace) =
    ((kept tokens).map (·.kind)).count (.symbol .leftBrace)

/-- Tokens whose brackets are all right behind so many opening braces. -/
structure Closing (depth : Nat) (tokens : List Token) : Prop where
  closed : Kind.bare (.symbol .commentOpen) ∉ bare tokens
  nesting : Scan.nesting depth ((bare tokens).map (·.kind)) = some 0

instance (depth : Nat) (tokens : List Token) : Decidable (Closing depth tokens) :=
  decidable_of_iff (Kind.bare (.symbol .commentOpen) ∉ bare tokens ∧
      Scan.nesting depth ((bare tokens).map (·.kind)) = some 0)
    ⟨fun h => ⟨h.1, h.2⟩, fun h => ⟨h.closed, h.nesting⟩⟩

/-- Prefixes and totals of the tokens outside comments, against one count. -/
theorem wellBracketed_iff {tokens : List Token} : WellBracketed tokens ↔ Closing 0 tokens := by
  -- neither side asks for comments: nesting is counted over the kinds outside of them
  have hkinds : Scan.nesting 0 ((bare tokens).map (·.kind)) =
      Scan.nesting 0 ((kept tokens).map (·.kind)) := by
    rw [kinds_kept, Scan.nesting_filter]
  constructor
  -- by counting, every leading piece closes no more than it opens, and the whole as much
  · intro h
    refine ⟨open_notMem_bare_iff.mpr h.closed, ?_⟩
    rw [hkinds, Scan.nesting_eq_some_iff]
    refine ⟨fun front hfront => ?_, ?_⟩
    · rw [Nat.zero_add]
      exact h.nested front hfront
    · rw [Nat.add_zero, Nat.zero_add]
      exact h.paired
  · intro h
    obtain ⟨hnested, hpaired⟩ := Scan.nesting_eq_some_iff.mp (hkinds.symm.trans h.nesting)
    refine ⟨open_notMem_bare_iff.mp h.closed, fun front hfront => ?_, by omega⟩
    have := hnested front hfront
    omega

instance (tokens : List Token) : Decidable (WellBracketed tokens) :=
  decidable_of_iff (Closing 0 tokens) wellBracketed_iff.symm

/-- Tokens of which nothing but the kind is known have that kind. -/
private theorem map_kind_bare (kinds : List Kind) :
    (kinds.map Kind.bare).map (·.kind) = kinds := by
  rw [List.map_map]
  exact List.map_id kinds

namespace Closing

variable {depth : Nat} {c c' : Cursor} {kinds : List Kind}

/-- What is read closes no more than is open, and the rest closes what is open then. -/
theorem exists_nesting (h : Closing depth c.rest) (hreads : Reads c kinds c') :
    ∃ left, Scan.nesting depth kinds = some left ∧ Closing left c'.rest := by
  have hbare := hreads.bare_rest
  have hnesting := h.nesting
  rw [hbare, List.map_append, map_kind_bare, Scan.nesting_append] at hnesting
  obtain ⟨left, hkinds, hrest⟩ := Option.bind_eq_some_iff.mp hnesting
  refine ⟨left, hkinds, fun hmem => h.closed ?_, hrest⟩
  rw [hbare]
  exact List.mem_append_right _ hmem

/-- What is left behind tokens that were read. -/
theorem of_reads (h : Closing depth c.rest) (hreads : Reads c kinds c') {left : Nat}
    (hkinds : Scan.nesting depth kinds = some left) : Closing left c'.rest := by
  obtain ⟨left', hkinds', hrest⟩ := h.exists_nesting hreads
  obtain rfl : left' = left := Option.some.inj (hkinds'.symm.trans hkinds)
  exact hrest

/-- Tokens that were read have no comment that does not end. -/
theorem of_bare {tokens : List Token} (hplain : ∀ kind ∈ kinds, kind.isPlain = true)
    (hbare : bare tokens = kinds.map Kind.bare) (hkinds : Scan.nesting depth kinds = some 0) :
    Closing depth tokens := by
  refine ⟨fun hmem => ?_, ?_⟩
  · rw [hbare] at hmem
    obtain ⟨kind, hkind, heq⟩ := List.mem_map.mp hmem
    have hkind := hplain kind hkind
    rw [(Token.mk.inj heq).1] at hkind
    cases hkind
  · rw [hbare, map_kind_bare]
    exact hkinds

/-- What is read up to an opening brace has no opening brace, so it has no closing one either. -/
theorem nesting_of_condition (h : Closing 0 c.rest)
    (hreads : Reads c (kinds ++ [.symbol .leftBrace]) c')
    (hnone : .symbol .leftBrace ∉ kinds) : Scan.nesting 0 kinds = some 0 := by
  obtain ⟨c₁, hcondition, -⟩ := hreads.of_append
  obtain ⟨left, hleft, -⟩ := h.exists_nesting hcondition
  exact Scan.nesting_of_notMem hnone hleft

/-- A block that is open ends. -/
theorem exists_reads (h : Closing (depth + 1) c.rest) :
    ∃ kinds c', Reads c (kinds ++ [.symbol .rightBrace]) c' ∧ Scan.Balanced kinds := by
  -- the body ends where the depth around it is reached again
  have hnesting : Scan.nesting (0 + (depth + 1)) ((bare c.rest).map (·.kind)) = some 0 := by
    rw [Nat.zero_add]
    exact h.nesting
  obtain ⟨body, rest, hkinds, hbody⟩ := Scan.exists_closing hnesting
  have hbare : bare c.rest = (body ++ [Kind.symbol .rightBrace]).map Kind.bare ++
      rest.map Kind.bare := by
    rw [← List.map_append, List.append_assoc, List.singleton_append, ← hkinds, List.map_map]
    exact (map_bareFrom false c.rest).symm
  -- what is read up to there is no mark of a comment, since all comments are closed
  have hplain : ∀ kind ∈ body ++ [Kind.symbol .rightBrace], kind.isPlain = true := by
    intro kind hkind
    have hmem : kind.bare ∈ bare c.rest := by
      rw [hbare]
      exact List.mem_append_left _ (List.mem_map_of_mem hkind)
    rcases isPlain_of_mem_bareFrom hmem with hplain | hopen
    · exact hplain
    · have hkind : kind = .symbol .commentOpen := hopen
      rw [hkind] at hmem
      exact absurd hmem h.closed
  obtain ⟨c', hreads, -⟩ := Cursor.reads_of_bare hplain hbare
  exact ⟨body, c', hreads, Scan.balanced_iff.mpr hbody⟩

end Closing

end Token

/-- What is read up to a last token, without it. -/
private theorem Cursor.Reads.closing {c c' : Cursor} {kinds : List Kind} {kind : Kind}
    (h : Reads c (kinds ++ [kind]) c') (hkinds : Scan.nesting 0 kinds = some 0) :
    Token.Closing 0 (c'.passedSince c.position).dropLast :=
  .of_bare (fun k hk => h.isPlain k (List.mem_append_left _ hk)) h.passedSince_dropLast hkinds

/-- What is cut out as a block is well-bracketed, whatever is around it. -/
theorem Scan.wellBracketed_of_block {c c' : Cursor} {body : List Token}
    (h : Scan.block c = .ok body c') : Token.WellBracketed body := by
  obtain ⟨kinds, hreads, hkinds⟩ := Scan.reads_of_block h
  rw [Scan.passed_of_block h]
  exact Token.wellBracketed_iff.mpr (hreads.closing (hkinds 0))

/-! ### Evaluations -/

/-- The complaints about brackets. -/
def Cause.aboutBrackets : List Cause :=
  [.malformed .unmatchedBrace, .malformed .unclosedBlock, .malformed .unclosedComment]

theorem Cause.notMem_aboutBrackets {cause : Cause} (h : cause.isOrdinary = true) :
    cause ∉ Cause.aboutBrackets := by
  intro hmem
  simp only [aboutBrackets, List.mem_cons, List.not_mem_nil, or_false] at hmem
  rcases hmem with rfl | rfl | rfl <;> cases h

/-- A routine that does not complain about syntax, and does not make up functions whose brackets are
not all right. -/
structure Routine.Sound (routine : Routine) : Prop where
  result : ∀ arguments value, (∀ v ∈ arguments, v.Has Token.WellBracketed) →
    routine arguments = .ok value → value.Has Token.WellBracketed
  fault : ∀ arguments fault complaint, routine arguments = .error fault →
    fault.cause ≠ .malformed complaint

namespace Contract

/-- Whatever tokens are evaluated, the bodies of functions are well-bracketed. -/
def storing : Contract where
  Body := Token.WellBracketed
  Block _ := True
  Ahead _ _ := True
  Place _ := True
  Hosts := Routine.Sound
  Counts _ _ := True
  Raised _ := True
  change := id
  started _ _ := trivial
  settled _ _ := trivial
  plain _ _ _ _ := trivial
  opened _ _ := trivial
  -- a block is what stands between matching braces
  block _ hblock := ⟨Scan.wellBracketed_of_block hblock, trivial, trivial⟩
  header _ _ := trivial
  condition _ _ _ := trivial
  here _ _ := trivial
  front _ _ := trivial
  ordinary _ _ := trivial
  unmatchedBrace _ _ _ := trivial
  unclosedBlock _ _ := trivial
  unclosedComment _ _ := trivial
  -- only routines of the host hand in functions, and the sound ones hand in good bodies
  hosted hsound harguments hvalue := hsound.result _ _ harguments hvalue
  refused _ _ _ := ⟨trivial, rfl⟩
  located _ _ := trivial
  change_of_nil := Fault.id_of_nil
  change_located := Fault.id_located

/-- Well-bracketed tokens are evaluated without a complaint about brackets, and what is left of them
is well-bracketed. -/
def bracketed : Contract where
  Body := Token.WellBracketed
  Block := Token.WellBracketed
  Ahead depth c := Token.Closing depth c.rest
  Place _ := True
  Hosts := Routine.Sound
  Counts _ _ := True
  Raised f := f.cause ∉ Cause.aboutBrackets
  change := id
  -- what is ahead: blocks that are left open, to be closed again by as many braces
  started hbody _ := Token.wellBracketed_iff.mp hbody
  settled {c} h hclosed := by
    have hbare := c.bare_rest_settle hclosed
    exact ⟨hbare ▸ h.closed, hbare ▸ h.nesting⟩
  -- a token that is no brace leaves the depth alone
  plain h hreads hl hr := h.of_reads hreads (by rw [Scan.nesting_cons, Scan.nest_of_ne hl hr]; rfl)
  opened h hreads := h.of_reads hreads rfl
  -- a block is passed as a whole, at whatever depth it stands
  block {body c c'} h hblock := by
    obtain ⟨kinds, hreads, hkinds⟩ := Scan.reads_of_block hblock
    have hbody := Scan.wellBracketed_of_block hblock
    refine ⟨hbody, hbody, h.of_reads hreads ?_⟩
    rw [Scan.nesting_append, hkinds 1]
    rfl
  -- a condition has no braces of its own, so the brace behind it opens a block
  header {what condition c c'} h hscan := by
    obtain ⟨-, kinds, hreads, hnone⟩ := Scan.reads_of_untilBrace hscan
    refine h.of_reads hreads ?_
    rw [Scan.nesting_append, h.nesting_of_condition hreads hnone]
    rfl
  -- the tokens of a condition that is read again are closed in themselves
  condition {what condition c c₁ c₂} h hwhile hscan := by
    obtain ⟨rfl, kinds, hreads, hnone⟩ := Scan.reads_of_untilBrace hscan
    have h₁ : Token.Closing 0 c₁.rest := h.of_reads hwhile rfl
    exact hreads.closing (h₁.nesting_of_condition hreads hnone)
  here _ _ := trivial
  front _ _ := trivial
  ordinary h _ := Cause.notMem_aboutBrackets h
  -- a closing brace in front would be lost, where every brace is matched
  unmatchedBrace {token c} h hfront hkind := by
    obtain ⟨rest, hrest⟩ : ∃ rest, c.rest = token :: rest := List.head?_eq_some_iff.mp hfront
    have hplain : token.kind.isPlain = true := by rw [hkind]; rfl
    have hnesting := h.nesting
    rw [hrest, Token.bare_cons_of_isPlain hplain, hkind] at hnesting
    cases hnesting
  -- the block is found, since a closing brace matches the one that was read
  unclosedBlock h hblock := by
    obtain ⟨kinds, c', hreads, hkinds⟩ := h.exists_reads
    rw [Scan.block_of_reads hreads hkinds] at hblock
    cases hblock
  -- no comment is left open
  unclosedComment {mark c} h hunclosed := by
    refine absurd ?_ h.closed
    rw [Cursor.bare_of_unclosed hunclosed]
    exact List.mem_cons_self
  hosted hsound harguments hvalue := hsound.result _ _ harguments hvalue
  -- the host does not complain of brackets on its own
  refused {routine arguments fault} hsound _ hfault := by
    refine ⟨fun hmem => ?_, rfl⟩
    simp only [Cause.aboutBrackets, List.mem_cons, List.not_mem_nil, or_false] at hmem
    rcases hmem with hcause | hcause | hcause
    · exact hsound.fault _ _ _ hfault hcause
    · exact hsound.fault _ _ _ hfault hcause
    · exact hsound.fault _ _ _ hfault hcause
  located _ h := h
  change_of_nil := Fault.id_of_nil
  change_located := Fault.id_located

theorem storing_indifferent : storing.Indifferent where
  body _ := trivial
  counts _ _ := trivial
  limit _ := trivial
  leaving _ _ := trivial
  change _ := rfl

theorem bracketed_indifferent : bracketed.Indifferent where
  body h := h
  counts _ _ := trivial
  limit _ := by simp [bracketed, Cause.aboutBrackets]
  leaving _ h := h
  change _ := rfl

end Contract

/-! ### Sessions -/

namespace Session

/-- What whoever embeds an interpreter can do with it: make it, run programs of whatever tokens, call
functions, make functions of routines, and bind globals. Functions that are handed in have
well-bracketed bodies, as those in variables have. -/
inductive Reached : Session → Prop where
  | create (settings : Settings) (withNatives : Bool) : Reached (create settings withNatives)
  | run {s : Session} (fuel : Nat) (tokens : List Token) :
    Reached s → Reached (s.runTokens fuel tokens).2
  | call {s : Session} (fuel : Nat) {function : Callable} {arguments : List Value} :
    Reached s → function.body.Has Token.WellBracketed →
    (∀ v ∈ arguments, v.Has Token.WellBracketed) → Reached (s.call fuel function arguments).2
  | make {s : Session} (name : String) (parameters? : Option (List Parameter)) {routine : Routine} :
    Reached s → routine.Sound → Reached (s.makeHosted name parameters? routine).2
  | set {s : Session} (name : String) {binding : Variable} :
    Reached s → binding.value.Has Token.WellBracketed → Reached (s.setGlobal name binding)

/-- A routine is registered by making a function of it and binding that. -/
theorem Reached.register {s : Session} (h : s.Reached) (name : String)
    (parameters? : Option (List Parameter)) {routine : Routine} (hroutine : routine.Sound) :
    (s.addRoutine name parameters? routine).Reached :=
  .set name (.make name parameters? h hroutine) trivial

/-- One thing after the other, the bodies of functions stay well-bracketed. -/
private theorem Reached.holds {s : Session} (h : s.Reached) : Contract.storing.Holds s := by
  induction h with
  | create settings withNatives => exact .create trivial withNatives
  | @run s fuel tokens _ ih =>
    -- a run begins with empty scopes, and whatever its tokens are, nothing is asked of them
    have hfresh : Contract.storing.Holds s.fresh := ⟨ih.env.reset, ih.routines, trivial⟩
    have hblock : Contract.storing.Block tokens := trivial
    exact ((Phrase.compliant Contract.storing_indifferent fuel).run hfresh hblock).kept.session
  | @call s fuel function arguments _ hbody harguments ih =>
    have hcall := (Phrase.compliant Contract.storing_indifferent fuel).call function arguments hbody
      harguments
    exact (hcall s ih).kept.session
  | make name parameters? _ hroutine ih => exact ih.makeHosted name parameters? hroutine
  | set name _ hvalue ih => exact ih.setGlobal name hvalue

/-- Complaints about brackets are made only where brackets are not all right. In an interpreter that
has run whatever programs, and called functions and routines of the host on the way, the body of
every function in a variable is well-bracketed, and a run of a well-bracketed program never complains
about an unmatched brace, a block that does not end, or a comment that does not end. -/
theorem brackets_sound {s : Session} (hs : s.Reached) :
    s.env.All (Value.Has Token.WellBracketed) ∧
      ∀ fuel tokens f, Token.WellBracketed tokens →
        (s.runTokens fuel tokens).1 = .error (.fault f) →
        f.cause ≠ .malformed .unmatchedBrace ∧ f.cause ≠ .malformed .unclosedBlock ∧
          f.cause ≠ .malformed .unclosedComment := by
  have hholds := hs.holds
  refine ⟨hholds.env, fun fuel tokens f htokens hfault => ?_⟩
  have hfresh : Contract.bracketed.Holds s.fresh := ⟨hholds.env.reset, hholds.routines, trivial⟩
  have hends := (Phrase.compliant Contract.bracketed_indifferent fuel).run hfresh htokens
  have hcause : f.cause ∉ Cause.aboutBrackets := hends.kept.fault f hfault
  simpa [Cause.aboutBrackets] using hcause

/-- A program that declares a function and then complains about a brace, and a call of that function
later on. -/
theorem brackets_sound_later :
    let count : Routine := fun arguments => .ok (.number (Int64.ofNat arguments.length))
    let s := (create {} true).addRoutine "count" none count
    let broken := tokenize "def f(x) \x7b if x \x7b count(y) \x7d \x7d \x7d"
    let later := tokenize "f(true) /* \x7d */"
    let fault : Fault :=
      { cause := .undefinedVariable "y", span := some ⟨24, 25⟩, unwound := ["f"] }
    (s.runTokens 12 broken).1 = .error (.fault (.malformed .unmatchedBrace ⟨31, 32⟩)) ∧
      (s.runTokens 12 broken).2.Reached ∧ Token.WellBracketed later ∧
      ((s.runTokens 12 broken).2.runTokens 12 later).1 = .error (.fault fault) ∧
      fault.cause ≠ .malformed .unmatchedBrace ∧ fault.cause ≠ .malformed .unclosedBlock ∧
      fault.cause ≠ .malformed .unclosedComment := by
  intro count s broken later fault
  have hcount : count.Sound := by
    constructor
    · intro arguments value _ hvalue
      cases hvalue
      trivial
    · intro arguments fault complaint hfault
      cases hfault
  -- the program that failed has left the function in the session, whose body is well bracketed
  have hreached : (s.runTokens 12 broken).2.Reached :=
    .run 12 broken ((Reached.create {} true).register "count" none hcount)
  obtain ⟨hbroken, hlater, hfault⟩ :
      (s.runTokens 12 broken).1 = .error (.fault (.malformed .unmatchedBrace ⟨31, 32⟩)) ∧
      Token.WellBracketed later ∧
      ((s.runTokens 12 broken).2.runTokens 12 later).1 = .error (.fault fault) := by
    decide +kernel
  exact ⟨hbroken, hreached, hlater, hfault,
    (brackets_sound hreached).2 12 later fault hlater hfault⟩

end Session

end Tern
