import Tern.Proofs.Brackets
import Tern.Proofs.Indexing

/-!
# The brace that closes a block

A block ends with the first brace outside comments that closes no brace inside it. In terms of
counts, that is the end of the shortest piece of what is ahead in which one brace more is closed
than opened. What stands between the braces is well-bracketed again, so it is cut out in the same
way wherever else it stands between braces.

## Key results

- `Token.bare_append_of_closed`, `Token.kept_append_of_closed`: comments that end do not reach
  into what follows
- `Cursor.reads_through`: tokens up to one that begins no comment are read through
- `Scan.block_of_wellBracketed`: well-bracketed tokens in front of a closing brace are a block
- `Scan.block_matching`: a block is found where there is one, and it is the one that is meant
-/

namespace Tern

open Cursor (Reads)

/-! ### Comments that end -/

namespace Token

variable {inside : Bool} {tokens : List Token}

private theorem bareFrom_append (h : Kind.bare (.symbol .commentOpen) ∉ bareFrom inside tokens)
    (more : List Token) :
    bareFrom inside (tokens ++ more) = bareFrom inside tokens ++ bare more := by
  induction tokens generalizing inside with
  | nil =>
    cases inside with
    -- the mark of a comment that does not end would be among the bare tokens
    | true => exact absurd List.mem_cons_self h
    | false => rfl
  | cons token tokens ih =>
    cases inside with
    | true => exact ih h
    | false =>
      simp only [List.cons_append, bareFrom] at h ⊢
      -- a line comment is dropped, a mark that opens a comment changes the state, the rest stays
      split
      · rename_i hkind
        exact ih (by simpa [hkind] using h)
      · rename_i hkind
        exact ih (by simpa [hkind] using h)
      · rename_i hline hopen
        -- what follows a token that stays is closed if all of it is
        have hrest : Kind.bare (.symbol .commentOpen) ∉ bareFrom false tokens := by
          split at h
          · rename_i hkind
            exact absurd hkind (hline _)
          · rename_i hkind
            exact absurd hkind hopen
          · exact fun hmem => h (List.mem_cons_of_mem _ hmem)
        rw [ih hrest, List.cons_append]

/-- Comments that end do not reach into what follows. -/
theorem bare_append_of_closed (h : Kind.bare (.symbol .commentOpen) ∉ bare tokens)
    (more : List Token) :
    bare (tokens ++ more) = bare tokens ++ bare more :=
  bareFrom_append h more

private theorem keptFrom_append (h : Kind.bare (.symbol .commentOpen) ∉ bareFrom inside tokens)
    (more : List Token) :
    keptFrom inside (tokens ++ more) = keptFrom inside tokens ++ kept more := by
  induction tokens generalizing inside with
  | nil =>
    cases inside with
    -- the mark of a comment that does not end would be among the bare tokens
    | true => exact absurd List.mem_cons_self h
    | false => rfl
  | cons token tokens ih =>
    cases inside with
    | true => exact ih h
    | false =>
      simp only [List.cons_append, bareFrom, keptFrom] at h ⊢
      -- a mark that opens a comment changes the state, any other token leaves it
      split
      · rename_i hopen
        exact ih (by simpa [hopen] using h)
      · rename_i hopen
        -- what follows a token that leaves the state is closed if all of it is
        have hrest : Kind.bare (.symbol .commentOpen) ∉ bareFrom false tokens := by
          split at h
          · exact h
          · rename_i hkind
            exact absurd hkind hopen
          · exact fun hmem => h (List.mem_cons_of_mem _ hmem)
        split
        · exact ih hrest
        · rw [ih hrest, List.cons_append]

/-- Comments that end do not reach into what follows. -/
theorem kept_append_of_closed (h : Kind.bare (.symbol .commentOpen) ∉ bare tokens)
    (more : List Token) :
    kept (tokens ++ more) = kept tokens ++ kept more :=
  keptFrom_append h more

/-- Where all comments end, the bare form is made of tokens that begin none. -/
theorem exists_kinds_of_closed (h : Kind.bare (.symbol .commentOpen) ∉ bare tokens) :
    ∃ kinds : List Kind, bare tokens = kinds.map Kind.bare ∧
      ∀ kind ∈ kinds, kind.isPlain = true := by
  refine ⟨(bare tokens).map (·.kind), ?_, ?_⟩
  · rw [List.map_map]
    exact (map_bareFrom false tokens).symm
  · intro kind hkind
    obtain ⟨token, htoken, rfl⟩ := List.mem_map.mp hkind
    rcases isPlain_of_mem_bareFrom htoken with hplain | hopen
    · exact hplain
    -- bare tokens have no place that could be lost by looking at their kinds only
    · have hbare : token.kind.bare = token := by
        have hmem := htoken
        rw [bare, ← map_bareFrom] at hmem
        obtain ⟨token', -, rfl⟩ := List.mem_map.mp hmem
        rfl
      rw [← hbare, hopen] at htoken
      exact absurd htoken h

/-- A sequence is cut in front of a token in one way only, if what is in front is to have this bare
form. -/
private theorem length_le_of_split {front front' more more' : List Token} {token token' : Token}
    (h : front ++ token :: more = front' ++ token' :: more')
    (hclosed : Kind.bare (.symbol .commentOpen) ∉ bare front) (hplain : token.kind.isPlain = true)
    (hbare : bare front = bare front') : front'.length ≤ front.length := by
  rcases List.append_eq_append_iff.mp h with ⟨between, hfront, hmore⟩ | ⟨between, hfront, -⟩
  · cases between with
    | nil => simp [hfront]
    | cons first between =>
      -- the token would be read in front of the other one
      obtain rfl : token = first := (List.cons.inj hmore).1
      rw [hfront, bare_append_of_closed hclosed, bare_cons_of_isPlain hplain] at hbare
      have hlength := congrArg List.length hbare
      simp at hlength
  · simp [hfront]

end Token

/-- A cursor reads through tokens whose comments end, and a token behind them that begins none. -/
theorem Cursor.reads_through {c : Cursor} {front more : List Token} {token : Token}
    {kinds : List Kind} (hrest : c.rest = front ++ token :: more)
    (hbare : Token.bare front = kinds.map Kind.bare)
    (hkinds : ∀ kind ∈ kinds, kind.isPlain = true) (hplain : token.kind.isPlain = true) :
    Reads c (kinds ++ [token.kind]) ⟨token :: (front.reverse ++ c.seen), more⟩ := by
  -- no comment reaches from the front over the token
  have hclosed : Kind.bare (.symbol .commentOpen) ∉ Token.bare front := by
    rw [hbare]
    intro hmem
    obtain ⟨kind, hkind, heq⟩ := List.mem_map.mp hmem
    have hopen := hkinds kind hkind
    rw [show kind = _ from (Token.mk.inj heq).1] at hopen
    cases hopen
  -- ahead are the tokens of the front and then the token itself
  have hahead : Token.bare c.rest =
      (kinds ++ [token.kind]).map Kind.bare ++ Token.bare more := by
    rw [hrest, Token.bare_append_of_closed hclosed, hbare, Token.bare_cons_of_isPlain hplain]
    simp
  have hall : ∀ kind ∈ kinds ++ [token.kind], kind.isPlain = true := by
    intro kind hkind
    rcases List.mem_append.mp hkind with hkind | hkind
    · exact hkinds kind hkind
    · rw [List.mem_singleton.mp hkind]
      exact hplain
  -- so they are read, down to some cursor
  obtain ⟨c', hreads, -⟩ := Cursor.reads_of_bare hall hahead
  -- what was passed on the way is what was in front
  obtain ⟨passed, last, hpassed, hlast, hpassedBare⟩ := hreads.passedSince_concat
  have hsplit : front ++ token :: more = passed ++ last :: c'.rest := by
    rw [← hrest, hreads.rest_eq, hpassed]
    simp
  have hlength : front.length = passed.length := by
    have hsame := hbare.trans hpassedBare.symm
    refine Nat.le_antisymm ?_ ?_
    · exact Token.length_le_of_split hsplit.symm (hsame ▸ hclosed) (hlast ▸ hplain) hsame.symm
    · exact Token.length_le_of_split hsplit hclosed hplain hsame
  obtain ⟨rfl, heq⟩ := List.append_inj hsplit hlength
  obtain ⟨rfl, rfl⟩ := List.cons.inj heq
  -- and the cursor stands right behind the token
  obtain ⟨passed, hrest', hseen, -⟩ := hreads.split
  obtain rfl : front ++ [token] = passed := by
    rw [List.append_cons] at hrest
    exact List.append_cancel_right (hrest.symm.trans hrest')
  obtain ⟨seen, more⟩ := c'
  obtain rfl : seen = token :: (front.reverse ++ c.seen) := by
    simpa using hseen
  exact hreads

/-- A cursor reads what the bare form of what is ahead says, up to a token that opens no comment. -/
theorem Cursor.reads_of_kinds {c : Cursor} {kinds more : List Kind} {kind : Kind}
    (hkind : kind ≠ .symbol .commentOpen)
    (h : (Token.bare c.rest).map (·.kind) = kinds ++ kind :: more) :
    ∃ c', Reads c (kinds ++ [kind]) c' := by
  induction kinds generalizing c with
  -- the first kind is that of the next token, which is not the mark of an open comment
  | nil =>
    rw [Cursor.bare_rest] at h
    split at h
    · rename_i token c' hnext
      obtain rfl : token.kind = kind := (List.cons.inj h).1
      exact ⟨c', .one hnext⟩
    · split at h
      · exact absurd (List.cons.inj h).1.symm hkind
      · cases h
  -- the first kind is read, and the others from where that has led
  | cons first kinds ih =>
    rw [Cursor.bare_rest] at h
    split at h
    · rename_i token c₁ hnext
      obtain ⟨rfl, hrest⟩ : token.kind = first ∧ _ := List.cons.inj h
      obtain ⟨c', hreads⟩ := ih hrest
      exact ⟨c', .cons hnext hreads⟩
    · -- behind the mark of a comment that does not end nothing is read
      split at h
      · have hrest := (List.cons.inj h).2
        simp at hrest
      · cases h

namespace Scan

/-! ### The end of a block -/

/-- Well-bracketed tokens in front of a closing brace are a block. -/
theorem block_of_wellBracketed {c : Cursor} {body more : List Token} {closing : Token}
    (hrest : c.rest = body ++ closing :: more) (hbody : Token.WellBracketed body)
    (hclosing : closing.kind = .symbol .rightBrace) :
    block c = .ok body ⟨closing :: (body.reverse ++ c.seen), more⟩ := by
  obtain ⟨hclosed, hnesting⟩ := Token.wellBracketed_iff.mp hbody
  -- the body is read as kinds without comments, and then the brace
  obtain ⟨kinds, hbare, hkinds⟩ := Token.exists_kinds_of_closed hclosed
  have hreads := Cursor.reads_through hrest hbare hkinds (by rw [hclosing]; rfl)
  -- these kinds are balanced, since nothing but comments was left out
  have hbalanced : Balanced kinds := by
    rw [hbare, List.map_map] at hnesting
    exact balanced_iff.mpr (by simpa [Function.comp_def, Kind.bare] using hnesting)
  -- what was passed is the body with the brace, so the block found is the body
  have hpassed := hreads.rest_eq
  rw [hrest, List.append_cons] at hpassed
  rw [hclosing] at hreads
  rw [block_of_reads hreads hbalanced, ← List.append_cancel_right hpassed, List.dropLast_concat]

/-- Where a piece in front closes one brace more than it opens and `depth` open ones, one of these
braces closes behind a stretch that closes those `depth`. -/
theorem exists_unmatched {kinds front : List Kind} {depth : Nat} (hfront : front <+: kinds)
    (h : front.count (.symbol .rightBrace) = depth + front.count (.symbol .leftBrace) + 1) :
    ∃ body rest, kinds = body ++ .symbol .rightBrace :: rest ∧ nesting depth body = some 0 := by
  obtain ⟨more, rfl⟩ := hfront
  have hnone : nesting depth front = none := by
    cases hnesting : nesting depth front with
    | none => rfl
    | some left =>
      have htotal := (nesting_eq_some_iff.mp hnesting).2
      omega
  obtain ⟨body, rest, rfl, hbody⟩ := exists_closing_of_none hnone
  exact ⟨body, rest ++ more, by simp, hbody⟩

end Scan

namespace Token

/-- Tokens among which one brace more is closed than opened. -/
def Overcloses (kinds : List Kind) : Prop :=
  kinds.count (.symbol .rightBrace) = kinds.count (.symbol .leftBrace) + 1

/-- The tokens of a block and the brace that closes it, seen from behind its opening brace: the
brace is outside comments, and it ends the shortest piece of the tokens outside comments in which
one brace more is closed than opened. -/
structure Delimits (tokens body : List Token) (brace : Token) (tail : List Token) : Prop where
  split : tokens = body ++ brace :: tail
  outside : kept (body ++ [brace]) = kept body ++ [brace]
  front : kept (body ++ [brace]) <+: kept tokens
  closes : Overcloses ((kept (body ++ [brace])).map (·.kind))
  shortest : ∀ piece, piece <+: (kept tokens).map (·.kind) → Overcloses piece →
    (kept (body ++ [brace])).length ≤ piece.length

/-- Well-bracketed tokens are delimited by a closing brace behind them. -/
theorem WellBracketed.delimits {body : List Token} (h : WellBracketed body) {brace : Token}
    (hbrace : brace.kind = .symbol .rightBrace) (tail : List Token) :
    Delimits (body ++ brace :: tail) body brace tail := by
  -- the body closes its comments, so those of the whole can be dropped piece by piece
  have hclosed := open_notMem_bare_iff.mpr h.closed
  have hsingle : ∀ tail, kept (brace :: tail) = brace :: kept tail := by
    intro tail
    simp [kept, keptFrom, hbrace, Kind.isComment]
  have houtside : kept (body ++ [brace]) = kept body ++ [brace] := by
    rw [kept_append_of_closed hclosed, hsingle]
    rfl
  have hwhole : kept (body ++ brace :: tail) = kept (body ++ [brace]) ++ kept tail := by
    rw [kept_append_of_closed hclosed, hsingle, houtside]
    simp
  have hpaired := h.paired
  refine ⟨rfl, houtside, ⟨kept tail, hwhole.symm⟩, ?_, fun piece hpiece hcloses => ?_⟩
  -- the body opens as much as it closes, and the brace closes once more
  · simp [houtside, Overcloses, hbrace, hpaired]
  · -- a shorter piece ends inside the body, where none closes more than it opens
    apply Nat.le_of_not_lt
    intro hshort
    have hinside : piece <+: (kept body).map (·.kind) := by
      rw [hwhole, houtside, List.append_assoc, List.map_append] at hpiece
      refine List.prefix_of_prefix_length_le hpiece (List.prefix_append ..) ?_
      rw [houtside, List.length_append, List.length_singleton] at hshort
      rw [List.length_map]
      omega
    have hle := h.nested piece hinside
    unfold Overcloses at hcloses
    omega

end Token

namespace Scan

/-- Where a piece of what is ahead closes one brace more than it opens, a block ends. -/
theorem exists_block {c : Cursor} {piece : List Kind}
    (hpiece : piece <+: (Token.kept c.rest).map (·.kind)) (h : Token.Overcloses piece) :
    ∃ body c', block c = .ok body c' := by
  rw [Token.kinds_kept] at hpiece
  obtain ⟨front, hfront, rfl⟩ := List.prefix_filter_iff.mp hpiece
  have hcount : front.count (.symbol .rightBrace) = 0 + front.count (.symbol .leftBrace) + 1 := by
    unfold Token.Overcloses at h
    rw [List.count_filter rfl, List.count_filter rfl] at h
    omega
  obtain ⟨kinds, more, hkinds, hnesting⟩ := exists_unmatched hfront hcount
  obtain ⟨c', hreads⟩ := Cursor.reads_of_kinds (by simp) hkinds
  exact ⟨_, c', block_of_reads hreads (balanced_iff.mpr hnesting)⟩

/-- What is ahead where a block is found: its tokens, which are well-bracketed, and the brace. -/
theorem split_of_block {c c' : Cursor} {body : List Token} (h : block c = .ok body c') :
    Token.WellBracketed body ∧ ∃ brace : Token, brace.kind = .symbol .rightBrace ∧
      c.rest = body ++ brace :: c'.rest ∧ c' = ⟨brace :: (body.reverse ++ c.seen), c'.rest⟩ := by
  have hbody := wellBracketed_of_block h
  -- the block was read up to its brace, and what it passed on the way is the body
  obtain ⟨kinds, hreads, -⟩ := reads_of_block h
  obtain ⟨front, brace, hpassed, hbrace, -⟩ := hreads.passedSince_concat
  obtain rfl : body = front := by
    rw [passed_of_block h, hpassed, List.dropLast_concat]
  have hrest := hreads.rest_eq
  rw [hpassed, List.append_assoc, List.singleton_append] at hrest
  -- the same search is known to end right behind the brace
  have hblock := block_of_wellBracketed hrest hbody hbrace
  rw [h] at hblock
  refine ⟨hbody, brace, hbrace, hrest, ?_⟩
  injection hblock

/-- A block is found exactly if some piece of the tokens outside comments ahead closes one brace
more than it opens. What is given then is what stands in front of the brace that ends the shortest
such piece, and the cursor stands behind that brace. The tokens given are well-bracketed, and are
given again wherever they stand in braces. By position, the block is found without an access that
fails. -/
theorem block_matching (c : Cursor) :
    ((∃ body c', block c = .ok body c') ↔
        ∃ piece, piece <+: (Token.kept c.rest).map (·.kind) ∧ Token.Overcloses piece) ∧
      (∀ body c', block c = .ok body c' →
        (∃ brace tail, Token.Delimits c.rest body brace tail ∧
          c' = ⟨brace :: (body.reverse ++ c.seen), tail⟩) ∧
        Token.WellBracketed body ∧
        ∀ opening closing more, opening.kind = .symbol .leftBrace →
          closing.kind = .symbol .rightBrace →
          (do let _ ← next; block) (Cursor.start (opening :: (body ++ closing :: more))) =
            .ok body ⟨closing :: (body.reverse ++ [opening]), more⟩) ∧
      Indexed.block? c.tokens c.position = some (Indexed.ended (block c)) := by
  -- a block that is found has all of the shape asked of it
  have hsplit : ∀ body c', block c = .ok body c' → Token.WellBracketed body ∧
      ∃ brace tail, Token.Delimits c.rest body brace tail ∧
        c' = ⟨brace :: (body.reverse ++ c.seen), tail⟩ := by
    intro body c' hblock
    obtain ⟨hbody, brace, hbrace, hrest, hc'⟩ := split_of_block hblock
    rw [hrest]
    exact ⟨hbody, brace, c'.rest, hbody.delimits hbrace _, hc'⟩
  refine ⟨⟨?_, ?_⟩, fun body c' hblock => ?_, Indexed.block?_eq c⟩
  -- found blocks overclose with their brace
  · rintro ⟨body, c', hblock⟩
    obtain ⟨-, brace, tail, hdelimits, -⟩ := hsplit body c' hblock
    exact ⟨_, hdelimits.front.map _, hdelimits.closes⟩
  -- where a piece overcloses, a brace is met that nothing has opened
  · rintro ⟨piece, hpiece, hcloses⟩
    exact exists_block hpiece hcloses
  -- the body between other braces is found again
  · obtain ⟨hbody, hdelimits⟩ := hsplit body c' hblock
    refine ⟨hdelimits, hbody, fun opening closing more hopening hclosing => ?_⟩
    have hnext : (Cursor.start (opening :: (body ++ closing :: more))).next? =
        some (opening, ⟨[opening], body ++ closing :: more⟩) :=
      Cursor.next?_of_front rfl (by simp [Cursor.atComment, Cursor.front, Cursor.start, hopening,
        Kind.isPlain])
    rw [bind_of_ok (next_of_some hnext)]
    exact block_of_wellBracketed rfl hbody hclosing

/-- A block with a block inside it, and with closing braces in comments. -/
theorem block_matching_nested :
    let tokens := tokenize "\x7b a /* \x7d */ \x7b b \x7d // \x7d\n \x7d c \x7d"
    let c : Cursor := ⟨tokens.take 1, tokens.drop 1⟩
    let body := (tokens.take 9).drop 1
    let brace : Token := ⟨.symbol .rightBrace, ⟨24, 25⟩⟩
    let c' : Cursor := ⟨brace :: (body.reverse ++ c.seen), tokens.drop 10⟩
    block c = .ok body c' ∧
      (∃ brace tail, Token.Delimits c.rest body brace tail ∧
        c' = ⟨brace :: (body.reverse ++ c.seen), tail⟩) ∧
      Token.WellBracketed body ∧
      Indexed.block? c.tokens c.position = some (.ok body, c'.position) := by
  intro tokens c body brace c'
  obtain ⟨hrest, hbody⟩ : c.rest = body ++ brace :: tokens.drop 10 ∧ Token.WellBracketed body := by
    decide +kernel
  have hblock : block c = .ok body c' := block_of_wellBracketed hrest hbody rfl
  obtain ⟨-, hfound, hindexed⟩ := block_matching c
  obtain ⟨hdelimits, hbody, -⟩ := hfound body c' hblock
  rw [hblock] at hindexed
  exact ⟨hblock, hdelimits, hbody, hindexed⟩

end Scan

end Tern
