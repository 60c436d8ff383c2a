import Tern.Cursor.Basic
import Tern.Token.Normal

/-!
# What a cursor reads

A cursor steps from one token to the next and over the comments in between. `Cursor.Reads` says
which kinds of tokens it meets on its way from one place to another, and `Token.bare` lists all the
kinds it will meet, so that two token sequences look the same to a cursor exactly if their bare
forms are equal.

## Key results

- `Cursor.bare_rest`: the next token heads the bare form of what is ahead
- `Cursor.Reads.split`: the tokens between two places, comments included, and their bare form
- `Cursor.reads_of_bare`: a cursor at the start of a sequence reads its bare form
- `Token.kinds_kept`: dropping comments keeps the bare form, less the marks in it
- `Token.open_notMem_bare_iff`: when no mark of a comment is left in the bare form
- `Token.comments_induction`: the comments in front of tokens, one after the other
-/

namespace Tern

/-- Whether the token is read as itself: it begins no comment. -/
def Kind.isPlain : Kind → Bool
  | .lineComment _ | .symbol .commentOpen => false
  | _ => true

/-- A token is read as itself unless it is one of the two with which a comment begins. -/
theorem Kind.isPlain_iff {kind : Kind} :
    kind.isPlain = true ↔ (∀ text, kind ≠ .lineComment text) ∧ kind ≠ .symbol .commentOpen := by
  constructor
  · intro h
    refine ⟨fun text hk => ?_, fun hk => ?_⟩
    · simp [hk, isPlain] at h
    · simp [hk, isPlain] at h
  · rintro ⟨hline, hopen⟩
    -- there are three kinds of tokens by which comments are told
    unfold isPlain
    split
    · exact absurd rfl (hline _)
    · exact absurd rfl hopen
    · rfl

/-- What is no part of a comment begins none. -/
theorem Kind.isPlain_of_isComment {kind : Kind} (h : kind.isComment = false) :
    kind.isPlain = true := by
  refine isPlain_iff.mpr ⟨fun text hk => ?_, fun hk => ?_⟩
  · simp [hk, isComment] at h
  · simp [hk, isComment] at h

/-- The two ways a comment begins. -/
theorem Kind.begins_of_isPlain_eq_false {kind : Kind} (h : kind.isPlain = false) :
    (∃ text, kind = .lineComment text) ∨ kind = .symbol .commentOpen := by
  unfold isPlain at h
  split at h
  · exact .inl ⟨_, rfl⟩
  · exact .inr rfl
  · cases h

/-- A token of which nothing but the kind is known. -/
def Kind.bare (kind : Kind) : Token := ⟨kind, default⟩

namespace Token

/-- The tokens outside comments, without their places; `inside` says that a block comment is open
at the front. A block comment that does not end leaves its opening mark. -/
def bareFrom : (inside : Bool) → List Token → List Token
  | false, [] => []
  | true, [] => [Kind.bare (.symbol .commentOpen)]
  | true, token :: rest => bareFrom (token.kind ≠ .symbol .commentClose) rest
  | false, token :: rest =>
    match token.kind with
    | .lineComment _ => bareFrom false rest
    | .symbol .commentOpen => bareFrom true rest
    | kind => kind.bare :: bareFrom false rest

/-- The tokens outside comments, without their places. -/
def bare (tokens : List Token) : List Token := bareFrom false tokens

@[simp] theorem bare_nil : bare [] = [] := rfl

/-- A token that begins no comment stays. -/
theorem bare_cons_of_isPlain {token : Token} (h : token.kind.isPlain = true)
    (rest : List Token) : bare (token :: rest) = token.kind.bare :: bare rest := by
  obtain ⟨hline, hopen⟩ := Kind.isPlain_iff.mp h
  unfold bare
  rw [bareFrom]
  split
  · rename_i hk
    exact absurd hk (hline _)
  · rename_i hk
    exact absurd hk hopen
  · rfl

/-- Bare tokens that begin no comment are their own bare form. -/
theorem bare_map_bare {kinds : List Kind} (h : ∀ k ∈ kinds, k.isPlain = true) :
    bare (kinds.map Kind.bare) = kinds.map Kind.bare := by
  induction kinds with
  | nil => rfl
  | cons kind kinds ih =>
    rw [List.map_cons, bare_cons_of_isPlain (h kind (by simp)), ih fun k hk => h k (by simp [hk])]
    rfl

/-- Outside comments stand the tokens of the bare form, less those that are comment marks. -/
theorem kinds_keptFrom (inside : Bool) (tokens : List Token) :
    (keptFrom inside tokens).map (·.kind) =
      ((bareFrom inside tokens).map (·.kind)).filter (!·.isComment) := by
  -- along the tokens, with the state they are read in
  induction tokens generalizing inside with
  | nil => cases inside <;> rfl
  | cons token rest ih =>
    cases inside with
    | true => exact ih _
    | false =>
      simp only [keptFrom, bareFrom]
      split
      · rename_i hk
        rw [hk]
        exact ih true
      · rename_i hopen
        split
        · rename_i hc
          -- a line comment, or a mark that closes no comment
          split
          · exact ih false
          · rename_i hk
            exact absurd hk hopen
          · rw [List.map_cons, List.filter_cons, if_neg (by simpa [Kind.bare] using hc)]
            exact ih false
        · rename_i hc
          -- a token that is no comment stays on both sides
          split
          · rename_i hk
            exact absurd hc (by simp [hk, Kind.isComment])
          · rename_i hk
            exact absurd hk hopen
          · rw [List.map_cons, List.map_cons, List.filter_cons,
              if_pos (by simpa [Kind.bare] using hc), ih false]
            rfl

/-- Outside comments stand the tokens of the bare form, less those that are comment marks. -/
theorem kinds_kept (tokens : List Token) :
    (kept tokens).map (·.kind) = ((bare tokens).map (·.kind)).filter (!·.isComment) :=
  kinds_keptFrom false tokens

/-- Tokens with the same bare form have the same normal form. -/
theorem normalize_of_bare {xs ys : List Token} (h : bare xs = bare ys) :
    normalize xs = normalize ys := by
  have htexts : ∀ tokens, (kept tokens).map (·.kind.text) =
      (((bare tokens).map (·.kind)).filter (!·.isComment)).map Kind.text := by
    intro tokens
    rw [← kinds_kept, List.map_map]
    rfl
  unfold normalize
  rw [htexts, htexts, h]

/-- Bare tokens have no places. -/
theorem map_bareFrom (inside : Bool) (tokens : List Token) :
    (bareFrom inside tokens).map (·.kind.bare) = bareFrom inside tokens := by
  -- what is kept is bare already
  induction tokens generalizing inside with
  | nil => cases inside <;> rfl
  | cons token tokens ih =>
    cases inside with
    | true => exact ih _
    | false =>
      simp only [bareFrom]
      split
      · exact ih _
      · exact ih _
      · rw [List.map_cons, ih]
        rfl

/-- Bare tokens begin no comment, but for the mark of one that does not end. -/
theorem isPlain_of_mem_bareFrom {inside : Bool} {tokens : List Token} {token : Token}
    (h : token ∈ bareFrom inside tokens) :
    token.kind.isPlain = true ∨ token.kind = .symbol .commentOpen := by
  -- only the mark of a comment that does not end is no plain token
  induction tokens generalizing inside with
  | nil =>
    cases inside with
    | true =>
      obtain rfl := List.mem_singleton.mp h
      exact .inr rfl
    | false => cases h
  | cons first tokens ih =>
    cases inside with
    | true => exact ih h
    | false =>
      simp only [bareFrom] at h
      split at h
      · exact ih h
      · exact ih h
      · rename_i hline hopen
        rcases List.mem_cons.mp h with rfl | h
        · exact .inl (Kind.isPlain_iff.mpr ⟨hline, hopen⟩)
        · exact ih h

/-- The mark of a block comment is left where no mark behind it closes the comment. -/
private theorem open_of_mem_bareFrom {inside : Bool} {tokens : List Token}
    (h : Kind.bare (.symbol .commentOpen) ∈ bareFrom inside tokens) :
    (inside = true ∧ ∀ token ∈ tokens, token.kind ≠ .symbol .commentClose) ∨
      ∃ before mark after, tokens = before ++ mark :: after ∧
        mark.kind = .symbol .commentOpen ∧ ∀ token ∈ after, token.kind ≠ .symbol .commentClose := by
  induction tokens generalizing inside with
  | nil =>
    cases inside with
    | true => exact .inl ⟨rfl, by simp⟩
    | false => cases h
  | cons token tokens ih =>
    -- a mark that is left behind the first token is left
    have hlater : ∀ {P : Prop}, (∃ before mark after, tokens = before ++ mark :: after ∧
        mark.kind = .symbol .commentOpen ∧
        ∀ token ∈ after, token.kind ≠ .symbol .commentClose) →
        P ∨ ∃ before mark after, token :: tokens = before ++ mark :: after ∧
          mark.kind = .symbol .commentOpen ∧
          ∀ token ∈ after, token.kind ≠ .symbol .commentClose := by
      rintro P ⟨before, mark, after, rfl, hmark⟩
      exact .inr ⟨token :: before, mark, after, rfl, hmark⟩
    cases inside with
    -- inside of a comment the first token does not close it, or the search goes on behind
    | true =>
      rcases ih h with ⟨hinside, hnone⟩ | hlater'
      · refine .inl ⟨rfl, fun t ht => ?_⟩
        rcases List.mem_cons.mp ht with rfl | ht
        · simpa using hinside
        · exact hnone t ht
      · exact hlater hlater'
    | false =>
      simp only [bareFrom] at h
      -- a line comment, a mark that opens, or a plain token
      split at h
      · rcases ih h with ⟨hinside, -⟩ | hlater'
        · cases hinside
        · exact hlater hlater'
      · rename_i hkind
        rcases ih h with ⟨-, hnone⟩ | hlater'
        · exact .inr ⟨[], token, tokens, rfl, hkind, hnone⟩
        · exact hlater hlater'
      · rename_i hopen
        rcases List.mem_cons.mp h with heq | h
        · exact absurd (Token.mk.inj heq).1.symm hopen
        · rcases ih h with ⟨hinside, -⟩ | hlater'
          · cases hinside
          · exact hlater hlater'

/-- A block comment that nothing closes leaves its mark. -/
private theorem open_mem_bareFrom {inside : Bool} {before after : List Token} {mark : Token}
    (hmark : mark.kind = .symbol .commentOpen)
    (hafter : ∀ token ∈ after, token.kind ≠ .symbol .commentClose) :
    Kind.bare (.symbol .commentOpen) ∈ bareFrom inside (before ++ mark :: after) := by
  -- inside of a comment that nothing closes, no token counts
  have hinside : ∀ {rest : List Token}, (∀ token ∈ rest, token.kind ≠ .symbol .commentClose) →
      bareFrom true rest = [Kind.bare (.symbol .commentOpen)] := by
    intro rest hrest
    induction rest with
    | nil => rfl
    | cons token rest ih =>
      have hkind : token.kind ≠ .symbol .commentClose := hrest token List.mem_cons_self
      simp only [bareFrom, hkind, ne_eq, not_false_eq_true, decide_true]
      exact ih fun t ht => hrest t (List.mem_cons_of_mem _ ht)
  -- whatever is in front, the mark behind it is read outside of comments or inside of one
  induction before generalizing inside with
  | nil =>
    have hrest : bareFrom inside (mark :: after) = bareFrom true after := by
      cases inside <;> simp [bareFrom, hmark]
    rw [List.nil_append, hrest, hinside hafter]
    exact List.mem_cons_self
  | cons token before ih =>
    rw [List.cons_append]
    cases inside with
    | true => exact ih
    | false =>
      simp only [bareFrom]
      split
      · exact ih
      · exact ih
      · exact List.mem_cons_of_mem _ ih

/-- No mark of a block comment is left exactly if every one has a closing mark behind it. -/
theorem open_notMem_bare_iff {tokens : List Token} :
    Kind.bare (.symbol .commentOpen) ∉ bare tokens ↔
      ∀ before mark after, tokens = before ++ mark :: after → mark.kind = .symbol .commentOpen →
        ∃ token ∈ after, token.kind = .symbol .commentClose := by
  -- a mark that nothing closes is left over, and only such a mark is
  constructor
  · intro h before mark after heq hmark
    apply Classical.byContradiction
    intro hnone
    refine h ?_
    rw [heq]
    exact open_mem_bareFrom hmark fun token htoken hkind => hnone ⟨token, htoken, hkind⟩
  · intro h hmem
    rcases open_of_mem_bareFrom hmem with ⟨hinside, -⟩ | ⟨before, mark, after, heq, hmark, hlater⟩
    · cases hinside
    · obtain ⟨token, htoken, hclose⟩ := h before mark after heq hmark
      exact hlater token htoken hclose

/-- What holds where no comment is in front, and is carried back over a comment, holds of all
tokens: those in front are line comments, block comments, and perhaps one that does not end. -/
theorem comments_induction {motive : List Token → Prop}
    (plain : ∀ tokens, (∀ token ∈ tokens.head?, token.kind.isPlain = true) → motive tokens)
    (line : ∀ token text rest, token.kind = .lineComment text → motive rest →
      motive (token :: rest))
    (block : ∀ mark inside close rest, mark.kind = .symbol .commentOpen →
      (∀ token ∈ inside, token.kind ≠ .symbol .commentClose) →
      close.kind = .symbol .commentClose → motive rest →
      motive (mark :: (inside ++ close :: rest)))
    (unended : ∀ mark later, mark.kind = .symbol .commentOpen →
      (∀ token ∈ later, token.kind ≠ .symbol .commentClose) → motive (mark :: later))
    (tokens : List Token) : motive tokens := by
  -- behind every comment there are fewer tokens
  induction hlength : tokens.length using Nat.strongRecOn generalizing tokens with
  | ind n ih =>
    cases tokens with
    | nil => exact plain [] (by simp)
    | cons token rest =>
      rw [List.length_cons] at hlength
      cases hplain : token.kind.isPlain with
      | true => exact plain _ (by simpa using hplain)
      -- the first token begins a comment, of one line or up to its closing mark
      | false =>
        obtain ⟨text, hline⟩ | hopen := Kind.begins_of_isPlain_eq_false hplain
        · exact line token text rest hline (ih rest.length (by omega) rest rfl)
        cases hfind : rest.find? (·.kind = .symbol .commentClose) with
        | none => exact unended token rest hopen (by simpa using hfind)
        | some close =>
          obtain ⟨hclose, inside, more, rfl, hinside⟩ := List.find?_eq_some_iff_append.mp hfind
          rw [List.length_append, List.length_cons] at hlength
          exact block token inside close more hopen (by simpa using hinside)
            (by simpa using hclose) (ih more.length (by omega) more rfl)

end Token

namespace Cursor

/-! ### One step -/

/-- Stepping over comments: what is stepped over has no part in the bare form of anything that may
stand behind it, and the cursor stands at a token that begins no comment. -/
private theorem settleFrom_split {inside : Bool} {seen rest seen' rest' : List Token}
    {token : Token} (h : settleFrom inside seen rest = ⟨seen', token :: rest'⟩) :
    token.kind.isPlain = true ∧ ∃ skipped, rest = skipped ++ token :: rest' ∧
      seen' = skipped.reverse ++ seen ∧
      ∀ tail, Token.bareFrom inside (skipped ++ tail) = Token.bare tail := by
  induction rest generalizing inside seen with
  | nil => cases inside <;> simp [settleFrom] at h
  | cons first rest ih =>
    -- the first token belongs to a comment, and the rest is stepped over from `inside'` on
    have step : ∀ inside', settleFrom inside' (first :: seen) rest = ⟨seen', token :: rest'⟩ →
        (∀ tail, Token.bareFrom inside (first :: tail) = Token.bareFrom inside' tail) →
        token.kind.isPlain = true ∧ ∃ skipped, first :: rest = skipped ++ token :: rest' ∧
          seen' = skipped.reverse ++ seen ∧
          ∀ tail, Token.bareFrom inside (skipped ++ tail) = Token.bare tail := by
      intro inside' h' hfirst
      obtain ⟨hplain, skipped, rfl, rfl, hbare⟩ := ih h'
      refine ⟨hplain, first :: skipped, rfl, by simp, fun tail => ?_⟩
      rw [List.cons_append, hfirst, hbare]
    -- inside of a comment the token is passed, outside of one it depends on its kind
    cases inside with
    | true => exact step _ h fun _ => rfl
    | false =>
      simp only [settleFrom] at h
      split at h
      · rename_i hk
        exact step _ h fun _ => by simp [Token.bareFrom, hk]
      · rename_i hk
        exact step _ h fun _ => by simp [Token.bareFrom, hk]
      · rename_i hline hopen
        cases h
        exact ⟨Kind.isPlain_iff.mpr ⟨hline, hopen⟩, [], rfl, rfl, fun _ => rfl⟩

/-- The tokens that one step passes: comments, then the token itself. -/
theorem next?_split {c c' : Cursor} {token : Token} (h : c.next? = some (token, c')) :
    token.kind.isPlain = true ∧ ∃ skipped, c.rest = skipped ++ token :: c'.rest ∧
      c'.seen = token :: (skipped.reverse ++ c.seen) ∧
      ∀ tail, Token.bare (skipped ++ tail) = Token.bare tail := by
  obtain ⟨seen, rest, hs, rfl⟩ := next?_eq_some_iff.mp h
  obtain ⟨hplain, skipped, hrest, hseen, hbare⟩ := settleFrom_split hs
  exact ⟨hplain, skipped, hrest, by rw [hseen], hbare⟩

/-- Behind the comments ahead the same token is next. -/
theorem next?_settle (c : Cursor) : c.settle.next? = c.next? := by
  unfold next?
  rw [settle_settle]

/-- A step passes at least one token. -/
theorem length_rest_of_next? {c c' : Cursor} {token : Token} (h : c.next? = some (token, c')) :
    c'.rest.length < c.rest.length := by
  obtain ⟨-, skipped, hrest, -, -⟩ := next?_split h
  rw [hrest, List.length_append, List.length_cons]
  omega

private theorem bareFrom_of_settleFrom {inside : Bool} {seen rest : List Token}
    (h : (settleFrom inside seen rest).rest = []) (opened : Option Token)
    (ho : opened.isSome = inside) :
    Token.bareFrom inside rest =
      if (unclosedFrom opened rest).isSome then [Kind.bare (.symbol .commentOpen)] else [] := by
  -- `opened` is the mark of the comment that `rest` begins in, if it begins in one
  induction rest generalizing inside seen opened with
  | nil =>
    subst ho
    cases opened <;> rfl
  | cons first rest ih =>
    -- inside of a comment, its mark is the one that is carried along
    cases inside with
    | true =>
      obtain ⟨mark, rfl⟩ := Option.isSome_iff_exists.mp ho
      rw [Token.bareFrom, unclosedFrom]
      refine ih h _ ?_
      by_cases hk : first.kind = .symbol .commentClose <;> simp [hk]
    | false =>
      obtain rfl : opened = none := Option.not_isSome_iff_eq_none.mp (by simp [ho])
      simp only [settleFrom] at h
      -- outside of one, a line comment is passed and a mark is remembered
      split at h
      · rename_i hk
        simp only [Token.bareFrom, unclosedFrom, hk]
        exact ih h none rfl
      · rename_i hk
        simp only [Token.bareFrom, unclosedFrom, hk]
        exact ih h (some first) rfl
      · cases h

/-- The next token heads the bare form of what is ahead. Where there is none, nothing is left but
the mark of a comment that does not end. -/
theorem bare_rest (c : Cursor) :
    Token.bare c.rest =
      match c.next? with
      | some (token, c') => token.kind.bare :: Token.bare c'.rest
      | none => if c.unclosed?.isSome then [Kind.bare (.symbol .commentOpen)] else [] := by
  cases h : c.next? with
  | some p =>
    obtain ⟨token, c'⟩ := p
    obtain ⟨hplain, skipped, hrest, -, hbare⟩ := next?_split h
    rw [hrest, hbare, Token.bare_cons_of_isPlain hplain]
  | none => exact bareFrom_of_settleFrom (next?_eq_none_iff.mp h) none rfl

/-! ### Comments in front -/

/-- Whether a comment is in front of the cursor. -/
def atComment (c : Cursor) : Bool := c.front.any (!·.kind.isPlain)

/-- A comment is in front unless what is ahead begins with a token that begins none. -/
theorem atComment_eq_false_iff {c : Cursor} :
    c.atComment = false ↔ ∀ token ∈ c.rest.head?, token.kind.isPlain = true := by
  unfold atComment front
  cases c.rest.head? <;> simp

/-- Without a comment in front there is nothing to step over. -/
theorem settle_of_atComment {c : Cursor} (hat : c.atComment = false) : c.settle = c := by
  obtain ⟨seen, rest⟩ := c
  cases rest with
  | nil => rfl
  | cons token rest =>
    obtain ⟨hline, hopen⟩ := Kind.isPlain_iff.mp (atComment_eq_false_iff.mp hat token rfl)
    simp only [settle, settleFrom]

/-- Without a comment in front there is none that does not end. -/
theorem unclosed?_of_not_atComment {c : Cursor} (hat : c.atComment = false) :
    c.unclosed? = none := by
  obtain ⟨seen, rest⟩ := c
  cases rest with
  | nil => rfl
  | cons token rest =>
    obtain ⟨hline, hopen⟩ := Kind.isPlain_iff.mp (atComment_eq_false_iff.mp hat token rfl)
    simp only [unclosed?, unclosedFrom]

/-- A line comment is stepped over. -/
theorem settle_of_line {c : Cursor} {token : Token} {text : String} {rest : List Token}
    (hrest : c.rest = token :: rest) (hkind : token.kind = .lineComment text) :
    c.settle = settle ⟨token :: c.seen, rest⟩ := by
  simp [settle, settleFrom, hrest, hkind]

/-- Behind a line comment the search for a block comment that does not end goes on. -/
theorem unclosed?_of_line {c : Cursor} {token : Token} {text : String} {rest : List Token}
    (hrest : c.rest = token :: rest) (hkind : token.kind = .lineComment text) :
    c.unclosed? = unclosed? ⟨token :: c.seen, rest⟩ := by
  simp [unclosed?, unclosedFrom, hrest, hkind]

section

variable {c : Cursor} {mark close : Token} {inside rest : List Token}
  (hopen : mark.kind = .symbol .commentOpen)
  (hinside : ∀ token ∈ inside, token.kind ≠ .symbol .commentClose)

include hinside

/-- Inside a block comment the cursor goes over everything that does not close it. -/
private theorem settleFrom_inside (seen : List Token) :
    settleFrom true seen (inside ++ rest) = settleFrom true (inside.reverse ++ seen) rest := by
  induction inside generalizing seen with
  | nil => rfl
  | cons token inside ih =>
    have hne : token.kind ≠ .symbol .commentClose := hinside token List.mem_cons_self
    rw [List.cons_append, settleFrom, decide_eq_true hne,
      ih (fun t ht => hinside t (List.mem_cons_of_mem _ ht))]
    simp

include hopen

/-- A block comment is stepped over through its closing mark. -/
theorem settle_of_block (hrest : c.rest = mark :: (inside ++ close :: rest))
    (hclose : close.kind = .symbol .commentClose) :
    c.settle = settle ⟨close :: (inside.reverse ++ mark :: c.seen), rest⟩ := by
  have hsettle : c.settle = settleFrom true (mark :: c.seen) (inside ++ close :: rest) := by
    simp [settle, settleFrom, hrest, hopen]
  rw [hsettle, settleFrom_inside hinside]
  simp [settle, settleFrom, hclose]

/-- Everything behind a block comment that does not end is stepped over. -/
theorem settle_of_unended (hrest : c.rest = mark :: inside) :
    c.settle = ⟨inside.reverse ++ mark :: c.seen, []⟩ := by
  have hsettle : c.settle = settleFrom true (mark :: c.seen) (inside ++ []) := by
    simp [settle, settleFrom, hrest, hopen]
  rw [hsettle, settleFrom_inside hinside]
  rfl

omit hopen in
/-- A block comment stays open over everything that does not close it. -/
private theorem unclosedFrom_inside :
    unclosedFrom (some mark) (inside ++ rest) = unclosedFrom (some mark) rest := by
  induction inside with
  | nil => rfl
  | cons token inside ih =>
    have hne : token.kind ≠ .symbol .commentClose := hinside token List.mem_cons_self
    rw [List.cons_append, unclosedFrom, if_neg hne]
    exact ih fun t ht => hinside t (List.mem_cons_of_mem _ ht)

/-- Behind a block comment that ends the search for one that does not goes on. -/
theorem unclosed?_of_block (hrest : c.rest = mark :: (inside ++ close :: rest))
    (hclose : close.kind = .symbol .commentClose) :
    c.unclosed? = unclosed? ⟨close :: (inside.reverse ++ mark :: c.seen), rest⟩ := by
  have hunclosed : c.unclosed? = unclosedFrom (some mark) (inside ++ close :: rest) := by
    simp [unclosed?, unclosedFrom, hrest, hopen]
  rw [hunclosed, unclosedFrom_inside hinside]
  simp [unclosed?, unclosedFrom, hclose]

/-- A block comment that does not end is found. -/
theorem unclosed?_of_unended (hrest : c.rest = mark :: inside) : c.unclosed? = some mark := by
  have hunclosed : c.unclosed? = unclosedFrom (some mark) (inside ++ []) := by
    simp [unclosed?, unclosedFrom, hrest, hopen]
  rw [hunclosed, unclosedFrom_inside hinside]
  rfl

end

/-- A token in front that begins no comment is the next one. -/
theorem next?_of_front {c : Cursor} {token : Token} (hfront : c.front = some token)
    (hat : c.atComment = false) :
    c.next? = some (token, ⟨token :: c.seen, c.rest.tail⟩) := by
  obtain ⟨rest, hrest⟩ : ∃ rest, c.rest = token :: rest := List.head?_eq_some_iff.mp hfront
  obtain ⟨seen, _⟩ := c
  subst hrest
  unfold next?
  rw [settle_of_atComment hat]
  rfl

/-- Without a comment in front the next token is in front. -/
theorem front_of_atComment_false {c : Cursor} (hat : c.atComment = false) :
    c.front = c.next?.map (·.1) := by
  cases hfront : c.front with
  | some token => rw [next?_of_front hfront hat, Option.map_some]
  | none =>
    have hnone : c.next? = none := by
      rw [next?_eq_none_iff, settle_of_atComment hat]
      exact List.head?_eq_none_iff.mp hfront
    rw [hnone]
    rfl

/-- Behind the comments ahead no comment is in front. -/
theorem atComment_settle (c : Cursor) : c.settle.atComment = false := by
  cases hnext : c.next? with
  | none => simp [atComment, front, next?_eq_none_iff.mp hnext]
  | some p =>
    have hplain := (next?_split hnext).1
    obtain ⟨seen, rest, hs, -⟩ := next?_eq_some_iff.mp hnext
    simp [atComment, front, hs, hplain]

private theorem settleFrom_passes (inside : Bool) (seen rest : List Token) :
    ∃ skipped, rest = skipped ++ (settleFrom inside seen rest).rest ∧
      (settleFrom inside seen rest).seen = skipped.reverse ++ seen := by
  induction rest generalizing inside seen with
  | nil => cases inside <;> exact ⟨[], rfl, rfl⟩
  | cons token rest ih =>
    -- whatever the token is to the comment, if it is passed the rest is left to the hypothesis
    have step : ∀ b, ∃ skipped,
        token :: rest = skipped ++ (settleFrom b (token :: seen) rest).rest ∧
          (settleFrom b (token :: seen) rest).seen = skipped.reverse ++ seen := by
      intro b
      obtain ⟨skipped, hrest, hseen⟩ := ih b (token :: seen)
      refine ⟨token :: skipped, ?_, ?_⟩
      · rw [List.cons_append, ← hrest]
      · rw [hseen]
        simp
    cases inside with
    | true => exact step _
    | false =>
      simp only [settleFrom]
      split
      · exact step _
      · exact step _
      · exact ⟨[], rfl, rfl⟩

/-- The comments that are stepped over were ahead, and are behind the cursor then. -/
theorem settle_passes (c : Cursor) :
    ∃ skipped, c.rest = skipped ++ c.settle.rest ∧ c.settle.seen = skipped.reverse ++ c.seen :=
  settleFrom_passes ..

private theorem suffix_settleFrom (inside : Bool) (seen rest : List Token) :
    (settleFrom inside seen rest).rest <:+ rest := by
  obtain ⟨skipped, hrest, -⟩ := settleFrom_passes inside seen rest
  exact ⟨skipped, hrest.symm⟩

/-- A comment in front is stepped over. -/
theorem suffix_settle_of_atComment {c : Cursor} (hat : c.atComment = true) :
    c.settle.rest <:+ c.rest.tail := by
  obtain ⟨seen, rest⟩ := c
  cases rest with
  | nil => exact List.suffix_refl []
  | cons token rest =>
    have hplain : token.kind.isPlain = false := by simpa [atComment, front] using hat
    simp only [settle, settleFrom, List.tail_cons]
    split
    · exact suffix_settleFrom ..
    · exact suffix_settleFrom ..
    · rename_i hline hopen
      rw [Kind.isPlain_iff.mpr ⟨hline, hopen⟩] at hplain
      cases hplain

/-- Stepping over comments keeps the bare form of what is ahead, unless they do not end. -/
theorem bare_rest_settle {c : Cursor} (h : c.unclosed? = none) :
    Token.bare c.settle.rest = Token.bare c.rest := by
  cases hc : c.next? with
  | some p => rw [bare_rest, bare_rest, next?_settle, hc]
  | none =>
    rw [bare_rest c, hc, next?_eq_none_iff.mp hc]
    simp [h]

private theorem bareFrom_of_unclosedFrom {opened : Option Token} {rest : List Token}
    (h : (unclosedFrom opened rest).isSome = true) :
    Token.bareFrom opened.isSome rest = [Kind.bare (.symbol .commentOpen)] := by
  -- along the tokens, with the mark that is open, if one is
  induction rest generalizing opened with
  | nil =>
    rw [unclosedFrom] at h
    rw [h]
    rfl
  | cons token rest ih =>
    cases opened with
    | some mark =>
      rw [unclosedFrom] at h
      have hrest := ih h
      by_cases hk : token.kind = .symbol .commentClose
      · simpa [Token.bareFrom, hk] using hrest
      · simpa [Token.bareFrom, hk] using hrest
    | none =>
      rw [unclosedFrom] at h
      simp only [Option.isSome_none, Token.bareFrom]
      split at h
      · rename_i hk
        simpa [hk] using ih h
      · rename_i hk
        simpa [hk] using ih h
      · cases h

/-- Of a comment that does not end, its opening mark is all that is ahead. -/
theorem unclosed?_isSome_iff (c : Cursor) :
    c.unclosed?.isSome = true ↔ Token.bare c.rest = [Kind.bare (.symbol .commentOpen)] := by
  constructor
  · exact bareFrom_of_unclosedFrom
  · intro h
    rw [bare_rest] at h
    -- the next token is plain, so only where there is none the mark can be all that is left
    cases hnext : c.next? with
    | none =>
      rw [hnext] at h
      cases hopen : c.unclosed?.isSome with
      | true => rfl
      | false => simp [hopen] at h
    | some p =>
      rw [hnext] at h
      have hkind : p.1.kind = .symbol .commentOpen := (Token.mk.inj (List.cons.inj h).1).1
      have hplain := (next?_split hnext).1
      rw [hkind] at hplain
      cases hplain

theorem bare_of_unclosed {c : Cursor} {mark : Token} (h : c.unclosed? = some mark) :
    Token.bare c.rest = [Kind.bare (.symbol .commentOpen)] :=
  (unclosed?_isSome_iff c).mp (by rw [h]; rfl)

/-- Where tokens have the same bare form, both begin with a comment that does not end, or neither
does. -/
theorem exists_unclosed {c d : Cursor} {mark : Token} (h : c.unclosed? = some mark)
    (hbare : Token.bare c.rest = Token.bare d.rest) : ∃ mark', d.unclosed? = some mark' :=
  Option.isSome_iff_exists.mp
    ((unclosed?_isSome_iff d).mpr (hbare.symm.trans (bare_of_unclosed h)))

/-- A comment that does not end is in front. -/
theorem atComment_of_unclosed {c : Cursor} {mark : Token} (h : c.unclosed? = some mark) :
    c.atComment = true := by
  cases hat : c.atComment with
  | true => rfl
  | false =>
    rw [unclosed?_of_not_atComment hat] at h
    cases h

/-! ### Many steps -/

/-- From `c` on the cursor reads tokens of these kinds, and then stands at the last cursor. -/
inductive Reads : Cursor → List Kind → Cursor → Prop
  | nil (c : Cursor) : Reads c [] c
  | cons {c c₁ c' : Cursor} {token : Token} {kinds : List Kind} :
      c.next? = some (token, c₁) → Reads c₁ kinds c' → Reads c (token.kind :: kinds) c'

namespace Reads

/-- Reading one token. -/
theorem one {c c' : Cursor} {token : Token} (h : c.next? = some (token, c')) :
    Reads c [token.kind] c' :=
  .cons h (.nil c')

/-- Reading on. -/
theorem append {c c₁ c' : Cursor} {kinds more : List Kind} (h : Reads c kinds c₁)
    (h' : Reads c₁ more c') : Reads c (kinds ++ more) c' := by
  induction h with
  | nil => exact h'
  | cons hnext _ ih => exact .cons hnext (ih h')

/-- Whatever is read is read in two parts. -/
theorem of_append {c c' : Cursor} {kinds more : List Kind} (h : Reads c (kinds ++ more) c') :
    ∃ c₁, Reads c kinds c₁ ∧ Reads c₁ more c' := by
  induction kinds generalizing c with
  | nil => exact ⟨c, .nil c, h⟩
  | cons kind kinds ih =>
    cases h with
    | cons hnext hrest =>
      obtain ⟨c₁, h₁, h₂⟩ := ih hrest
      exact ⟨c₁, .cons hnext h₁, h₂⟩

/-- The first token that is read. -/
theorem of_cons {c c' : Cursor} {kind : Kind} {kinds : List Kind}
    (h : Reads c (kind :: kinds) c') :
    ∃ token c₁, c.next? = some (token, c₁) ∧ token.kind = kind ∧ Reads c₁ kinds c' := by
  cases h with
  | cons hnext hrest => exact ⟨_, _, hnext, rfl, hrest⟩

/-- Reading the first token, and then the others. -/
theorem uncons {c c' : Cursor} {kind : Kind} {kinds : List Kind}
    (h : Reads c (kind :: kinds) c') : ∃ c₁, Reads c [kind] c₁ ∧ Reads c₁ kinds c' :=
  of_append h

/-- Reading is determined by how much is read. -/
theorem unique {c c₁ c₂ : Cursor} {kinds : List Kind} (h₁ : Reads c kinds c₁)
    (h₂ : Reads c kinds c₂) : c₁ = c₂ := by
  induction h₁ with
  | nil =>
    cases h₂
    rfl
  | cons hnext _ ih =>
    obtain ⟨token, c', hnext', -, hrest⟩ := h₂.of_cons
    rw [hnext] at hnext'
    cases hnext'
    exact ih hrest

/-- The tokens between two places: the second cursor has passed them, and their bare form is what
was read, whatever follows. -/
theorem split {c c' : Cursor} {kinds : List Kind} (h : Reads c kinds c') :
    ∃ passed, c.rest = passed ++ c'.rest ∧ c'.seen = passed.reverse ++ c.seen ∧
      ∀ tail, Token.bare (passed ++ tail) = kinds.map Kind.bare ++ Token.bare tail := by
  -- what is passed is, for each token, the comments in front of it and the token
  induction h with
  | nil => exact ⟨[], rfl, rfl, fun _ => rfl⟩
  | @cons c c₁ c' token kinds hnext _ ih =>
    obtain ⟨hplain, skipped, hrest, hseen, hbare⟩ := next?_split hnext
    obtain ⟨passed, hrest', hseen', hbare'⟩ := ih
    refine ⟨skipped ++ token :: passed, ?_, ?_, fun tail => ?_⟩
    · rw [hrest, hrest']
      simp
    · rw [hseen', hseen]
      simp
    · rw [List.append_assoc, hbare, List.cons_append, Token.bare_cons_of_isPlain hplain, hbare']
      rfl

/-- What is read heads the bare form of what is ahead. -/
theorem bare_rest {c c' : Cursor} {kinds : List Kind} (h : Reads c kinds c') :
    Token.bare c.rest = kinds.map Kind.bare ++ Token.bare c'.rest := by
  obtain ⟨passed, hrest, -, hbare⟩ := h.split
  rw [hrest, hbare]

/-- What is read was ahead. -/
theorem mem_bare {c c' : Cursor} {kinds : List Kind} (h : Reads c kinds c') {kind : Kind}
    (hkind : kind ∈ kinds) : kind.bare ∈ Token.bare c.rest := by
  rw [h.bare_rest]
  exact List.mem_append_left _ (List.mem_map_of_mem hkind)

/-- Reading goes on in the same sequence. -/
theorem tokens_eq {c c' : Cursor} {kinds : List Kind} (h : Reads c kinds c') :
    c'.tokens = c.tokens := by
  obtain ⟨passed, hrest, hseen, -⟩ := h.split
  simp [Cursor.tokens, hrest, hseen]

/-- The tokens passed on the way were ahead. -/
theorem rest_eq {c c' : Cursor} {kinds : List Kind} (h : Reads c kinds c') :
    c.rest = c'.passedSince c.position ++ c'.rest := by
  obtain ⟨passed, hrest, hseen, -⟩ := h.split
  have hpassed : c'.passedSince c.position = passed := by
    simp [Cursor.passedSince, position, hseen]
  rw [hpassed, hrest]

/-- The tokens that are left are the last of those ahead. -/
theorem suffix {c c' : Cursor} {kinds : List Kind} (h : Reads c kinds c') : c'.rest <:+ c.rest :=
  ⟨_, h.rest_eq.symm⟩

/-- The tokens passed on the way up to the last one read were ahead as well. -/
theorem dropLast_passedSince_infix {c c' : Cursor} {kinds : List Kind} (h : Reads c kinds c') :
    (c'.passedSince c.position).dropLast <:+: c.rest := by
  have hprefix : c'.passedSince c.position <+: c.rest := ⟨_, h.rest_eq.symm⟩
  exact ((List.dropLast_prefix _).trans hprefix).isInfix

/-- The tokens passed on the way, and their bare form. -/
theorem passedSince {c c' : Cursor} {kinds : List Kind} (h : Reads c kinds c') :
    Token.bare (c'.passedSince c.position) = kinds.map Kind.bare := by
  obtain ⟨passed, hrest, -, hbare⟩ := h.split
  obtain rfl : c'.passedSince c.position = passed :=
    List.append_cancel_right (h.rest_eq.symm.trans hrest)
  rw [← List.append_nil (c'.passedSince _), hbare, Token.bare_nil, List.append_nil]

/-- The tokens passed on the way end with the last one read. Comments in front of it remain, and so
does the bare form. -/
theorem passedSince_concat {c c' : Cursor} {kinds : List Kind} {kind : Kind}
    (h : Reads c (kinds ++ [kind]) c') :
    ∃ front token, c'.passedSince c.position = front ++ [token] ∧ token.kind = kind ∧
      Token.bare front = kinds.map Kind.bare := by
  -- up to the last token that was read, and from there to its end
  obtain ⟨c₁, h₁, h₂⟩ := h.of_append
  obtain ⟨token, c₂, hnext, hkind, hend⟩ := h₂.of_cons
  cases hend
  obtain ⟨passed, -, hseen, hbare⟩ := h₁.split
  obtain ⟨-, skipped, -, hseen', hbare'⟩ := next?_split hnext
  have hpassed : c'.passedSince c.position = (passed ++ skipped) ++ [token] := by
    rw [Cursor.passedSince, position, position, hseen', hseen]
    rw [show token :: (skipped.reverse ++ (passed.reverse ++ c.seen)) =
      ((passed ++ skipped) ++ [token]).reverse ++ c.seen by simp]
    rw [List.take_left' (by simp; omega), List.reverse_reverse]
  refine ⟨passed ++ skipped, token, hpassed, hkind, ?_⟩
  rw [hbare, ← List.append_nil skipped, hbare', Token.bare_nil, List.append_nil]

/-- The tokens passed on the way but for the last one read. -/
theorem passedSince_dropLast {c c' : Cursor} {kinds : List Kind} {kind : Kind}
    (h : Reads c (kinds ++ [kind]) c') :
    Token.bare (c'.passedSince c.position).dropLast = kinds.map Kind.bare := by
  obtain ⟨front, token, hpassed, -, hbare⟩ := h.passedSince_concat
  rw [hpassed, List.dropLast_concat, hbare]

/-- What is read begins no comment. -/
theorem isPlain {c c' : Cursor} {kinds : List Kind} (h : Reads c kinds c') :
    ∀ kind ∈ kinds, kind.isPlain = true := by
  induction h with
  | nil => simp
  | cons hnext _ ih => exact List.forall_mem_cons.mpr ⟨(next?_split hnext).1, ih⟩

/-- Every token that is read was ahead. -/
theorem length_rest {c c' : Cursor} {kinds : List Kind} (h : Reads c kinds c') :
    c'.rest.length + kinds.length ≤ c.rest.length := by
  induction h with
  | nil => exact Nat.le_refl _
  | cons hnext _ ih =>
    have := length_rest_of_next? hnext
    rw [List.length_cons]
    omega

end Reads

/-- A cursor reads what heads the bare form of what is ahead, as far as it begins no comment. -/
theorem reads_of_bare {c : Cursor} {kinds : List Kind} {tail : List Token}
    (hplain : ∀ k ∈ kinds, k.isPlain = true)
    (h : Token.bare c.rest = kinds.map Kind.bare ++ tail) :
    ∃ c', Reads c kinds c' ∧ Token.bare c'.rest = tail := by
  -- kind by kind; each is that of the next token, behind the comments in front of it
  induction kinds generalizing c with
  | nil => exact ⟨c, .nil c, h⟩
  | cons kind kinds ih =>
    rw [Cursor.bare_rest, List.map_cons, List.cons_append] at h
    split at h
    · rename_i token c₁ hnext
      obtain ⟨hhead, htail⟩ := List.cons.inj h
      have hkind : token.kind = kind := congrArg Token.kind hhead
      obtain ⟨c', hreads, hend⟩ := ih (fun k hk => hplain k (by simp [hk])) htail
      exact ⟨c', hkind ▸ .cons hnext hreads, hend⟩
    · -- the mark of a comment that does not end is no plain token
      split at h
      · have hkind : Kind.symbol .commentOpen = kind := congrArg Token.kind (List.cons.inj h).1
        have := hplain kind (by simp)
        rw [← hkind] at this
        exact absurd this (by decide)
      · cases h

end Cursor

end Tern
