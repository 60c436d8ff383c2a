import Tern.Proofs.Lexing

/-!
# The normal form read again

The normal form of a text is written for the tokens outside its comments, and reading it gives them
back. The one exception is a string that is not closed on its line: it takes along whatever is
written behind it, so it may only stand last.

## Key results

- `Token.kinds_normalize`: the tokens outside comments are read from the normal form
- `Token.kinds_normalize_ne`: they are not, if one follows a string that is not closed
- `kinds_kept_normalize_iff`: so this is the only way for the normal form to read differently, and
  otherwise it is its own normal form
-/

namespace Tern

namespace Token

/-- Tokens outside comments are among all tokens, and belong to no comment. -/
theorem mem_of_mem_keptFrom {inside : Bool} {tokens : List Token} {token : Token}
    (h : token ∈ keptFrom inside tokens) : token ∈ tokens ∧ token.kind.isComment = false := by
  induction tokens generalizing inside with
  | nil => cases inside <;> cases h
  -- along the tokens; what is kept is kept somewhere behind, or is this token
  | cons first tokens ih =>
    have hlater : ∀ {b}, token ∈ keptFrom b tokens →
        token ∈ first :: tokens ∧ token.kind.isComment = false :=
      fun hb => ⟨List.mem_cons_of_mem _ (ih hb).1, (ih hb).2⟩
    cases inside with
    | true => exact hlater h
    | false =>
      simp only [keptFrom] at h
      split at h
      · exact hlater h
      · split at h
        · exact hlater h
        · rename_i hcomment
          rcases List.mem_cons.mp h with rfl | h
          · exact ⟨by simp, by simpa using hcomment⟩
          · exact hlater h

/-- Tokens that belong to no comment are kept. -/
private theorem kept_append {before : List Token}
    (h : ∀ token ∈ before, token.kind.isComment = false) (after : List Token) :
    kept (before ++ after) = before ++ kept after := by
  induction before with
  | nil => rfl
  | cons token before ih =>
    have htoken := h token (by simp)
    -- no token in front opens a comment, so all of them are kept
    have hopen : token.kind ≠ .symbol .commentOpen := by
      intro hkind
      rw [hkind] at htoken
      cases htoken
    have hrest := ih fun t ht => h t (by simp [ht])
    unfold kept at hrest ⊢
    rw [List.cons_append, keptFrom, if_neg hopen, if_neg (by simp [htoken]), hrest]
    rfl

/-- What is kept is no comment. -/
private theorem isComment_of_mem_kept {tokens : List Token} {kind : Kind}
    (h : kind ∈ (kept tokens).map (·.kind)) : kind.isComment = false := by
  obtain ⟨token, htoken, rfl⟩ := List.mem_map.mp h
  exact (mem_of_mem_keptFrom htoken).2

/-- The tokens outside comments are read again from their texts. -/
private theorem written_of_mem_kept {source : String} {kind : Kind}
    (h : kind ∈ (kept (tokenize source)).map (·.kind)) : kind.Written := by
  obtain ⟨token, htoken, rfl⟩ := List.mem_map.mp h
  obtain ⟨hmem, hcomment⟩ := mem_of_mem_keptFrom htoken
  exact written_of_mem_tokenize hmem hcomment

/-- The normal form is written from kinds. -/
private theorem normalize_eq (tokens : List Token) :
    normalize tokens = spaced (((kept tokens).map (·.kind)).map Kind.text) := by
  rw [List.map_map]
  rfl

/-- No token of a text is empty, so there is one space between neighbours. -/
private theorem normalize_tokenize (source : String) :
    normalize (tokenize source) =
      " ".intercalate (((kept (tokenize source)).map (·.kind)).map Kind.text) := by
  rw [normalize_eq]
  refine spaced_eq_intercalate fun text htext => ?_
  obtain ⟨kind, hkind, rfl⟩ := List.mem_map.mp htext
  exact (written_of_mem_kept hkind).text_ne

/-- The tokens outside comments are read from the normal form, if only the last of them is a string
that is not closed. -/
theorem kinds_normalize {source : String}
    (h : ∀ token ∈ (kept (tokenize source)).dropLast, token.kind.isUnterminated = false) :
    (tokenize (normalize (tokenize source))).map (·.kind) =
      (kept (tokenize source)).map (·.kind) := by
  rw [normalize_tokenize]
  refine kinds_of_written (fun kind => written_of_mem_kept) fun kind hkind => ?_
  rw [← List.map_dropLast] at hkind
  obtain ⟨token, htoken, rfl⟩ := List.mem_map.mp hkind
  exact h token htoken

/-- Where nothing follows a string that is not closed, the strings before the last token are
closed. -/
private theorem terminated_of_last {tokens : List Token}
    (h : ∀ before token after, tokens = before ++ token :: after →
      token.kind.isUnterminated = true → after = []) :
    ∀ token ∈ tokens.dropLast, token.kind.isUnterminated = false := by
  intro token htoken
  -- a token in front of the last one has something behind it
  obtain ⟨before, after, hsplit⟩ := List.append_of_mem htoken
  rcases List.eq_nil_or_concat tokens with rfl | ⟨front, last, rfl⟩
  · cases htoken
  · rw [List.concat_eq_append] at h hsplit
    rw [List.dropLast_concat] at hsplit
    subst hsplit
    cases hopen : token.kind.isUnterminated with
    | false => rfl
    | true =>
      have hnil := h before token (after ++ [last]) (by simp) hopen
      simp at hnil

/-- The normal form has no comments, if only the last token outside the comments of the text is a
string that is not closed. -/
private theorem kinds_kept_normalize {source : String}
    (h : ∀ token ∈ (kept (tokenize source)).dropLast, token.kind.isUnterminated = false) :
    (kept (tokenize (normalize (tokenize source)))).map (·.kind) =
      (kept (tokenize source)).map (·.kind) := by
  have hkinds := kinds_normalize h
  have hcomment : ∀ token ∈ tokenize (normalize (tokenize source)),
      token.kind.isComment = false := by
    intro token htoken
    exact isComment_of_mem_kept (hkinds ▸ List.mem_map_of_mem htoken)
  have hkept : kept (tokenize (normalize (tokenize source))) =
      tokenize (normalize (tokenize source)) := by
    simpa [kept, keptFrom] using kept_append hcomment []
  rw [hkept, hkinds]

/-- The first string that is not closed is not read from the normal form, if a token follows it. -/
private theorem kinds_normalize_ne_of_first {source : String} {before after : List Token}
    {token next : Token}
    (h : kept (tokenize source) = before ++ token :: next :: after)
    (hclosed : ∀ t ∈ before, t.kind.isUnterminated = false)
    (hopen : token.kind.isUnterminated = true) :
    (kept (tokenize (normalize (tokenize source)))).map (·.kind) ≠
      (kept (tokenize source)).map (·.kind) := by
  have hkept : (kept (tokenize source)).map (·.kind) =
      before.map (·.kind) ++ token.kind :: next.kind :: after.map (·.kind) := by
    rw [h, List.map_append, List.map_cons, List.map_cons]
  -- all of them come from a text, so each is written in a way that is read again
  have hwritten : ∀ kind ∈ before.map (·.kind), kind.Written := by
    intro kind hkind
    exact written_of_mem_kept (by rw [hkept]; exact List.mem_append_left _ hkind)
  have hterminated : ∀ kind ∈ before.map (·.kind), kind.isUnterminated = false := by
    intro kind hkind
    obtain ⟨t, ht, rfl⟩ := List.mem_map.mp hkind
    exact hclosed t ht
  obtain ⟨other, rest, hread, hother, hcomment⟩ :=
    kinds_of_isUnterminated hwritten hterminated hopen
  rw [← hkept, ← normalize_tokenize] at hread
  -- what is read in front of the string and in its place belongs to no comment
  obtain ⟨front, back, htokens, hfront, hback⟩ := List.map_eq_append_iff.mp hread
  obtain ⟨found, back, rfl, rfl, -⟩ := List.map_eq_cons_iff.mp hback
  have hcomments : ∀ t ∈ front ++ [found], t.kind.isComment = false := by
    intro t ht
    rcases List.mem_append.mp ht with ht | ht
    · have hkind : t.kind ∈ before.map (·.kind) := hfront ▸ List.mem_map_of_mem ht
      exact isComment_of_mem_kept (by rw [hkept]; exact List.mem_append_left _ hkind)
    · rw [List.mem_singleton.mp ht]
      exact hcomment
  have hkept' : kept (tokenize (normalize (tokenize source))) = front ++ found :: kept back := by
    simpa [htokens] using kept_append hcomments back
  rw [hkept', hkept, List.map_append, hfront, List.map_cons]
  intro hsame
  exact hother (List.cons.inj (List.append_cancel_left hsame)).1

/-- The tokens outside comments are not read from the normal form, if one of them follows a string
that is not closed. -/
theorem kinds_normalize_ne {source : String} {before after : List Token} {token : Token}
    (h : kept (tokenize source) = before ++ token :: after)
    (hopen : token.kind.isUnterminated = true) (hne : after ≠ []) :
    (kept (tokenize (normalize (tokenize source)))).map (·.kind) ≠
      (kept (tokenize source)).map (·.kind) := by
  -- the first string that is not closed decides, and it may stand further in front
  cases hfind : before.find? (·.kind.isUnterminated) with
  | none =>
    obtain ⟨next, after, rfl⟩ := List.exists_cons_of_ne_nil hne
    exact kinds_normalize_ne_of_first h (by simpa using hfind) hopen
  | some first =>
    obtain ⟨hfirst, front, back, rfl, hclosed⟩ := List.find?_eq_some_iff_append.mp hfind
    obtain ⟨next, rest, hnext⟩ := List.exists_cons_of_ne_nil
      (List.append_ne_nil_of_right_ne_nil back (List.cons_ne_nil token after))
    rw [List.append_assoc, List.cons_append, hnext] at h
    exact kinds_normalize_ne_of_first h (by simpa using hclosed) hfirst

end Token

/-- The tokens outside comments are read again from the normal form of a text exactly if none of
them follows a string that is not closed; and then the normal form is its own normal form. -/
theorem kinds_kept_normalize_iff (source : String) :
    ((Token.kept (tokenize (normalize (tokenize source)))).map (·.kind) =
        (Token.kept (tokenize source)).map (·.kind) ↔
      ∀ before token after, Token.kept (tokenize source) = before ++ token :: after →
        token.kind.isUnterminated = true → after = []) ∧
    ((Token.kept (tokenize (normalize (tokenize source)))).map (·.kind) =
        (Token.kept (tokenize source)).map (·.kind) →
      normalize (tokenize (normalize (tokenize source))) = normalize (tokenize source)) := by
  refine ⟨⟨fun hsame before token after hkept hopen => ?_, fun hlast => ?_⟩, fun hsame => ?_⟩
  · cases after with
    | nil => rfl
    | cons next after =>
      exact absurd hsame (Token.kinds_normalize_ne hkept hopen (List.cons_ne_nil next after))
  · exact Token.kinds_kept_normalize (Token.terminated_of_last hlast)
  · rw [Token.normalize_eq, hsame, ← Token.normalize_eq]

/-- An oversized number, a comment, and a string that is not closed: in the last place it is read
again, in front of a name it is not. -/
theorem kinds_kept_normalize_iff_open :
    let last := "99999999999999999999 // big\n/* \" */ x = \"end"
    let inner := "\"end\nx"
    ((∀ before token after, Token.kept (tokenize last) = before ++ token :: after →
        token.kind.isUnterminated = true → after = []) ∧
      normalize (tokenize (normalize (tokenize last))) = normalize (tokenize last)) ∧
    (Token.kept (tokenize (normalize (tokenize inner)))).map (·.kind) ≠
      (Token.kept (tokenize inner)).map (·.kind) := by
  intro last inner
  have hsame : (Token.kept (tokenize (normalize (tokenize last)))).map (·.kind) =
      (Token.kept (tokenize last)).map (·.kind) := by decide +kernel
  obtain ⟨hlast, hagain⟩ := kinds_kept_normalize_iff last
  refine ⟨⟨hlast.mp hsame, hagain hsame⟩, fun hread => ?_⟩
  have hkept : Token.kept (tokenize inner) =
      [] ++ ⟨.unknown "\"end", ⟨0, 4⟩⟩ :: [⟨.ident "x", ⟨5, 6⟩⟩] := by decide +kernel
  cases (kinds_kept_normalize_iff inner).1.mp hread _ _ _ hkept (by decide +kernel)

end Tern
