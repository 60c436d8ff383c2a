import Tern.Proofs.Statement.Shape

/-!
# No two programs have the same tokens

Statements stand in a row without separators, and blocks are told from their context by braces
only. Still the tokens of well-formed statements can be taken apart in one way only: the first
token tells what a statement is, and from there on every part ends at a place that the tokens
determine. So it makes sense to speak of the statements that the body of a function spells.

## Key results

- `Code.kinds_injective`: no two well-formed programs are written with the same tokens
- `Code.execTokens_of_spells`: the statements that a body spells are what is executed
- `Code.execBody_of_declared`: so a function does what the statements of its declaration do
-/

namespace Tern

open Cursor (Reads)

/-- Tokens without places are told apart by their kinds. -/
private theorem kinds_of_map_bare {kinds kinds' : List Kind}
    (h : kinds.map Kind.bare = kinds'.map Kind.bare) : kinds = kinds' :=
  (List.map_inj_right fun _ _ h => (Token.mk.inj h).1).mp h

variable {c c₁ c₂ : Cursor}

/-! ### Parts of statements -/

/-- One token is read in one way. -/
private theorem token_unique {kind kind' : Kind} {more more' : List Kind}
    (h : Reads c (kind :: more) c₁ ∧ Reads c (kind' :: more') c₂) :
    kind = kind' ∧ ∃ d, Reads d more c₁ ∧ Reads d more' c₂ := by
  obtain ⟨d₁, hkind₁, hmore₁⟩ := h.1.uncons
  obtain ⟨d₂, hkind₂, hmore₂⟩ := h.2.uncons
  obtain ⟨hkind, rfl⟩ := hkind₁.head_unique hkind₂
  exact ⟨hkind, d₁, hmore₁, hmore₂⟩

/-- Where an expression ends is determined, and so is its tree. -/
private theorem Tree.unique_of_reads {t u : Tree .expression} (ht : t.Admitted) (hu : u.Admitted)
    (h : Reads c t.kinds c₁ ∧ Reads c u.kinds c₂) (hends₁ : t.EndsBefore c₁.ahead)
    (hends₂ : u.EndsBefore c₂.ahead) : t = u ∧ c₁ = c₂ := by
  have hparse : ∀ {v : Tree .expression} {c' : Cursor}, v.Admitted → Reads c v.kinds c' →
      v.EndsBefore c'.ahead → Parses .whole c v c' := by
    intro v c' hv h hends
    refine .of_reads hv v.level_le ?_ (stops_whole_iff.mpr hends)
    rwa [closing, List.append_nil]
  exact (hparse ht h.1 hends₁).unique (hparse hu h.2 hends₂)

/-- An expression in front of something that never carries it on. -/
private theorem Tree.unique_of_append {t u : Tree .expression} (ht : t.Admitted) (hu : u.Admitted)
    {more more' : List Kind} (h : Reads c (t.kinds ++ more) c₁ ∧ Reads c (u.kinds ++ more') c₂)
    (hends : t.EndsBefore more.head?) (hends' : u.EndsBefore more'.head?)
    (hmore : more ≠ []) (hmore' : more' ≠ []) :
    t = u ∧ ∃ d, Reads d more c₁ ∧ Reads d more' c₂ := by
  obtain ⟨d₁, ht₁, hmore₁⟩ := h.1.of_append
  obtain ⟨d₂, hu₂, hmore₂⟩ := h.2.of_append
  rw [List.head?_eq_some_head hmore] at hends
  rw [List.head?_eq_some_head hmore'] at hends'
  obtain ⟨htu, rfl⟩ := unique_of_reads ht hu ⟨ht₁, hu₂⟩
    (Cursor.ahead_of_head hmore₁ (List.head?_eq_some_head hmore) ▸ hends)
    (Cursor.ahead_of_head hmore₂ (List.head?_eq_some_head hmore') ▸ hends')
  exact ⟨htu, d₁, hmore₁, hmore₂⟩

private theorem Ty.name_injective {type type' : Ty} (h : type.name = type'.name) :
    type = type' := by
  revert h
  cases type <;> cases type' <;> decide

/-- Where a type ends is determined, and so is the type. -/
private theorem Typing.unique_of_append {t u : Typing} {more more' : List Kind}
    (h : Reads c (t.kinds ++ more) c₁ ∧ Reads c (u.kinds ++ more') c₂)
    (hne : ∀ d, Reads d more c₁ → d.ahead ≠ some (.symbol .colon))
    (hne' : ∀ d, Reads d more' c₂ → d.ahead ≠ some (.symbol .colon)) :
    t = u ∧ ∃ d, Reads d more c₁ ∧ Reads d more' c₂ := by
  -- `any` is no type, so no two type names are written alike
  have hnot : ∀ type : Ty, type.name ≠ "any" := by
    intro type
    cases type <;> decide
  -- by the two ways to write a type; a colon tells the first from the others
  cases t with
  | absent =>
    cases u with
    | absent => exact ⟨rfl, c, h⟩
    | any | only => exact absurd (Cursor.ahead_of_reads h.2) (hne c h.1)
  | any =>
    cases u with
    | absent => exact absurd (Cursor.ahead_of_reads h.1) (hne' c h.2)
    | any =>
      obtain ⟨-, d, h⟩ := token_unique h
      exact ⟨rfl, (token_unique h).2⟩
    | only type =>
      obtain ⟨-, d, h⟩ := token_unique h
      exact absurd (Kind.ident.inj (token_unique h).1).symm (hnot type)
  | only type =>
    cases u with
    | absent => exact absurd (Cursor.ahead_of_reads h.1) (hne' c h.2)
    | any =>
      obtain ⟨-, d, h⟩ := token_unique h
      exact absurd (Kind.ident.inj (token_unique h).1) (hnot type)
    | only type' =>
      obtain ⟨-, d, h⟩ := token_unique h
      obtain ⟨hname, hmore⟩ := token_unique h
      exact ⟨congrArg only (Ty.name_injective (Kind.ident.inj hname)), hmore⟩

/-- The first parameter is determined, and so is the place of those behind it. -/
private theorem parameter_unique {p p' : String × Typing} {ps ps' : List (String × Typing)}
    {more more' : List Kind}
    (h : Reads c (.ident p.1 :: (p.2.kinds ++ (furtherParameterKinds ps ++ more))) c₁ ∧
      Reads c (.ident p'.1 :: (p'.2.kinds ++ (furtherParameterKinds ps' ++ more'))) c₂) :
    p = p' ∧ ∃ d, Reads d (furtherParameterKinds ps ++ more) c₁ ∧
      Reads d (furtherParameterKinds ps' ++ more') c₂ := by
  have hne : ∀ {ps : List (String × Typing)} {more : List Kind} {d c' : Cursor},
      Reads d (furtherParameterKinds ps ++ more) c' → d.ahead ≠ some (.symbol .colon) := by
    intro ps more d c' h
    obtain ⟨d', hfurther, -⟩ := h.of_append
    exact Scan.further_ahead ps hfurther
  obtain ⟨hname, d, h⟩ := token_unique h
  obtain ⟨htyping, hmore⟩ := Typing.unique_of_append h (fun _ => hne) fun _ => hne
  exact ⟨Prod.ext (Kind.ident.inj hname) htyping, hmore⟩

/-- Where further parameters end is determined, and so are they. -/
private theorem furtherParameters_unique {ps ps' : List (String × Typing)} {more more' : List Kind}
    (h : Reads c (furtherParameterKinds ps ++ more) c₁ ∧
      Reads c (furtherParameterKinds ps' ++ more') c₂) :
    ps = ps' ∧ ∃ d, Reads d more c₁ ∧ Reads d more' c₂ := by
  -- a comma or a parenthesis follows, and it is the same in both
  induction ps generalizing c ps' with
  | nil =>
    cases ps' with
    | nil => exact ⟨rfl, (token_unique h).2⟩
    | cons p' ps' => cases (token_unique h).1
  | cons p ps ih =>
    cases ps' with
    | nil => cases (token_unique h).1
    | cons p' ps' =>
      simp only [furtherParameterKinds, List.cons_append, List.append_assoc] at h
      obtain ⟨-, d, h⟩ := token_unique h
      obtain ⟨hp, d, h⟩ := parameter_unique h
      obtain ⟨hps, hmore⟩ := ih h
      exact ⟨by rw [hp, hps], hmore⟩

/-- Where parameters end is determined, and so are they. -/
private theorem parameters_unique {ps ps' : List (String × Typing)} {more more' : List Kind}
    (h : Reads c (parameterKinds ps ++ more) c₁ ∧ Reads c (parameterKinds ps' ++ more') c₂) :
    ps = ps' ∧ ∃ d, Reads d more c₁ ∧ Reads d more' c₂ := by
  -- the first token tells whether there are any parameters at all
  cases ps with
  | nil =>
    cases ps' with
    | nil => exact ⟨rfl, (token_unique h).2⟩
    | cons p' ps' => cases (token_unique h).1
  | cons p ps =>
    cases ps' with
    | nil => cases (token_unique h).1
    | cons p' ps' =>
      simp only [parameterKinds, List.cons_append, List.append_assoc] at h
      obtain ⟨hp, d, h⟩ := parameter_unique h
      obtain ⟨hps, hmore⟩ := furtherParameters_unique h
      exact ⟨by rw [hp, hps], hmore⟩

namespace Code

/-- The block that the brace ahead opens is determined, if its tokens determine it. -/
private theorem braced_unique {b b' : Code .block} (hunique : b.kinds = b'.kinds → b = b')
    (h : Reads c (braced b.kinds) c₁ ∧ Reads c (braced b'.kinds) c₂) : b = b' ∧ c₁ = c₂ := by
  obtain ⟨d₁, body₁, hopen₁, hblock₁, hbare₁⟩ := Scan.braced_of_reads h.1 b.balanced
  obtain ⟨d₂, body₂, hopen₂, hblock₂, hbare₂⟩ := Scan.braced_of_reads h.2 b'.balanced
  obtain rfl := hopen₁.unique hopen₂
  rw [hblock₁] at hblock₂
  cases hblock₂
  exact ⟨hunique (kinds_of_map_bare (hbare₁.symm.trans hbare₂)), rfl⟩

/-- An expression in front of a block. -/
private theorem headed_unique {t u : Tree .expression} (ht : t.Admitted) (hu : u.Admitted)
    {b b' : Code .block} (hunique : b.kinds = b'.kinds → b = b')
    (h : Reads c (t.kinds ++ braced b.kinds) c₁ ∧ Reads c (u.kinds ++ braced b'.kinds) c₂) :
    t = u ∧ b = b' ∧ c₁ = c₂ := by
  obtain ⟨htu, d, h⟩ := Tree.unique_of_append ht hu h Tree.endsBefore_brace Tree.endsBefore_brace
    (List.cons_ne_nil _ _) (List.cons_ne_nil _ _)
  exact ⟨htu, braced_unique hunique h⟩

/-- An expression in front of a block and whatever follows it. -/
private theorem armed_unique {t u : Tree .expression} (ht : t.Admitted) (hu : u.Admitted)
    {b b' : Code .block} (hunique : b.kinds = b'.kinds → b = b') {more more' : List Kind}
    (h : Reads c (t.kinds ++ (braced b.kinds ++ more)) c₁ ∧
      Reads c (u.kinds ++ (braced b'.kinds ++ more')) c₂) :
    t = u ∧ b = b' ∧ ∃ d, Reads d more c₁ ∧ Reads d more' c₂ := by
  simp only [← List.append_assoc] at h
  obtain ⟨d₁, h₁, hmore₁⟩ := h.1.of_append
  obtain ⟨d₂, h₂, hmore₂⟩ := h.2.of_append
  obtain ⟨htu, hb, rfl⟩ := headed_unique ht hu hunique ⟨h₁, h₂⟩
  exact ⟨htu, hb, d₁, hmore₁, hmore₂⟩

/-! ### Statements -/

/-- The keyword that the statement begins with; an expression begins with none. -/
def keyword? : Code .statement → Option Keyword
  | assertion _ => some .assertKw
  | counted .. => some .repeatKw
  | whileLoop .. => some .whileKw
  | range .. => some .fromKw
  | conditional _ => some .ifKw
  | declaration isFinal .. => some (if isFinal then .valKw else .varKw)
  | definition .. => some .defKw
  | returning _ => some .returnKw
  | expression _ => none

/-- The first token tells what a statement is. -/
private theorem keyword_unique {s s' : Code .statement} (h₁ : Reads c s.kinds c₁)
    (h₂ : Reads c s'.kinds c₂) : s.keyword? = s'.keyword? := by
  -- the first token of a statement determines its keyword
  have hfirst : ∀ s : Code .statement, ∃ kind, s.kinds.head? = some kind ∧
      s.keyword? = if kind.startsExpression then none
        else match kind with
          | .keyword word => some word
          | _ => none := by
    intro s
    cases s with
    | expression e =>
      obtain ⟨kind, hhead, hstarts⟩ := e.exists_head
      exact ⟨kind, hhead, by rw [if_pos hstarts]; rfl⟩
    | declaration isFinal => cases isFinal <;> exact ⟨_, rfl, rfl⟩
    | returning value? => cases value? <;> exact ⟨_, rfl, rfl⟩
    | _ => exact ⟨_, rfl, rfl⟩
  obtain ⟨kind, hhead, hkeyword⟩ := hfirst s
  obtain ⟨kind', hhead', hkeyword'⟩ := hfirst s'
  have hkind := (Cursor.ahead_of_head h₁ hhead).symm.trans (Cursor.ahead_of_head h₂ hhead')
  rw [hkeyword, hkeyword', Option.some.inj hkind]

/-- The tokens determine the tree: for a statement those behind which it ends, for the arms of a
conditional those behind which no other arm follows, for statements in a row all of them. -/
private def Determined : {part : Part} → Code part → Prop
  | .statement, s => ∀ {s' : Code .statement} {c c₁ c₂ : Cursor}, s'.WellFormed →
      Reads c s.kinds c₁ → Reads c s'.kinds c₂ → s.EndsBefore c₁.ahead →
      s'.EndsBefore c₂.ahead → c₁.ahead ≠ some (.keyword .elseKw) →
      c₂.ahead ≠ some (.keyword .elseKw) → s = s' ∧ c₁ = c₂
  | .arms, arms => ∀ {arms' : Code .arms} {c c₁ c₂ : Cursor}, arms'.WellFormed →
      Reads c arms.kinds c₁ → Reads c arms'.kinds c₂ → c₁.ahead ≠ some (.keyword .elseKw) →
      c₂.ahead ≠ some (.keyword .elseKw) → arms = arms' ∧ c₁ = c₂
  | .block, b => ∀ {b' : Code .block}, b'.WellFormed → b.kinds = b'.kinds → b = b'

/-- The loop variable is determined, and so is the block behind it. -/
private theorem loopName_unique {name? name?' : Option String} {b b' : Code .block}
    (hunique : b.kinds = b'.kinds → b = b')
    (h : Reads c (loopNameKinds name? ++ braced b.kinds) c₁ ∧
      Reads c (loopNameKinds name?' ++ braced b'.kinds) c₂) :
    name? = name?' ∧ b = b' ∧ c₁ = c₂ := by
  -- `with` tells a loop that has a variable from one that has none
  cases name? with
  | some name =>
    cases name?' with
    | some name' =>
      obtain ⟨-, d, h⟩ := token_unique h
      obtain ⟨hname, d, h⟩ := token_unique h
      exact ⟨congrArg some (Kind.ident.inj hname), braced_unique hunique h⟩
    | none => cases (token_unique h).1
  | none =>
    cases name?' with
    | some name' => cases (token_unique h).1
    | none => exact ⟨rfl, braced_unique hunique h⟩

/-- Neither the loop variable nor the block carries the limit of a range on. -/
private theorem endsBefore_loopName (t : Tree .expression) (name? : Option String)
    (kinds : List Kind) : t.EndsBefore (loopNameKinds name? ++ braced kinds).head? ∧
      loopNameKinds name? ++ braced kinds ≠ [] := by
  cases name? with
  | some name => exact ⟨Tree.endsBefore_keyword, List.cons_ne_nil _ _⟩
  | none => exact ⟨Tree.endsBefore_brace, List.cons_ne_nil _ _⟩

private theorem range_determined {first limit : Tree .expression} {name? : Option String}
    {body : Code .block} (hfirst : first.Admitted) (hlimit : limit.Admitted)
    (hbody : body.Determined) : (range first limit name? body).Determined := by
  intro s' c c₁ c₂ hwell h₁ h₂ _ _ _ _
  -- another construct would have another keyword
  have hkeyword := keyword_unique h₁ h₂
  cases s' with
  | range first' limit' name?' body' =>
    obtain ⟨hfirst', hlimit', hbody'⟩ := hwell
    obtain ⟨-, d, h⟩ := token_unique ⟨h₁, h₂⟩
    obtain ⟨hfirst, d, h⟩ := Tree.unique_of_append hfirst hfirst' h Tree.endsBefore_keyword
      Tree.endsBefore_keyword (List.cons_ne_nil _ _) (List.cons_ne_nil _ _)
    obtain ⟨-, d, h⟩ := token_unique h
    obtain ⟨hends, hne⟩ := endsBefore_loopName limit name? body.kinds
    obtain ⟨hends', hne'⟩ := endsBefore_loopName limit' name?' body'.kinds
    obtain ⟨hlimit, d, h⟩ := Tree.unique_of_append hlimit hlimit' h hends hends' hne hne'
    obtain ⟨hname, hbody, hend⟩ := loopName_unique (hbody hbody') h
    exact ⟨by rw [hfirst, hlimit, hname, hbody], hend⟩
  | declaration isFinal => cases isFinal <;> cases hkeyword
  | _ => cases hkeyword

private theorem declaration_determined {isFinal : Bool} {name : String} {typing : Typing}
    {e : Tree .expression} (he : e.Admitted) :
    (declaration isFinal name typing e).Determined := by
  intro s' c c₁ c₂ hwell h₁ h₂ hends₁ hends₂ _ _
  have hkeyword := keyword_unique h₁ h₂
  cases s' with
  | declaration isFinal' name' typing' e' =>
    -- the keyword tells `val` from `var`
    have hfinal : isFinal = isFinal' := by
      cases isFinal <;> cases isFinal' <;> first | rfl | cases hkeyword
    have hne : ∀ {d c' : Cursor} {kinds : List Kind}, Reads d (.symbol .equal :: kinds) c' →
        d.ahead ≠ some (.symbol .colon) := by
      intro d c' kinds h
      rw [Cursor.ahead_of_reads h]
      decide
    obtain ⟨-, d, h⟩ := token_unique ⟨h₁, h₂⟩
    obtain ⟨hname, d, h⟩ := token_unique h
    obtain ⟨htyping, d, h⟩ := Typing.unique_of_append h (fun _ => hne) fun _ => hne
    obtain ⟨-, d, h⟩ := token_unique h
    obtain ⟨htree, hend⟩ := Tree.unique_of_reads he hwell h hends₁ hends₂
    exact ⟨by rw [hfinal, Kind.ident.inj hname, htyping, htree], hend⟩
  | _ => cases isFinal <;> cases hkeyword

private theorem definition_determined {name : String} {parameters : List (String × Typing)}
    {returns : Typing} {body : Code .block} (hbody : body.Determined) :
    (definition name parameters returns body).Determined := by
  intro s' c c₁ c₂ hwell h₁ h₂ _ _ _ _
  have hkeyword := keyword_unique h₁ h₂
  cases s' with
  | definition name' parameters' returns' body' =>
    have hne : ∀ {d c' : Cursor} {kinds : List Kind}, Reads d (braced kinds) c' →
        d.ahead ≠ some (.symbol .colon) := by
      intro d c' kinds h
      rw [Cursor.ahead_of_reads h]
      decide
    -- part by part, where each part ends at the same place in both
    obtain ⟨-, d, h⟩ := token_unique ⟨h₁, h₂⟩
    obtain ⟨hname, d, h⟩ := token_unique h
    obtain ⟨-, d, h⟩ := token_unique h
    obtain ⟨hparameters, d, h⟩ := parameters_unique h
    obtain ⟨hreturns, d, h⟩ := Typing.unique_of_append h (fun _ => hne) fun _ => hne
    obtain ⟨hbody, hend⟩ := braced_unique (hbody hwell) h
    exact ⟨by rw [Kind.ident.inj hname, hparameters, hreturns, hbody], hend⟩
  | declaration isFinal => cases isFinal <;> cases hkeyword
  | _ => cases hkeyword

private theorem returning_determined {value? : Option (Tree .expression)}
    (hwell : (returning value?).WellFormed) : (returning value?).Determined := by
  intro s' c c₁ c₂ hwell' h₁ h₂ hends₁ hends₂ _ _
  have hkeyword := keyword_unique h₁ h₂
  -- a value that is returned begins where a `return` without one has to end
  have hclash : ∀ {e : Tree .expression} {d c' : Cursor}, Reads d e.kinds c' → d.ahead ≠ none := by
    intro e d c' h hnone
    obtain ⟨kind, hhead, -⟩ := e.exists_head
    rw [Cursor.ahead_of_head h hhead] at hnone
    cases hnone
  -- with a value or without, on either side
  cases s' with
  | returning value?' =>
    cases value? with
    | none =>
      cases value?' with
      | none => exact ⟨rfl, h₁.unique h₂⟩
      | some e' =>
        obtain ⟨-, d, hd, h⟩ := token_unique ⟨h₁, h₂⟩
        cases hd
        exact absurd hends₁ (hclash h)
    | some e =>
      cases value?' with
      | none =>
        obtain ⟨-, d, h, hd⟩ := token_unique ⟨h₁, h₂⟩
        cases hd
        exact absurd hends₂ (hclash h)
      | some e' =>
        obtain ⟨-, d, h⟩ := token_unique ⟨h₁, h₂⟩
        obtain ⟨htree, hend⟩ := Tree.unique_of_reads hwell hwell' h hends₁ hends₂
        exact ⟨by rw [htree], hend⟩
  | declaration isFinal => cases isFinal <;> cases hkeyword
  | _ => cases hkeyword

private theorem lone_determined {e : Tree .expression} {body : Code .block} (he : e.Admitted)
    (hbody : body.Determined) : (lone e body).Determined := by
  -- the other chain ends with the block as well, or goes on with an `else` that is not there
  intro arms' c c₁ c₂ hwell h₁ h₂ hne₁ _
  rw [kinds, ← List.append_nil (braced _)] at h₁
  cases arms' with
  | lone e' body' =>
    rw [kinds, ← List.append_nil (braced _)] at h₂
    obtain ⟨htree, hbody, d, hd₁, hd₂⟩ := armed_unique he hwell.1 (hbody hwell.2) ⟨h₁, h₂⟩
    cases hd₁
    cases hd₂
    exact ⟨by rw [htree, hbody], rfl⟩
  | orElse e' body' others' | orIf e' body' others' =>
    obtain ⟨-, -, d, hd, h⟩ := armed_unique he hwell.1 (hbody hwell.2.1) ⟨h₁, h₂⟩
    cases hd
    exact absurd (Cursor.ahead_of_reads h) hne₁

private theorem orElse_determined {e : Tree .expression} {body others : Code .block}
    (he : e.Admitted) (hbody : body.Determined) (hothers : others.Determined) :
    (orElse e body others).Determined := by
  intro arms' c c₁ c₂ hwell h₁ h₂ _ hne₂
  -- what follows the block tells which chain it is
  cases arms' with
  | lone e' body' =>
    rw [kinds, ← List.append_nil (braced _)] at h₂
    obtain ⟨-, -, d, h, hd⟩ := armed_unique he hwell.1 (hbody hwell.2) ⟨h₁, h₂⟩
    cases hd
    exact absurd (Cursor.ahead_of_reads h) hne₂
  | orElse e' body' others' =>
    obtain ⟨htree, hbody, d, h⟩ := armed_unique he hwell.1 (hbody hwell.2.1) ⟨h₁, h₂⟩
    obtain ⟨-, d, h⟩ := token_unique h
    obtain ⟨hothers, hend⟩ := braced_unique (hothers hwell.2.2) h
    exact ⟨by rw [htree, hbody, hothers], hend⟩
  | orIf e' body' others' =>
    obtain ⟨-, -, d, h⟩ := armed_unique he hwell.1 (hbody hwell.2.1) ⟨h₁, h₂⟩
    obtain ⟨-, d, h⟩ := token_unique h
    cases (token_unique h).1

private theorem orIf_determined {e : Tree .expression} {body : Code .block} {others : Code .arms}
    (he : e.Admitted) (hbody : body.Determined) (hothers : others.Determined) :
    (orIf e body others).Determined := by
  intro arms' c c₁ c₂ hwell h₁ h₂ hne₁ hne₂
  cases arms' with
  | lone e' body' =>
    rw [kinds, ← List.append_nil (braced _)] at h₂
    obtain ⟨-, -, d, h, hd⟩ := armed_unique he hwell.1 (hbody hwell.2) ⟨h₁, h₂⟩
    cases hd
    exact absurd (Cursor.ahead_of_reads h) hne₂
  | orElse e' body' others' =>
    obtain ⟨-, -, d, h⟩ := armed_unique he hwell.1 (hbody hwell.2.1) ⟨h₁, h₂⟩
    obtain ⟨-, d, h⟩ := token_unique h
    cases (token_unique h).1
  | orIf e' body' others' =>
    obtain ⟨htree, hbody, d, h⟩ := armed_unique he hwell.1 (hbody hwell.2.1) ⟨h₁, h₂⟩
    obtain ⟨-, d, h⟩ := token_unique h
    obtain ⟨-, d, h⟩ := token_unique h
    obtain ⟨hothers, hend⟩ := hothers hwell.2.2 h.1 h.2 hne₁ hne₂
    exact ⟨by rw [htree, hbody, hothers], hend⟩

private theorem next_determined {first : Code .statement} {rest : Code .block}
    (hends : first.EndsBefore rest.kinds.head?) (hfirst : first.Determined)
    (hrest : rest.Determined) : (next first rest).Determined := by
  intro b' hwell hkinds
  -- both rows have tokens, so both have a first statement
  cases b' with
  | done => exact absurd hkinds next_kinds_ne_nil
  | next first' rest' =>
    obtain ⟨hfirst', hrest', hends'⟩ := hwell
    -- both are read from a sequence that holds nothing but their tokens
    have hread : ∀ {s : Code .statement} {b : Code .block},
        (next first rest).kinds = s.kinds ++ b.kinds →
        ∃ d, Reads (.start ((next first rest).kinds.map Kind.bare)) s.kinds d ∧
          Token.bare d.rest = b.kinds.map Kind.bare ∧ d.ahead = b.kinds.head? := by
      intro s b hsplit
      have hbare : Token.bare (Cursor.start ((next first rest).kinds.map Kind.bare)).rest =
          s.kinds.map Kind.bare ++ b.kinds.map Kind.bare := by
        rw [Cursor.start, Token.bare_map_bare (next first rest).kinds_isPlain, hsplit,
          List.map_append]
      obtain ⟨d, hreads, hd⟩ := Cursor.reads_of_bare s.kinds_isPlain hbare
      exact ⟨d, hreads, hd, Cursor.ahead_of_bare b.kinds_isPlain hd⟩
    obtain ⟨c₁, h₁, hbare₁, hahead₁⟩ := hread rfl
    obtain ⟨c₂, h₂, hbare₂, hahead₂⟩ := hread hkinds
    -- first statements that are read from one place are the same, and so is what remains
    obtain ⟨rfl, rfl⟩ := hfirst hfirst' h₁ h₂ (hahead₁ ▸ hends) (hahead₂ ▸ hends')
      (hahead₁ ▸ rest.head_ne_else) (hahead₂ ▸ rest'.head_ne_else)
    rw [hrest hrest' (kinds_of_map_bare (hbare₁.symm.trans hbare₂))]

private theorem assertion_determined {e : Tree .expression} (he : e.Admitted) :
    (assertion e).Determined := by
  intro s' c c₁ c₂ hwell h₁ h₂ hends₁ hends₂ _ _
  have hkeyword := keyword_unique h₁ h₂
  cases s' with
  | assertion e' =>
    obtain ⟨-, d, h⟩ := token_unique ⟨h₁, h₂⟩
    obtain ⟨htree, hend⟩ := Tree.unique_of_reads he hwell h hends₁ hends₂
    exact ⟨by rw [htree], hend⟩
  -- a declaration begins with one of two keywords, and neither is this one
  | declaration isFinal => cases isFinal <;> cases hkeyword
  | _ => cases hkeyword

private theorem counted_determined {e : Tree .expression} {body : Code .block}
    (he : e.Admitted) (hbody : body.Determined) : (counted e body).Determined := by
  intro s' c c₁ c₂ hwell h₁ h₂ _ _ _ _
  have hkeyword := keyword_unique h₁ h₂
  cases s' with
  | counted e' body' =>
    obtain ⟨-, d, h⟩ := token_unique ⟨h₁, h₂⟩
    obtain ⟨htree, hbody, hend⟩ := headed_unique he hwell.1 (hbody hwell.2) h
    exact ⟨by rw [htree, hbody], hend⟩
  | declaration isFinal => cases isFinal <;> cases hkeyword
  | _ => cases hkeyword

private theorem whileLoop_determined {e : Tree .expression} {body : Code .block}
    (he : e.Admitted) (hbody : body.Determined) : (whileLoop e body).Determined := by
  intro s' c c₁ c₂ hwell h₁ h₂ _ _ _ _
  have hkeyword := keyword_unique h₁ h₂
  cases s' with
  | whileLoop e' body' =>
    obtain ⟨-, d, h⟩ := token_unique ⟨h₁, h₂⟩
    obtain ⟨htree, hbody, hend⟩ := headed_unique he hwell.1 (hbody hwell.2) h
    exact ⟨by rw [htree, hbody], hend⟩
  | declaration isFinal => cases isFinal <;> cases hkeyword
  | _ => cases hkeyword

private theorem conditional_determined {arms : Code .arms} (harms : arms.Determined) :
    (conditional arms).Determined := by
  intro s' c c₁ c₂ hwell h₁ h₂ _ _ hne₁ hne₂
  have hkeyword := keyword_unique h₁ h₂
  cases s' with
  | conditional arms' =>
    -- the arms end where no other arm follows, which is asked for here
    obtain ⟨-, d, h⟩ := token_unique ⟨h₁, h₂⟩
    obtain ⟨harms, hend⟩ := harms hwell h.1 h.2 hne₁ hne₂
    exact ⟨by rw [harms], hend⟩
  | declaration isFinal => cases isFinal <;> cases hkeyword
  | _ => cases hkeyword

private theorem expression_determined {e : Tree .expression} (he : e.Admitted) :
    (expression e).Determined := by
  intro s' c c₁ c₂ hwell h₁ h₂ hends₁ hends₂ _ _
  have hkeyword := keyword_unique h₁ h₂
  cases s' with
  | expression e' =>
    obtain ⟨htree, hend⟩ := Tree.unique_of_reads he hwell ⟨h₁, h₂⟩ hends₁ hends₂
    exact ⟨by rw [htree], hend⟩
  | _ => cases hkeyword

private theorem determined {code : Code part} (hwell : code.WellFormed) : code.Determined := by
  -- each construct by the statement about its own form
  induction code with
  | assertion e => exact assertion_determined hwell
  | counted e body ih => exact counted_determined hwell.1 (ih hwell.2)
  | whileLoop e body ih => exact whileLoop_determined hwell.1 (ih hwell.2)
  | range first limit name? body ih => exact range_determined hwell.1 hwell.2.1 (ih hwell.2.2)
  | conditional arms ih => exact conditional_determined (ih hwell)
  | declaration isFinal name typing e => exact declaration_determined hwell
  | definition name parameters returns body ih => exact definition_determined (ih hwell)
  | expression e => exact expression_determined hwell
  | returning value? => exact returning_determined hwell
  | lone e body ih => exact lone_determined hwell.1 (ih hwell.2)
  | orElse e body others ih ih' => exact orElse_determined hwell.1 (ih hwell.2.1) (ih' hwell.2.2)
  | orIf e body others ih ih' => exact orIf_determined hwell.1 (ih hwell.2.1) (ih' hwell.2.2)
  | done =>
    intro b' _ hkinds
    cases b' with
    | done => rfl
    | next first' rest' => exact absurd hkinds.symm next_kinds_ne_nil
  | next first rest ih ih' =>
    exact next_determined hwell.2.2 (ih hwell.1) (ih' hwell.2.1)

/-- No two well-formed programs are written with the same tokens. -/
theorem kinds_injective {b b' : Code .block} (hb : b.WellFormed) (hb' : b'.WellFormed)
    (h : b.kinds = b'.kinds) : b = b' :=
  determined hb hb' h

/-- Tokens spell one program at most. -/
theorem Spells.unique {tokens : List Token} {b b' : Code .block} (h : Spells tokens b)
    (h' : Spells tokens b') : b = b' :=
  kinds_injective h.1 h'.1 (kinds_of_map_bare (h.2.symm.trans h'.2))

/-- The statements that a body spells are what is executed. -/
theorem execTokens_of_spells {tokens : List Token} {code : Code .block}
    (h : Spells tokens code) (call : Callable → List Value → Eval Value) (fuel : Nat) :
    execTokens call fuel tokens = code.exec call fuel false := by
  have hexists : ∃ code, Spells tokens code := ⟨code, h⟩
  unfold execTokens
  rw [dif_pos hexists, hexists.choose_spec.unique h]

/-- A function that a well-formed program declares is called by executing the statements between its
braces. -/
theorem execBody_of_declared {body : Code .block} (h : body.WellFormed) (fuel : Nat) :
    execBody (fuel + 1) (body.kinds.map Kind.bare) =
      body.exec (Eval.callWith (execBody fuel)) fuel false :=
  execTokens_of_spells ⟨h, Token.bare_map_bare body.kinds_isPlain⟩ _ fuel

end Code

end Tern
