import Tern.Proofs.Placement

/-!
# Looking at what happens outside

A comparison of two runs may leave out what happens outside, or look at some of it only. Which cursors
correspond to each other has nothing to do with that. So any comparison can be made to look at what
happens outside in another way, as long as that way goes by the latest event: if the same is printed,
or if there is the same pause, nothing new is to be noticed.

## Key results

- `Alignment.observing`: a comparison that looks in another way
- `Alignment.Literal.observing`: it steps over comments as before
- `Tolerance.Sessions.observing`: sessions that count as the same
- `Tolerance.Ends.observed`: what is noticed of evaluations that end in the same way
-/

namespace Tern

/-- The tolerance under which transcripts are compared in this way. -/
def Tolerance.observing (T : Tolerance) (Related : List Event → List Event → Prop) : Tolerance :=
  { T with outside := fun σ es τ fs => σ = τ ∧ Related es fs }

/-- The pause that is asked for has nothing to do with the bodies of functions. -/
private theorem delay_of_viewed {view : List Token → List Token} {s t : Session}
    (h : s.env.viewed view = t.env.viewed view) (name : String) :
    (s.global? name).bind (·.value.number?) = (t.global? name).bind (·.value.number?) := by
  have hglobal : (s.global? name).map (·.viewed view) = (t.global? name).map (·.viewed view) := by
    unfold Session.global?
    rw [← Environment.global?_viewed, ← Environment.global?_viewed, h]
  -- the variable is there in both sessions or in neither
  generalize s.global? name = found, t.global? name = found' at hglobal
  cases found with
  | none =>
    cases found' with
    | none => rfl
    | some b' => cases hglobal
  | some b =>
    cases found' with
    | none => cases hglobal
    | some b' =>
      have hvalue := congrArg (·.value.number?) (Option.some.inj hglobal)
      simpa using hvalue

/-- The comparison that looks at transcripts in this way. -/
def Alignment.observing (A : Alignment) (Related : List Event → List Event → Prop)
    (hcons : ∀ event es fs, Related es fs → Related (event :: es) (event :: fs)) : Alignment where
  toTolerance := A.toTolerance.observing Related
  Aligned := A.Aligned
  next := A.next
  here := A.here
  behind := A.behind
  start := A.start
  passed := A.passed
  quoted := A.quoted
  maxCallDepth h := h.1 ▸ rfl
  -- the same texts are printed or left out, by the same settings
  print text h := by
    unfold Session.print
    rw [h.1]
    split
    · exact h
    · exact ⟨rfl, hcons _ _ _ h.2⟩
  pace henv h := by
    unfold Session.pace
    rw [delay_of_viewed henv, h.1]
    split
    · split
      · exact ⟨rfl, hcons _ _ _ h.2⟩
      · exact h
    · exact h

/-- It steps over comments as before. -/
theorem Alignment.Literal.observing {A : Alignment} (hA : A.Literal)
    (Related : List Event → List Event → Prop)
    (hcons : ∀ event es fs, Related es fs → Related (event :: es) (event :: fs)) :
    (A.observing Related hcons).Literal where
  front := hA.front
  comments {c d} h := by
    have hscans := hA.comments h
    generalize Scan.comments c = x, Scan.comments d = y at hscans
    cases hscans with
    | ok hab hcd => exact .ok hab hcd
    | fault hF => exact .fault ⟨hF.cause, hF.unwound, hF.span⟩

/-- Sessions count as the same if they do so otherwise, and their transcripts do. -/
theorem Tolerance.Sessions.observing {T : Tolerance} {s t : Session} (h : T.Sessions s t)
    {Related : List Event → List Event → Prop} (hsettings : s.settings = t.settings)
    (htranscript : Related s.transcript t.transcript) : (T.observing Related).Sessions s t where
  env := h.env
  outside := ⟨hsettings, htranscript⟩
  callDepth := h.callDepth
  nextId := h.nextId
  routines := h.routines
  -- of the routines nothing is asked that was not known before
  respected routine hroutine vs ws hargs := by
    have hresults := h.respected routine hroutine vs ws hargs
    cases hv : routine vs <;> cases hw : routine ws <;> rw [hv, hw] at hresults
    · exact ⟨hresults.cause, hresults.unwound, hresults.span⟩
    · exact hresults.elim
    · exact hresults.elim
    · exact hresults

/-- If the first of two evaluations comes to an end, so does the second, and what happened outside is
as said. -/
theorem Tolerance.Ends.observed {T : Tolerance} {Related : List Event → List Event → Prop}
    {R : α → β → Prop} {s t : Session} {x : Eval α} {y : Eval β}
    (h : (T.observing Related).Ends R (x s) (y t)) (hsecond : ¬T.secondStarves)
    (hx : Finished (s.evaluate x)) :
    Finished (t.evaluate y) ∧
      Related (s.evaluate x).2.transcript (t.evaluate y).2.transcript := by
  unfold Session.evaluate at hx ⊢
  generalize x s = p, y t = q at h hx ⊢
  cases h with
  | ok _ hst => exact ⟨nofun, hst.outside.2⟩
  | fault _ hst => exact ⟨nofun, hst.outside.2⟩
  | first _ => exact absurd rfl hx
  | second hT => exact absurd hT hsecond

/-- Nothing is left out. -/
abbrev Alignment.attentive (A : Alignment) : Alignment :=
  A.observing Eq fun event _ _ h => congrArg (event :: ·) h

end Tern
