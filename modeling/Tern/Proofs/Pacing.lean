import Tern.Proofs.Normalization
import Tern.Proofs.Observation

/-!
# Pauses at comments

There is a pause before every statement but the first, and a comment in front of a statement counts
as one: it takes a pause of its own, and where it is the very first, the statement behind it is none
any more. `Phrase.unhurried` evaluates without that: comments are stepped over at once, wherever they
stand.

Evaluated like that, programs with the same tokens outside comments do not differ in pauses either.
And evaluation as it is pauses wherever it would pause otherwise, and at comments besides.

## Key results

- `Phrase.unhurried`: evaluation without pauses at comments
- `Phrase.alike_unhurried`: then comments make no difference to what happens outside
- `Phrase.sparing_unhurried`: evaluation makes the same pauses and more
-/

namespace Tern

/-! ### Evaluation without pauses at comments -/

namespace Reading

/-- Statements where a comment in front takes no pause and is not the first. -/
def unhurried (self : Evaluator) (fuel : Nat) (paced : Bool) : Reading (Option Value) := do
  if (← get).atComment then
    let _ ← comment
    self (.statements paced)
  else
    statements self fuel paced

variable {self : Evaluator} {fuel : Nat} {c : Cursor}

/-- Without a comment in front, statements are what they are otherwise. -/
theorem unhurried_of_not_atComment (hat : c.atComment = false) (paced : Bool) :
    unhurried self fuel paced c = statements self fuel paced c := by
  unfold unhurried
  rw [cursor_bind, hat]
  rfl

/-- A comment in front is stepped over. -/
theorem unhurried_of_comment (hat : c.atComment = true) (h : c.unclosed? = none) (paced : Bool) :
    unhurried self fuel paced c = self (.statements paced) c.settle := by
  unfold unhurried
  rw [cursor_bind, if_pos hat, bind_of_pure (comment_of_closed hat h)]

/-- A comment that does not end is a fault. -/
theorem unhurried_of_unclosed {mark : Token} (hat : c.atComment = true)
    (h : c.unclosed? = some mark) (paced : Bool) :
    unhurried self fuel paced c =
      throw (.fault (.malformed .unclosedComment mark.span)) := by
  unfold unhurried
  rw [cursor_bind, if_pos hat]
  show (comment c >>= _) = _
  rw [comment_of_unclosed hat h]
  rfl

end Reading

namespace Phrase

/-- Evaluates a phrase with this much fuel, without pauses at comments. -/
def unhurried : (fuel : Nat) → Evaluator
  | 0 => fun _ _ => throw .outOfFuel
  | fuel + 1 => fun _ phrase =>
    phrase.ruleBy (Reading.unhurried (unhurried fuel) fuel) (unhurried fuel) fuel

theorem unhurried_succ (fuel : Nat) (phrase : Phrase α) :
    unhurried (fuel + 1) phrase =
      phrase.ruleBy (Reading.unhurried (unhurried fuel) fuel) (unhurried fuel) fuel := rfl

/-- Expressions are read by their rules. -/
theorem unhurried_sound (fuel : Nat) : Sound (unhurried fuel) := by
  induction fuel with
  | zero => constructor <;> exact fun _ => .throw
  | succ fuel ih =>
    exact ⟨ih.logicalRule, ih.additiveRule, ih.multiplicativeRule, ih.unaryRule, ih.argumentsRule⟩

end Phrase

/-- Sessions that count as the same do so behind a pause. -/
theorem Alignment.paused (A : Alignment) {s t : Session} (h : A.Sessions s t) (paced : Bool) :
    A.Sessions (Reading.paused paced s) (Reading.paused paced t) := by
  cases paced with
  | false => exact h
  | true =>
    have hends := A.pausing s t h
    cases hends with
    | ok _ hst => exact hst

/-! ### Comments make no difference then -/

namespace Phrase

/-- Statements whose tokens have the same bare form, given that all phrases do the same with less
fuel. -/
private theorem unhurried_agree {n : Nat}
    (ih : ∀ {m}, 2 * n ≤ m → Alike Alignment.bare.attentive (unhurried n) (unhurried m)) {m : Nat}
    (hle : 2 * (n + 1) ≤ m) (paced : Bool) {c d : Cursor}
    (hcd : Alignment.bare.attentive.Aligned c d) :
    Reading.Agree Alignment.bare.attentive (Option.Rel Alignment.bare.attentive.Values)
      (unhurried (n + 1) (.statements paced)) c (unhurried m (.statements paced)) d := by
  obtain ⟨m, rfl⟩ : ∃ k, m = k + 2 := ⟨m - 2, by omega⟩
  intro s t hst
  have hpaused := Alignment.bare.attentive.paused hst paced
  rw [unhurried_succ, ruleBy]
  -- by what is in front of the first cursor, and then of the second
  cases hc : c.atComment with
  | true =>
    cases hopen : c.unclosed? with
    | none =>
      -- the pause is kept for the statement behind the comment, so nothing is done on the way
      rw [Reading.unhurried_of_comment hc hopen]
      exact (ih (by omega)).agree (.statements paced) ((Cursor.bare_rest_settle hopen).trans hcd) _ _
        hst
    | some mark =>
      obtain ⟨mark', hopen'⟩ := Cursor.exists_unclosed hopen hcd
      -- both complain of a comment that does not end
      rw [Reading.unhurried_of_unclosed hc hopen, unhurried_succ, ruleBy,
        Reading.unhurried_of_unclosed (Cursor.atComment_of_unclosed hopen') hopen']
      exact .fault (.of_cause False.elim) hst
  | false =>
    rw [Reading.unhurried_of_not_atComment hc]
    cases hd : d.atComment with
    | true =>
      cases hopen : d.unclosed? with
      | none =>
        rw [unhurried_succ (m + 1), ruleBy, Reading.unhurried_of_comment hd hopen, unhurried_succ,
          ruleBy, Reading.unhurried_of_not_atComment d.atComment_settle]
        exact (ih (by omega)).plain_statements trivial (by omega)
          (hcd.trans (Cursor.bare_rest_settle hopen).symm) hc d.atComment_settle hst hpaused
      | some mark =>
        -- then the first cursor would stand in front of such a comment too
        obtain ⟨mark', hopen'⟩ := Cursor.exists_unclosed hopen hcd.symm
        rw [Cursor.atComment_of_unclosed hopen'] at hc
        cases hc
    | false =>
      -- a statement is in front of both
      rw [unhurried_succ (m + 1), ruleBy, Reading.unhurried_of_not_atComment hd]
      exact (ih (by omega)).plain_statements trivial (by omega) hcd hc hd hst hpaused

/-- Without pauses at comments, phrases whose tokens have the same bare form do the same, also
outside, if the second has twice the fuel. -/
theorem alike_unhurried {n m : Nat} (hle : 2 * n ≤ m) :
    Alike Alignment.bare.attentive (unhurried n) (unhurried m) := by
  induction n generalizing m with
  | zero =>
    exact ⟨fun phrase _ _ _ => Eval.Agree.starved trivial, unhurried_sound 0, unhurried_sound m⟩
  | succ n ih =>
    refine ⟨fun {α} phrase {c d} hcd => ?_, unhurried_sound _, unhurried_sound m⟩
    obtain ⟨m, rfl⟩ : ∃ k, m = k + 1 := ⟨m - 1, by omega⟩
    exact (ih (by omega)).ruleBy hcd (fun paced => unhurried_agree ih hle paced hcd) phrase

end Phrase

/-! ### Evaluation makes more pauses -/

/-- The comparison of evaluations of the same tokens, where the first may make more pauses. -/
abbrev Alignment.sparing : Alignment :=
  .observing .exact (fun es fs => fs.Sublist es) fun _ _ _ h => h.cons_cons _

/-- A pause on the first side makes no difference. -/
private theorem Tolerance.Sessions.pace_sparing {s t : Session}
    (h : Alignment.sparing.Sessions s t) : Alignment.sparing.Sessions s.pace t := by
  obtain ⟨henv, hdepth, hid, hroutines⟩ := Session.pace_same s
  obtain ⟨hsettings, htranscript⟩ := h.outside
  -- a pause is added to the transcript, or nothing is
  have hmore : s.transcript.Sublist s.pace.transcript := by
    unfold Session.pace
    split
    · split
      · exact List.sublist_cons_self ..
      · exact .refl _
    · exact .refl _
  exact {
    env := henv ▸ h.env
    outside := ⟨(Session.outside_pace s).1.trans hsettings, htranscript.trans hmore⟩
    callDepth := hdepth.trans h.callDepth
    nextId := hid.trans h.nextId
    routines := hroutines.trans h.routines
    respected := hroutines ▸ h.respected }

/-- Pauses make no difference if the second evaluation makes none that the first does not. -/
private theorem Tolerance.Sessions.paused_sparing {s t : Session}
    (h : Alignment.sparing.Sessions s t) {paced paced' : Bool} (hpaced : paced' = true → paced = true) :
    Alignment.sparing.Sessions (Reading.paused paced s) (Reading.paused paced' t) := by
  cases paced' with
  | true =>
    rw [hpaced rfl]
    exact Alignment.sparing.paused h true
  | false =>
    cases paced with
    | true => exact h.pace_sparing
    | false => exact h

namespace Phrase

/-- Evaluation does what it does without pauses at comments, with the same pauses and more. The first
statement may have a pause on the first side only. -/
private theorem sparing_agree (n : Nat) :
    Alike .sparing (run n) (unhurried n) ∧
      ∀ {paced paced' : Bool}, (paced' = true → paced = true) → ∀ c : Cursor,
        Reading.Agree .sparing (Option.Rel Alignment.sparing.Values) (run n (.statements paced)) c
          (unhurried n (.statements paced')) c := by
  -- on fuel; the second list takes no pause where the first takes none
  induction n with
  | zero =>
    exact ⟨⟨fun phrase _ _ _ => Eval.Agree.starved trivial, sound 0, unhurried_sound 0⟩,
      fun _ _ => Eval.Agree.starved trivial⟩
  | succ n ih =>
    obtain ⟨h, hlist⟩ := ih
    have hstatements : ∀ {paced paced' : Bool}, (paced' = true → paced = true) → ∀ c : Cursor,
        Reading.Agree .sparing (Option.Rel Alignment.sparing.Values)
          (Reading.statements (run n) n paced) c
          (Reading.unhurried (unhurried n) n paced') c := by
      intro paced paced' hpaced c s t hst
      cases hat : c.atComment with
      | false =>
        rw [Reading.unhurried_of_not_atComment hat]
        exact h.plain_statements trivial (Nat.le_refl n) rfl hat hat hst (hst.paused_sparing hpaced)
      | true =>
        -- the comment takes a pause on the first side, and the second has none to compare with it
        have hunpaced : false = true → paced = true := nofun
        have hfirst := hst.paused_sparing hunpaced
        cases hopen : c.unclosed? with
        | none =>
          rw [Reading.statements_of_comment hat hopen, Reading.unhurried_of_comment hat hopen]
          exact hlist (fun _ => rfl) c.settle _ _ hfirst
        | some mark =>
          rw [Reading.statements_of_unclosed hat hopen, Reading.unhurried_of_unclosed hat hopen]
          exact .fault (.refl _) hfirst
    refine ⟨⟨fun {α} phrase {c d} hcd => ?_, sound _, unhurried_sound _⟩, hstatements⟩
    obtain rfl : c = d := hcd
    rw [run_succ, unhurried_succ, ← ruleBy_statements]
    -- the phrases that are no lists take no pauses
    exact h.ruleBy rfl (fun paced => hstatements id c) phrase

/-- Evaluation does what it does without pauses at comments, with the same pauses and more. -/
theorem sparing_unhurried (n : Nat) : Alike .sparing (run n) (unhurried n) := (sparing_agree n).1

end Phrase

end Tern
