import Tern.Proofs.Indexing

/-!
# Going through all tokens

Step by step a cursor comes to the tokens outside comments, one after the other, until none is left.
The normal form of a program is made of the same tokens, but it finds them on its own: it goes
through the tokens once and keeps in mind whether a block comment is open. The one difference is
the mark that closes a comment where none is open. The cursor stops at it, and the normal form
leaves it out.

## Key results

- `Cursor.kept_rest`: what one step of the cursor means for the tokens that are kept
- `Cursor.position_lt_of_mem_steps`: later tokens stand further on
- `Cursor.steps_kept`: the tokens a cursor comes to are those of the normal form
-/

namespace Tern

namespace Cursor

/-! ### One step -/

/-- The tokens that are kept stand behind the comments ahead. -/
private theorem keptFrom_eq (inside : Bool) (seen rest : List Token) :
    Token.keptFrom inside rest = Token.kept (settleFrom inside seen rest).rest := by
  induction rest generalizing inside seen with
  | nil => cases inside <;> rfl
  | cons token rest ih =>
    -- while comments go on nothing is kept, and where they end the rest is
    cases inside with
    | true => exact ih _ _
    | false =>
      simp only [settleFrom]
      split
      · rename_i hkind
        rw [← ih]
        simp [Token.keptFrom, hkind, Kind.isComment]
      · rename_i hkind
        rw [← ih]
        simp [Token.keptFrom, hkind]
      · rfl

/-- A token that begins no comment is kept, unless it is a closing mark. -/
private theorem kept_cons_of_isPlain {token : Token} (h : token.kind.isPlain = true)
    (rest : List Token) :
    Token.kept (token :: rest) =
      [token].filter (·.kind ≠ .symbol .commentClose) ++ Token.kept rest := by
  obtain ⟨kind, span⟩ := token
  unfold Token.kept
  by_cases hclose : kind = .symbol .commentClose
  · subst hclose
    rfl
  -- the token begins no comment, and it ends none
  · have hopen : kind ≠ .symbol .commentOpen := by
      rintro rfl
      cases h
    have hcomment : kind.isComment = false := by
      unfold Kind.isComment
      split <;> simp_all [Kind.isPlain]
    simp [Token.keptFrom, hopen, hclose, hcomment]

/-- The next token is kept unless it is a closing mark, and without a next token none is. -/
theorem kept_rest (c : Cursor) :
    Token.kept c.rest =
      match c.next? with
      | some (token, c') => [token].filter (·.kind ≠ .symbol .commentClose) ++ Token.kept c'.rest
      | none => [] := by
  have hkept : Token.kept c.rest = Token.kept c.settle.rest := keptFrom_eq false c.seen c.rest
  rw [hkept]
  split
  · rename_i token c' hnext
    rw [← kept_cons_of_isPlain (next?_split hnext).1]
    obtain ⟨seen, rest, hsettle, rfl⟩ := next?_eq_some_iff.mp hnext
    rw [hsettle]
  · rename_i hnext
    rw [next?_eq_none_iff.mp hnext]
    rfl

/-! ### All steps -/

/-- The tokens that the cursor comes to, each with the cursor behind it. -/
def steps (c : Cursor) : List (Token × Cursor) :=
  match _h : c.next? with
  | some (token, c') => (token, c') :: c'.steps
  | none => []
termination_by c.rest.length
decreasing_by exact length_rest_of_next? _h

theorem steps_of_next? {c c' : Cursor} {token : Token} (h : c.next? = some (token, c')) :
    c.steps = (token, c') :: c'.steps := by
  rw [steps]
  split
  · rename_i hnext
    cases h.symm.trans hnext
    rfl
  · rename_i hnext
    cases h.symm.trans hnext

theorem steps_of_none {c : Cursor} (h : c.next? = none) : c.steps = [] := by
  rw [steps]
  split
  · rename_i hnext
    cases h.symm.trans hnext
  · rfl

/-- What holds where no token is left, and is carried back over a step, holds everywhere. -/
theorem steps_induction {motive : Cursor → Prop} (none : ∀ c, c.next? = none → motive c)
    (next : ∀ c token c', c.next? = some (token, c') → motive c' → motive c) (c : Cursor) :
    motive c := by
  induction hlength : c.rest.length using Nat.strongRecOn generalizing c with
  | ind n ih =>
    cases hnext : c.next? with
    | none => exact none c hnext
    | some step =>
      obtain ⟨token, c'⟩ := step
      have hlt := length_rest_of_next? hnext
      exact next c token c' hnext (ih _ (hlength ▸ hlt) c' rfl)

/-- The tokens that the cursor comes to are those that are kept, and marks that close no comment. -/
theorem kept_eq (c : Cursor) :
    ((c.steps.filter fun step => step.1.kind ≠ .symbol .commentClose).map (·.1)) =
      Token.kept c.rest := by
  induction c using steps_induction with
  | none c hnext => rw [steps_of_none hnext, kept_rest, hnext]; rfl
  | next c token c' hnext ih =>
    rw [steps_of_next? hnext, kept_rest, hnext]
    simp only
    rw [← ih, List.filter_cons, List.filter_cons]
    split <;> rfl

/-- Every step goes forward. -/
theorem position_lt_of_mem_steps {c : Cursor} {step : Token × Cursor} (h : step ∈ c.steps) :
    c.position < step.2.position := by
  -- along the steps, each of which is further on than the one before
  induction c using steps_induction with
  | none c hnext =>
    rw [steps_of_none hnext] at h
    cases h
  | next c token c' hnext ih =>
    have hlt := position_lt_of_next? hnext
    rw [steps_of_next? hnext] at h
    rcases List.mem_cons.mp h with rfl | h
    · exact hlt
    · exact Nat.lt_trans hlt (ih h)

/-- Later tokens stand further on. -/
theorem pairwise_steps (c : Cursor) : (c.steps.map (·.2.position)).Pairwise (· < ·) := by
  induction c using steps_induction with
  | none c hnext => simp [steps_of_none hnext]
  | next c token c' hnext ih =>
    rw [steps_of_next? hnext, List.map_cons, List.pairwise_cons]
    refine ⟨fun position hposition => ?_, ih⟩
    obtain ⟨step, hstep, rfl⟩ := List.mem_map.mp hposition
    exact position_lt_of_mem_steps hstep

/-- A token that the cursor comes to is the one in front of the place behind it. -/
theorem getElem?_of_mem_steps {c : Cursor} {step : Token × Cursor} (h : step ∈ c.steps) :
    c.tokens[step.2.position - 1]? = some step.1 := by
  induction c using steps_induction with
  | none c hnext =>
    rw [steps_of_none hnext] at h
    cases h
  | next c token c' hnext ih =>
    rw [← tokens_of_next? hnext]
    rw [steps_of_next? hnext] at h
    rcases List.mem_cons.mp h with rfl | h
    -- the token of a step is the last one that was passed
    · obtain ⟨-, skipped, -, hseen, -⟩ := next?_split hnext
      have hreverse : c'.tokens = (skipped.reverse ++ c.seen).reverse ++ token :: c'.rest := by
        rw [tokens, hseen, List.reverse_cons, List.append_assoc]
        rfl
      have hposition : c'.position - 1 = (skipped.reverse ++ c.seen).reverse.length := by
        rw [position, hseen, List.length_reverse, List.length_cons, Nat.add_sub_cancel]
      rw [hreverse, hposition, List.getElem?_append_right (Nat.le_refl _), Nat.sub_self]
      rfl
    · exact ih h

end Cursor

/-! ### Steps by position -/

/-- From a position on, steps by position come to these tokens and to the positions behind them, and
then none is left. -/
inductive Indexed.Walks (tokens : List Token) : Nat → List (Token × Nat) → Prop
  | done {position : Nat} (h : next? tokens position = some (none, position)) :
      Walks tokens position []
  | step {position behind : Nat} {token : Token} {steps : List (Token × Nat)}
      (h : next? tokens position = some (some token, behind)) (hrest : Walks tokens behind steps) :
      Walks tokens position ((token, behind) :: steps)

/-- Steps by position are the steps of a cursor. -/
theorem Indexed.walks_steps (c : Cursor) :
    Walks c.tokens c.position (c.steps.map fun step => (step.1, step.2.position)) := by
  induction c using Cursor.steps_induction with
  | none c hnext =>
    rw [Cursor.steps_of_none hnext]
    exact .done (by rw [next?_eq, hnext])
  | next c token c' hnext ih =>
    rw [Cursor.steps_of_next? hnext]
    rw [Cursor.tokens_of_next? hnext] at ih
    exact .step (by rw [next?_eq, hnext]) ih

/-- The cursor and the normal form agree on what a comment is. The tokens that a cursor comes to
from the front, less the marks that close no comment, are the ones that the normal form is made of,
whichever way comment marks are arranged. They stand at increasing positions, and a search that
jumps from each opening mark behind the next closing one comes to the same tokens at the same
positions. -/
theorem Cursor.steps_kept (tokens : List Token) :
    let steps := (start tokens).steps
    let outside := (steps.filter fun step => step.1.kind ≠ .symbol .commentClose).map (·.1)
    outside = Token.kept tokens ∧ normalize tokens = spaced (outside.map (·.kind.text)) ∧
      (steps.map (·.2.position)).Pairwise (· < ·) ∧
      (∀ step ∈ steps, tokens[step.2.position - 1]? = some step.1) ∧
      Indexed.Walks tokens 0 (steps.map fun step => (step.1, step.2.position)) := by
  have houtside := kept_eq (start tokens)
  exact ⟨houtside, by rw [houtside]; rfl, pairwise_steps _,
    fun step hstep => getElem?_of_mem_steps hstep, Indexed.walks_steps (start tokens)⟩

end Tern
