import Tern.Proofs.Compliance
import Tern.Proofs.Continuation
import Tern.Proofs.Pacing

/-!
# Comments between statements

Comments take pauses where a statement could begin: in front of one, or at the end of a block. Inside
of a statement they take none. So a program without comments between its statements makes the same
pauses as its normal form, and any other program makes those pauses, and maybe more.

Whether comments stand there is a matter of the tokens alone, because where a statement ends does not
depend on what it does. The functions that a program calls have to be like that too, those that were
there before included.

## Key results

- `Token.Uncommented`: tokens without comments between statements
- `Phrase.unhurried_compliant`: they are evaluated the same with and without pauses at comments
- `Session.pauses_normalize`: the pauses of a program and of its normal form
-/

namespace Tern

open Cursor (Reads)

/-! ### Where statements begin -/

/-- A statement that gets done shows where the construct ends. -/
theorem Construct.exists_spans (fuel : Nat) (s : Session) {c c' : Cursor} (hat : c.atComment = false)
    (h : (match Reading.firstOf (Phrase.run fuel) fuel Construct.chain c s with
      | .ok (outcome, c') _ => if outcome = .done then some c' else none
      | .error _ _ => none) = some c') : ∃ construct : Construct, construct.Spans c c' := by
  -- evaluation has read something that is a statement, and where it ends is told by the tokens
  cases hread : Reading.firstOf (Phrase.run fuel) fuel Construct.chain c s with
  | ok result t =>
    rw [hread] at h
    obtain ⟨hdone, heq⟩ := Option.ite_none_right_eq_some.mp h
    cases heq
    have hspans := Reading.lands_dispatch fuel fuel c s _ _ _ hread hdone
    rw [hat] at hspans
    exact hspans
  | error halt t =>
    rw [hread] at h
    cases h

namespace Token

/-- Statements among these tokens may begin or end at the cursor: it was reached from the start by
stepping over one construct after the other. -/
inductive Boundary (tokens : List Token) : Cursor → Prop
  | start : Boundary tokens (.start tokens)
  | next {construct : Construct} {c c' : Cursor} :
      Boundary tokens c → construct.Spans c c' → Boundary tokens c'

/-- The tokens themselves, the blocks among them, the blocks among these, and so on. -/
inductive Nested (tokens : List Token) : List Token → Prop
  | whole : Nested tokens tokens
  | block {outer body : List Token} {kinds : List Kind} {c c' : Cursor} : Nested tokens outer →
      Reads (.start outer) (kinds ++ [.symbol .leftBrace]) c → Scan.block c = .ok body c' →
      Nested tokens body

/-- No comment stands between statements, neither among the tokens nor in a block. -/
def Uncommented (tokens : List Token) : Prop :=
  ∀ block, Nested tokens block → ∀ c, Boundary block c → c.atComment = false

/-- Blocks among the blocks are among the tokens. -/
theorem Nested.trans {tokens outer inner : List Token} (h : Nested tokens outer)
    (h' : Nested outer inner) : Nested tokens inner := by
  induction h' with
  | whole => exact h
  | block _ hreads hblock ih => exact .block ih hreads hblock

/-- The tokens of a block are among the tokens. -/
theorem Nested.infix {tokens block : List Token} (h : Nested tokens block) : block <:+: tokens := by
  induction h with
  | whole => exact List.infix_refl _
  | block _ hreads hblock ih =>
    exact ((Scan.infix_of_block hblock).trans hreads.suffix.isInfix).trans ih

/-- Without braces there are no blocks among the tokens. -/
theorem Nested.eq_of_notMem {tokens block : List Token} (h : Nested tokens block)
    (hbrace : Kind.bare (.symbol .leftBrace) ∉ bare tokens) : block = tokens := by
  induction h with
  | whole => rfl
  | block _ hreads _ ih =>
    subst ih
    exact absurd (hreads.mem_bare (by simp)) hbrace

/-- What is left of the tokens. -/
theorem Boundary.suffix {tokens : List Token} {c : Cursor} (h : Boundary tokens c) :
    c.rest <:+ tokens := by
  induction h with
  | start => exact List.suffix_refl _
  | next _ hspans ih =>
    obtain ⟨kind, kinds, hreads⟩ := hspans.reads
    exact hreads.suffix.trans ih

namespace Uncommented

/-- Tokens of which none begins a comment. -/
theorem of_isPlain {tokens : List Token} (h : ∀ token ∈ tokens, token.kind.isPlain = true) :
    Uncommented tokens := by
  intro block hblock c hc
  cases hfront : c.front with
  | none => simp [Cursor.atComment, hfront]
  | some token =>
    have hmem : token ∈ tokens :=
      (hc.suffix.isInfix.trans hblock.infix).subset (List.mem_of_head? hfront)
    simp [Cursor.atComment, hfront, h token hmem]

/-- The blocks are like that if the tokens are. -/
theorem nested {tokens block : List Token} (h : Uncommented tokens) (hblock : Nested tokens block) :
    Uncommented block :=
  fun inner hinner => h inner (hblock.trans hinner)

end Uncommented

end Token

/-! ### The contract -/

namespace Cursor

/-- Wherever a block begins ahead, there are no comments between its statements. -/
def Tranquil (c : Cursor) : Prop :=
  ∀ ⦃kinds c₁ body c₂⦄, Reads c (kinds ++ [.symbol .leftBrace]) c₁ →
    Scan.block c₁ = .ok body c₂ → Token.Uncommented body

namespace Tranquil

variable {c c' : Cursor} {kinds : List Kind} (h : c.Tranquil)

include h

theorem of_reads (hreads : Reads c kinds c') : c'.Tranquil := by
  intro more c₁ body c₂ hmore hblock
  have hall := hreads.append hmore
  rw [← List.append_assoc] at hall
  exact h hall hblock

theorem settle : c.settle.Tranquil := by
  intro kinds c₁ body c₂ hreads hblock
  -- something is read, so it makes no difference whether the comments are stepped over before
  have hsame : Reads c (kinds ++ [.symbol .leftBrace]) c₁ := by
    generalize hall : kinds ++ [.symbol .leftBrace] = all at hreads
    cases hreads with
    | nil => simp at hall
    | cons hnext hrest => exact .cons (next?_settle c ▸ hnext) hrest
  exact h hsame hblock

end Tranquil

/-- In front of all of some tokens. -/
theorem tranquil_start {tokens : List Token} (h : Token.Uncommented tokens) :
    (start tokens).Tranquil :=
  fun _ _ _ _ hreads hblock => h.nested (.block .whole hreads hblock)

/-- There are no blocks in front of an opening brace. -/
theorem tranquil_condition {what : String} {condition : List Token} {c c' : Cursor}
    (h : Scan.untilBrace what c = .ok condition c') : (start condition).Tranquil := by
  intro kinds c₁ body c₂ hreads
  obtain ⟨rfl, before, hbefore, hnone⟩ := Scan.reads_of_untilBrace h
  have hmem := hreads.mem_bare (List.mem_append_right kinds List.mem_cons_self)
  have hinner : Token.bare (start (c'.passedSince c.position).dropLast).rest = _ :=
    hbefore.passedSince_dropLast
  rw [hinner] at hmem
  obtain ⟨kind, hkind, heq⟩ := List.mem_map.mp hmem
  rw [Kind.bare, Kind.bare, Token.mk.injEq] at heq
  exact absurd (heq.1 ▸ hkind) hnone

end Cursor

/-- Wherever statements may begin. -/
theorem Token.Boundary.tranquil {tokens : List Token} {c : Cursor} (hc : Boundary tokens c)
    (h : Uncommented tokens) : c.Tranquil := by
  induction hc with
  | start => exact Cursor.tranquil_start h
  | next _ hspans ih =>
    obtain ⟨kind, kinds, hreads⟩ := hspans.reads
    exact ih.of_reads hreads

/-- A routine that hands out only functions without comments between statements if it is given such
functions. -/
def Routine.Tranquil (routine : Routine) : Prop :=
  ∀ arguments value, (∀ v ∈ arguments, v.Has Token.Uncommented) → routine arguments = .ok value →
    value.Has Token.Uncommented

/-- Nothing that is executed has comments between statements. -/
def Contract.tranquil : Contract where
  -- nothing of a comment is ahead where a statement begins, in the block itself and in nested ones
  Body := Token.Uncommented
  Block := Token.Uncommented
  Ahead opened c := c.Tranquil ∧
    (0 < opened → ∀ body c', Scan.block c = .ok body c' → Token.Uncommented body)
  Place _ := True
  Hosts := Routine.Tranquil
  Counts _ _ := True
  Raised _ := True
  change := id
  -- a whole run begins where the tokens begin
  started h _ := ⟨Cursor.tranquil_start h, nofun⟩
  settled h _ := ⟨h.1.settle, nofun⟩
  plain h hreads _ _ := ⟨h.1.of_reads hreads, nofun⟩
  opened h hreads := ⟨h.1.of_reads hreads, fun _ _ _ hblock => h.1 (.append (.nil _) hreads) hblock⟩
  -- the block that was looked at when its brace was read
  block h hblock := by
    have hbody := h.2 Nat.one_pos _ _ hblock
    obtain ⟨kinds, hreads, -⟩ := Scan.reads_of_block hblock
    exact ⟨hbody, hbody, h.1.of_reads hreads, nofun⟩
  -- a condition is read up to the brace in front of its block
  header h hscan := by
    obtain ⟨-, kinds, hreads, -⟩ := Scan.reads_of_untilBrace hscan
    exact ⟨h.1.of_reads hreads, fun _ _ _ hblock => h.1 hreads hblock⟩
  condition _ _ hscan := ⟨Cursor.tranquil_condition hscan, nofun⟩
  here _ _ := trivial
  front _ _ := trivial
  ordinary _ _ := trivial
  unmatchedBrace _ _ _ := trivial
  unclosedBlock _ _ := trivial
  unclosedComment _ _ := trivial
  hosted hroutine harguments hvalue := hroutine _ _ harguments hvalue
  refused _ _ _ := ⟨trivial, rfl⟩
  located _ _ := trivial
  change_of_nil := Fault.id_of_nil
  change_located := Fault.id_located

/-- It makes no difference who calls whom. -/
theorem Contract.tranquil_indifferent : Contract.tranquil.Indifferent where
  body h := h
  counts _ _ := trivial
  limit _ := trivial
  leaving _ _ := trivial
  change _ := rfl

/-! ### Evaluation without comments between statements -/

namespace Phrase

/-- Both readings do the same wherever statements may begin, if there are no comments between
them. -/
private def AtBoundaries (x y : Reading (Option Value)) : Prop :=
  ∀ ⦃tokens : List Token⦄, Token.Uncommented tokens → ∀ ⦃c : Cursor⦄, Token.Boundary tokens c →
    Reading.Meets .tranquil x y c fun v? _ => ∀ v ∈ v?, v.Has Token.Uncommented

/-- Statements, if those behind the first one are evaluated the same. -/
private theorem unhurried_statements {fuel : Nat}
    (h : Compliant .tranquil (run fuel) (unhurried fuel) (Eval.call (unhurried fuel)))
    (hnext : AtBoundaries (run fuel (.statements true)) (unhurried fuel (.statements true)))
    (paced : Bool) :
    AtBoundaries (run (fuel + 1) (.statements paced)) (unhurried (fuel + 1) (.statements paced)) := by
  -- the cursor is at a boundary, so no comment is there
  intro tokens htokens c hc
  have hat := htokens tokens .whole c hc
  unfold Reading.Meets
  rw [run_succ, unhurried_succ, rule, ruleBy, Reading.unhurried_of_not_atComment hat]
  refine h.statements fuel paced (.inr ⟨hc.tranquil htokens, nofun⟩) ?_ fun c' _ hc' =>
    hnext htokens hc'
  -- a statement that is done ends at the next boundary
  refine (Reading.lands_dispatch fuel fuel c).mono fun outcome c' hlands hdone => ?_
  have hspans := hlands hdone
  rw [hat] at hspans
  obtain ⟨construct, hspans⟩ := hspans
  exact .next hc hspans

/-- Inside other phrases and wherever statements may begin, both ways of evaluation are the same. -/
private theorem unhurried_meets (fuel : Nat) :
    (∀ {α : Type} (phrase : Phrase α),
      phrase.CompliesInside .tranquil (run fuel phrase) (unhurried fuel phrase)) ∧
    AtBoundaries (run fuel (.statements true)) (unhurried fuel (.statements true)) := by
  induction fuel with
  | zero => exact ⟨fun phrase => phrase.starved_complies.inside, fun _ _ _ _ => Eval.Meets.starve⟩
  | succ fuel ih =>
    obtain ⟨hinside, hnext⟩ := ih
    have h : Compliant .tranquil (run fuel) (unhurried fuel) (Eval.call (unhurried fuel)) :=
      ⟨hinside, Contract.tranquil_indifferent.call hinside⟩
    refine ⟨fun {α} phrase => ?_, unhurried_statements h hnext true⟩
    -- inside statements, as for any contract; statements themselves from boundary to boundary
    cases phrase with
    | expression => exact h.logical
    | additive => exact h.additive
    | multiplicative => exact h.multiplicative
    | unary => exact h.unary
    | arguments => exact h.arguments
    | arms => exact h.arms
    | statements paced =>
      exact fun tokens htokens =>
        Reading.Meets.onTokens (unhurried_statements h hnext paced htokens .start)

/-- Where no comments stand between statements, it makes no difference whether there are pauses at
comments. -/
theorem unhurried_compliant (fuel : Nat) :
    Compliant .tranquil (run fuel) (unhurried fuel) (Eval.call (unhurried fuel)) :=
  ⟨(unhurried_meets fuel).1, Contract.tranquil_indifferent.call (unhurried_meets fuel).1⟩

end Phrase

/-! ### Runs -/

namespace Session

/-- Runs a tokenized program without pauses at comments. -/
def runUnhurried (s : Session) (fuel : Nat) (tokens : List Token) : Except Halt Value × Session :=
  s.fresh.evaluate do
    return (← Reading.onTokens tokens (Phrase.unhurried fuel (.statements false))).getD .void

/-- A program without comments between statements takes no pauses at comments anyway. -/
private theorem runUnhurried_of_uncommented {s : Session}
    (hroutines : ∀ routine ∈ s.routines, routine.Tranquil)
    (henv : s.env.All (Value.Has Token.Uncommented)) {tokens : List Token}
    (h : Token.Uncommented tokens) (fuel : Nat) :
    s.runUnhurried fuel tokens = s.runTokens fuel tokens := by
  have hfresh : Contract.tranquil.Holds s.fresh := ⟨henv.reset, hroutines, trivial⟩
  have hends := (Phrase.unhurried_compliant fuel).run hfresh h
  show s.fresh.evaluate _ = s.fresh.evaluate _
  unfold evaluate
  rw [hends.eq fun _ => rfl]

/-- A run does what is done without pauses at comments, and may pause more often. -/
private theorem runUnhurried_sublist {s : Session} {fuel : Nat} {tokens : List Token}
    (h : Finished (s.runTokens fuel tokens)) :
    Finished (s.runUnhurried fuel tokens) ∧
      (s.runUnhurried fuel tokens).2.transcript.Sublist (s.runTokens fuel tokens).2.transcript := by
  have hself : Alignment.sparing.Sessions s.fresh s.fresh :=
    (Tolerance.exact_sessions.mpr rfl).observing rfl (.refl _)
  have hstatements := (Phrase.sparing_unhurried fuel).agree (.statements false)
    (rfl : Cursor.start tokens = _)
  exact (hstatements.onTokens _ _ hself).getD.observed id h

/-- Without pauses at comments, programs with the same tokens outside comments do not differ to the
outside. -/
private theorem runUnhurried_of_bare {s : Session}
    (hroutines : ∀ routine ∈ s.routines, routine.Unaware) {xs ys : List Token}
    (hbare : Token.bare xs = Token.bare ys) {fuel : Nat} (h : Finished (s.runUnhurried fuel xs)) :
    Finished (s.runUnhurried (2 * fuel) ys) ∧
      (s.runUnhurried fuel xs).2.transcript = (s.runUnhurried (2 * fuel) ys).2.transcript := by
  have hself : Alignment.bare.attentive.Sessions s.fresh s.fresh :=
    (Tolerance.Sessions.refl_of_unaware (s := s.fresh) hroutines).observing rfl rfl
  have hstatements := (Phrase.alike_unhurried (Nat.le_refl (2 * fuel))).agree (.statements false)
    (Alignment.bare.attentive.start hbare)
  exact (hstatements.onTokens _ _ hself).getD.observed id h

section

variable {s : Session} {source : String}
  (hroutines : ∀ routine ∈ s.routines, routine.Unaware ∧ routine.Tranquil)
  (henv : s.env.All (Value.Has Token.Uncommented)) (htidy : Token.Tidy (tokenize source))

include hroutines henv htidy

/-- The normal form does to the outside what the program does, without the pauses at comments. -/
private theorem transcript_normalize {fuel : Nat} (h : Finished (s.run fuel source)) :
    ∃ fuel', Finished (s.run fuel' (normalize (tokenize source))) ∧
      (s.run fuel' (normalize (tokenize source))).2.transcript.Sublist
        (s.run fuel source).2.transcript ∧
      (Token.Uncommented (tokenize source) →
        (s.run fuel' (normalize (tokenize source))).2.transcript =
          (s.run fuel source).2.transcript) := by
  have htranquil : ∀ routine ∈ s.routines, routine.Tranquil :=
    fun routine hroutine => (hroutines routine hroutine).2
  obtain ⟨hunhurried, hsublist⟩ := runUnhurried_sublist h
  obtain ⟨hfinished, hsame⟩ := runUnhurried_of_bare
    (fun routine hroutine => (hroutines routine hroutine).1) (Token.bare_normalize htidy).symm
    hunhurried
  -- the normal form has no comments at all
  have hnormal := runUnhurried_of_uncommented htranquil henv
    (Token.Uncommented.of_isPlain htidy.isPlain_normalize) (2 * fuel)
  rw [hnormal] at hfinished hsame
  refine ⟨2 * fuel, hfinished, hsame ▸ hsublist, fun huncommented => hsame.symm.trans ?_⟩
  rw [runUnhurried_of_uncommented htranquil henv huncommented]
  rfl

/-- A program makes the pauses that its normal form makes, in this order, and if no comments stand
between its statements it makes no others. -/
theorem pauses_normalize {fuel : Nat} (h : Finished (s.run fuel source)) :
    (∃ fuel', Finished (s.run fuel' (normalize (tokenize source)))) ∧
      ∀ fuel', Finished (s.run fuel' (normalize (tokenize source))) →
        (Event.pauses (s.run fuel' (normalize (tokenize source))).2.transcript.reverse).Sublist
          (Event.pauses (s.run fuel source).2.transcript.reverse) ∧
        (Token.Uncommented (tokenize source) →
          Event.pauses (s.run fuel' (normalize (tokenize source))).2.transcript.reverse =
            Event.pauses (s.run fuel source).2.transcript.reverse) := by
  obtain ⟨fuel₀, hfinished, hsublist, hsame⟩ := transcript_normalize hroutines henv htidy h
  refine ⟨⟨fuel₀, hfinished⟩, fun fuel' h' => ?_⟩
  have hunique : s.run fuel' (normalize (tokenize source)) =
      s.run fuel₀ (normalize (tokenize source)) := runTokens_unique h' hfinished
  rw [hunique]
  exact ⟨hsublist.reverse.filterMap _, fun huncommented => by rw [hsame huncommented]⟩

end

/-- Two statements with a comment inside of the first, which sets the pause. -/
theorem pauses_normalize_inside :
    let s := Session.create {} true
    let source := "delay = /* ms */ 5 print(1)"
    (∀ routine ∈ s.routines, routine.Unaware ∧ routine.Tranquil) ∧
      s.env.All (Value.Has Token.Uncommented) ∧ Token.Tidy (tokenize source) ∧
      Token.Uncommented (tokenize source) ∧ Finished (s.run 9 source) ∧
      Event.pauses (s.run 9 source).2.transcript.reverse = [5] ∧
      Finished (s.run 9 (normalize (tokenize source))) ∧
      Event.pauses (s.run 9 (normalize (tokenize source))).2.transcript.reverse = [5] := by
  intro s source
  -- the natives of the language do not look at bodies
  have hroutines : ∀ routine ∈ s.routines, routine.Unaware ∧ routine.Tranquil := by simp [s]
  have henv : s.env.All (Value.Has Token.Uncommented) :=
    (Contract.Holds.create (R := .tranquil) trivial true).env
  -- the two statements, of which the first has a comment inside
  let first : List Token := [⟨.ident "delay", ⟨0, 5⟩⟩, ⟨.symbol .equal, ⟨6, 7⟩⟩,
    ⟨.symbol .commentOpen, ⟨8, 10⟩⟩, ⟨.ident "ms", ⟨11, 13⟩⟩, ⟨.symbol .commentClose, ⟨14, 16⟩⟩,
    ⟨.number 5, ⟨17, 18⟩⟩]
  let second : List Token := [⟨.ident "print", ⟨19, 24⟩⟩, ⟨.symbol .leftParen, ⟨24, 25⟩⟩,
    ⟨.number 1, ⟨25, 26⟩⟩, ⟨.symbol .rightParen, ⟨26, 27⟩⟩]
  obtain ⟨htokens, htidy, h, hpauses, h'⟩ :
      tokenize source = first ++ second ∧ Token.Tidy (tokenize source) ∧
      Finished (s.run 9 source) ∧ Event.pauses (s.run 9 source).2.transcript.reverse = [5] ∧
      Finished (s.run 9 (normalize (tokenize source))) := by
    decide +kernel
  -- no statement begins with a comment
  have huncommented : Token.Uncommented (tokenize source) := by
    rw [htokens]
    intro block hblock c hc
    obtain rfl := hblock.eq_of_notMem (by decide)
    -- evaluation shows that each of the two ends where the tokens say
    obtain ⟨_, hfirst⟩ : ∃ construct : Construct,
        construct.Spans ⟨[], first ++ second⟩ ⟨first.reverse, second⟩ :=
      Construct.exists_spans 9 s (by decide +kernel) (by decide +kernel)
    obtain ⟨_, hsecond⟩ : ∃ construct : Construct,
        construct.Spans ⟨first.reverse, second⟩ ⟨(first ++ second).reverse, []⟩ :=
      Construct.exists_spans 9 s (by decide +kernel) (by decide +kernel)
    have hcases : c = ⟨[], first ++ second⟩ ∨ c = ⟨first.reverse, second⟩ ∨
        c = ⟨(first ++ second).reverse, []⟩ := by
      induction hc with
      -- from each boundary the tokens lead to one other at most
      | start => exact .inl rfl
      | next _ hspan ih =>
        rcases ih with rfl | rfl | rfl
        · exact .inr (.inl (hspan.unique hfirst))
        · exact .inr (.inr (hspan.unique hsecond))
        · obtain ⟨kind, kinds, hreads⟩ := hspan.reads
          cases hreads with
          | cons hnext _ => cases hnext
    -- and no statement is empty
    rcases hcases with rfl | rfl | rfl <;> rfl
  have hsame := ((pauses_normalize hroutines henv htidy h).2 9 h').2 huncommented
  exact ⟨hroutines, henv, htidy, huncommented, h, hpauses, h', hsame.trans hpauses⟩

/-- A comment at the end of the first statement takes a pause of its own. -/
theorem pauses_of_comment :
    let s := Session.create {} true
    let source := "delay = 5 // five\nprint(1)"
    Token.Tidy (tokenize source) ∧
      Finished (s.run 9 source) ∧ Finished (s.run 9 (normalize (tokenize source))) ∧
      Event.pauses (s.run 9 source).2.transcript.reverse = [5, 5] ∧
      Event.pauses (s.run 9 (normalize (tokenize source))).2.transcript.reverse = [5] := by
  intro s source
  decide +kernel

end Session

end Tern
