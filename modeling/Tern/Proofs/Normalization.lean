import Tern.Proofs.Comments
import Tern.Proofs.RoundTrip

/-!
# Normal form keeps the meaning of a program

A program in normal form has the tokens of the program, without its comments. So it does what the
program does, apart from pauses, from the places of faults, and from the comments in the bodies of
functions. The tokens are the same as long as comments are well bracketed and nothing follows a
string that is not closed.

Comments are kept in the bodies of functions, and routines of the host are handed whole functions.
So it has to be asked of them that they do not look at comments and places in bodies: a routine that
does tells a program from its normal form.

## Key results

- `Token.bare_normalize`: the normal form has the tokens of the program
- `Session.run_normalize`: a program and its normal form do the same
- `Session.run_normalize_ne`: they do not where comments or places in bodies are looked at
-/

namespace Tern

namespace Token

/-- Tokens whose comments are well bracketed, and among which nothing but comments follows a string
that is not closed. -/
structure Tidy (tokens : List Token) : Prop where
  /-- Behind every mark that opens a block comment there is one that closes it. -/
  closed : ∀ before mark after, tokens = before ++ mark :: after →
    mark.kind = .symbol .commentOpen → ∃ token ∈ after, token.kind = .symbol .commentClose
  /-- No mark that closes a block comment stands outside of one. -/
  opened : Kind.bare (.symbol .commentClose) ∉ bare tokens
  /-- A string that is not closed is the last token outside comments. -/
  terminated : ∀ token ∈ (kept tokens).dropLast, token.kind.isUnterminated = false

-- whether every comment ends is read off the bare tokens, where no end of one has to be looked for
instance (tokens : List Token) : Decidable (Tidy tokens) :=
  decidable_of_iff
    (Kind.bare (.symbol .commentOpen) ∉ bare tokens ∧
      Kind.bare (.symbol .commentClose) ∉ bare tokens ∧
      ∀ token ∈ (kept tokens).dropLast, token.kind.isUnterminated = false)
    ⟨fun ⟨hclosed, hopened, hterminated⟩ =>
      ⟨open_notMem_bare_iff.mp hclosed, hopened, hterminated⟩,
      fun h => ⟨open_notMem_bare_iff.mpr h.closed, h.opened, h.terminated⟩⟩

/-- Bare tokens depend on kinds only. -/
private theorem map_bare_of_kinds {xs ys : List Token} (h : xs.map (·.kind) = ys.map (·.kind)) :
    xs.map (·.kind.bare) = ys.map (·.kind.bare) := by
  have hmap : ∀ tokens : List Token,
      tokens.map (·.kind.bare) = (tokens.map (·.kind)).map Kind.bare := by
    intro tokens
    rw [List.map_map]
    rfl
  rw [hmap, hmap, h]

/-- The tokens outside well bracketed comments. -/
private theorem Tidy.bare_eq {tokens : List Token} (h : Tidy tokens) :
    bare tokens = (kept tokens).map (·.kind.bare) := by
  -- no mark of a comment is left, neither an opening one nor a closing one
  have hnone : ∀ kind ∈ (bare tokens).map (·.kind), (!kind.isComment) = true := by
    intro kind hkind
    obtain ⟨token, htoken, rfl⟩ := List.mem_map.mp hkind
    have hbare : token.kind.bare ∈ bare tokens := by
      rw [bare, ← map_bareFrom false tokens]
      exact List.mem_map_of_mem htoken
    rw [Bool.not_eq_true']
    unfold Kind.isComment
    split
    · rename_i hk
      rcases isPlain_of_mem_bareFrom htoken with hplain | hopen
      · simp [hk, Kind.isPlain] at hplain
      · simp [hk] at hopen
    · rename_i hk
      rw [hk] at hbare
      exact absurd hbare (open_notMem_bare_iff.mpr h.closed)
    · rename_i hk
      rw [hk] at hbare
      exact absurd hbare h.opened
    · rfl
  have hkinds : (bare tokens).map (·.kind) = (kept tokens).map (·.kind) := by
    rw [kinds_kept, List.filter_eq_self.mpr hnone]
  calc bare tokens = (bare tokens).map (·.kind.bare) := (map_bareFrom false tokens).symm
    _ = (kept tokens).map (·.kind.bare) := map_bare_of_kinds hkinds

/-- Tokens of which none begins a comment. -/
private theorem bare_of_isPlain {tokens : List Token}
    (h : ∀ token ∈ tokens, token.kind.isPlain = true) :
    bare tokens = tokens.map (·.kind.bare) := by
  induction tokens with
  | nil => rfl
  | cons token tokens ih =>
    rw [bare_cons_of_isPlain (h token (by simp)), ih fun t ht => h t (by simp [ht]), List.map_cons]

/-- The normal form has no comments. -/
theorem Tidy.isPlain_normalize {source : String} (h : Tidy (tokenize source)) :
    ∀ token ∈ tokenize (normalize (tokenize source)), token.kind.isPlain = true := by
  intro token htoken
  have hkind : token.kind ∈ (kept (tokenize source)).map (·.kind) :=
    kinds_normalize h.terminated ▸ List.mem_map_of_mem htoken
  obtain ⟨token', htoken', heq⟩ := List.mem_map.mp hkind
  rw [← heq]
  exact Kind.isPlain_of_isComment (mem_of_mem_keptFrom htoken').2

/-- The normal form has the tokens of the program. -/
theorem bare_normalize {source : String} (h : Tidy (tokenize source)) :
    bare (tokenize (normalize (tokenize source))) = bare (tokenize source) :=
  calc bare (tokenize (normalize (tokenize source)))
      = (tokenize (normalize (tokenize source))).map (·.kind.bare) :=
        bare_of_isPlain h.isPlain_normalize
    _ = (kept (tokenize source)).map (·.kind.bare) := map_bare_of_kinds (kinds_normalize h.terminated)
    _ = bare (tokenize source) := h.bare_eq.symm

end Token

/-- A program and its normal form do the same: one comes to an end if the other does, and then they
print the same, give the same value or fail for the same cause with the same backtrace, and leave
the same variables. -/
theorem Session.run_normalize (s : Session) (hs : ∀ routine ∈ s.routines, routine.Unaware)
    (source : String) (htidy : Token.Tidy (tokenize source)) :
    ((∃ n, Finished (s.run n source)) ↔ ∃ n, Finished (s.run n (normalize (tokenize source)))) ∧
      ∀ n m, Finished (s.run n source) → Finished (s.run m (normalize (tokenize source))) →
        SameResult (s.run n source) (s.run m (normalize (tokenize source))) :=
  runTokens_of_bare hs (Token.bare_normalize htidy).symm

/-- A call of a routine of the host, with comments among the arguments and behind. -/
theorem Session.run_normalize_count :
    let count : Routine := fun arguments => .ok (.number (Int64.ofNat arguments.length))
    let s := ({} : Session).addRoutine "count" none count
    let source := "val n = count(1 /* one */, 2) // two"
    (∀ routine ∈ s.routines, routine.Unaware) ∧ Token.Tidy (tokenize source) ∧
      Finished (s.run 12 source) ∧ Finished (s.run 12 (normalize (tokenize source))) ∧
      SameResult (s.run 12 source) (s.run 12 (normalize (tokenize source))) := by
  intro count s source
  have hcount : count.Unaware := .of_length fun n => .ok (.number (Int64.ofNat n))
  have hs : ∀ routine ∈ s.routines, routine.Unaware := by simpa [s] using hcount
  obtain ⟨htidy, h, h'⟩ : Token.Tidy (tokenize source) ∧ Finished (s.run 12 source) ∧
      Finished (s.run 12 (normalize (tokenize source))) := by
    decide +kernel
  exact ⟨hs, htidy, h, h', (run_normalize s hs source htidy).2 12 12 h h'⟩

/-- Two routines of the host that look at the body of a function: one counts its tokens, and one
tells where it begins. Each program declares a function and leaves in a variable what a routine says
of it. The normal forms have the same tokens outside comments, and leave other numbers: in the first
a comment is gone from the body, and in the second the body stands further on. -/
theorem Session.run_normalize_ne :
    let size : Routine := fun arguments =>
      match arguments with
      | [.function { body := .tokens body, .. }] => .ok (.number (Int64.ofNat body.length))
      | _ => .ok .void
    let place : Routine := fun arguments =>
      match arguments with
      | [.function { body := .tokens (token :: _), .. }] =>
        .ok (.number (Int64.ofNat token.span.start))
      | _ => .ok .void
    let s := ((create {} true).addRoutine "size" none size).addRoutine "place" none place
    let commented := "def f() \x7b /* c */ \x7d val n = size(f)"
    let tight := "def f() \x7bx\x7d val n = place(f)"
    let left := fun source => ((s.run 12 source).2.global? "n").bind (·.value.number?)
    (Token.Tidy (tokenize commented) ∧ Finished (s.run 12 commented) ∧
      Finished (s.run 12 (normalize (tokenize commented))) ∧
      left commented = some 3 ∧ left (normalize (tokenize commented)) = some 0 ∧
      ¬ SameResult (s.run 12 commented) (s.run 12 (normalize (tokenize commented)))) ∧
    Token.Tidy (tokenize tight) ∧ Finished (s.run 12 tight) ∧
      Finished (s.run 12 (normalize (tokenize tight))) ∧
      left tight = some 9 ∧ left (normalize (tokenize tight)) = some 12 ∧
      ¬ SameResult (s.run 12 tight) (s.run 12 (normalize (tokenize tight))) := by
  intro size place s commented tight left
  -- the same result would mean the same number
  have hleft : ∀ source other, SameResult (s.run 12 source) (s.run 12 other) →
      left source = left other := fun _ _ hsame => hsame.number? "n"
  obtain ⟨htidy, h, h', hthree, hzero⟩ : Token.Tidy (tokenize commented) ∧
      Finished (s.run 12 commented) ∧ Finished (s.run 12 (normalize (tokenize commented))) ∧
      left commented = some 3 ∧ left (normalize (tokenize commented)) = some 0 := by
    decide +kernel
  obtain ⟨htidyTight, k, k', hnine, htwelve⟩ : Token.Tidy (tokenize tight) ∧
      Finished (s.run 12 tight) ∧ Finished (s.run 12 (normalize (tokenize tight))) ∧
      left tight = some 9 ∧ left (normalize (tokenize tight)) = some 12 := by
    decide +kernel
  refine ⟨⟨htidy, h, h', hthree, hzero, fun hsame => ?_⟩,
    htidyTight, k, k', hnine, htwelve, fun hsame => ?_⟩
  · have hequal := hleft _ _ hsame
    rw [hthree, hzero] at hequal
    cases hequal
  · have hequal := hleft _ _ hsame
    rw [hnine, htwelve] at hequal
    cases hequal

end Tern
