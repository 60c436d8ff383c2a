import Tern.Proofs.Continuation
import Tern.Proofs.Joining
import Tern.Proofs.Nesting
import Tern.Proofs.Placement

/-!
# Running snippets one after the other

A session that is given two snippets, one after the other, does what it does if it is given both at
once, with a line break between them. The first snippet has to come to its end, and the second must
not begin with a token that would carry on the last statement of the first.

The proof has three parts: the two texts are read apart (`tokenize_joined`), the statements of
the first are executed as before (`Phrase.statements_extend`), and it makes no difference that those
of the second stand further on (`Phrase.statements_placeless`).

The last part asks something of the routines of the host. Tokens in the bodies of functions have
places, and a routine that looks at these can tell that a function stands further on.

## Key results

- `Session.Completes`: a snippet comes to its end
- `Session.run_joined`: two snippets are one
- `Session.run_joined_ne`: they are not where places in bodies are looked at
-/

namespace Tern

/-- Whether tokens start anew does not depend on their places. -/
private theorem Token.StartAnew.of_placeless {xs ys : List Token} (h : StartAnew ys)
    (hxy : placeless xs = placeless ys) : StartAnew xs := by
  intro x hx
  -- the first tokens are of one kind
  have hhead : (placeless xs).head? = some x.kind.bare := by
    unfold placeless
    rw [List.head?_map, Option.mem_def.mp hx]
    rfl
  rw [hxy] at hhead
  unfold placeless at hhead
  rw [List.head?_map, Option.map_eq_some_iff] at hhead
  obtain ⟨y, hy, hkind⟩ := hhead
  rw [← (Token.mk.inj hkind).1]
  exact h y hy

/-- Tokens that stand further on are of the same kinds. -/
private theorem Token.placeless_shifted (width : Nat) (tokens : List Token) :
    placeless (tokens.map (shifted width)) = placeless tokens := by
  unfold placeless
  rw [List.map_map]
  rfl

/-- Tokens that begin with a declaration of a function start anew. -/
private theorem Token.StartAnew.of_def {tokens : List Token}
    (h : tokens.head?.map (·.kind) = some (.keyword .defKw)) : StartAnew tokens := by
  intro token htoken
  rw [Option.mem_def.mp htoken] at h
  have hkind : token.kind = .keyword .defKw := Option.some.inj h
  rw [hkind]
  simp [Kind.CarriesOn, Kind.isComment, Kind.actsOnName]

namespace Session

/-- The program runs to its end in the session, with no `return` that ends it before, and leaves the
other session. -/
def Completes (s : Session) (source : String) (t : Session) : Prop :=
  ∃ fuel, Reading.onTokens (tokenize source) (Phrase.run fuel (.statements false)) s.fresh =
    .ok none t

/-- Whether a program runs to its end like that can be computed. -/
private theorem completes_of_run {s : Session} {source : String} (fuel : Nat)
    (h : (match Reading.onTokens (tokenize source) (Phrase.run fuel (.statements false)) s.fresh with
      | .ok none _ => true
      | _ => false) = true) : s.Completes source (s.run fuel source).2 := by
  refine ⟨fuel, ?_⟩
  show _ = EStateM.Result.ok none (s.fresh.evaluate _).2
  simp only [evaluate, Bind.bind, EStateM.bind]
  generalize Reading.onTokens (tokenize source) _ s.fresh = result at h ⊢
  -- only an end without a value is an end without `return`
  cases result with
  | ok returned u =>
    cases returned with
    | none => rfl
    | some value => cases h
  | error halt u => cases h

/-- Such a program gives no value. -/
private theorem Completes.run_eq {s t : Session} {source : String} (h : s.Completes source t) :
    ∃ fuel, s.run fuel source = (.ok .void, t) := by
  obtain ⟨fuel, h⟩ := h
  refine ⟨fuel, ?_⟩
  show s.fresh.evaluate _ = _
  unfold evaluate
  rw [bind_of_ok h]
  rfl

/-- It leaves the session ready for the next program. -/
private theorem Completes.fresh_eq {s t : Session} {source : String} (h : s.Completes source t) :
    t.fresh = t := by
  obtain ⟨fuel, hrun⟩ := h.run_eq
  obtain ⟨hroot, hcalls⟩ := s.atRoot_runTokens fuel (tokenize source)
  rw [show s.runTokens fuel (tokenize source) = (.ok .void, t) from hrun] at hroot hcalls
  exact Session.fresh_eq hroot hcalls

/-- It leaves a session that counts as itself, since it leaves the routines of the host alone. -/
private theorem Completes.sessions {s t : Session} {source : String} (h : s.Completes source t)
    (hroutines : ∀ routine ∈ s.routines, routine.Placeless) : Tolerance.placeless.Sessions t t := by
  obtain ⟨fuel, h⟩ := h
  obtain ⟨⟨_, c⟩, _, hrun, hend⟩ := ok_of_bind h
  cases hend
  have hself : Tolerance.placeless.Sessions s.fresh s.fresh := .refl_of_placeless hroutines
  have hends := Phrase.statements_placeless (Nat.le_refl fuel) false false
    (rfl : Token.placeless (Cursor.start (tokenize source)).rest = _) hself
  rw [hrun] at hends
  cases hends with
  | ok _ ht => exact ht

section

variable {s t : Session} {first second : String} (hfirst : s.Completes first t)

include hfirst

/-- The second snippet is executed in the session that the first has left. -/
private theorem run_second (n : Nat) : t.run n second =
    conclude (Phrase.run n (.statements false) (.start (tokenize second)) t) := by
  show t.runTokens n _ = _
  rw [runTokens_eq_conclude, hfirst.fresh_eq]

variable (hanew : Token.StartAnew (tokenize second))

include hanew

/-- So it is behind the first one, with the fuel that is left. -/
private theorem run_behind :
    ∃ spent, ∀ n, spent ≤ n → ∃ left paced d, n ≤ left + spent ∧
      Token.placeless d.rest = Token.placeless (tokenize second) ∧
      s.run n (first ++ "\n" ++ second) = conclude (Phrase.run left (.statements paced) d t) := by
  obtain ⟨fuel, h⟩ := hfirst
  obtain ⟨⟨_, c⟩, _, hrun, hend⟩ := ok_of_bind h
  cases hend
  have hplaceless := Token.placeless_shifted (first.utf8ByteSize + 1) (tokenize second)
  -- every statement of the first snippet takes a step, and it has no more statements than tokens
  refine ⟨fuel + (tokenize first).length, fun n hn => ?_⟩
  have hmore : Phrase.run n (.statements false) (.start (tokenize first)) s.fresh =
      .ok (none, c) t := by
    rw [Phrase.run_of_le (by omega : fuel ≤ n), hrun]
    rw [hrun]
    nofun
  -- behind them are the tokens of the second snippet, which carry on nothing
  obtain ⟨left, paced, hleft, hsame⟩ :=
    Phrase.statements_extend (hanew.of_placeless hplaceless) hmore
  have hleft : n ≤ left + (tokenize first).length := hleft
  refine ⟨left, paced, ⟨c.seen, _⟩, by omega, hplaceless, ?_⟩
  show s.runTokens n _ = _
  rw [runTokens_eq_conclude, tokenize_joined, ← hsame]
  rfl

variable (hroutines : ∀ routine ∈ s.routines, routine.Placeless)

include hroutines

/-- If the second snippet ends, so do both of them joined, and in the same way. -/
private theorem exists_run_joined {n : Nat} (hn : Finished (t.run n second)) :
    ∃ m, SameEffect (t.run n second) (s.run m (first ++ "\n" ++ second)) := by
  obtain ⟨spent, hbehind⟩ := run_behind hfirst hanew
  obtain ⟨left, paced, d, hleft, hd, hrun⟩ := hbehind (n + spent) (Nat.le_add_left spent n)
  have hle : n ≤ left := by omega
  refine ⟨n + spent, ?_⟩
  rw [run_second hfirst] at hn ⊢
  rw [hrun]
  exact .of_ends
    (Phrase.statements_placeless hle false paced hd.symm (hfirst.sessions hroutines)) hn

/-- If both snippets joined end, so does the second one. -/
private theorem exists_run_second {n : Nat} (hn : Finished (s.run n (first ++ "\n" ++ second))) :
    ∃ m, Finished (t.run m second) := by
  obtain ⟨spent, hbehind⟩ := run_behind hfirst hanew
  obtain ⟨left, paced, d, -, hd, hrun⟩ := hbehind (n + spent) (Nat.le_add_left spent n)
  -- more fuel changes nothing about a run that has ended
  have hmore : Finished (s.run (n + spent) (first ++ "\n" ++ second)) := by
    have hsame : s.run (n + spent) _ = s.run n _ := runTokens_of_le (Nat.le_add_right n spent) hn
    rwa [hsame]
  rw [hrun] at hmore
  have ht := hfirst.sessions hroutines
  have hsame : SameEffect (conclude (Phrase.run left (.statements paced) d t))
      (t.run left second) := by
    rw [run_second hfirst]
    exact .of_ends (Phrase.statements_placeless (Nat.le_refl left) paced false hd ht) hmore
  exact ⟨left, hsame.finished⟩

end

/-- Two snippets that are run one after the other do what they do if they are run as one, with a
line break between them: either neither ends, or both give the same value or a fault of the same
cause with the same backtrace, and leave the same variables and the same output, apart from places
and pauses. It is taken for granted that the first snippet comes to its end, that the second begins
with no token that carries a statement on, and that the routines of the host do not look at
places. -/
theorem run_joined {s t : Session} {first second : String}
    (hroutines : ∀ routine ∈ s.routines, routine.Placeless) (hfirst : s.Completes first t)
    (hanew : Token.StartAnew (tokenize second)) :
    ((∃ n, Finished (t.run n second)) ↔ ∃ n, Finished (s.run n (first ++ "\n" ++ second))) ∧
      ∀ n m, Finished (t.run n second) → Finished (s.run m (first ++ "\n" ++ second)) →
        SameEffect (t.run n second) (s.run m (first ++ "\n" ++ second)) := by
  constructor
  · constructor
    -- what one run has an end for, the other has, too
    · rintro ⟨n, hn⟩
      obtain ⟨m, hm⟩ := exists_run_joined hfirst hanew hroutines hn
      exact ⟨m, hm.finished⟩
    · rintro ⟨n, hn⟩
      exact exists_run_second hfirst hanew hroutines hn
  -- runs with other fuel end in the same way
  · intro n m hn hm
    obtain ⟨k, hk⟩ := exists_run_joined hfirst hanew hroutines hn
    have hunique : s.run k _ = s.run m _ := runTokens_unique hk.finished hm
    rwa [hunique] at hk

/-- A snippet that ends in a conditional, which sets a pause, and a comment, and one that declares a
function, prints, and fails in the function. -/
theorem run_joined_failing :
    let count : Routine := fun arguments => .ok (.number (Int64.ofNat arguments.length))
    let s := (create {} true).addRoutine "count" none count
    let first := "val x = 2 if x \x7b delay = x \x7d // if"
    let second := "def f() \x7b print(count(f)) x++ \x7d f()"
    let t := (s.run 12 first).2
    let fault : Nat → Fault := fun start =>
      { cause := .constantViolation "x", span := some ⟨start, start + 1⟩, unwound := ["f"] }
    (∀ routine ∈ s.routines, routine.Placeless) ∧ s.Completes first t ∧
      Token.StartAnew (tokenize second) ∧
      (t.run 14 second).1 = .error (.fault (fault 26)) ∧
      (s.run 14 (first ++ "\n" ++ second)).1 = .error (.fault (fault 61)) ∧
      SameEffect (t.run 14 second) (s.run 14 (first ++ "\n" ++ second)) := by
  intro count s first second t fault
  -- the routine looks at the number of its arguments only
  have hcount : count.Placeless := .of_length fun n => .ok (.number (Int64.ofNat n))
  have hroutines : ∀ routine ∈ s.routines, routine.Placeless := by simpa [s] using hcount
  have hfirst : s.Completes first t := completes_of_run 12 (by decide +kernel)
  obtain ⟨hhead, hsecond, hjoined⟩ :
      (tokenize second).head?.map (·.kind) = some (.keyword .defKw) ∧
      (t.run 14 second).1 = .error (.fault (fault 26)) ∧
      (s.run 14 (first ++ "\n" ++ second)).1 = .error (.fault (fault 61)) := by
    decide +kernel
  have hanew : Token.StartAnew (tokenize second) := .of_def hhead
  have hsame := (run_joined hroutines hfirst hanew).2 14 14 (by simp [Finished, hsecond])
    (by simp [Finished, hjoined])
  exact ⟨hroutines, hfirst, hanew, hsecond, hjoined, hsame⟩

/-- A routine of the host that tells where the body of a function begins. The second snippet declares
a function and leaves the place of its body in a variable. Behind the first snippet the body begins
further on, and another place is left. -/
theorem run_joined_ne :
    let place : Routine := fun arguments =>
      match arguments with
      | [.function { body := .tokens (token :: _), .. }] =>
        .ok (.number (Int64.ofNat token.span.start))
      | _ => .ok .void
    let s := (create {} true).addRoutine "place" none place
    let first := "val x = 1"
    let second := "def f() \x7b x \x7d val n = place(f)"
    let t := (s.run 12 first).2
    let left := fun run : Except Halt Value × Session =>
      (run.2.global? "n").bind (·.value.number?)
    s.Completes first t ∧ Token.StartAnew (tokenize second) ∧
      Finished (t.run 12 second) ∧ Finished (s.run 12 (first ++ "\n" ++ second)) ∧
      left (t.run 12 second) = some 10 ∧
      left (s.run 12 (first ++ "\n" ++ second)) = some 20 ∧
      ¬ SameEffect (t.run 12 second) (s.run 12 (first ++ "\n" ++ second)) := by
  intro place s first second t left
  have hfirst : s.Completes first t := completes_of_run 12 (by decide +kernel)
  obtain ⟨hhead, h, h', hten, htwenty⟩ :
      (tokenize second).head?.map (·.kind) = some (.keyword .defKw) ∧
      Finished (t.run 12 second) ∧ Finished (s.run 12 (first ++ "\n" ++ second)) ∧
      left (t.run 12 second) = some 10 ∧
      left (s.run 12 (first ++ "\n" ++ second)) = some 20 := by
    decide +kernel
  -- the same effect would mean the same number
  refine ⟨hfirst, .of_def hhead, h, h', hten, htwenty, fun hsame => ?_⟩
  have hequal : left (t.run 12 second) = left (s.run 12 (first ++ "\n" ++ second)) :=
    hsame.number? "n"
  rw [hten, htwenty] at hequal
  cases hequal

end Session

end Tern
