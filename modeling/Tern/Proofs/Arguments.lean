import Tern.CommandLine

/-!
# The language of the arguments

The arguments of a run are options, which begin with a dash, and paths. They are read from left to
right, and reading keeps track of what the arguments up to here ask for. One argument either adds to
that or is out of place, and the first that is out of place decides what is complained about. So
the order of the arguments matters for complaints; for what is asked for, only the order of the
limits among each other does.

## Key results

- `Options.count?_eq_some_iff`: which texts spell a limit
- `Options.readFrom_cons`: what one argument does
- `Options.readFrom_outcome`: what reading comes to
- `Options.arguments_read`: which arguments are accepted, what they ask for, and what is wrong with
  the others
-/

namespace Tern

/-! ### One argument -/

/-- The text spells the number: digits, behind a plus sign or not, for a number below 2⁶⁴. -/
def SpellsCount (text : String) (n : Nat) : Prop :=
  ∃ digits : List Char, (text.toList = digits ∨ text.toList = '+' :: digits) ∧ digits ≠ [] ∧
    (∀ c ∈ digits, isDigit c) ∧ decimalValue digits = n ∧ n < UInt64.size

/-- The argument begins with a dash. -/
def IsOption (argument : String) : Prop :=
  argument.toList.head? = some '-'

instance : DecidablePred IsOption := fun argument =>
  inferInstanceAs (Decidable (argument.toList.head? = some '-'))

/-- Every flag begins with a dash. -/
theorem isOption_of_flag {argument : String} (h : argument ∈ ["--no-delay", "--quiet", "-q"]) :
    IsOption argument := by
  have hflags : ∀ flag ∈ ["--no-delay", "--quiet", "-q"], IsOption flag := by decide
  exact hflags argument h

/-- The argument sets the limit on nested calls. -/
def SetsDepth (argument : String) (limit : Nat) : Prop :=
  ∃ text, argument = "--max-depth=" ++ text ∧ SpellsCount text limit

/-- The argument is one of the options that there are. -/
def IsDocumented (argument : String) : Prop :=
  argument = "--no-delay" ∨ argument = "--quiet" ∨ argument = "-q" ∨
    ∃ limit, SetsDepth argument limit

/-- The argument is out of place behind the others, and this is the complaint. -/
inductive Offends (before : List String) (argument : String) : String → Prop
  | unknownOption (hoption : IsOption argument)
      (hflag : argument ∉ ["--no-delay", "--quiet", "-q"])
      (hdepth : ∀ text, argument ≠ "--max-depth=" ++ text) :
      Offends before argument ("unknown option '" ++ argument ++ "'")
  | badDepth {text : String} (htext : argument = "--max-depth=" ++ text)
      (hcount : ∀ n, ¬ SpellsCount text n) :
      Offends before argument ("invalid --max-depth value '" ++ text ++ "'")
  | unexpected {path : String} (hargument : ¬ IsOption argument) (hmem : path ∈ before)
      (hpath : ¬ IsOption path) :
      Offends before argument ("unexpected argument '" ++ argument ++ "'")

namespace Options

/-- The number does not depend on a plus sign. -/
private theorem count?_eq {text digits : List Char} (htext : text = digits ∨ text = '+' :: digits)
    (hall : ∀ c ∈ digits, isDigit c) :
    count? text =
      if !digits.isEmpty && digits.all isDigit && decimalValue digits < 0x10000000000000000 then
        some (decimalValue digits)
      else none := by
  rcases htext with rfl | rfl
  · simp only [count?]
    split
    · exact absurd (hall '+' (by simp)) (by decide)
    · rfl
  · rfl

/-- A limit is spelled as the documentation says. -/
theorem count?_eq_some_iff {text : List Char} {n : Nat} :
    count? text = some n ↔ SpellsCount (String.ofList text) n := by
  simp only [SpellsCount, String.toList_ofList]
  constructor
  · intro h
    -- the sign in front, if there is one, does not belong to the digits
    simp only [count?, Option.ite_none_right_eq_some, Option.some.injEq, Bool.and_eq_true,
      decide_eq_true_eq, Bool.not_eq_true', List.isEmpty_eq_false_iff, List.all_eq_true] at h
    obtain ⟨⟨⟨hne, hdigits⟩, hlt⟩, rfl⟩ := h
    refine ⟨_, ?_, hne, hdigits, rfl, hlt⟩
    -- the sign is dropped, or there is none
    split
    · exact .inr rfl
    · exact .inl rfl
  · rintro ⟨digits, hdigits, hne, hall, rfl, hlt⟩
    rw [count?_eq hdigits hall, if_pos]
    simpa [hne] using ⟨hall, hlt⟩

/-- What stands behind the name of the option for the limit. -/
theorem depthText?_eq_some_iff {argument : String} {text : List Char} :
    depthText? argument = some text ↔ argument = "--max-depth=" ++ String.ofList text := by
  have hflag : "--max-depth=".toList = depthFlag := rfl
  have htoList : argument = "--max-depth=" ++ String.ofList text ↔
      -- both sides say that the flag stands in front and the text behind it
      argument.toList = depthFlag ++ text := by
    rw [← String.toList_inj, String.toList_append, hflag, String.toList_ofList]
  simp only [depthText?, Option.ite_none_right_eq_some, Option.some.injEq, List.isPrefixOf_iff_prefix,
    htoList]
  constructor
  · rintro ⟨⟨rest, hrest⟩, rfl⟩
    rw [← hrest, List.drop_left]
  · intro h
    rw [h, List.drop_left]
    exact ⟨List.prefix_append _ _, rfl⟩

end Options

/-- The argument is the option for the limit, whatever it says about it. -/
def IsDepth (argument : String) : Prop :=
  ∃ text, argument = "--max-depth=" ++ text

theorem isDepth_iff {argument : String} : IsDepth argument ↔ (Options.depthText? argument).isSome := by
  rw [Option.isSome_iff_exists]
  constructor
  · rintro ⟨text, rfl⟩
    exact ⟨text.toList, Options.depthText?_eq_some_iff.2 (by rw [String.ofList_toList])⟩
  · rintro ⟨text, h⟩
    exact ⟨_, Options.depthText?_eq_some_iff.1 h⟩

instance : DecidablePred IsDepth := fun _ => decidable_of_iff _ isDepth_iff.symm

theorem SetsDepth.isDepth {argument : String} {limit : Nat} (h : SetsDepth argument limit) :
    IsDepth argument :=
  let ⟨text, htext, _⟩ := h
  ⟨text, htext⟩

/-- An option for the limit begins with a dash. -/
theorem IsDepth.isOption {argument : String} (h : IsDepth argument) : IsOption argument := by
  obtain ⟨text, rfl⟩ := h
  simp [IsOption, String.toList_append]

/-- None of the other options is an option for the limit. -/
theorem IsDepth.notMem {argument : String} (h : IsDepth argument) :
    argument ∉ ["--no-delay", "--quiet", "-q"] := by
  obtain ⟨text, rfl⟩ := h
  simp [← String.toList_inj, String.toList_append]

/-- The text behind the name of the option for the limit is determined. -/
private theorem eq_of_flag {text text' : String}
    (h : "--max-depth=" ++ text = "--max-depth=" ++ text') : text = text' := by
  rw [← String.toList_inj, String.toList_append, String.toList_append] at h
  exact String.toList_inj.1 (List.append_cancel_left h)

/-- An option sets one limit. -/
theorem SetsDepth.unique {argument : String} {m n : Nat} (hm : SetsDepth argument m)
    (hn : SetsDepth argument n) : m = n := by
  obtain ⟨text, rfl, hm⟩ := hm
  obtain ⟨text', htext, hn⟩ := hn
  obtain rfl : text = text' := eq_of_flag htext
  rw [← String.ofList_toList (s := text), ← Options.count?_eq_some_iff] at hm hn
  exact Option.some.inj (hm.symm.trans hn)

/-! ### What arguments ask for -/

/-- The last of the limits that the arguments set, if they set any. -/
def LastDepth (arguments : List String) : Option Nat → Prop
  | none => ∀ argument ∈ arguments, ∀ limit, ¬ SetsDepth argument limit
  | some limit => ∃ before argument behind, arguments = before ++ argument :: behind ∧
      SetsDepth argument limit ∧ ∀ later ∈ behind, ∀ other, ¬ SetsDepth later other

namespace LastDepth

/-- Behind everything else, a limit is the last. -/
theorem concat_of_sets {argument : String} {limit : Nat} (h : SetsDepth argument limit)
    (before : List String) : LastDepth (before ++ [argument]) (some limit) :=
  ⟨before, argument, [], rfl, h, by simp⟩

/-- Other arguments leave the last limit as it is. -/
theorem concat {before : List String} {limit? : Option Nat} (h : LastDepth before limit?)
    {argument : String} (hargument : ∀ limit, ¬ SetsDepth argument limit) :
    LastDepth (before ++ [argument]) limit? := by
  -- what is added sets no limit: the last one that did is still the last
  cases limit? with
  | none =>
    intro a ha
    rcases List.mem_append.1 ha with ha | ha
    · exact h a ha
    · rw [List.mem_singleton.1 ha]
      exact hargument
  | some limit =>
    obtain ⟨earlier, setting, behind, rfl, hsets, hlater⟩ := h
    refine ⟨earlier, setting, behind ++ [argument], by simp, hsets, fun a ha => ?_⟩
    rcases List.mem_append.1 ha with ha | ha
    · exact hlater a ha
    · rw [List.mem_singleton.1 ha]
      exact hargument

/-- Only the options for the limit matter. -/
theorem filter {arguments : List String} {limit? : Option Nat} (h : LastDepth arguments limit?) :
    LastDepth (arguments.filter (IsDepth ·)) limit? := by
  cases limit? with
  | none => exact fun a ha => h a (List.mem_filter.1 ha).1
  | some limit =>
    obtain ⟨before, argument, behind, rfl, hsets, hlater⟩ := h
    refine ⟨before.filter (IsDepth ·), argument, behind.filter (IsDepth ·), ?_, hsets,
      fun a ha => hlater a (List.mem_filter.1 ha).1⟩
    rw [List.filter_append, List.filter_cons, if_pos (decide_eq_true hsets.isDepth)]

/-- A limit that stands where a last one stands or behind it is that one. -/
private theorem eq_of_not_earlier {argument argument' : String} {more behind behind' : List String}
    (h : argument :: behind = more ++ argument' :: behind') {m n : Nat}
    (hm : SetsDepth argument m) (hn : SetsDepth argument' n)
    (hlater : ∀ later ∈ behind, ∀ other, ¬ SetsDepth later other) : m = n := by
  cases more with
  | nil =>
    obtain ⟨rfl, -⟩ := List.cons.inj h
    exact hm.unique hn
  | cons a more =>
    obtain ⟨-, rfl⟩ := List.cons.inj h
    exact absurd hn (hlater argument' (by simp) n)

/-- There is one last limit. -/
theorem unique {arguments : List String} {m? n? : Option Nat} (hm : LastDepth arguments m?)
    (hn : LastDepth arguments n?) : m? = n? := by
  -- a last setting is later than none, and no other can be later than it
  cases m? with
  | none =>
    cases n? with
    | none => rfl
    | some n =>
      obtain ⟨before, argument, behind, rfl, hsets, -⟩ := hn
      exact absurd hsets (hm argument (by simp) n)
  | some m =>
    obtain ⟨before, argument, behind, rfl, hsets, hlater⟩ := hm
    cases n? with
    | none => exact absurd hsets (hn argument (by simp) m)
    | some n =>
      obtain ⟨before', argument', behind', heq, hsets', hlater'⟩ := hn
      -- of two settings the one further behind would be later than the other
      rcases List.append_eq_append_iff.1 heq with ⟨more, -, hmore⟩ | ⟨more, -, hmore⟩
      · rw [eq_of_not_earlier hmore hsets hsets' hlater]
      · rw [eq_of_not_earlier hmore hsets' hsets hlater']

end LastDepth

/-- No argument is out of place behind those in front of it where every option is one that there is
and there is no second path. -/
theorem not_offends {arguments before behind : List String} {argument : String}
    (hdocumented : ∀ argument ∈ arguments, IsOption argument → IsDocumented argument)
    (hpaths : (arguments.filter (¬ IsOption ·)).length ≤ 1)
    (hsplit : arguments = before ++ argument :: behind) (message : String) :
    ¬ Offends before argument message := by
  subst hsplit
  have hargument := hdocumented argument (by simp)
  rintro (⟨hoption, hflag, hdepth⟩ | ⟨htext, hcount⟩ | ⟨hpath', hmem, hpath⟩)
  -- an option that is unknown is not among those that are documented
  · rcases hargument hoption with rfl | rfl | rfl | ⟨limit, text, rfl, -⟩
    · simp at hflag
    · simp at hflag
    · simp at hflag
    · exact hdepth text rfl
  -- a setting that cannot be read is none of the flags, and the documented one can be read
  · have hdepth : IsDepth argument := ⟨_, htext⟩
    have hflag := hdepth.notMem
    rcases hargument hdepth.isOption with rfl | rfl | rfl | ⟨limit, text', htext', hcount'⟩
    · simp at hflag
    · simp at hflag
    · simp at hflag
    · rw [eq_of_flag (htext.symm.trans htext')] at hcount
      exact hcount limit hcount'
  · -- the argument and one in front of it would both be paths
    obtain ⟨earlier, later, rfl⟩ := List.append_of_mem hmem
    simp [List.filter_append, hpath, hpath'] at hpaths
    omega

/-- What the arguments ask for: these options, and this path if there is one. Every option among them
is one that there is, and there is no second path. -/
structure Requested (arguments : List String) (options : Options) (path? : Option String) :
    Prop where
  noDelay : options.noDelay = true ↔ "--no-delay" ∈ arguments
  quiet : options.quiet = true ↔ "--quiet" ∈ arguments ∨ "-q" ∈ arguments
  depth : LastDepth arguments options.maxDepth
  path : arguments.filter (¬ IsOption ·) = path?.toList
  documented : ∀ argument ∈ arguments, IsOption argument → IsDocumented argument

namespace Requested

variable {arguments : List String} {options : Options} {path? : Option String}

/-- Nothing asks for nothing. -/
theorem nil : Requested [] {} none where
  noDelay := by simp
  quiet := by simp
  depth := by simp [LastDepth]
  path := rfl
  documented := by simp

/-- Arguments ask for one thing. -/
theorem unique {options' : Options} {path?' : Option String}
    (h : Requested arguments options path?) (h' : Requested arguments options' path?') :
    options = options' ∧ path? = path?' := by
  -- flags and the limit are told by which arguments are there
  have hnoDelay : options.noDelay = options'.noDelay :=
    Bool.eq_iff_iff.2 (h.noDelay.trans h'.noDelay.symm)
  have hquiet : options.quiet = options'.quiet :=
    Bool.eq_iff_iff.2 (h.quiet.trans h'.quiet.symm)
  have hdepth : options.maxDepth = options'.maxDepth := h.depth.unique h'.depth
  refine ⟨?_, ?_⟩
  · cases options
    cases options'
    simp_all
  -- there is at most one path, and it is the only argument that is no option
  · have hpath : path?.toList = path?'.toList := h.path.symm.trans h'.path
    cases path? <;> cases path?' <;> simp_all

/-- No argument is out of place behind those in front of it. -/
theorem not_offends (h : Requested arguments options path?) {before behind : List String}
    {argument : String} (hsplit : arguments = before ++ argument :: behind) (message : String) :
    ¬ Offends before argument message := by
  refine Tern.not_offends h.documented ?_ hsplit message
  rw [h.path]
  cases path? <;> simp

/-- What one more argument asks for is added to the rest. -/
theorem concat (h : Requested arguments options path?) {argument : String} {options' : Options}
    {path?' : Option String}
    (hnoDelay : options'.noDelay = true ↔ options.noDelay = true ∨ argument = "--no-delay")
    (hquiet : options'.quiet = true ↔
      options.quiet = true ∨ argument = "--quiet" ∨ argument = "-q")
    (hdepth : LastDepth (arguments ++ [argument]) options'.maxDepth)
    (hpath : path?'.toList = path?.toList ++ [argument].filter (¬ IsOption ·))
    (hdocumented : IsOption argument → IsDocumented argument) :
    Requested (arguments ++ [argument]) options' path?' where
  -- a flag is set if it was before or if the new argument sets it
  noDelay := by
    rw [hnoDelay, h.noDelay, List.mem_append, List.mem_singleton, eq_comm (a := argument)]
  quiet := by
    rw [hquiet, h.quiet, List.mem_append, List.mem_append, List.mem_singleton, List.mem_singleton,
      eq_comm (a := argument), eq_comm (a := argument), or_or_or_comm]
  depth := hdepth
  path := by rw [List.filter_append, h.path, hpath]
  -- every argument is one of the old ones or the new one
  documented a ha hoption := by
    rcases List.mem_append.1 ha with ha | ha
    · exact h.documented a ha hoption
    · rw [List.mem_singleton.1 ha] at hoption ⊢
      exact hdocumented hoption

/-- An option that is not about the limit leaves the limit and the path as they are. -/
theorem concat_flag (h : Requested arguments options path?) {argument : String}
    {options' : Options} (hmem : argument ∈ ["--no-delay", "--quiet", "-q"])
    (hnoDelay : options'.noDelay = true ↔ options.noDelay = true ∨ argument = "--no-delay")
    (hquiet : options'.quiet = true ↔
      options.quiet = true ∨ argument = "--quiet" ∨ argument = "-q")
    (hdepth : options'.maxDepth = options.maxDepth) :
    Requested (arguments ++ [argument]) options' path? := by
  refine h.concat hnoDelay hquiet ?_ (by simp [isOption_of_flag hmem]) fun _ => ?_
  · rw [hdepth]
    exact h.depth.concat fun limit hsets => hsets.isDepth.notMem hmem
  · simp only [List.mem_cons, List.not_mem_nil, or_false] at hmem
    simp only [IsDocumented, ← or_assoc] at hmem ⊢
    exact .inl hmem

end Requested

/-! ### Reading the arguments -/

namespace Options

/-- An argument that gives the limit on nested calls sets it, or its text is not a number. -/
private theorem readFrom_depth {before : List String} {options : Options} {path? : Option String}
    (h : Requested before options path?) {argument : String} {text : List Char}
    (hdepth : depthText? argument = some text) :
    (∃ options', Requested (before ++ [argument]) options' path? ∧
      ∀ others, readFrom options path? (argument :: others) = readFrom options' path? others) ∨
    ∃ error, Offends before argument error.message ∧
      ∀ others, readFrom options path? (argument :: others) = .error error := by
  have hargument := depthText?_eq_some_iff.1 hdepth
  have hoption : IsOption argument := IsDepth.isOption ⟨_, hargument⟩
  obtain ⟨hnoDelay, hquiet⟩ : argument ≠ "--no-delay" ∧
      ¬ (argument = "--quiet" ∨ argument = "-q") := by
    simpa using IsDepth.notMem ⟨_, hargument⟩
  cases hcount : count? text with
  | some limit =>
    have hsets : SetsDepth argument limit := ⟨_, hargument, count?_eq_some_iff.1 hcount⟩
    refine .inl ⟨{ options with maxDepth := some limit }, ?_, fun others => ?_⟩
    · exact h.concat (by simp [hnoDelay]) (by simp [hquiet]) (.concat_of_sets hsets before)
        (by simp [hoption]) fun _ => .inr (.inr (.inr ⟨limit, hsets⟩))
    · simp only [readFrom, if_neg hnoDelay, if_neg hquiet, hdepth, hcount]
  | none =>
    refine .inr ⟨.badDepth (String.ofList text), .badDepth hargument fun n hn => ?_, fun others => ?_⟩
    · rw [count?_eq_some_iff.2 hn] at hcount
      cases hcount
    · simp only [readFrom, if_neg hnoDelay, if_neg hquiet, hdepth, hcount]

/-- An argument without a dash in front is the path if there is none yet, and out of place
otherwise. -/
private theorem readFrom_path {before : List String} {options : Options} {path? : Option String}
    (h : Requested before options path?) {argument : String} (hoption : ¬ IsOption argument) :
    (∃ path?', Requested (before ++ [argument]) options path?' ∧
      ∀ others, readFrom options path? (argument :: others) = readFrom options path?' others) ∨
    ∃ error, Offends before argument error.message ∧
      ∀ others, readFrom options path? (argument :: others) = .error error := by
  -- every flag has a dash in front, and so has a limit
  obtain ⟨hnoDelay, hquiet⟩ : argument ≠ "--no-delay" ∧
      ¬ (argument = "--quiet" ∨ argument = "-q") := by
    simpa using fun hmem => hoption (isOption_of_flag hmem)
  have hdepth : depthText? argument = none := by
    refine Option.eq_none_iff_forall_not_mem.2 fun text htext => ?_
    exact hoption (IsDepth.isOption ⟨_, depthText?_eq_some_iff.1 htext⟩)
  have hdash : ¬ argument.toList.head? = some '-' := hoption
  cases path? with
  | none =>
    refine .inl ⟨some argument, ?_, fun others => ?_⟩
    · exact h.concat (by simp [hnoDelay]) (by simp [hquiet])
        (h.depth.concat fun _ hsets => hoption hsets.isDepth.isOption) (by simp [hoption])
        (absurd · hoption)
    · simp only [readFrom, if_neg hnoDelay, if_neg hquiet, hdepth, if_neg hdash]
  | some path =>
    have hpath : path ∈ before.filter (¬ IsOption ·) := by
      rw [h.path]
      exact List.mem_singleton_self path
    obtain ⟨hmem, hpath⟩ := List.mem_filter.1 hpath
    refine .inr ⟨.unexpected argument, .unexpected hoption hmem (of_decide_eq_true hpath),
      fun others => ?_⟩
    simp only [readFrom, if_neg hnoDelay, if_neg hquiet, hdepth, if_neg hdash]

/-- One argument adds to what is asked for, or it is out of place and reading ends. -/
theorem readFrom_cons {before : List String} {options : Options} {path? : Option String}
    (h : Requested before options path?) (argument : String) :
    (∃ options' path?', Requested (before ++ [argument]) options' path?' ∧
      ∀ others, readFrom options path? (argument :: others) = readFrom options' path?' others) ∨
    ∃ error, Offends before argument error.message ∧
      ∀ others, readFrom options path? (argument :: others) = .error error := by
  -- flags first, as they are read
  by_cases hnoDelay : argument = "--no-delay"
  · refine .inl ⟨{ options with noDelay := true }, path?, ?_, fun others => ?_⟩
    · exact h.concat_flag (by simp [hnoDelay]) (by simp [hnoDelay]) (by simp [hnoDelay]) rfl
    · simp only [readFrom, if_pos hnoDelay]
  by_cases hquiet : argument = "--quiet" ∨ argument = "-q"
  · refine .inl ⟨{ options with quiet := true }, path?, ?_, fun others => ?_⟩
    · exact h.concat_flag (by simp [hquiet]) (by simp [hnoDelay]) (by simp [hquiet]) rfl
    · simp only [readFrom, if_neg hnoDelay, if_pos hquiet]
  cases hdepth : depthText? argument with
  | some text => exact (readFrom_depth h hdepth).imp_left fun ⟨options', hnext⟩ => ⟨options', _, hnext⟩
  | none =>
    -- no flag and no limit: with a dash in front it is unknown, and without one it is a path
    by_cases hoption : IsOption argument
    · have hflag : argument ∉ ["--no-delay", "--quiet", "-q"] := by
        simpa [hnoDelay] using hquiet
      have hnotDepth : ∀ text, argument ≠ "--max-depth=" ++ text := by
        intro text htext
        have := isDepth_iff.1 ⟨text, htext⟩
        simp [hdepth] at this
      refine .inr ⟨.unknownOption argument, .unknownOption hoption hflag hnotDepth, fun others => ?_⟩
      have hdash : argument.toList.head? = some '-' := hoption
      simp only [readFrom, if_neg hnoDelay, if_neg hquiet, hdepth, if_pos hdash]
    · exact (readFrom_path h hoption).imp_left fun ⟨path?', hnext⟩ => ⟨_, path?', hnext⟩

/-- Reading takes in all arguments, and then it depends on whether there was a path; or it ends at
the first that is out of place. -/
theorem readFrom_outcome {before : List String} {options : Options} {path? : Option String}
    (h : Requested before options path?) (arguments : List String) :
    (∃ options' path?', Requested (before ++ arguments) options' path?' ∧
      readFrom options path? arguments =
        match path?' with
        | some path => .ok (options', path)
        | none => .error .missingPath) ∨
    ∃ earlier argument later error, arguments = earlier ++ argument :: later ∧
      (∃ options' path?', Requested (before ++ earlier) options' path?') ∧
      Offends (before ++ earlier) argument error.message ∧
      readFrom options path? arguments = .error error := by
  induction arguments generalizing before options path? with
  | nil =>
    refine .inl ⟨options, path?, ?_, ?_⟩
    · rwa [List.append_nil]
    · cases path? <;> rfl
  | cons argument others ih =>
    rcases readFrom_cons h argument with ⟨options', path?', hnext, hread⟩ | ⟨error, hoffends, hread⟩
    -- what is out of place among the others is so with this argument in front, too
    · rcases ih hnext with ⟨options'', path?'', hrequested, hrest⟩ |
        ⟨earlier, offender, later, error, rfl, hearlier, hoffends, hrest⟩
      · refine .inl ⟨options'', path?'', ?_, (hread others).trans hrest⟩
        rwa [List.append_cons]
      · refine .inr ⟨argument :: earlier, offender, later, error, rfl, ?_, ?_,
          (hread _).trans hrest⟩
        · rwa [List.append_cons]
        · rwa [List.append_cons]
    · refine .inr ⟨[], argument, others, error, rfl, ⟨options, path?, ?_⟩, ?_, hread others⟩
      · rwa [List.append_nil]
      · rwa [List.append_nil]

/-- Reading gives what the arguments ask for. -/
theorem requested_of_read {arguments : List String} {options : Options} {path : String}
    (h : read arguments = .ok (options, path)) : Requested arguments options (some path) := by
  obtain ⟨options', path?', hrequested, hread⟩ | ⟨_, _, _, error, _, _, _, hread⟩ :=
    readFrom_outcome Requested.nil arguments
  · cases path?' with
    | some path' =>
      obtain ⟨rfl, rfl⟩ := Prod.mk.inj (Except.ok.inj (h.symm.trans hread))
      exact hrequested
    | none => cases h.symm.trans hread
  · cases h.symm.trans hread

/-- Arguments are accepted if one of them is a path and all the others are options that there are. -/
theorem read_accepts_iff (arguments : List String) :
    (∃ options path, read arguments = .ok (options, path)) ↔
      (∃ path, arguments.filter (¬ IsOption ·) = [path]) ∧
        ∀ argument ∈ arguments, IsOption argument → IsDocumented argument := by
  -- what is accepted was asked for; conversely no argument can be out of place
  constructor
  · rintro ⟨options, path, hread⟩
    have hrequested := requested_of_read hread
    exact ⟨⟨path, hrequested.path⟩, hrequested.documented⟩
  · rintro ⟨⟨path, hpath⟩, hdocumented⟩
    obtain ⟨options, path?, hrequested, hread⟩ |
      ⟨earlier, argument, later, error, hsplit, -, hoffends, -⟩ :=
      readFrom_outcome Requested.nil arguments
    · cases path? with
      | some path => exact ⟨options, path, hread⟩
      -- there is a path, so one was given
      | none => cases hpath.symm.trans hrequested.path
    · have hpaths := Nat.le_of_eq (congrArg List.length hpath)
      exact absurd hoffends (not_offends hdocumented hpaths hsplit _)

/-- Rearranged arguments ask for the same if the options for the limit keep their order. -/
theorem read_of_perm {arguments arguments' : List String} {options : Options} {path : String}
    (h : read arguments = .ok (options, path)) (hperm : arguments'.Perm arguments)
    (hdepth : arguments'.filter (IsDepth ·) = arguments.filter (IsDepth ·)) :
    read arguments' = .ok (options, path) := by
  -- the path and the documentation of the options do not depend on the order
  have hrequested := requested_of_read h
  have hpath : arguments'.filter (¬ IsOption ·) = [path] := by
    have hpaths := hperm.filter (¬ IsOption ·)
    rw [hrequested.path] at hpaths
    exact List.perm_singleton.1 hpaths
  obtain ⟨options', path', hread⟩ := (read_accepts_iff arguments').2
    ⟨⟨path, hpath⟩, fun a ha => hrequested.documented a (hperm.mem_iff.1 ha)⟩
  have hrequested' := requested_of_read hread
  -- the options for the limit keep their order, so the last of them is the same
  have hlimit : options'.maxDepth = options.maxDepth :=
    (hdepth ▸ hrequested'.depth.filter).unique hrequested.depth.filter
  -- so both readings give what was asked for, and that is one thing only
  have hsame : Requested arguments' options (some path) :=
    { noDelay := hrequested.noDelay.trans hperm.mem_iff.symm
      quiet := hrequested.quiet.trans (or_congr hperm.mem_iff.symm hperm.mem_iff.symm)
      depth := hlimit ▸ hrequested'.depth
      path := hpath
      documented := hrequested'.documented }
  obtain ⟨rfl, hpath'⟩ := hrequested'.unique hsame
  rw [hread, Option.some.inj hpath']

/-- The language of the arguments. Arguments are accepted if exactly one of them does not begin with
a dash and all the others are options that there are. Then the path is that one, the flags hold that
occur, and the limit is that of the last option for it; other orders of the same arguments mean the
same as long as the options for the limit keep theirs. Otherwise the complaint is about the leftmost
argument that is out of place, and about the missing path only if there is none. -/
theorem arguments_read (arguments : List String) :
    ((∃ options path, read arguments = .ok (options, path)) ↔
      (∃ path, arguments.filter (¬ IsOption ·) = [path]) ∧
        ∀ argument ∈ arguments, IsOption argument → IsDocumented argument) ∧
    (∀ options path, read arguments = .ok (options, path) →
      arguments.filter (¬ IsOption ·) = [path] ∧
      (options.noDelay = true ↔ "--no-delay" ∈ arguments) ∧
      (options.quiet = true ↔ "--quiet" ∈ arguments ∨ "-q" ∈ arguments) ∧
      LastDepth arguments options.maxDepth ∧
      ∀ arguments', arguments'.Perm arguments →
        arguments'.filter (IsDepth ·) = arguments.filter (IsDepth ·) →
        read arguments' = .ok (options, path)) ∧
    ∀ error, read arguments = .error error →
      (∃ before argument behind, arguments = before ++ argument :: behind ∧
        Offends before argument error.message ∧
        ∀ earlier other later message, before = earlier ++ other :: later →
          ¬ Offends earlier other message) ∨
      (∀ before argument behind message, arguments = before ++ argument :: behind →
        ¬ Offends before argument message) ∧ error.message = "missing file path" := by
  refine ⟨read_accepts_iff arguments, fun options path hread => ?_, fun error hread => ?_⟩
  · have hrequested := requested_of_read hread
    exact ⟨hrequested.path, hrequested.noDelay, hrequested.quiet, hrequested.depth,
      fun arguments' hperm hdepth => read_of_perm hread hperm hdepth⟩
  · obtain ⟨options, path?, hrequested, houtcome⟩ |
      ⟨before, argument, behind, error', hsplit, ⟨_, _, hbefore⟩, hoffends, houtcome⟩ :=
      readFrom_outcome Requested.nil arguments
    · cases path? with
      | some path => cases hread.symm.trans houtcome
      | none =>
        obtain rfl : error = .missingPath := Except.error.inj (hread.symm.trans houtcome)
        exact .inr ⟨fun _ _ _ message hsplit => hrequested.not_offends hsplit message, rfl⟩
    -- what was read before is in place, so this argument is the leftmost that is not
    · obtain rfl : error = error' := Except.error.inj (hread.symm.trans houtcome)
      exact .inl ⟨before, argument, behind, hsplit, hoffends,
        fun _ _ _ message hearlier => hbefore.not_offends hearlier message⟩

/-- Of two limits the later one counts, on whichever side of the path. -/
example : read ["--max-depth=9", "-q", "a.tern", "--max-depth=+7"] =
    .ok ({ quiet := true, maxDepth := some 7 }, "a.tern") := by
  rfl

end Options

end Tern
