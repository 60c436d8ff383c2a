import Tern.Evaluation.Run

/-!
# The command line

What the arguments of the command `tern` ask for, and what it prints and answers. Reading files
and showing the transcript of a program is left to `main`; everything else is decided here.
-/

namespace Tern

/-- How a script is to be run. -/
structure Options where
  /-- Leave out pauses. -/
  noDelay : Bool := false
  /-- Throw printed text away. -/
  quiet : Bool := false
  /-- Another limit on nested calls. -/
  maxDepth : Option Nat := none
  deriving DecidableEq, Repr

/-- The settings of a session with these options. -/
def Options.settings (options : Options) : Settings where
  maxCallDepth := options.maxDepth.getD defaultMaxCallDepth
  silent := options.quiet
  unpaced := options.noDelay

/-- What is wrong with the arguments. -/
inductive ArgumentError where
  | unknownOption (argument : String)
  | badDepth (text : String)
  /-- A second path. -/
  | unexpected (argument : String)
  | missingPath
  deriving DecidableEq, Repr

/-- The complaint in words. -/
def ArgumentError.message : ArgumentError → String
  | unknownOption argument => "unknown option '" ++ argument ++ "'"
  | badDepth text => "invalid --max-depth value '" ++ text ++ "'"
  | unexpected argument => "unexpected argument '" ++ argument ++ "'"
  | missingPath => "missing file path"

namespace Options

/-- The number that the text spells: at least one decimal digit, after a plus sign or not, and
below 2⁶⁴. -/
def count? (text : List Char) : Option Nat :=
  let digits := match text with
    | '+' :: digits => digits
    | digits => digits
  if !digits.isEmpty && digits.all isDigit && decimalValue digits < 0x10000000000000000 then
    some (decimalValue digits)
  else none

/-- How the option for the limit on nested calls begins. -/
def depthFlag : List Char := "--max-depth=".toList

/-- The part of the argument behind `--max-depth=`, if it begins so. -/
def depthText? (argument : String) : Option (List Char) :=
  if depthFlag.isPrefixOf argument.toList then some (argument.toList.drop depthFlag.length)
  else none

/-- Reads the arguments on top of `options` and the path found so far. Options may stand before or
behind the path; the later of two limits counts. -/
def readFrom (options : Options) (path? : Option String) :
    List String → Except ArgumentError (Options × String)
  | [] =>
    match path? with
    | some path => .ok (options, path)
    | none => .error .missingPath
  | argument :: others =>
    if argument = "--no-delay" then
      readFrom { options with noDelay := true } path? others
    else if argument = "--quiet" ∨ argument = "-q" then
      readFrom { options with quiet := true } path? others
    else
      match depthText? argument with
      | some text =>
        match count? text with
        | some depth => readFrom { options with maxDepth := some depth } path? others
        | none => .error (.badDepth (String.ofList text))
      | none =>
        if argument.toList.head? = some '-' then
          .error (.unknownOption argument)
        else
          match path? with
          | none => readFrom options (some argument) others
          | some _ => .error (.unexpected argument)

/-- The options and the path in the arguments of `run`. -/
def read (arguments : List String) : Except ArgumentError (Options × String) :=
  readFrom {} none arguments

end Options

/-- What the command is asked to do. -/
inductive Command where
  | usage
  | version
  | refuse (error : ArgumentError)
  | run (options : Options) (path : String)
  deriving DecidableEq, Repr

/-- What the arguments ask for. -/
def Command.ofArguments (arguments : List String) : Command :=
  let reading := fun arguments =>
    match Options.read arguments with
    | .ok (options, path) => Command.run options path
    | .error error => .refuse error
  match arguments with
  | [] | "help" :: _ | "--help" :: _ | "-h" :: _ => .usage
  | "version" :: _ | "--version" :: _ | "-V" :: _ => .version
  | "run" :: others => reading others
  | _ => reading arguments

/-- How to use the command. -/
def usageText : String :=
  "Usage: tern run <file> [options]\n" ++
  "       tern <file> [options]\n" ++
  "\n" ++
  "Options:\n" ++
  "  --no-delay         Ignore the `delay` variable\n" ++
  "  -q, --quiet        Discard print/println output\n" ++
  "  --max-depth=<n>    Maximum nested function calls (default: 512)\n" ++
  "\n" ++
  "Set RUST_LOG (e.g. RUST_LOG=tern_eval=debug) to enable tracing.\n"

/-- The name and version of the command. -/
def versionText : String := "tern 0.1.0\n"

/-- Why a script cannot be read. -/
inductive ReadError where
  | notFound
  | isDirectory
  | notText
  /-- Another reason, in the words of the system. -/
  | other (reason : String)
  deriving DecidableEq, Repr

/-- The reason in words. -/
def ReadError.message : ReadError → String
  | notFound => "No such file or directory (os error 2)"
  | isDirectory => "Is a directory (os error 21)"
  | notText => "stream did not contain valid UTF-8"
  | other reason => reason

/-- A fault for the person who runs the script at `path`: what, where, and in which functions. -/
def Fault.render (fault : Fault) (path source : String) : String :=
  let location := match fault.span with
    | some span =>
      let position := span.position source
      "\n  --> " ++ path ++ ":" ++ toString position.line ++ ":" ++ toString position.column
    | none => ""
  let frames := fault.backtrace.map fun name => "\n  in function `" ++ name ++ "`"
  "error[" ++ fault.cause.category ++ "]: " ++ fault.cause.message ++ location ++ String.join frames

/-- What a command leaves behind: an exit code, and the texts on the two channels. -/
structure Report where
  code : Nat := 0
  output : String := ""
  errors : String := ""
  deriving DecidableEq, Repr

namespace Report

/-- The answer to arguments that make no sense. -/
def refused (error : ArgumentError) : Report :=
  { code := 1, errors := "error: " ++ error.message ++ "\n\n" ++ usageText }

/-- The answer if the script cannot be read. -/
def unreadable (path : String) (error : ReadError) : Report :=
  { code := 1, errors := "error: cannot read '" ++ path ++ "': " ++ error.message ++ "\n" }

/-- The last words on a script: the value that it returned, or the fault that ended it. -/
def ofResult (path source : String) : Except Fault Value → Report
  | .ok .void => {}
  | .ok value => { output := "=> " ++ value.display ++ "\n" }
  | .error fault => { code := 1, errors := fault.render path source ++ "\n" }

end Report

/-- Runs a script on a new session. -/
def Options.run (options : Options) (fuel : Nat) (source : String) :
    Except Halt Value × Session :=
  (Session.create options.settings true).run fuel source

/-- What a script with this source leaves behind; none if the fuel does not last. -/
def Report.ofScript? (options : Options) (fuel : Nat) (path source : String) : Option Report :=
  let (result, session) := options.run fuel source
  let printed := Event.output session.takeTranscript.1
  let closing? := match result with
    | .ok value => some (Report.ofResult path source (.ok value))
    | .error (.fault fault) => some (Report.ofResult path source (.error fault))
    | .error .outOfFuel => none
  closing?.map fun closing => { closing with output := printed ++ closing.output }

/-- Executes a command on scripts that `load` knows; none if the fuel does not last. -/
def Command.execute (load : String → Except ReadError String) (fuel : Nat) :
    Command → Option Report
  | usage => some { errors := usageText }
  | version => some { output := versionText }
  | refuse error => some (.refused error)
  | run options path =>
    match load path with
    | .error error => some (.unreadable path error)
    | .ok source => Report.ofScript? options fuel path source

end Tern
