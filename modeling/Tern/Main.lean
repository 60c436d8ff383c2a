import Tern.CommandLine

/-!
# The command `tern`

Reads the script and shows what it does while it runs. The script is run with growing fuel: each
run repeats the one before and goes further, so only what is new in its transcript is shown.
-/

namespace Tern.Main

/-- Why the system did not give the file. -/
def reason : IO.Error → ReadError
  | .noFileOrDirectory .. => .notFound
  | .inappropriateType _ 21 _ => .isDirectory
  | .inappropriateType _ code details | .permissionDenied _ code details =>
    .other (details ++ " (os error " ++ toString code ++ ")")
  | error => .other (toString error)

/-- The text of the script at `path`. -/
def load (path : String) : IO (Except ReadError String) := do
  try
    let bytes ← IO.FS.readBinFile path
    match String.fromUTF8? bytes with
    | some source => return .ok source
    | none => return .error .notText
  catch error =>
    return .error (reason error)

/-- The longest pause that the system makes at once, in milliseconds. -/
def longestSleep : Nat := 0xffffffff

/-- Sleeps for so many milliseconds, however many they are. -/
def pause (milliseconds : Nat) : IO Unit := do
  for _ in [0 : milliseconds / longestSleep] do
    IO.sleep longestSleep.toUInt32
  IO.sleep (milliseconds % longestSleep).toUInt32

/-- Does what happened in a program. -/
def replay (events : List Event) : IO Unit := do
  let stdout ← IO.getStdout
  for event in events do
    match event with
    | .printed text =>
      stdout.putStr text
      stdout.flush
    | .paused milliseconds => pause milliseconds

/-- Writes a report and gives the exit code. -/
def conclude (report : Report) : IO UInt32 := do
  (← IO.getStdout).putStr report.output
  (← IO.getStderr).putStr report.errors
  return report.code.toUInt32

/-- Runs a script; its first `shown` events have been replayed. -/
partial def runScript (options : Options) (path source : String) (fuel shown : Nat) :
    IO UInt32 := do
  let (result, session) := options.run fuel source
  let events := session.takeTranscript.1
  replay (events.drop shown)
  match result with
  | .ok value => conclude (.ofResult path source (.ok value))
  | .error (.fault fault) => conclude (.ofResult path source (.error fault))
  | .error .outOfFuel => runScript options path source (2 * fuel) events.length

/-- Executes what the arguments ask for. -/
def execute (arguments : List String) : IO UInt32 := do
  match Command.ofArguments arguments with
  | .run options path =>
    match ← load path with
    | .ok source => runScript options path source 65536 0
    | .error error => conclude (.unreadable path error)
  | .usage => conclude { errors := usageText }
  | .version => conclude { output := versionText }
  | .refuse error => conclude (.refused error)

end Tern.Main

def main (arguments : List String) : IO UInt32 :=
  Tern.Main.execute arguments
