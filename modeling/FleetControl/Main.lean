import FleetControl.CommandLine
import FleetControl.Service

/-!
# The program

The command line reads its arguments and the configuration file, and then prints a report or
answers the requests that come in on standard input, a line each.
-/

open FleetControl

/-- The contents of a file, if it can be read. -/
def contentsOf (path : String) : IO (Option String) := do
  try
    return some (← IO.FS.readFile path)
  catch _ =>
    return none

/-- The file that a command needs. -/
def neededFile (args : List String) : Option String :=
  match CommandLine.parse args with
  | some (.command _ (.check path)) => some path
  | some (.command _ (.run path _ _)) => some path
  | _ => none

/-- Answer requests until the input ends. -/
partial def serve (input output : IO.FS.Stream) (s : Service) : IO Unit := do
  let line ← input.getLine
  if line.isEmpty then return
  let (s, text) := s.answer (← IO.monoMsNow) line.trimAsciiEnd.toString
  output.putStrLn text
  output.flush
  serve input output s

def main (args : List String) : IO UInt32 := do
  let text ← match neededFile args with
    | some path => contentsOf path
    | none => pure none
  match CommandLine.act (fun _ => text) args with
  | .exit code output =>
    IO.print output
    if code = 2 then IO.eprint CommandLine.usage
    return code.toUInt32
  | .serve config _ =>
    match Service.ofConfig config (← IO.monoNanosNow).toUInt64 (← IO.monoMsNow) with
    | .ok s =>
      serve (← IO.getStdin) (← IO.getStdout) s
      return 0
    | .error _ => return 1
