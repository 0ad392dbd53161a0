import WeakHead.CommandLine.Session

/-!
# The command line

Reads the program from its file and runs it on the standard streams. Input is
requested only when the machine waits for it, and output is passed on at
every step.
-/

namespace WeakHead

/-- The number of a system error, which may come negated. -/
def errorNumber (code : UInt32) : UInt32 := min code (0 - code)

def ReadError.ofSystem : IO.Error → ReadError
  | .noFileOrDirectory _ _ _ => .notFound
  | .inappropriateType _ code _ => if errorNumber code = 20 then .notDirectory else .isDirectory
  | .invalidArgument _ code _ =>
    if errorNumber code = 36 then .nameTooLong else .system "Invalid argument" 22
  | .permissionDenied _ _ _ => .system "Permission denied" 13
  | _ => .system "Input/output error" 5

def readSource (path : String) : IO (Except ReadError String) := do
  try
    return decodeText (← IO.FS.readBinFile path)
  catch e =>
    return .error (.ofSystem e)

def requestByte (stdin : IO.FS.Stream) : IO Delivery := do
  try
    let bytes ← stdin.read 1
    return (bytes.data[0]?.map .byte).getD .endOfInput
  catch e =>
    return .failure e.toString

def emit (stdout : IO.FS.Stream) (m : Machine) : IO Unit := do
  let sink := m.output.sink
  unless sink.bytes.isEmpty do
    stdout.write ⟨sink.bytes⟩
  unless sink.flushes.isEmpty do
    stdout.flush

def withoutOutput (m : Machine) : Machine :=
  { m with output := { m.output with sink := .limited none none } }

/-- Runs a machine to its end. What it writes before it waits for input does not depend on the
input, so a step that waits is taken first without any, to show that. -/
partial def drive (stdin stdout : IO.FS.Stream) (m : Machine) : IO Verdict := do
  if m.awaitsInput then
    match m.step with
    | .running preview => emit stdout preview
    | _ => pure ()
    let input := { m.input with deliveries := [← requestByte stdin] }
    match { m with input := input }.step with
    | .running m => drive stdin stdout (withoutOutput m)
    | .ended ending _ => return .ofEnding ending
    | .faulted _ => return .aborted
  else
    match m.step with
    | .running m =>
      emit stdout m
      drive stdin stdout (withoutOutput m)
    | .ended ending m =>
      emit stdout m
      return .ofEnding ending
    | .faulted _ => return .aborted

def conclude (verdict : Verdict) : IO UInt32 := do
  if let some complaint := verdict.complaint then
    (← IO.getStderr).putStr complaint
  return verdict.exitCode.toUInt32

end WeakHead

open WeakHead in
def main (args : List String) : IO UInt32 := do
  let some options := Options.ofArgs? args
    | (← IO.getStderr).putStrLn "Usage: [--trace] [--max-steps N] <FILE>"
      conclude .misused
  match options.launch (← readSource options.file) (.ofDeliveries []) with
  | .error verdict => conclude verdict
  | .ok m =>
    try
      conclude (← drive (← IO.getStdin) (← IO.getStdout) m)
    catch e =>
      conclude (.failure (StreamFailure.input e.toString).message)
