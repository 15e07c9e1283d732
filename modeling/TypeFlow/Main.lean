import TypeFlow.CommandLine.Command

/-!
# The command line

Collects what a command needs from the outside world, runs it and passes on its outcome.
-/

namespace TypeFlow

namespace Command

/-- The reason of a failure to read. -/
def describe : IO.Error → ReadError
  | .noFileOrDirectory _ _ _ => .notFound
  | .permissionDenied _ _ _ => .denied
  | .inappropriateType _ code _ => if code = 21 then .isDirectory else .notDirectory
  | .invalidArgument _ 36 _ => .nameTooLong
  | e => ⟨e.toString⟩

/-- The text that a reading action answers in bytes, or why there is none. -/
def attempt (read : IO ByteArray) : IO (Except ReadError String) := do
  try
    match String.fromUTF8? (← read) with
    | some text => return .ok text
    | none => return .error .notText
  catch e => return .error (describe e)

/-- Reads a stream to its end. -/
partial def readToEnd (stream : IO.FS.Stream) (sofar : ByteArray) : IO ByteArray := do
  let chunk ← stream.read 65536
  if chunk.isEmpty then return sofar
  readToEnd stream (sofar ++ chunk)

/-- Collects what a command needs. -/
def gather (o : Options) : IO Surroundings := do
  let input ← if o.readsInput then attempt (do readToEnd (← IO.getStdin) .empty) else pure (.ok "")
  let files ← o.files.mapM fun (path : String) => return (path, ← attempt (IO.FS.readBinFile path))
  return {
    input
    file := fun path => (files.lookup path).getD (.error .notFound) }

/-- Runs one command. -/
def run (arguments : List String) : IO UInt32 := do
  let around ← match Options.ofArguments arguments with
    | .analyze o => gather o
    | _ => pure ⟨.ok "", fun _ => .error .notFound⟩
  let outcome := execute arguments around
  IO.print outcome.output
  IO.eprint outcome.errors
  return outcome.code.toUInt32

end Command

end TypeFlow

/-- Runs the command line. -/
def main (arguments : List String) : IO UInt32 := TypeFlow.Command.run arguments
