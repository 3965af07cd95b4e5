import Precedence.Command.Run

/-!
# The command

Reads what the options ask for, computes the outcome and writes it. How arguments are read as
options is left to the caller.
-/

namespace Precedence.Command

/-- The failure that an error of the system stands for. -/
def ReadFailure.ofError : IO.Error → ReadFailure
  | .noFileOrDirectory .. => .missing
  | .inappropriateType _ code _ => if code = 21 then .isDirectory else .notDirectory
  | .invalidArgument path code details =>
    if code = 0 - 36 then .nameTooLong
    else .other (toString (IO.Error.invalidArgument path code details))
  | error => .other (toString error)

/-- Reads a file. -/
def readFile (path : String) : IO (Except ReadFailure ByteArray) := do
  try
    return .ok (← IO.FS.readBinFile path)
  catch error =>
    return .error (.ofError error)

/-- Reads a stream up to its end. -/
partial def readStream (stream : IO.FS.Stream) (bytes : ByteArray) : IO ByteArray := do
  let more ← stream.read 65536
  if more.isEmpty then
    return bytes
  else
    readStream stream (bytes ++ more)

/-- Reads what a run needs of its surroundings. -/
def Options.surroundings (options : Options) : IO Surroundings := do
  match options.file with
  | some path =>
    let bytes ← readFile path
    return ⟨fun _ => bytes, .empty⟩
  | none =>
    if options.expressions.isEmpty then
      return ⟨fun _ => .error .missing, ← readStream (← IO.getStdin) .empty⟩
    else
      return ⟨fun _ => .error .missing, .empty⟩

/-- Runs the command and gives its exit status. -/
def run (options : Options) : IO UInt32 := do
  let outcome := outcome options (← options.surroundings)
  (← IO.getStdout).putStr outcome.out
  (← IO.getStderr).putStr outcome.err
  return outcome.status.code.toUInt32

end Precedence.Command
