/- The command line. -/
import NormalOrder.Command.Run

namespace NormalOrder.Command

partial def readAll (stream : IO.FS.Stream) (before : ByteArray) : IO ByteArray := do
  let bytes ← stream.read 65536
  if bytes.isEmpty then return before
  readAll stream (before ++ bytes)

/-- Why a file cannot be read, from what the system says. -/
def SourceError.ofSystem : IO.Error → SourceError
  | .noFileOrDirectory .. => .noSuchFile
  | .inappropriateType _ 21 _ => .isDirectory
  | e => .other (toString e)

def readSource (settings : Settings) : IO (Except SourceError ByteArray) := do
  match settings.sourcePath with
  | none => return .ok (← readAll (← IO.getStdin) .empty)
  | some path =>
    try return .ok (← IO.FS.readBinFile path)
    catch e => return .error (.ofSystem e)

def Exit.print (exit : Exit) : IO UInt32 := do
  (← IO.getStdout).putStr exit.output
  if let some line := exit.complaint then
    (← IO.getStderr).putStrLn line
  return UInt32.ofNat exit.code

end NormalOrder.Command

open NormalOrder Command in
def main (arguments : List String) : IO UInt32 := do
  match Settings.ofArguments arguments with
  | .error refusal => (Exit.ofRefusal refusal).print
  | .ok settings =>
    let source ← readSource settings
    let (result, journal) := match runSource ampleFuel settings source [] with
      | .ok output events => (.ok output, events.reverse)
      | .error e events => (.error e, events.reverse)
    if settings.verbose then
      for line in Journal.lines journal .debug do
        (← IO.getStderr).putStrLn line
    (Exit.ofRun result).print
