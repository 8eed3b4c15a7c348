import LexicalScope.Command.Arguments
import LexicalScope.Command.Run

set_option autoImplicit false

/-! # The program

Reads the bytes that the options name, runs, and prints: the listing to standard output with
exit status 0, a failure to standard error with 1, a usage error with 2.
-/

namespace LexicalScope

/-- All bytes of a stream, after those already read. -/
partial def readStream (stream : IO.FS.Stream) (bytes : ByteArray) : IO ByteArray := do
  let chunk ← stream.read 65536
  if chunk.isEmpty then return bytes else readStream stream (bytes ++ chunk)

/-- The bytes of a source, or nothing when they cannot be read. -/
def Source.read : Source → IO (Option ByteArray)
  | .standardInput => do
    try return some (← readStream (← IO.getStdin) ByteArray.empty)
    catch _ => return none
  | .file path => do
    try return some (← IO.FS.readBinFile path)
    catch _ => return none

end LexicalScope

open LexicalScope in
/-- The command line program. -/
def main (arguments : List String) : IO UInt32 := do
  match Options.ofArguments arguments with
  | .error .help => IO.print helpText; return 0
  | .error .version => IO.print versionText; return 0
  | .error (.usage e) => IO.eprintln ("error: " ++ e.message); return 2
  | .ok options =>
    let stdout ← IO.getStdout
    let color ← stdout.isTty
    match options.run color (← options.source.read) with
    | .ok listing => stdout.putStr listing; stdout.flush; return 0
    | .error failure => IO.eprint failure.report; return 1
