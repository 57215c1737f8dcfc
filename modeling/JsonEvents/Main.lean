import JsonEvents.Listing
import JsonEvents.FileTree

/-!
# The command line

The command lists the events of the document in a file.  Log records follow on
the error output.
-/

namespace JsonEvents.CommandLine

/-- The number of a failed system call, whichever sign it is reported with. -/
def errorNumber : IO.Error → Nat
  | .noFileOrDirectory _ code _ | .inappropriateType _ code _ | .invalidArgument _ code _
  | .permissionDenied _ code _ => code.toInt32.toInt.natAbs
  | _ => 0

/-- The fault that keeps a file from being read. -/
def faultOf (error : IO.Error) : PathFault :=
  match errorNumber error with
  | 13 => .accessDenied
  | 20 => .notDirectory
  | 21 => .isDirectory
  | 36 => .nameTooLong
  | 40 => .tooManyLinks
  | _ => .absent

def bytesOf (arg : String) : Bytes := arg.toUTF8.toList

/-- A reader of all that a file holds. -/
def openFile (name : String) : IO (Except Status Reader) := do
  let bytes := bytesOf name
  try
    let content ← IO.FS.readBinFile name
    pure (.ok { Reader.ofBytes content.toList with grantsNothing := true })
  catch error =>
    match faultOf error with
    | .isDirectory => pure (.ok (.failing (PathFault.isDirectory.status bytes)))
    | fault => pure (.error (fault.status bytes))

def write (stream : IO.FS.Stream) (text : Bytes) : IO Unit :=
  stream.write ⟨text.toArray⟩

def run (args : List String) : IO UInt32 := do
  let named := Listing.named? (args.map bytesOf)
  let outcome ← match args.find? fun arg => named = some (bytesOf arg) with
    | some name => do
        let opened ← openFile name
        pure (Listing.command (fun _ => opened) (args.map bytesOf))
    | none => pure Listing.usage
  write (← IO.getStdout) outcome.output
  let errors ← IO.getStderr
  for (level, text) in outcome.log.records do
    write errors (Bytes.ofString level.name ++ Bytes.ofString ": " ++ text ++ [Ascii.lineFeed])
  write errors outcome.errors
  pure outcome.exitCode.toUInt32

end JsonEvents.CommandLine

def main (args : List String) : IO UInt32 := JsonEvents.CommandLine.run args
