import ScopeLint.CommandLine

/-!
The program. It reads every file that it is asked for, runs, and prints.

Some failures lie outside of it: calls may nest as deep as they need to, a text consists of Unicode
scalar values, and every character can be printed.
-/
namespace ScopeLint.Program

def usage : String :=
  "usage: pyjlint [-h] [--json] [--builtins-file FILE] [--baselib FILE] [-v] [files ...]"

def faultOf : IO.Error → ReadFault
  | .noFileOrDirectory .. => .missing
  | .inappropriateType _ code reason =>
    if code = 20 then .notDirectory else if code = 21 then .isDirectory
    else .other code.toNat reason
  | .invalidArgument _ code reason =>
    if code = 36 then .nameTooLong else .other code.toNat reason
  | .permissionDenied _ code reason => .other code.toNat reason
  | e => .other 5 (toString e)

def readPath (path : String) : IO (Except ReadFault Bytes) := do
  try
    let content ← IO.FS.readBinFile path
    return .ok content.toList
  catch e => return .error (faultOf e)

/-- The file system as far as the given paths go. -/
def snapshot (paths : List String) : IO FileSystem := do
  let known ← paths.mapM fun path => do return (path, ← readPath path)
  return { read := fun path => (known.lookup path).getD (.error .missing) }

partial def readAll (stream : IO.FS.Stream) (read : ByteArray) : IO ByteArray := do
  let chunk ← stream.read 65536
  if chunk.isEmpty then return read else readAll stream (read ++ chunk)

def execute (o : Options) : IO UInt32 := do
  let paths := ((o.builtinsFiles ++ o.baselib.toList).filterMap PathValue.path? ++ o.files).map
    Path.normalize
  let fs ← snapshot paths
  let asked := o.files.isEmpty || CommandLine.standardInput ∈ o.files
  let stdin ← if asked then readAll (← IO.getStdin) .empty else pure .empty
  match CommandLine.run ⟨fs, stdin.toList⟩ o with
  | .error (.badPath p) => IO.eprintln p.message; return 1
  | .error (.undecodable e) => IO.eprintln e.message; return 1
  | .error (.walk e) => IO.eprintln e.message; return 1
  | .ok outcome =>
    outcome.errors.forM fun line => IO.eprintln line
    outcome.output.forM fun line => IO.println line
    return outcome.status.toUInt32

end ScopeLint.Program

def main (arguments : List String) : IO UInt32 :=
  match ScopeLint.Options.parse arguments with
  | .ok o => ScopeLint.Program.execute o
  | .error .help => do IO.println ScopeLint.Program.usage; return 0
  | .error .misuse => do IO.eprintln ScopeLint.Program.usage; return 2
