import ProtoSchema.CommandLine.Run
import Std.Time.Format

/-!
# ProtoSchema.Main

The program: reads the files that a command line names, runs it, and writes what the run has to say.
-/

namespace ProtoSchema
namespace Main

open CommandLine

/-- The number that the system gives to an error; some errors carry it negated. -/
def systemNumber (n : UInt32) : Nat := if n < 0x80000000 then n.toNat else (0 - n).toNat

/-- An error of the file system as the system knows it. -/
def systemError : IO.Error → SystemError
  | .noFileOrDirectory _ n wording => ⟨systemNumber n, wording⟩
  | .permissionDenied _ n wording => ⟨systemNumber n, wording⟩
  | .inappropriateType _ n wording => ⟨systemNumber n, wording⟩
  | .invalidArgument _ n wording => ⟨systemNumber n, wording⟩
  | .resourceExhausted _ n wording => ⟨systemNumber n, wording⟩
  | .alreadyExists _ n wording => ⟨systemNumber n, wording⟩
  | .interrupted _ n wording => ⟨systemNumber n, wording⟩
  | .hardwareFault n wording => ⟨systemNumber n, wording⟩
  | .resourceBusy n wording => ⟨systemNumber n, wording⟩
  | .illegalOperation n wording => ⟨systemNumber n, wording⟩
  | .otherError n wording => ⟨systemNumber n, wording⟩
  | e => ⟨0, e.toString⟩

/-- What reading an open file yields, chunk by chunk, until it ends or fails. -/
def readAll (file : IO.FS.Handle) : IO Stream := do
  let mut chunks : List (List UInt8) := []
  repeat
    try
      let bytes ← file.read 8192
      if bytes.isEmpty then
        return .ofChunks chunks.reverse .exhausted
      chunks := bytes.toList :: chunks
    catch e =>
      return .ofChunks chunks.reverse (.failing (systemError e).message)
  return .ofChunks chunks.reverse .exhausted

/-- Whether the way to a path leads to something, which may be looked at though it cannot be opened. -/
def isReached (p : Path) : IO Bool := do
  try
    let _ ← IO.FS.realPath p.text
    return true
  catch _ =>
    return false

/-- What is found at a path. -/
def find (p : Path) : IO Lookup := do
  if p.hasNul then return .nulInPath
  try
    let content ← readAll (← IO.FS.Handle.mk p.text .read)
    if content = .ofChunks [] (.failing SystemError.isDirectory.message) then
      return .directory
    return .file content
  catch e =>
    if ← isReached p then return .locked (systemError e)
    return .hidden (systemError e)

/-- The paths that a run of a command looks at. -/
def pathsOf (c : Command) : List Path :=
  let files :=
    match c with
    | .parse files _ => files
    | .serve _ => []
  files ++ c.logFile?.toList.flatMap fun p => [p, p.parent]

/-- What is found at the paths of a command line. -/
def findAll (words : List String) (environment : Option String) : IO (Path → Lookup) := do
  match readArguments words environment with
  | .error _ => return fun _ => .missing
  | .ok i =>
    let found ← (i.command.toList.flatMap pathsOf).mapM fun p => do return (p, ← find p)
    return fun p => (found.lookup p).getD .missing

/-- The current time, as it stands in a log. -/
def timeStamp : IO String := do
  let now ← Std.Time.PlainDateTime.now
  return now.format "uuuu-MM-dd HH:mm:ss,SSS"

/-- Where a log goes: to a file, behind what the file holds, or to the standard error. -/
def logStream : Option Path → IO IO.FS.Stream
  | some p => do
    let h ← IO.FS.Handle.mk p.text .append
    return .ofHandle h
  | none => IO.getStderr

def write (log : IO.FS.Stream) : Event → IO Unit
  | .out text => do
    let out ← IO.getStdout
    out.putStr text
    out.flush
  | .err text => IO.eprint text
  | .log r => do
    let time ← timeStamp
    log.putStr (r.line time)

/-- Writes what a run has written before it has stopped half-way, and says why it has. -/
def complain : Crash → IO Unit
  | .unknownLevel name => IO.eprintln (unknownLevelMessage name)
  | .logFile e => IO.eprintln e.message
  | .noLevel => IO.eprintln noLevelMessage
  | .loading written e => do
    let log ← IO.getStderr
    for event in written do
      write log event
    match e with
    | .file e => IO.eprintln e.message
    | .reading f => IO.eprintln f.message

end Main
end ProtoSchema

open ProtoSchema in
/-- Runs the program on the words of its command line. -/
def main (words : List String) : IO UInt32 := do
  let environment ← IO.getEnv "PROTO_LS_LOG_LEVEL"
  let look ← Main.findAll words environment
  match CommandLine.run words environment look with
  | .error c =>
    Main.complain c
    return 1
  | .ok o =>
    let log ← Main.logStream o.logFile
    for e in o.events do
      Main.write log e
    return UInt32.ofNat o.code
