import ProtoSchema.CommandLine.Log
import ProtoSchema.CommandLine.Usage
import ProtoSchema.Document.Printer
import ProtoSchema.Editor.Workspace
import ProtoSchema.FileTree

/-!
# ProtoSchema.CommandLine.Run

What a run of the program does: the texts it prints and the log records it makes, in order, its exit
code, and the server it starts. The files are given as a function from paths to what is found there.

`parse` reports each file on its own, whatever becomes of the others; it succeeds if all of them
hold documents. Only where it cannot be told whether a file is there does the run end.
-/

namespace ProtoSchema
namespace CommandLine

/-- Something that a run writes: to the standard output, to the standard error, or to the log. -/
inductive Event where
  | out (text : String)
  | err (text : String)
  | log (r : LogRecord)
deriving DecidableEq, Repr

/-- What stops a run half-way. A file does after `written` about the files before it. -/
inductive Crash where
  | unknownLevel (name : String)
  | noLevel
  | logFile (e : FileError)
  | loading (written : List Event) (e : LoadError)
deriving DecidableEq, Repr

def unknownLevelMessage (name : String) : String := "Unknown level: " ++ Text.quoted name

/-- The wording of a level that is set to nothing. -/
def noLevelMessage : String := "Level not an integer or a valid string: []"

def summary (p : Path) (d : Document) : String :=
  "Parsed " ++ p.text ++ ": " ++ toString d.messages.length ++ " message(s), " ++
    toString d.services.length ++ " service(s)"

def parsedRecord (p : Path) (d : Document) : LogRecord :=
  ⟨.debug, "proto_ls.parser.parser", summary p d⟩

/-- What comes of one file: what is written about it, and whether it holds a document. -/
structure Report where
  events : List Event
  success : Bool
deriving DecidableEq, Repr

/-- The events of a record, which is dropped if it is below the level of the log. -/
def logged (level : LogLevel) (r : LogRecord) : List Event :=
  if level.rank ≤ r.level.rank then [.log r] else []

def accepted (print : Bool) (level : LogLevel) (p : Path) (d : Document) : Report :=
  let text := if print then d.print else summary p d ++ "\n"
  ⟨logged level (parsedRecord p d) ++ [.out text], true⟩

def rejected (text : String) : Report := ⟨[.err (text ++ "\n")], false⟩

/-- One line about an error: the path, the place and the cause. -/
def errorLine (p : Path) (e : SourceError) : String :=
  p.text ++ ":" ++ toString e.position.line ++ ":" ++ toString e.position.column ++ ": " ++
    e.cause.message

def reportFile (print : Bool) (level : LogLevel) (look : Path → Lookup) (p : Path) :
    Except LoadError Report :=
  match (look p).isFound p with
  | .error e => .error (.file e)
  | .ok false => .ok (rejected ("Error: File not found: " ++ p.text))
  | .ok true =>
    match Document.load (look p) p with
    | .ok d => .ok (accepted print level p d)
    | .error (.file e) => .ok (rejected ("Error reading " ++ p.text ++ ": " ++ e.message))
    | .error (.reading (.refused e)) => .ok (rejected (errorLine p e))
    | .error (.reading f) => .error (.reading f)

/-- What comes of files one after another; an error comes with what has been written before it. -/
def reportFiles (print : Bool) (level : LogLevel) (look : Path → Lookup) :
    List Path → Except (List Event × LoadError) Report
  | [] => .ok ⟨[], true⟩
  | p :: ps =>
    match reportFile print level look p with
    | .error e => .error ([], e)
    | .ok r =>
      match reportFiles print level look ps with
      | .error (written, e) => .error (r.events ++ written, e)
      | .ok rs => .ok ⟨r.events ++ rs.events, r.success && rs.success⟩

/-- What has come of a run: its exit code, what it has written, the level of the log at the end, the
file that the log goes to if it is not the standard error, and the name and version of the server
that has been started. -/
structure Outcome where
  code : Nat
  events : List Event
  level : LogLevel
  logFile : Option Path
  started : Option (String × String)
deriving DecidableEq, Repr

namespace Outcome

/-- The outcome of a run that ends before a command runs; the log has its first level still. -/
def early (code : Nat) (events : List Event) : Outcome := ⟨code, events, .warning, none, none⟩

def stdout (o : Outcome) : String :=
  String.join (o.events.map fun
    | .out text => text
    | _ => "")

/-- The lines of the log, each record made at the given time. -/
def log (time : String) (o : Outcome) : String :=
  String.join (o.events.map fun
    | .log r => r.line time
    | _ => "")

/-- The text of the log file afterwards; a log is written behind what the file holds. -/
def logText (time : String) (found : Lookup) (o : Outcome) : String :=
  let before :=
    match found with
    | .file content => ((Utf8.decode content.bytes).toOption.map String.ofList).getD ""
    | _ => ""
  before ++ o.log time

/-- What a run writes to the standard error: the log too, unless it goes to a file. -/
def stderr (time : String) (o : Outcome) : String :=
  String.join (o.events.map fun
    | .out _ => ""
    | .err text => text
    | .log r => if o.logFile.isNone then r.line time else "")

end Outcome

/-- Whether a log can be written to a path: a file or nothing in a directory. -/
def checkLogFile (look : Path → Lookup) (p : Path) : Except FileError Unit :=
  match look p with
  | .file _ => .ok ()
  | .nulInPath => .error .nulInPath
  | .directory => .error (.system .isDirectory p)
  | .locked e => .error (.system e p)
  | .hidden e =>
    if e = .notFound ∧ look p.parent = .directory then .ok () else .error (.system e p)

/-- The file that a command writes its log to, if that is not the standard error. -/
def Command.logFile? : Command → Option Path
  | .serve (some p) => some p.collapsed
  | _ => none

/-- Why the log file of a command cannot be written, if it has one that cannot. -/
def Command.logFileError? (look : Path → Lookup) (c : Command) : Option FileError :=
  match c.logFile? with
  | some p =>
    match checkLogFile look p with
    | .error e => some e
    | .ok _ => none
  | none => none

def runCommand (level : LogLevel) (look : Path → Lookup) (c : Command) : Except Crash Outcome :=
  match c with
  | .parse files print =>
    match reportFiles print level look files with
    | .error (written, e) => .error (.loading written e)
    | .ok r => .ok ⟨if r.success then 0 else 1, r.events, level, c.logFile?, none⟩
  | .serve _ =>
    .ok ⟨0, [], level, c.logFile?, some (Workspace.defaultName, Workspace.defaultVersion)⟩

/-- Runs the program on the words of a command line, with the level that the environment asks for
and the files that `look` finds. -/
def run (words : List String) (environment : Option String) (look : Path → Lookup) :
    Except Crash Outcome :=
  match readArguments words environment with
  | .error e => .ok (.early e.code [.out e.stdout, .err e.stderr])
  | .ok ⟨_, none⟩ => .ok (.early 1 [.err noCommand])
  | .ok ⟨setting, some command⟩ =>
    match command.logFileError? look with
    | some e => .error (.logFile e)
    | none =>
      match setting with
      | .nothing => .error .noLevel
      | .named name =>
        match LogLevel.ofName? name with
        | none => .error (.unknownLevel name)
        | some level => runCommand level look command

end CommandLine
end ProtoSchema
