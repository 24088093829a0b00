import ProtoSchema.CommandLine.Words
import ProtoSchema.Path
import ProtoSchema.Text.Uppercase

/-!
# ProtoSchema.CommandLine.Invocation

What a command line asks for. The log level comes first, from an option or from the environment;
then a command, `parse` with the files to read or `serve`. The level of an option must be one of
four names, in any case, unless the option is set to nothing, which two dashes attached to it do (in
the release that `ProtoSchema.CommandLine.Words` names); that of the environment is taken as it is,
in upper case. A command line that cannot be read, or that asks for help, ends the program at once.
-/

namespace ProtoSchema
namespace CommandLine

/-- The commands, and the program itself, each with a usage of its own. -/
inductive Scope where
  | program
  | parse
  | serve
deriving DecidableEq, Repr

/-- What ends the program before any command runs. -/
inductive Exit where
  | help (scope : Scope)
  | usage (scope : Scope) (e : UsageError)
deriving DecidableEq, Repr

inductive Command where
  | parse (files : List Path) (print : Bool)
  | serve (logFile : Option Path)
deriving DecidableEq, Repr

/-- A setting of the log level: a name, or nothing. -/
inductive LevelSetting where
  | named (name : String)
  | nothing
deriving DecidableEq, Repr

structure Invocation where
  level : LevelSetting
  command : Option Command
deriving DecidableEq, Repr

inductive ProgramOption where
  | help
  | logLevel

inductive ParseOption where
  | help
  | emitProto

inductive ServeOption where
  | help
  | logFile

def programOptions : Options ProgramOption where
  spellings := [("-h", .help), ("--help", .help), ("--log-level", .logLevel)]
  takesValue
    | .help => false
    | .logLevel => true
  label
    | .help => "-h/--help"
    | .logLevel => "--log-level"

def parseOptions : Options ParseOption where
  spellings := [("-h", .help), ("--help", .help), ("--emit-proto", .emitProto)]
  takesValue _ := false
  label
    | .help => "-h/--help"
    | .emitProto => "--emit-proto"

def serveOptions : Options ServeOption where
  spellings := [("-h", .help), ("--help", .help), ("--log-file", .logFile)]
  takesValue
    | .help => false
    | .logFile => true
  label
    | .help => "-h/--help"
    | .logFile => "--log-file"

def levelChoices : List String := ["DEBUG", "INFO", "WARNING", "ERROR"]

/-- The path of an option that names a file; set to nothing, it names the file `[]`. -/
def pathOf (value : Option String) : Path := Path.ofString (value.getD "[]")

def commandNames : List String := ["parse", "serve"]

/-- A result together with the words that nothing has taken. -/
abbrev WithStray (α : Type) := α × List String

/-- The operands of a command that takes one run of them: none so far, a run that goes on, or a run
that an option has ended. -/
inductive Operands where
  | awaited
  | growing (words : List String)
  | ended (words : List String)

namespace Operands

/-- The operands when an option follows. -/
def close : Operands → Operands
  | growing words => ended words
  | ops => ops

def words : Operands → List String
  | awaited => []
  | growing ws | ended ws => ws

end Operands

/-- Reads the words of the command `parse`. Two dashes alone belong to the run of operands they
begin or continue. -/
def readParse (ops : Operands) (print : Bool) (stray : List String) :
    List (Step ParseOption) → Except Exit (WithStray Command)
  | [] =>
    if ops.words.isEmpty then .error (.usage .parse (.missingOperands ["FILE"]))
    else .ok (.parse (ops.words.map Path.ofString) print, stray)
  | .flag .help :: _ => .error (.help .parse)
  | .flag .emitProto :: more => readParse ops.close true stray more
  | .value _ _ :: more => readParse ops.close print stray more
  | .stray w :: more => readParse ops.close print (stray ++ [w]) more
  | .wrong e :: _ => .error (.usage .parse e)
  | .operand w _ :: more =>
    match ops with
    | .awaited => readParse (.growing [w]) print stray more
    | .growing ws => readParse (.growing (ws ++ [w])) print stray more
    | .ended ws => readParse (.ended ws) print (stray ++ [w]) more
  | .dashes behind :: more =>
    match ops with
    | .awaited => readParse ops print (if behind.isEmpty then stray ++ ["--"] else stray) more
    | .growing _ => readParse ops print stray more
    | .ended _ => readParse ops print (stray ++ ["--"]) more

/-- Reads the words of the command `serve`, which takes no operands. -/
def readServe (logFile : Option Path) (stray : List String) :
    List (Step ServeOption) → Except Exit (WithStray Command)
  | [] => .ok (.serve logFile, stray)
  | .flag _ :: _ => .error (.help .serve)
  | .value _ v :: more => readServe (some (pathOf v)) stray more
  | .stray w :: more => readServe logFile (stray ++ [w]) more
  | .wrong e :: _ => .error (.usage .serve e)
  | .operand w _ :: more => readServe logFile (stray ++ [w]) more
  | .dashes _ :: more => readServe logFile (stray ++ ["--"]) more

def readCommand (name : String) (words : List String) : Except Exit (WithStray Command) :=
  if name == "parse" then
    match parseOptions.read words with
    | .error e => .error (.usage .parse e)
    | .ok steps => readParse .awaited false [] steps
  else if name == "serve" then
    match serveOptions.read words with
    | .error e => .error (.usage .serve e)
    | .ok steps => readServe none [] steps
  else .error (.usage .program (.invalidChoice "command" name commandNames))

/-- An invocation, unless words are left over. -/
def complete (i : Invocation) (stray : List String) : Except Exit Invocation :=
  if stray.isEmpty then .ok i else .error (.usage .program (.unrecognized stray))

/-- Reads the words up to the command, which takes all words behind it. -/
def readProgram (level : LevelSetting) (stray : List String) :
    List (Step ProgramOption) → Except Exit Invocation
  | [] => complete ⟨level, none⟩ stray
  | .flag _ :: _ => .error (.help .program)
  | .value _ none :: more => readProgram .nothing stray more
  | .value _ (some v) :: more =>
    let name := Text.upper v
    if levelChoices.contains name then readProgram (.named name) stray more
    else .error (.usage .program (.invalidChoice "--log-level" name levelChoices))
  | .stray w :: more => readProgram level (stray ++ [w]) more
  | .wrong e :: _ => .error (.usage .program e)
  | .operand name behind :: _ =>
    match readCommand name behind with
    | .error e => .error e
    | .ok (c, rest) => complete ⟨level, some c⟩ (stray ++ rest)
  | .dashes behind :: _ =>
    if behind.isEmpty then complete ⟨level, none⟩ (stray ++ ["--"])
    else .error (.usage .program (.invalidChoice "command" "--" commandNames))

/-- The level that holds unless an option sets another: that of the environment, if it has one. -/
def defaultLevel (environment : Option String) : LevelSetting :=
  .named (Text.upper (environment.getD "WARNING"))

/-- What the words of a command line ask for. -/
def readArguments (words : List String) (environment : Option String) : Except Exit Invocation :=
  match programOptions.read words with
  | .error e => .error (.usage .program e)
  | .ok steps => readProgram (defaultLevel environment) [] steps

end CommandLine
end ProtoSchema
