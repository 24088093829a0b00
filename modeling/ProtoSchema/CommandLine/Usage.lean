import ProtoSchema.CommandLine.Invocation

/-!
# ProtoSchema.CommandLine.Usage

The texts that explain the command line, and what the program prints when it ends before a command
runs: help on the standard output, or a usage and an error on the standard error.
-/

namespace ProtoSchema
namespace CommandLine

/-- What the program is called in a scope. -/
def Scope.prog : Scope → String
  | program => "proto-ls"
  | parse => "proto-ls parse"
  | serve => "proto-ls serve"

def Scope.usage : Scope → String
  | program =>
    "usage: proto-ls [-h] [--log-level \x7bDEBUG,INFO,WARNING,ERROR\x7d]\n" ++
    "                \x7bparse,serve\x7d ...\n"
  | parse => "usage: proto-ls parse [-h] [--emit-proto] FILE [FILE ...]\n"
  | serve => "usage: proto-ls serve [-h] [--log-file LOG_FILE]\n"

/-- What the help of a scope says after its usage. -/
def Scope.details : Scope → String
  | program =>
    "\n" ++
    "Protocol Buffers parser and language server\n" ++
    "\n" ++
    "positional arguments:\n" ++
    "  \x7bparse,serve\x7d         Available commands\n" ++
    "    parse               Parse .proto files and report errors\n" ++
    "    serve               Run the language server over stdio\n" ++
    "\n" ++
    "options:\n" ++
    "  -h, --help            show this help message and exit\n" ++
    "  --log-level \x7bDEBUG,INFO,WARNING,ERROR\x7d\n" ++
    "                        Logging level. Default: $PROTO_LS_LOG_LEVEL or WARNING\n"
  | parse =>
    "\n" ++
    "positional arguments:\n" ++
    "  FILE          .proto files to parse\n" ++
    "\n" ++
    "options:\n" ++
    "  -h, --help    show this help message and exit\n" ++
    "  --emit-proto  Print the parsed document as canonical .proto source\n"
  | serve =>
    "\n" ++
    "options:\n" ++
    "  -h, --help           show this help message and exit\n" ++
    "  --log-file LOG_FILE  Write logs to this file instead of stderr\n"

namespace Exit

def code : Exit → Nat
  | help _ => 0
  | usage _ _ => 2

def stdout : Exit → String
  | help scope => scope.usage ++ scope.details
  | usage _ _ => ""

def stderr : Exit → String
  | help _ => ""
  | usage scope e => scope.usage ++ scope.prog ++ ": error: " ++ e.message ++ "\n"

end Exit

/-- What the program prints when it is given no command. -/
def noCommand : String :=
  "Usage: proto-ls <command> [options]\n" ++
  "Commands: parse, serve\n" ++
  "Use 'proto-ls <command> --help' for more information\n"

end CommandLine
end ProtoSchema
