import ProtoSchema.Document

/-!
# ProtoSchema.Document.Printer

Documents as schema text. The text is a list of sections with an empty line between them: the
dialect, the package, the imports, the options, and one section for each message and service. A
block is indented by four spaces for each level; inside it, options come first and the messages of
a message come before its fields. Strings are in double quotes, with a backslash before a double
quote and before another backslash and no other escape.
-/

namespace ProtoSchema

namespace Text

def literalChar (c : Char) : List Char :=
  if c == '\x5c' || c == '\x22' then ['\x5c', c] else [c]

def literal (s : String) : String :=
  String.ofList ('\x22' :: s.toList.flatMap literalChar ++ ['\x22'])

end Text

namespace Printer

/-- The spaces before a line at a level. -/
def indent (level : Nat) : String := String.ofList (List.replicate (4 * level) ' ')

def importLine (i : ImportDecl) : String :=
  let modifier :=
    match i.kind with
    | .plain => ""
    | .weak => "weak "
    | .shared => "public "
  "import " ++ modifier ++ Text.literal i.path ++ ";"

def optionLine (o : OptionDecl) : String :=
  let value :=
    match o.value with
    | .quoted s => Text.literal s
    | .bare s => s
  "option " ++ o.name ++ " = " ++ value ++ ";"

def fieldLine (f : Field) : String :=
  (if f.repeated then "repeated " else "") ++ f.type.text ++ " " ++ f.name ++ " = " ++
    toString f.number ++ ";"

def rpcLine (r : Rpc) : String :=
  "rpc " ++ r.name ++ " (" ++ ", ".intercalate r.params ++ ") returns (" ++ r.returns ++ ");"

mutual

/-- The lines of a message at a level. -/
def messageLines (level : Nat) : Message → List String
  | ⟨name, fields, nested, options, _⟩ =>
    (indent level ++ "message " ++ name ++ " \x7b") ::
      (options.map (indent (level + 1) ++ optionLine ·) ++
        nestedLines (level + 1) nested ++
        fields.map (indent (level + 1) ++ fieldLine ·) ++
        [indent level ++ "\x7d"])

/-- The lines of messages at a level, one after another. -/
def nestedLines (level : Nat) : List Message → List String
  | [] => []
  | m :: ms => messageLines level m ++ nestedLines level ms

end

def serviceLines (s : Service) : List String :=
  ("service " ++ s.name ++ " \x7b") ::
    (s.options.map (indent 1 ++ optionLine ·) ++ s.rpcs.map (indent 1 ++ rpcLine ·) ++ ["\x7d"])

/-- A section, unless it has no lines. -/
def unlessEmpty (lines : List String) : List (List String) := if lines.isEmpty then [] else [lines]

def sections (d : Document) : List (List String) :=
  ["syntax = " ++ Text.literal d.dialect.word ++ ";"] ::
    (unlessEmpty (if d.package.isEmpty then [] else ["package " ++ d.packageName ++ ";"]) ++
      unlessEmpty (d.imports.map importLine) ++
      unlessEmpty (d.options.map optionLine) ++
      d.messages.map (messageLines 0) ++
      d.services.map serviceLines)

end Printer

def Document.print (d : Document) : String :=
  "\n\n".intercalate ((Printer.sections d).map "\n".intercalate) ++ "\n"

end ProtoSchema
