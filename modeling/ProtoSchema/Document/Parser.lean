import ProtoSchema.Document.Clash
import ProtoSchema.Document.Parser.Basic

/-!
# ProtoSchema.Document.Parser

The syntactic grammar, one function for each production, each reading from any source of tokens.
A production that is entered by a token takes that token; its place becomes the place of what is
declared. The first token that fits no production is refused, and so are fields that clash, numbers
out of range and types that cannot be map keys.

`Parser.document` is the start production; it must reach the end of the input.
-/

namespace ProtoSchema
namespace Parser

open Scan

variable {σ : Type} [TokenSource σ]

/-- The end of a block, as messages call it. -/
def blockEnd : Demand := .phrase "'\x7d'"

/-- The first statement of a schema, which names the dialect. -/
def dialect : Scan σ Dialect := do
  keyword .syntaxWord
  punct .equals
  let (word, p) ← accept (.kinds [.text]) fun t =>
    match t.lexeme with
    | .text s => some (s, t.position)
    | _ => none
  match Dialect.ofWord? word with
  | some d =>
    punct .semi
    pure d
  | none => refuse (.unknownDialect word) p

/-- The rest of a package statement: the segments of its name. -/
def package : Scan σ (List String) := do
  let ss ← segments
  punct .semi
  pure ss

def importKindOf (t : Token) : ImportKind :=
  match t.lexeme with
  | .keyword .publicWord => .shared
  | .keyword .weakWord => .weak
  | _ => .plain

/-- The rest of an import statement. -/
def importDecl (start : Token) : Scan σ ImportDecl := do
  let t ← require (.phrase "import path")
  let kind := importKindOf t
  let t ← if kind = .plain then pure t else require (.phrase "import path")
  match t.lexeme with
  | .text path =>
    punct .semi
    pure ⟨path, kind, start.position⟩
  | _ => refuseToken (.phrase "import path string") t

def optionValueOf? (t : Token) : Option OptionValue :=
  match t.lexeme with
  | .text s => some (.quoted s)
  | .number n => some (.bare (toString n))
  | .ident n => some (.bare n)
  | .dotted ss => some (.bare (".".intercalate ss))
  | _ => none

/-- The rest of an option statement. -/
def optionDecl (start : Token) : Scan σ OptionDecl := do
  let name ← reference
  punct .equals
  let value ← accept (.phrase "option value") optionValueOf?
  punct .semi
  pure ⟨name, value, start.position⟩

/-- The rest of a map type, whose key and value `type` reads. -/
def mapTypeWith (type : Token → Scan σ FieldType) : Scan σ FieldType := do
  punct .langle
  let k ← require (.phrase "map key type")
  let key ← type k
  if key.isKey then
    punct .comma
    let v ← require (.phrase "map value type")
    let value ← type v
    punct .rangle
    pure (.map key value)
  else refuse (.invalidKey key) k.position

/-- The type that a token begins. -/
def fieldType : Nat → Token → Scan σ FieldType
  | budget, t =>
    match t.lexeme, budget with
    | .keyword (.scalar s), _ => pure (.scalar s)
    | .ident n, _ => pure (.named n)
    | .dotted ss, _ => pure (.dotted ss)
    | .keyword .mapWord, budget + 1 => mapTypeWith (fieldType budget)
    | .keyword .mapWord, 0 => refuseEnd (.kinds [.punct .langle])
    | _, _ => refuseToken (.phrase "field type") t

/-- The rest of a map type. -/
def mapType (budget : Nat) : Scan σ FieldType := mapTypeWith (fieldType budget)

/-- A field as it is written, with the place of its number. -/
def fieldSyntax (budget : Nat) (start : Token) :
    Scan σ (FieldType × String × Nat × Position × Bool) := do
  let repeated := start.lexeme == .keyword .repeatedWord
  let t ← if repeated then require (.phrase "field type") else pure start
  let type ← fieldType budget t
  let name ← name "field name"
  punct .equals
  let (n, p) ← number
  punct .semi
  pure (type, name, n, p, repeated)

/-- The field that a token begins. -/
def field (budget : Nat) (start : Token) : Scan σ Field := do
  let (type, name, n, p, repeated) ← EStateM.adaptExcept Failure.inField (fieldSyntax budget start)
  if 1 ≤ n ∧ n ≤ maxFieldNumber then
    pure ⟨type, name, n, repeated, start.position⟩
  else refuse (.numberOutOfRange n) p

/-- The tokens up to the next semicolon. -/
def skipStatement : Nat → Scan σ Unit
  | 0 => refuseEnd (.kinds [.punct .semi])
  | budget + 1 => do
    let t ← require (.kinds [.punct .semi])
    if t.lexeme = .punct .semi then pure () else skipStatement budget

structure MessageBody where
  fields : List Field
  nested : List Message
  options : List OptionDecl

namespace MessageBody

def empty : MessageBody := ⟨[], [], []⟩

def addField (f : Field) (b : MessageBody) : MessageBody := { b with fields := f :: b.fields }

def addNested (m : Message) (b : MessageBody) : MessageBody := { b with nested := m :: b.nested }

def addOption (o : OptionDecl) (b : MessageBody) : MessageBody :=
  { b with options := o :: b.options }

end MessageBody

def checkFields (message : String) (fields : List Field) : Scan σ Unit :=
  match firstClash? message [] fields with
  | some e => throw (.refused e)
  | none => pure ()

/-- The rest of a message, whose body `body` reads up to the closing brace. -/
def messageWith (body : Scan σ MessageBody) (start : Token) : Scan σ Message := do
  let name ← ident
  punct .lbrace
  let b ← body
  checkFields name b.fields
  pure ⟨name, b.fields, b.nested, b.options, start.position⟩

/-- The declarations that the grammar knows by their first word only. -/
def unsupportedOf? (t : Token) : Option Unsupported :=
  match t.lexeme with
  | .keyword .enumWord => some .enums
  | .keyword .oneofWord => some .oneofs
  | .keyword .extendWord => some .extensions
  | _ => none

/-- Whether a token begins a statement that is read and forgotten. -/
def isSkipped (t : Token) : Bool :=
  t.lexeme == .keyword .reservedWord || t.lexeme == .keyword .extensionsWord

/-- The items of a message up to the closing brace. -/
def messageBody : Nat → Scan σ MessageBody
  | 0 => refuseEnd blockEnd
  | budget + 1 => do
    let t ← require blockEnd
    if t.lexeme = .punct .rbrace then pure .empty
    else if t.lexeme = .punct .semi then messageBody budget
    else if t.lexeme = .keyword .messageWord then
      let m ← messageWith (messageBody budget) t
      let rest ← messageBody budget
      pure (rest.addNested m)
    else if t.lexeme = .keyword .optionWord then
      let o ← optionDecl t
      let rest ← messageBody budget
      pure (rest.addOption o)
    else if isSkipped t then
      skipStatement budget
      messageBody budget
    else
      match unsupportedOf? t with
      | some u => refuse (.unsupported u) t.position
      | none =>
        let f ← field budget t
        let rest ← messageBody budget
        pure (rest.addField f)

/-- The rest of a message declaration. -/
def message (budget : Nat) (start : Token) : Scan σ Message :=
  messageWith (messageBody budget) start

/-- Further parameters of a method, up to the closing parenthesis. -/
def moreParams : Nat → Scan σ (List String)
  | 0 => refuseEnd (.kinds [.punct .comma, .punct .rparen])
  | budget + 1 => do
    if ← either .comma .rparen then
      let p ← reference
      let rest ← moreParams budget
      pure (p :: rest)
    else pure []

/-- The body of the method `method`, up to the closing brace; its options are read and forgotten. -/
def rpcBody (method : String) : Nat → Scan σ Unit
  | 0 => refuseEnd blockEnd
  | budget + 1 => do
    let t ← require blockEnd
    if t.lexeme = .punct .rbrace then pure ()
    else if t.lexeme = .keyword .optionWord then
      let _ ← optionDecl t
      rpcBody method budget
    else if t.lexeme = .punct .semi then rpcBody method budget
    else throw (.refused (unexpected t ("in rpc " ++ method)))

/-- The word between parameters and result, which is an identifier elsewhere. -/
def returnsWord : Scan σ Unit := do
  let t ← expect [.ident]
  if t.lexeme = .ident "returns" then pure () else refuseToken (.phrase "'returns'") t

/-- The rest of a method. -/
def rpc (budget : Nat) (start : Token) : Scan σ Rpc := do
  let name ← ident
  punct .lparen
  let first ← reference
  let more ← moreParams budget
  returnsWord
  punct .lparen
  let result ← reference
  punct .rparen
  let closed ← either .semi .lbrace
  if closed then pure () else rpcBody name budget
  pure ⟨name, first :: more, result, start.position⟩

structure ServiceBody where
  rpcs : List Rpc
  options : List OptionDecl

namespace ServiceBody

def empty : ServiceBody := ⟨[], []⟩

def addRpc (r : Rpc) (b : ServiceBody) : ServiceBody := { b with rpcs := r :: b.rpcs }

def addOption (o : OptionDecl) (b : ServiceBody) : ServiceBody :=
  { b with options := o :: b.options }

end ServiceBody

/-- The items of the service `service` up to the closing brace. -/
def serviceBody (service : String) : Nat → Scan σ ServiceBody
  | 0 => refuseEnd blockEnd
  | budget + 1 => do
    let t ← require blockEnd
    if t.lexeme = .punct .rbrace then pure .empty
    else if t.lexeme = .punct .semi then serviceBody service budget
    else if t.lexeme = .keyword .optionWord then
      let o ← optionDecl t
      let rest ← serviceBody service budget
      pure (rest.addOption o)
    else if t.lexeme = .ident "rpc" then
      let r ← rpc budget t
      let rest ← serviceBody service budget
      pure (rest.addRpc r)
    else throw (.refused (unexpected t ("in service " ++ service)))

/-- The rest of a service declaration. -/
def service (budget : Nat) (start : Token) : Scan σ Service := do
  let name ← ident
  punct .lbrace
  let b ← serviceBody name budget
  pure ⟨name, b.rpcs, b.options, start.position⟩

structure Body where
  package : Option (List String)
  imports : List ImportDecl
  options : List OptionDecl
  messages : List Message
  services : List Service

namespace Body

def empty : Body := ⟨none, [], [], [], []⟩

def setPackage (ss : List String) (b : Body) : Body := { b with package := some ss }

def addImport (i : ImportDecl) (b : Body) : Body := { b with imports := i :: b.imports }

def addOption (o : OptionDecl) (b : Body) : Body := { b with options := o :: b.options }

def addMessage (m : Message) (b : Body) : Body := { b with messages := m :: b.messages }

def addService (s : Service) (b : Body) : Body := { b with services := s :: b.services }

end Body

/-- The statements up to the end of the input; `packaged` tells whether a package statement has
come before. -/
def statements (packaged : Bool) : Nat → Scan σ Body
  | 0 => pure .empty
  | budget + 1 => do
    match ← token? with
    | none => pure .empty
    | some t =>
      match t.lexeme with
      | .punct .semi => statements packaged budget
      | .keyword .syntaxWord => refuse .duplicateDialect t.position
      | .keyword .packageWord =>
        if packaged then refuse .duplicatePackage t.position
        else
          let ss ← package
          let rest ← statements true budget
          pure (rest.setPackage ss)
      | .keyword .importWord =>
        let i ← importDecl t
        let rest ← statements packaged budget
        pure (rest.addImport i)
      | .keyword .optionWord =>
        let o ← optionDecl t
        let rest ← statements packaged budget
        pure (rest.addOption o)
      | .keyword .messageWord =>
        let m ← message budget t
        let rest ← statements packaged budget
        pure (rest.addMessage m)
      | .keyword .serviceWord =>
        let s ← service budget t
        let rest ← statements packaged budget
        pure (rest.addService s)
      | _ =>
        match unsupportedOf? t with
        | some u => refuse (.unsupported u) t.position
        | none => throw (.refused (unexpected t ""))

/-- A whole schema, up to the end of the input; `source` is the name of where it comes from. -/
def document (source : Option String) : Scan σ Document := do
  let d ← dialect
  let b ← budgeted (statements false)
  pure ⟨d, b.package.getD [], b.imports, b.options, b.messages, b.services, source⟩

end Parser
end ProtoSchema
