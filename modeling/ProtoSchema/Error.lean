import ProtoSchema.Document

/-!
# ProtoSchema.Error

Why a source is refused. A `Cause` is one reason, `Cause.message` is its wording and `Cause.layer`
says which layer found it: the source itself, the lexical grammar, the syntactic grammar, or a rule
about well-formed declarations. A `SourceError` is a cause at a place. Two failures have no place
and are no verdict on the schema: a number with too many digits, and a look further ahead than a
cursor's window allows.
-/

namespace ProtoSchema

/-- The layer that finds an error. -/
inductive Layer where
  | source
  | lexical
  | syntactic
  | semantic
deriving DecidableEq, Repr

/-- What a production asks for: a token of certain kinds, or what a phrase says. -/
inductive Demand where
  | kinds (ks : List Kind)
  | phrase (s : String)
deriving DecidableEq, Repr

/-- What a production finds. -/
inductive Found where
  | token (t : Token)
  | endOfInput
deriving DecidableEq, Repr

/-- Declarations that the grammar knows by their first word only. -/
inductive Unsupported where
  | enums
  | oneofs
  | extensions
deriving DecidableEq, Repr

/-- Why a source is refused. -/
inductive Cause where
  | unreadable (reason : String)
  | unexpectedByte (b : UInt8)
  | danglingDot
  | unterminatedString
  | unterminatedComment
  | leadingZero (digits : String)
  | invalidUtf8 (inside : Kind) (fault : Utf8.Fault)
  | expected (what : Demand) (found : Found)
  | unexpectedToken (token : Token) (context : String)
  | duplicateDialect
  | duplicatePackage
  | unsupported (what : Unsupported)
  | unknownDialect (word : String)
  | invalidField (cause : Cause)
  | plain (text : String)
  | numberOutOfRange (number : Nat)
  | invalidKey (type : FieldType)
  | duplicateNumber (number : Int) (message first second : String)
  | duplicateName (name message : String)
deriving DecidableEq, Repr

/-- The highest number that a field may have. -/
def maxFieldNumber : Nat := 65535

/-- The wording of a demand. -/
def Demand.message : Demand → String
  | kinds ks => " or ".intercalate (ks.map Kind.describe)
  | phrase s => s

/-- The wording of what is found. -/
def Found.message : Found → String
  | token t => t.describe
  | endOfInput => "end of input"

/-- The wording of an unsupported declaration. -/
def Unsupported.message : Unsupported → String
  | enums => "enum declarations"
  | oneofs => "oneof blocks"
  | extensions => "extend blocks"

namespace Cause

/-- The wording of a cause. -/
def message : Cause → String
  | unreadable reason => "Failed to read source: " ++ reason
  | unexpectedByte b => "Unexpected character " ++ Text.quoted (String.ofList [Char.ofNat b.toNat])
  | danglingDot => "Identifier required after a dot"
  | unterminatedString => "Unterminated string literal"
  | unterminatedComment => "Unterminated block comment"
  | leadingZero digits => "Integer literal " ++ Text.quoted digits ++ " has a leading zero"
  | invalidUtf8 inside fault =>
    "Invalid UTF-8 in " ++ inside.className ++ ": " ++ fault.message
  | expected what found => "expected " ++ what.message ++ ", got " ++ found.message
  | unexpectedToken t context =>
    "unexpected token " ++ t.describe ++ (if context.isEmpty then "" else " " ++ context)
  | duplicateDialect => "Duplicate syntax declaration"
  | duplicatePackage => "Duplicate package declaration"
  | unsupported what => what.message ++ " are not supported yet"
  | unknownDialect word =>
    "expected a syntax of either 'proto3' or 'proto2', got " ++ Text.quoted word
  | invalidField cause => "invalid message field: " ++ cause.message
  | plain text => text
  | numberOutOfRange number =>
    "Field number " ++ toString number ++ " out of range (1-" ++ toString maxFieldNumber ++ ")"
  | invalidKey type => "Invalid map key type '" ++ type.text ++ "'"
  | duplicateNumber number message first second =>
    "Duplicate field number " ++ toString number ++ " in " ++ message ++ ": " ++ first ++
      " and " ++ second
  | duplicateName name message => "Duplicate field name " ++ name ++ " in " ++ message

/-- The layer that finds a cause. -/
def layer : Cause → Layer
  | unreadable _ => .source
  | unexpectedByte _ | danglingDot | unterminatedString | unterminatedComment | leadingZero _ =>
    .lexical
  | expected _ _ | unexpectedToken _ _ | duplicateDialect | duplicatePackage | unsupported _
  | unknownDialect _ | invalidField _ | plain _ => .syntactic
  | invalidUtf8 _ _ | numberOutOfRange _ | invalidKey _ | duplicateNumber _ _ _ _
  | duplicateName _ _ => .semantic

end Cause

/-- A cause and the place where the source is refused. -/
structure SourceError where
  cause : Cause
  position : Position
deriving DecidableEq, Repr

/-- An error in one line, place first. -/
def SourceError.message (e : SourceError) : String :=
  "Line " ++ toString e.position.line ++ ", Column " ++ toString e.position.column ++ ": " ++
    e.cause.message

/-- Why reading stops before it has a result. -/
inductive Failure where
  | refused (e : SourceError)
  | numberTooLong (limit : Nat)
  | windowTooSmall (size : Nat)
deriving DecidableEq, Repr

/-- The wording of a failure. -/
def Failure.message : Failure → String
  | refused e => e.message
  | numberTooLong limit =>
    "Exceeds the limit (" ++ toString limit ++ " digits) for integer string conversion"
  | windowTooSmall size => "Lookahead is limited to " ++ toString size ++ " bytes"

/-- The failure of a field declaration: what is wrong with its syntax is wrong with the field. -/
def Failure.inField : Failure → Failure
  | refused ⟨cause, p⟩ =>
    if cause.layer = .syntactic then refused ⟨.invalidField cause, p⟩ else refused ⟨cause, p⟩
  | f => f

end ProtoSchema
