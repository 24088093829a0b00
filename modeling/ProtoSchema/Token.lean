import ProtoSchema.Position
import ProtoSchema.Text.Quoted

/-!
# ProtoSchema.Token

Tokens of a schema source. A token is a lexeme at a place. Lexemes fall into 39 kinds: one for each
keyword and punctuation mark, and one each for the five classes of lexemes that carry a text of
their own. A `Form` is what a token shows of itself in messages: its kind and a plain value.
-/

namespace ProtoSchema

inductive Scalar where
  | bool
  | string
  | bytes
  | float
  | double
deriving DecidableEq, Repr

/-- Words that are no identifiers when they stand alone. -/
inductive Keyword where
  | syntaxWord
  | packageWord
  | optionWord
  | importWord
  | messageWord
  | serviceWord
  | enumWord
  | oneofWord
  | repeatedWord
  | weakWord
  | publicWord
  | reservedWord
  | extendWord
  | extensionsWord
  | toWord
  | maxWord
  | mapWord
  | scalar (s : Scalar)
deriving DecidableEq, Repr

inductive Punct where
  | semi
  | equals
  | lbrace
  | rbrace
  | lparen
  | rparen
  | lbracket
  | rbracket
  | colon
  | langle
  | rangle
  | comma
deriving DecidableEq, Repr

def Scalar.word : Scalar → String
  | .bool => "bool"
  | .string => "string"
  | .bytes => "bytes"
  | .float => "float"
  | .double => "double"

namespace Keyword

def word : Keyword → String
  | syntaxWord => "syntax"
  | packageWord => "package"
  | optionWord => "option"
  | importWord => "import"
  | messageWord => "message"
  | serviceWord => "service"
  | enumWord => "enum"
  | oneofWord => "oneof"
  | repeatedWord => "repeated"
  | weakWord => "weak"
  | publicWord => "public"
  | reservedWord => "reserved"
  | extendWord => "extend"
  | extensionsWord => "extensions"
  | toWord => "to"
  | maxWord => "max"
  | mapWord => "map"
  | scalar s => s.word

/-- All keywords, in the order of their numbers. -/
def all : List Keyword :=
  [syntaxWord, packageWord, optionWord, importWord, messageWord, serviceWord, enumWord, oneofWord,
    repeatedWord, weakWord, publicWord, reservedWord, extendWord, extensionsWord, toWord, maxWord,
    mapWord, scalar .bool, scalar .string, scalar .bytes, scalar .float, scalar .double]

theorem mem_all (k : Keyword) : k ∈ all := by
  cases k with
  | scalar s => cases s <;> decide
  | _ => decide

def ofWord? (s : String) : Option Keyword := all.find? (·.word == s)

end Keyword

namespace Punct

def byte : Punct → UInt8
  | semi => 0x3B
  | equals => 0x3D
  | lbrace => 0x7B
  | rbrace => 0x7D
  | lparen => 0x28
  | rparen => 0x29
  | lbracket => 0x5B
  | rbracket => 0x5D
  | colon => 0x3A
  | langle => 0x3C
  | rangle => 0x3E
  | comma => 0x2C

def word (p : Punct) : String := String.ofList [Char.ofNat p.byte.toNat]

/-- All punctuation marks, in the order of their numbers. -/
def all : List Punct :=
  [semi, equals, lbrace, rbrace, lparen, rparen, lbracket, rbracket, colon, langle, rangle, comma]

def ofByte? (b : UInt8) : Option Punct := all.find? (·.byte == b)

end Punct

/-- The kind of a lexeme. -/
inductive Kind where
  | keyword (k : Keyword)
  | ident
  | dotted
  | text
  | number
  | punct (p : Punct)
  | comment
deriving DecidableEq, Repr

namespace Kind

/-- All kinds, in the order of their numbers. -/
def all : List Kind :=
  Keyword.all.map keyword ++ [ident, dotted, text, number] ++ Punct.all.map punct ++ [comment]

/-- The number of a kind, counted from 1. -/
def ordinal (k : Kind) : Nat := all.idxOf k + 1

def punctName : Punct → String
  | .semi => "SEMI"
  | .equals => "EQUALS"
  | .lbrace => "LBRACE"
  | .rbrace => "RBRACE"
  | .lparen => "LPAREN"
  | .rparen => "RPAREN"
  | .lbracket => "LBRACKET"
  | .rbracket => "RBRACKET"
  | .colon => "COLON"
  | .langle => "LANGLE"
  | .rangle => "RANGLE"
  | .comma => "COMMA"

/-- The name of a kind; a keyword's is its spelling in capitals. -/
def name : Kind → String
  | keyword k => String.ofList (k.word.toList.map Char.toUpper)
  | ident => "IDENT"
  | dotted => "FULL_IDENT"
  | text => "STRING_LITERAL"
  | number => "INT_LITERAL"
  | punct p => punctName p
  | comment => "COMMENT"

def ofName? (s : String) : Option Kind := all.find? (·.name == s)

/-- The one spelling of the lexemes of a kind, if there is only one. -/
def spelling? : Kind → Option String
  | keyword k => some k.word
  | punct p => some p.word
  | _ => none

def className : Kind → String
  | keyword _ => "keyword"
  | ident => "identifier"
  | dotted => "full identifier"
  | text => "string literal"
  | number => "integer literal"
  | punct _ => "punctuation mark"
  | comment => "comment"

/-- What messages call a kind: the one spelling of its lexemes, else their class. -/
def describe (k : Kind) : String :=
  match k.spelling? with
  | some s => "'" ++ s ++ "'"
  | none => k.className

/-- What messages call a token of a kind: the one spelling of its lexemes, else their class and the
text of the token. -/
def describeToken (k : Kind) (text : String) : String :=
  match k.spelling? with
  | some _ => k.describe
  | none => k.className ++ " " ++ Text.quoted text

end Kind

/-- What stands at one place of a source: a keyword, a plain or a dotted identifier, the value of a
string, the value of a number, a punctuation mark, or the body of a comment. -/
inductive Lexeme where
  | keyword (k : Keyword)
  | ident (name : String)
  | dotted (segments : List String)
  | text (value : String)
  | number (value : Nat)
  | punct (p : Punct)
  | comment (body : String)
deriving DecidableEq, Repr

/-- A lexeme and the place of its first byte. -/
structure Token where
  lexeme : Lexeme
  position : Position
deriving DecidableEq, Repr

/-- The kind of a lexeme. -/
def Lexeme.kind : Lexeme → Kind
  | keyword k => .keyword k
  | ident _ => .ident
  | dotted _ => .dotted
  | text _ => .text
  | number _ => .number
  | punct p => .punct p
  | comment _ => .comment

/-- The value that a token shows: a text, a number, or the segments of a dotted identifier. -/
inductive Form.Value where
  | text (s : String)
  | number (n : Int)
  | segments (ss : List String)
deriving DecidableEq, Repr

/-- What a token shows of itself. -/
structure Form where
  kind : Kind
  value : Form.Value
  position : Position
deriving DecidableEq, Repr

def Lexeme.value : Lexeme → Form.Value
  | keyword k => .text k.word
  | ident n => .text n
  | dotted ss => .segments ss
  | text s => .text s
  | number n => .number n
  | punct p => .text p.word
  | comment s => .text s

def Token.form (t : Token) : Form := ⟨t.lexeme.kind, t.lexeme.value, t.position⟩

namespace Form

/-- A list of texts, quoted and in parentheses; a comma follows a single one. -/
def tuple : List String → String
  | [] => "()"
  | [s] => "(" ++ Text.quoted s ++ ",)"
  | ss => "(" ++ ", ".intercalate (ss.map Text.quoted) ++ ")"

def Value.quoted : Value → String
  | .text s => Text.quoted s
  | .number n => toString n
  | .segments ss => tuple ss

def Value.plain : Value → String
  | .text s => s
  | .number n => toString n
  | .segments ss => tuple ss

/-- The text of a form. A dotted identifier joins its parts by dots; a plain text in their place is
taken as one part for each character, and a number has no parts. -/
def text? (f : Form) : Option String :=
  match f.kind, f.value with
  | .dotted, .segments ss => some (".".intercalate ss)
  | .dotted, .text s => some (".".intercalate (s.toList.map fun c => String.ofList [c]))
  | .dotted, .number _ => none
  | _, v => some v.plain

def noTextMessage : String := "can only join an iterable"

/-- The parts of a form: the segments of a dotted identifier, else its value alone. -/
def parts (f : Form) : List Value :=
  match f.kind, f.value with
  | .dotted, .segments ss => ss.map .text
  | _, v => [v]

/-- What messages call a form: its kind, and its text where the kind leaves it open. -/
def describe? (f : Form) : Option String := f.text?.map f.kind.describeToken

/-- A token in full: kind, value and place. -/
def display (f : Form) : String :=
  "Token(" ++ f.kind.name ++ ", " ++ f.value.quoted ++ ", " ++
    toString f.position.line ++ ":" ++ toString f.position.column ++ ")"

end Form

/-- The text of a lexeme: the segments of a dotted identifier joined by dots, else the value. -/
def Lexeme.plain : Lexeme → String
  | dotted ss => ".".intercalate ss
  | l => l.value.plain

def Token.describe (t : Token) : String := t.lexeme.kind.describeToken t.lexeme.plain

end ProtoSchema
