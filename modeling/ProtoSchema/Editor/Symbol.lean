import ProtoSchema.Document
import ProtoSchema.Editor.Range

/-!
# ProtoSchema.Editor.Symbol

The outline of a document: a symbol for each message, field, service and method. Nested messages
come before the fields of their message. A symbol stands at the first token of its declaration and
is as long as its name.
-/

namespace ProtoSchema

inductive SymbolKind where
  | message
  | field
  | service
  | method
deriving DecidableEq, Repr

/-- The number that editors give to a kind of symbols: messages are structs, services are
interfaces. -/
def SymbolKind.code : SymbolKind → Nat
  | message => 23
  | field => 8
  | service => 11
  | method => 6

structure Symbol where
  name : String
  kind : SymbolKind
  range : Range
  selection : Range
  children : List Symbol
deriving Repr

/-- The symbol of a declaration at a place. -/
def Symbol.at (protocol : Protocol) (lines : List (List Char)) (e : Encoding) (name : String)
    (kind : SymbolKind) (p : Position) (children : List Symbol) : Except String Symbol := do
  let range ← rangeAt protocol lines p.line p.column name.length e
  return ⟨name, kind, range, range, children⟩

mutual

/-- The symbol of a message: those inside it come first, so that they are sent before it. -/
def Message.symbol (protocol : Protocol) (lines : List (List Char)) (e : Encoding) :
    Message → Except String Symbol
  | ⟨name, fields, nested, _, p⟩ => do
    let inner ← nestedSymbols protocol lines e nested
    let own ← fields.mapM fun f => Symbol.at protocol lines e f.name .field f.position []
    Symbol.at protocol lines e name .message p (inner ++ own)

def nestedSymbols (protocol : Protocol) (lines : List (List Char)) (e : Encoding) :
    List Message → Except String (List Symbol)
  | [] => return []
  | m :: ms => do
    let s ← m.symbol protocol lines e
    let ss ← nestedSymbols protocol lines e ms
    return s :: ss

end

def Service.symbol (protocol : Protocol) (lines : List (List Char)) (e : Encoding) (s : Service) :
    Except String Symbol := do
  let methods ← s.rpcs.mapM fun r => Symbol.at protocol lines e r.name .method r.position []
  Symbol.at protocol lines e s.name .service s.position methods

/-- The outline of a document, with the text that its places refer to. -/
def Document.symbols (protocol : Protocol) (d : Document) (text : String) (e : Encoding) :
    Except String (List Symbol) := do
  let lines := Text.lines text.toList
  let messages ← nestedSymbols protocol lines e d.messages
  let services ← d.services.mapM (·.symbol protocol lines e)
  return messages ++ services

end ProtoSchema
