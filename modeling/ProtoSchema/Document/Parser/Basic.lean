import ProtoSchema.Token.Source

/-!
# ProtoSchema.Document.Parser.Basic

The steps that the productions of the syntactic grammar are made of. Each takes one token and
either reads it as what it asks for or refuses it, saying what it has asked for and what it has
found; at the end of the input the refusal is at the place that has been reached.

Productions that repeat take a budget, a bound on the tokens they may still use; `budgeted` gives
them more than there are tokens left.
-/

namespace ProtoSchema
namespace Parser

open Scan

variable {σ α : Type} [TokenSource σ]

/-- The next token that is no comment; nothing at the end. -/
def token? : Scan σ (Option Token) := TokenSource.next

def here : Scan σ Position := fun s => .ok (TokenSource.position s) s

def refuseEnd (what : Demand) : Scan σ α := do
  let p ← here
  refuse (.expected what .endOfInput) p

def refuseToken (what : Demand) (t : Token) : Scan σ α :=
  refuse (.expected what (.token t)) t.position

/-- The next token, which must be there. -/
def require (what : Demand) : Scan σ Token := do
  match ← token? with
  | some t => pure t
  | none => refuseEnd what

/-- The next token as `read` understands it. -/
def accept (what : Demand) (read : Token → Option α) : Scan σ α := do
  let t ← require what
  match read t with
  | some a => pure a
  | none => refuseToken what t

/-- The next token, which must be of one of the kinds. -/
def expect (ks : List Kind) : Scan σ Token :=
  accept (.kinds ks) fun t => if ks.contains t.lexeme.kind then some t else none

def keyword (k : Keyword) : Scan σ Unit :=
  accept (.kinds [.keyword k]) fun t => if t.lexeme = .keyword k then some () else none

def punct (p : Punct) : Scan σ Unit :=
  accept (.kinds [.punct p]) fun t => if t.lexeme = .punct p then some () else none

/-- One of two punctuation marks; whether it is the first. -/
def either (p q : Punct) : Scan σ Bool :=
  accept (.kinds [.punct p, .punct q]) fun t =>
    if t.lexeme = .punct p then some true
    else if t.lexeme = .punct q then some false
    else none

/-- The name that a token has as a plain identifier. -/
def identOf? (t : Token) : Option String :=
  match t.lexeme with
  | .ident n => some n
  | _ => none

/-- The name that a token has where keywords are names too. -/
def nameOf? (t : Token) : Option String :=
  match t.lexeme with
  | .ident n => some n
  | .keyword k => some k.word
  | _ => none

/-- The segments of a token that is a plain or dotted identifier. -/
def segmentsOf? (t : Token) : Option (List String) :=
  match t.lexeme with
  | .ident n => some [n]
  | .dotted ss => some ss
  | _ => none

def ident : Scan σ String := accept (.kinds [.ident]) identOf?

/-- A name, for which keywords serve too. -/
def name (what : String) : Scan σ String := accept (.phrase what) nameOf?

/-- The token of a name, for which keywords serve too. -/
def expectName (what : String) : Scan σ Token :=
  accept (.phrase what) fun t => (nameOf? t).map fun _ => t

/-- A plain or dotted identifier, as its segments. -/
def segments : Scan σ (List String) := accept (.kinds [.ident, .dotted]) segmentsOf?

/-- A plain or dotted identifier, as its text. -/
def reference : Scan σ String := do
  let ss ← segments
  pure (".".intercalate ss)

/-- A number, with its place. -/
def number : Scan σ (Nat × Position) :=
  accept (.kinds [.number]) fun t =>
    match t.lexeme with
    | .number n => some (n, t.position)
    | _ => none

def unexpected (t : Token) (context : String) : SourceError :=
  ⟨.unexpectedToken t context, t.position⟩

/-- The error, in words of the caller's, of the place that has been reached. -/
def errorHere (text : String) : Scan σ SourceError := do
  let p ← here
  pure ⟨.plain text, p⟩

/-- Runs a production with more budget than there are tokens left. -/
def budgeted (p : Nat → Scan σ α) : Scan σ α := fun s => p (TokenSource.left s + 1) s

end Parser
end ProtoSchema
