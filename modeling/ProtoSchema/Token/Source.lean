import ProtoSchema.Token.Lexer

/-!
# ProtoSchema.Token.Source

Tokens that are read one after another, comments left out. This is all that the syntactic grammar
sees of a source: the next token, and the place that has been reached when there is none. Every
byte input is a source of tokens by way of the lexer.
-/

namespace ProtoSchema

/-- Tokens that are read one after another. -/
class TokenSource (σ : Type) where
  /-- The next token that is no comment; nothing at the end. -/
  next : Scan σ (Option Token)
  /-- The place that has been reached. -/
  position : σ → Position
  /-- A bound on the number of tokens that are left. -/
  left : σ → Nat

/-- Whether a token is a comment. -/
def Token.isComment (t : Token) : Bool := t.lexeme.kind == .comment

instance {σ : Type} [ByteInput σ] : TokenSource σ where
  next := Scan.first (!·.isComment) Lexer.next Lexer.progresses_next
  position := ByteInput.position
  left := ByteInput.left

end ProtoSchema
