import ProtoSchema.Document.Parser
import ProtoSchema.Input.Bytes
import ProtoSchema.Input.Cursor

/-!
# ProtoSchema.Document.Read

Reading a whole document from bytes in memory, from text, or from a stream.
-/

namespace ProtoSchema
namespace Document

/-- The document that is left on an input. -/
def ofInput {σ : Type} [ByteInput σ] (s : σ) (source : Option String) :
    Except Failure Document :=
  match Parser.document source s with
  | .ok d _ => .ok d
  | .error e _ => .error e

def ofBytes (bs : List UInt8) (source : Option String) : Except Failure Document :=
  ofInput (Bytes.ofList bs) source

def ofText (s : String) (source : Option String) : Except Failure Document :=
  ofBytes (Utf8.encode s.toList) source

def ofStream (s : Stream) (source : Option String) : Except Failure Document :=
  ofInput (Cursor.ofStream s) source

end Document
end ProtoSchema
