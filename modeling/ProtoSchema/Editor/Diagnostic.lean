import ProtoSchema.Document.Read
import ProtoSchema.Editor.Range

/-!
# ProtoSchema.Editor.Diagnostic

Diagnostics. A text either holds a document or is refused with one error, and the diagnostic of
that error covers one character at its place. A failure that has no place gives no verdict, and
neither does an error at a place that the protocol has no numbers for.
-/

namespace ProtoSchema

/-- A complaint about a range of a text, by the checker that `source` names. -/
structure Diagnostic where
  range : Range
  source : String
  message : String
deriving DecidableEq, Repr

/-- The severity of a diagnostic, as editors number them: all are errors. -/
def Diagnostic.severity (_ : Diagnostic) : Nat := 1

/-- The diagnostic of an error in a text that is given by its lines. -/
def SourceError.diagnostic (protocol : Protocol) (e : SourceError) (lines : List (List Char))
    (source : String) (enc : Encoding) : Except String Diagnostic := do
  let range ← rangeAt protocol lines e.position.line e.position.column 1 enc
  return ⟨range, source, e.cause.message⟩

/-- What checking a text finds. -/
inductive Verdict where
  | accepted (d : Document)
  | refused (d : Diagnostic)

namespace Verdict

def document? : Verdict → Option Document
  | accepted d => some d
  | refused _ => none

def diagnostics : Verdict → List Diagnostic
  | accepted _ => []
  | refused d => [d]

end Verdict

/-- Why an editor gets no answer: a text is not read to a verdict, or the protocol refuses a spot. -/
inductive EditorError where
  | reading (f : Failure)
  | spot (refusal : String)
deriving DecidableEq, Repr

/-- The wording of an error. -/
def EditorError.message : EditorError → String
  | reading f => f.message
  | spot refusal => refusal

/-- Checks the text of the document `uri` on behalf of the checker `source`. -/
def check (protocol : Protocol) (text uri source : String) (enc : Encoding) :
    Except EditorError Verdict :=
  match Document.ofText text (some uri) with
  | .ok d => .ok (.accepted d)
  | .error (.refused e) =>
    match e.diagnostic protocol (Text.lines text.toList) source enc with
    | .ok d => .ok (.refused d)
    | .error refusal => .error (.spot refusal)
  | .error f => .error (.reading f)

end ProtoSchema
