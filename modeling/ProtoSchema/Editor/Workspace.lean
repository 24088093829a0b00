import ProtoSchema.Editor.Diagnostic
import ProtoSchema.Editor.Symbol
import ProtoSchema.Editor.Table

/-!
# ProtoSchema.Editor.Workspace

The documents that an editor has open. A workspace keeps the latest text of each and, in a table of its
own, what the text holds; every new text is read from scratch, and its diagnostics are published.
`Workspace.handle` answers one request and says what it publishes. A request that gets no answer publishes
nothing and leaves the workspace as it is (`Workspace.step`); `Workspace.run` takes a list of requests one
after another, whatever becomes of each.
-/

namespace ProtoSchema

/-- The state of a server: what it is called, the encoding that has been agreed on, what the open
documents hold and their texts, each by name, and whether a shutdown has been asked for. A document that
could not be read holds nothing. -/
structure Workspace where
  name : String
  version : String
  encoding : Encoding
  documents : Table (Option Document)
  texts : Table String
  closing : Bool
deriving DecidableEq, Repr

inductive Request where
  | opened (uri text : String)
  | changed (uri text : String)
  | closed (uri : String)
  | outline (uri : String)
  | shutdown
  | agree (e : Encoding)
  | analyze (uri text : String) (e : Encoding)
  | forget (uri : String)
  | symbols (uri : String) (e : Encoding)

inductive Answer where
  | nothing
  | document (d : Option Document)
  | symbols (ss : List Symbol)
  | noText (uri : String)
  | shuttingDown

/-- The wording of the refusal that follows a shutdown. -/
def shuttingDownMessage : String := "Server is shutting down"

/-- An answer, and the lists of diagnostics that are published with it, each for one document. -/
structure Reply where
  answer : Answer
  published : List (String × List Diagnostic)

namespace Workspace

/-- The name and the version of a server that is given none. -/
def defaultName : String := "proto-ls"

def defaultVersion : String := "0.1.0"

def empty (name version : String) (e : Encoding) : Workspace := ⟨name, version, e, [], [], false⟩

/-- The notifications and requests that a server registers for, by their protocol names. -/
def features : List String :=
  ["textDocument/didOpen", "textDocument/didChange", "textDocument/didClose", "shutdown",
    "textDocument/documentSymbol"]

variable (protocol : Protocol) (w : Workspace)

/-- Takes a new text for a document; the answer is what the text holds. -/
def analyze (uri text : String) (e : Encoding) : Except EditorError (Reply × Workspace) :=
  match check protocol text uri w.name e with
  | .ok v =>
    .ok (⟨.document v.document?, [(uri, v.diagnostics)]⟩,
      { w with documents := w.documents.put uri v.document?, texts := w.texts.put uri text })
  | .error f => .error f

/-- Takes a new text for a document in the encoding agreed on. -/
def refresh (uri text : String) : Except EditorError (Reply × Workspace) :=
  match w.analyze protocol uri text w.encoding with
  | .ok (r, w') => .ok ({ r with answer := .nothing }, w')
  | .error f => .error f

/-- Drops a document and takes its diagnostics back. -/
def forget (uri : String) : Reply × Workspace :=
  (⟨.nothing, [(uri, [])]⟩,
    { w with documents := w.documents.erase uri, texts := w.texts.erase uri })

/-- The outline of a document; empty if there is no such document. The text of a document that is there
must be there too. -/
def symbols (uri : String) (e : Encoding) : Except EditorError Answer :=
  match w.documents.find? uri with
  | some (some d) =>
    match w.texts.find? uri with
    | some text =>
      match d.symbols protocol text e with
      | .ok ss => .ok (.symbols ss)
      | .error refusal => .error (.spot refusal)
    | none => .ok (.noText uri)
  | _ => .ok (.symbols [])

/-- Answers a request. The one request that a workspace refuses once a shutdown has been asked for
is the one for an outline. -/
def handle : Request → Except EditorError (Reply × Workspace)
  | .opened uri text => w.refresh protocol uri text
  | .changed uri text => w.refresh protocol uri text
  | .closed uri => .ok (w.forget uri)
  | .outline uri =>
    if w.closing then .ok (⟨.shuttingDown, []⟩, w)
    else (w.symbols protocol uri w.encoding).map fun a => (⟨a, []⟩, w)
  | .shutdown => .ok (⟨.nothing, []⟩, { w with closing := true })
  | .agree e => .ok (⟨.nothing, []⟩, { w with encoding := e })
  | .analyze uri text e => w.analyze protocol uri text e
  | .forget uri => .ok (w.forget uri)
  | .symbols uri e => (w.symbols protocol uri e).map fun a => (⟨a, []⟩, w)

/-- What comes of a request: its reply and the workspace behind it, or an error and the workspace as it
was. -/
def step (r : Request) : Except EditorError Reply × Workspace :=
  match w.handle protocol r with
  | .ok (reply, w') => (.ok reply, w')
  | .error f => (.error f, w)

/-- Takes requests one after another. -/
def run (w : Workspace) : List Request → List (Except EditorError Reply) × Workspace
  | [] => ([], w)
  | r :: rs =>
    let (outcome, w₁) := w.step protocol r
    let (outcomes, w') := run w₁ rs
    (outcome :: outcomes, w')

end Workspace
end ProtoSchema
