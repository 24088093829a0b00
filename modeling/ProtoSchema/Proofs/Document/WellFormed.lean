import ProtoSchema.Proofs.Document.Valid
import ProtoSchema.Token.Lexer

/-!
# ProtoSchema.Proofs.Document.WellFormed

Well-formed documents: those whose names, option values and types can be written as schema text, and
that keep the rules about declarations. A name by itself is an identifier and no keyword; the
segments of a dotted name may be keywords.
-/

namespace ProtoSchema

/-- A letter and then letters, digits and underscores. -/
def IsIdentifier (s : String) : Prop :=
  ∃ c cs, s.toList = c :: cs ∧ c.isAlpha = true ∧ ∀ d ∈ cs, d.isAlphanum = true ∨ d = '_'

/-- An identifier that is no keyword. -/
def IsPlainName (s : String) : Prop := IsIdentifier s ∧ ∀ k : Keyword, k.word ≠ s

/-- The segments of a dotted name: at least two identifiers. -/
def IsDotted (ss : List String) : Prop := 2 ≤ ss.length ∧ ∀ s ∈ ss, IsIdentifier s

/-- The segments of a name that may be dotted. -/
def IsPath (ss : List String) : Prop := (∃ s, ss = [s] ∧ IsPlainName s) ∨ IsDotted ss

/-- A name that may be dotted, as its text. -/
def IsPathText (t : String) : Prop := ∃ ss, IsPath ss ∧ t = ".".intercalate ss

/-- A decimal numeral that is not too long to be read. -/
def IsNumberText (t : String) : Prop :=
  ∃ n : Nat, t = toString n ∧ t.length ≤ Lexer.maxDigits

def OptionValue.WellFormed : OptionValue → Prop
  | quoted _ => True
  | bare t => IsPathText t ∨ IsNumberText t

structure OptionDecl.WellFormed (o : OptionDecl) : Prop where
  name : IsPathText o.name
  value : o.value.WellFormed

/-- All names in a type are names that a type may have. -/
def FieldType.Named : FieldType → Prop
  | scalar _ => True
  | named n => IsPlainName n
  | dotted ss => IsDotted ss
  | map k v => k.Named ∧ v.Named

structure Field.Named (f : Field) : Prop where
  type : f.type.Named
  name : IsIdentifier f.name

/-- The names of a message by itself, apart from those nested in it. -/
structure Message.Named (m : Message) : Prop where
  name : IsPlainName m.name
  fields_named : ∀ f ∈ m.fields, f.Named
  options : ∀ o ∈ m.options, o.WellFormed

/-- What is asked of a message by itself, apart from those nested in it. -/
structure Message.WellFormed (m : Message) : Prop extends m.Named, m.Valid

structure Rpc.WellFormed (r : Rpc) : Prop where
  name : IsPlainName r.name
  params_ne_nil : r.params ≠ []
  params : ∀ p ∈ r.params, IsPathText p
  returns : IsPathText r.returns

structure Service.WellFormed (s : Service) : Prop where
  name : IsPlainName s.name
  rpcs : ∀ r ∈ s.rpcs, r.WellFormed
  options : ∀ o ∈ s.options, o.WellFormed

structure Document.WellFormed (d : Document) : Prop where
  package : d.package = [] ∨ IsPath d.package
  options : ∀ o ∈ d.options, o.WellFormed
  messages : ∀ m ∈ d.messages, m.Everywhere Message.WellFormed
  services : ∀ s ∈ d.services, s.WellFormed

theorem Document.WellFormed.valid {d : Document} (h : d.WellFormed) : d.Valid :=
  fun m hm => (h.messages m hm).mono fun _ hw => hw.toValid

end ProtoSchema
