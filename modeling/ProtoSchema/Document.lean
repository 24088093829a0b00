import ProtoSchema.Token

/-!
# ProtoSchema.Document

What a schema source declares. A `Document` lists its imports, options, messages and services in
source order, each with the place of its first token; messages nest. Two documents are equal if
they agree in everything, places and the name of the source included.
-/

namespace ProtoSchema

/-- The dialect that a schema is written in. -/
inductive Dialect where
  | proto2
  | proto3
deriving DecidableEq, Repr

namespace Dialect

def word : Dialect → String
  | proto2 => "proto2"
  | proto3 => "proto3"

def ofWord? (s : String) : Option Dialect := [proto2, proto3].find? (·.word == s)

end Dialect

/-- How a schema imports another: for itself, weakly, or also for those that import it. -/
inductive ImportKind where
  | plain
  | weak
  | shared
deriving DecidableEq, Repr

structure ImportDecl where
  path : String
  kind : ImportKind
  position : Position
deriving DecidableEq, Repr

/-- The value of an option: a string, or a name or number that stands without quotes. -/
inductive OptionValue where
  | quoted (text : String)
  | bare (text : String)
deriving DecidableEq, Repr

structure OptionDecl where
  name : String
  value : OptionValue
  position : Position
deriving DecidableEq, Repr

/-- The type of a field: a scalar keyword, a plain or dotted name, or a map. -/
inductive FieldType where
  | scalar (s : Scalar)
  | named (name : String)
  | dotted (segments : List String)
  | map (key value : FieldType)
deriving DecidableEq, Repr

namespace FieldType

def text : FieldType → String
  | scalar s => s.word
  | named n => n
  | dotted ss => ".".intercalate ss
  | map k v => "map<" ++ k.text ++ ", " ++ v.text ++ ">"

/-- Whether a map may have keys of this type: all but maps, bytes and the floating types. -/
def isKey : FieldType → Bool
  | map _ _ => false
  | scalar .bytes | scalar .float | scalar .double => false
  | _ => true

end FieldType

structure Field where
  type : FieldType
  name : String
  number : Int
  repeated : Bool
  position : Position
deriving DecidableEq, Repr

structure Message where
  name : String
  fields : List Field
  nested : List Message
  options : List OptionDecl
  position : Position
deriving Repr

structure Rpc where
  name : String
  params : List String
  returns : String
  position : Position
deriving DecidableEq, Repr

structure Service where
  name : String
  rpcs : List Rpc
  options : List OptionDecl
  position : Position
deriving DecidableEq, Repr

mutual

/-- Equality of messages is decided member by member. -/
def Message.decEq : (a b : Message) → Decidable (a = b)
  | ⟨n₁, f₁, m₁, o₁, p₁⟩, ⟨n₂, f₂, m₂, o₂, p₂⟩ =>
    match Message.decEqList m₁ m₂ with
    | .isFalse h => .isFalse (by intro e; cases e; exact h rfl)
    | .isTrue h =>
      if hs : n₁ = n₂ ∧ f₁ = f₂ ∧ o₁ = o₂ ∧ p₁ = p₂ then
        .isTrue (by obtain ⟨rfl, rfl, rfl, rfl⟩ := hs; rw [h])
      else .isFalse (by intro e; cases e; exact hs ⟨rfl, rfl, rfl, rfl⟩)

/-- Equality of lists of messages is decided message by message. -/
def Message.decEqList : (as bs : List Message) → Decidable (as = bs)
  | [], [] => .isTrue rfl
  | [], _ :: _ => .isFalse (by simp)
  | _ :: _, [] => .isFalse (by simp)
  | a :: as, b :: bs =>
    match Message.decEq a b, Message.decEqList as bs with
    | .isTrue h, .isTrue hs => .isTrue (by rw [h, hs])
    | .isFalse h, _ => .isFalse (by intro e; cases e; exact h rfl)
    | _, .isFalse hs => .isFalse (by intro e; cases e; exact hs rfl)

end

instance : DecidableEq Message := Message.decEq

structure Document where
  dialect : Dialect
  package : List String
  imports : List ImportDecl
  options : List OptionDecl
  messages : List Message
  services : List Service
  source : Option String
deriving DecidableEq, Repr

/-- The name of the package, empty if there is none. -/
def Document.packageName (d : Document) : String := ".".intercalate d.package

end ProtoSchema
