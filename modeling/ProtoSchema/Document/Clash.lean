import ProtoSchema.Error

/-!
# ProtoSchema.Document.Clash

Fields of one message must differ in number and in name. The first field that shares its number or
its name with an earlier one is refused; of the two complaints, the one about the number comes
first.
-/

namespace ProtoSchema

/-- What is wrong with a field after the fields `earlier` of the same message. -/
def Field.clash? (message : String) (earlier : List Field) (f : Field) : Option Cause :=
  match earlier.find? (·.number == f.number) with
  | some g => some (.duplicateNumber f.number message g.name f.name)
  | none => if earlier.any (·.name == f.name) then some (.duplicateName f.name message) else none

/-- The error at the first field that clashes with one of the fields before it. -/
def firstClash? (message : String) (earlier : List Field) : List Field → Option SourceError
  | [] => none
  | f :: fs =>
    match f.clash? message earlier with
    | some cause => some ⟨cause, f.position⟩
    | none => firstClash? message (earlier ++ [f]) fs

end ProtoSchema
