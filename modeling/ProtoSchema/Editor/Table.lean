/-!
# ProtoSchema.Editor.Table

Maps from names, as lists of entries in the order in which the names have come in. A name has at most one
entry: a new value takes the place of the old one.
-/

namespace ProtoSchema

abbrev Table (α : Type) := List (String × α)

namespace Table

variable {α : Type}

def names (t : Table α) : List String := t.map (·.1)

def find? (t : Table α) (name : String) : Option α := t.lookup name

def put (name : String) (a : α) : Table α → Table α
  | [] => [(name, a)]
  | (n, b) :: t => if n = name then (n, a) :: t else (n, b) :: put name a t

def erase (t : Table α) (name : String) : Table α := t.filter (·.1 != name)

end Table
end ProtoSchema
