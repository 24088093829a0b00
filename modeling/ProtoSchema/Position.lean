/-!
# ProtoSchema.Position

Places in a source. A place is a line and a column, both counted from 1; a column counts bytes,
and the line feed is the one byte that starts a new line. What has not been read from a source may
have numbers below 1 for its place.
-/

namespace ProtoSchema

structure Position where
  line : Int
  column : Int
deriving DecidableEq, Repr

namespace Position

/-- The place of the first byte of a source. -/
def first : Position := ⟨1, 1⟩

/-- The place of the byte that follows the byte `b` at `p`. -/
def next (p : Position) (b : UInt8) : Position :=
  if b = 0x0A then ⟨p.line + 1, 1⟩ else ⟨p.line, p.column + 1⟩

/-- The place of the byte that follows the bytes `bs`, of which the first is at `p`. -/
def after (p : Position) (bs : List UInt8) : Position := bs.foldl next p

@[simp] theorem after_nil (p : Position) : p.after [] = p := rfl

@[simp] theorem after_cons (p : Position) (b : UInt8) (bs : List UInt8) :
    p.after (b :: bs) = (p.next b).after bs := rfl

theorem after_append (p : Position) (as bs : List UInt8) :
    p.after (as ++ bs) = (p.after as).after bs := by
  simp [after, List.foldl_append]

end Position
end ProtoSchema
