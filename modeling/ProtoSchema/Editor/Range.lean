import ProtoSchema.Text.Lines

/-!
# ProtoSchema.Editor.Range

Places as editors count them: lines and columns from 0, columns in the units of an agreed encoding.
`Range.convert` turns a place counted in bytes from 1 into a range of characters. A column inside a
character counts as the start of that character; a column past the end of its line counts as the
end, and a line past the end of the text as an empty line.

An editor is told of spots in the terms of a protocol, and how far its numbers go is for the protocol
to say (`Protocol`). Whatever shows a range is sent through it (`rangeAt`): the first spot that the
protocol refuses stands for the whole answer.
-/

namespace ProtoSchema

/-- The encoding whose units an editor counts. -/
inductive Encoding where
  | utf8
  | utf16
  | utf32
deriving DecidableEq, Repr

namespace Encoding

/-- The encoding of a name; UTF-16 unless the name is that of another one. -/
def ofName (s : String) : Encoding :=
  if s == "utf-8" then utf8 else if s == "utf-32" then utf32 else utf16

def width (e : Encoding) (c : Char) : Nat :=
  match e with
  | utf8 => c.utf8Size
  | utf16 => if c.toNat < 0x10000 then 1 else 2
  | utf32 => 1

def units (e : Encoding) (cs : List Char) : Nat := (cs.map e.width).foldr (· + ·) 0

end Encoding

/-- A place between two units of a line. -/
structure Spot where
  line : Nat
  character : Nat
deriving DecidableEq, Repr

structure Range where
  start : Spot
  stop : Spot
deriving DecidableEq, Repr

/-- The longest prefix of whole characters that takes at most `n` bytes. -/
def fitting (n : Nat) : List Char → List Char
  | [] => []
  | c :: cs => if c.utf8Size ≤ n then c :: fitting (n - c.utf8Size) cs else []

/-- The index that `i` means in a list of `size` items: one below zero counts from the end. -/
def indexOf (size : Nat) (i : Int) : Nat := if i < 0 then (size + i).toNat else i.toNat

/-- The range of `length` characters of a text that is given by its lines, from a line and a byte
column, both counted from 1. A negative length that leads to before the line counts from the end of
the line. -/
def Range.convert (lines : List (List Char)) (line column length : Int) (e : Encoding) : Range :=
  let row := (line - 1).toNat
  let text := lines[row]?.getD []
  let before := fitting (column - 1).toNat text
  let covered := (text.take (indexOf text.length (before.length + length))).drop before.length
  let start := e.units before
  ⟨⟨row, start⟩, ⟨row, start + e.units covered⟩⟩

/-- The protocol in which an editor is told of spots: it takes a spot, or refuses it in words of its
own. -/
structure Protocol where
  take : Spot → Except String Unit

/-- Sends `a`, which shows some spots; the first of them that is refused stops it. -/
def Protocol.send {α : Type} (protocol : Protocol) : List Spot → α → Except String α
  | [], a => .ok a
  | s :: spots, a =>
    match protocol.take s with
    | .ok _ => protocol.send spots a
    | .error refusal => .error refusal

/-- The range at a line and a byte column, as a protocol takes it: its start is sent first. -/
def rangeAt (protocol : Protocol) (lines : List (List Char)) (line column length : Int)
    (e : Encoding) : Except String Range :=
  let r := Range.convert lines line column length e
  protocol.send [r.start, r.stop] r

end ProtoSchema
