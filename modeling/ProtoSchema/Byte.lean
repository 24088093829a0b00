/-!
# ProtoSchema.Byte

The bytes that the lexical grammar names, and its classes of bytes. All of them are ASCII; a byte
from 0x80 on belongs to no class and has a meaning inside strings and comments only.
-/

namespace ProtoSchema
namespace Byte

def lineFeed : UInt8 := 0x0A
def carriageReturn : UInt8 := 0x0D
def doubleQuote : UInt8 := 0x22
def apostrophe : UInt8 := 0x27
def star : UInt8 := 0x2A
def dot : UInt8 := 0x2E
def slash : UInt8 := 0x2F
def zero : UInt8 := 0x30
def underscore : UInt8 := 0x5F
def backslash : UInt8 := 0x5C

/-- Bytes between tokens: space, tab, carriage return and line feed. -/
def isBlank (b : UInt8) : Bool := b == 0x20 || b == 0x09 || b == carriageReturn || b == lineFeed

/-- ASCII letters, with which every identifier begins. -/
def isLetter (b : UInt8) : Bool := (0x41 ≤ b && b ≤ 0x5A) || (0x61 ≤ b && b ≤ 0x7A)

def isDigit (b : UInt8) : Bool := 0x30 ≤ b && b ≤ 0x39

/-- Bytes that may follow the first letter of an identifier. -/
def isWordPart (b : UInt8) : Bool := isLetter b || isDigit b || b == underscore

/-- The two bytes that open and close a string. -/
def isQuote (b : UInt8) : Bool := b == doubleQuote || b == apostrophe

/-- The character with the number of the byte. -/
def toChar (b : UInt8) : Char := Char.ofNat b.toNat

/-- The text whose characters have the numbers of the bytes. -/
def text (bs : List UInt8) : String := String.ofList (bs.map toChar)

/-- The number that a run of decimal digits denotes. -/
def number (digits : List UInt8) : Nat :=
  digits.foldl (fun n b => 10 * n + (b.toNat - zero.toNat)) 0

end Byte
end ProtoSchema
