import ProtoSchema.Text.Printable
import ProtoSchema.Utf8

/-!
# ProtoSchema.Text.Quoted

Text in quotes, as messages show it. The quote is an apostrophe, or a double quote where the text
holds an apostrophe and no double quote; inside, a backslash comes before the quote and before
another backslash, and a character that does not show is written by its number.
-/

namespace ProtoSchema
namespace Text

/-- The quote that encloses a text. -/
def quoteFor (cs : List Char) : Char :=
  if cs.contains '\x27' && !cs.contains '\x22' then '\x22' else '\x27'

/-- One character between quotes. -/
def escapeChar (quote c : Char) : List Char :=
  if c == '\x5c' || c == quote then ['\x5c', c]
  else if c == '\n' then "\\n".toList
  else if c == '\r' then "\\r".toList
  else if c == '\t' then "\\t".toList
  else if isPrintable c then [c]
  else if c.toNat < 0x100 then ("\\x" ++ Utf8.hex 2 c.toNat).toList
  else if c.toNat < 0x10000 then ("\\u" ++ Utf8.hex 4 c.toNat).toList
  else ("\\U" ++ Utf8.hex 8 c.toNat).toList

/-- A text between quotes. -/
def quoted (s : String) : String :=
  let quote := quoteFor s.toList
  String.ofList (quote :: s.toList.flatMap (escapeChar quote) ++ [quote])

end Text
end ProtoSchema
