/-!
# ProtoSchema.Utf8

UTF-8 as a code of character lists by byte lists. `encode` writes, `decode` reads back and, where
the bytes are no UTF-8, names the first bad sequence: a byte that starts no character, a sequence
cut short by a byte that cannot continue it, or one cut short by the end.
-/

namespace ProtoSchema
namespace Utf8

def encode (cs : List Char) : List UInt8 := cs.flatMap String.utf8EncodeChar

/-- What is wrong with a bad sequence. -/
inductive Reason where
  | badStart
  | badContinuation
  | cutShort
deriving DecidableEq, Repr

/-- The first bad sequence of a byte list: how many bytes come before it, and its own bytes, as
far as they could have begun a character. -/
structure Fault where
  offset : Nat
  bytes : List UInt8
  reason : Reason
deriving DecidableEq, Repr

/-- What the first byte of a character announces: how many bytes follow it, and between which
limits the second byte lies when these are narrower than those of any continuation byte. -/
inductive Lead where
  | one
  | two
  | three (low high : UInt8)
  | four (low high : UInt8)

/-- The announcement of a first byte. Bytes that would make an overlong form, a surrogate or a
number past the last character announce nothing. -/
def Lead.of? (b : UInt8) : Option Lead :=
  if b < 0x80 then some .one
  else if b < 0xC2 then none
  else if b < 0xE0 then some .two
  else if b < 0xF0 then
    some (.three (if b = 0xE0 then 0xA0 else 0x80) (if b = 0xED then 0x9F else 0xBF))
  else if b < 0xF5 then
    some (.four (if b = 0xF0 then 0x90 else 0x80) (if b = 0xF4 then 0x8F else 0xBF))
  else none

/-- Whether `b` lies between two limits. -/
def within (low high b : UInt8) : Bool := low ≤ b && b ≤ high

/-- The six bits that a continuation byte carries. -/
def payload (b : UInt8) : Nat := b.toNat % 64

def char2 (a b : UInt8) : Char := Char.ofNat (a.toNat % 32 * 64 + payload b)

def char3 (a b c : UInt8) : Char :=
  Char.ofNat ((a.toNat % 16 * 64 + payload b) * 64 + payload c)

def char4 (a b c d : UInt8) : Char :=
  Char.ofNat (((a.toNat % 8 * 64 + payload b) * 64 + payload c) * 64 + payload d)

/-- The characters of a byte list that `offset` bytes come before. -/
def decodeFrom (offset : Nat) : List UInt8 → Except Fault (List Char)
  | [] => .ok []
  | a :: rest =>
    match Lead.of? a with
    | none => .error ⟨offset, [a], .badStart⟩
    | some .one => (decodeFrom (offset + 1) rest).map (Char.ofNat a.toNat :: ·)
    | some .two =>
      match rest with
      | [] => .error ⟨offset, [a], .cutShort⟩
      | b :: rest =>
        if within 0x80 0xBF b then (decodeFrom (offset + 2) rest).map (char2 a b :: ·)
        else .error ⟨offset, [a], .badContinuation⟩
    | some (.three low high) =>
      match rest with
      | [] => .error ⟨offset, [a], .cutShort⟩
      | b :: rest =>
        if within low high b then
          match rest with
          | [] => .error ⟨offset, [a, b], .cutShort⟩
          | c :: rest =>
            if within 0x80 0xBF c then (decodeFrom (offset + 3) rest).map (char3 a b c :: ·)
            else .error ⟨offset, [a, b], .badContinuation⟩
        else .error ⟨offset, [a], .badContinuation⟩
    | some (.four low high) =>
      match rest with
      | [] => .error ⟨offset, [a], .cutShort⟩
      | b :: rest =>
        if within low high b then
          match rest with
          | [] => .error ⟨offset, [a, b], .cutShort⟩
          | c :: rest =>
            if within 0x80 0xBF c then
              match rest with
              | [] => .error ⟨offset, [a, b, c], .cutShort⟩
              | d :: rest =>
                if within 0x80 0xBF d then
                  (decodeFrom (offset + 4) rest).map (char4 a b c d :: ·)
                else .error ⟨offset, [a, b, c], .badContinuation⟩
            else .error ⟨offset, [a, b], .badContinuation⟩
        else .error ⟨offset, [a], .badContinuation⟩

/-- The characters that the bytes encode, or the first bad sequence. -/
def decode (bs : List UInt8) : Except Fault (List Char) := decodeFrom 0 bs

def Reason.message : Reason → String
  | .badStart => "invalid start byte"
  | .badContinuation => "invalid continuation byte"
  | .cutShort => "unexpected end of data"

/-- A number in lower-case hexadecimal with at least `width` digits. -/
def hex (width n : Nat) : String :=
  let digits := Nat.toDigits 16 n
  String.ofList (List.replicate (width - digits.length) '0' ++ digits)

/-- The wording of a fault: a bad sequence of one byte is shown, a longer one is located by its
first and last byte. -/
def Fault.message (f : Fault) : String :=
  let what :=
    match f.bytes with
    | [b] => "byte 0x" ++ hex 2 b.toNat ++ " in position " ++ toString f.offset
    | bs => "bytes in position " ++ toString f.offset ++ "-" ++
        toString (f.offset + bs.length - 1)
  "'utf-8' codec can't decode " ++ what ++ ": " ++ f.reason.message

end Utf8
end ProtoSchema
