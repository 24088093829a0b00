import ProtoSchema.Input.Basic

/-!
# ProtoSchema.Input.Cursor

A cursor over a stream that hands out its bytes in chunks and may fail. The cursor fetches bytes
only when they are asked for, never more than are missing from its window of four bytes, and takes
the first empty answer of the stream for the end, for good. A failed request leaves what has been
fetched in the window, so that the same bytes can be asked for again.
-/

namespace ProtoSchema

/-- What a stream does when it has no chunk left. -/
inductive Ending where
  | exhausted
  | failing (reason : String)
deriving DecidableEq, Repr

/-- A stream: the chunks it has left, its ending, and the sizes of the requests made so far, the
latest first. -/
structure Stream where
  chunks : List (List UInt8)
  ending : Ending
  requests : List Nat
deriving DecidableEq, Repr

namespace Stream

/-- A stream of chunks that no one has read from. -/
def ofChunks (chunks : List (List UInt8)) (ending : Ending) : Stream := ⟨chunks, ending, []⟩

/-- A stream that hands out one byte list. -/
def ofList (bs : List UInt8) : Stream := ofChunks [bs] .exhausted

/-- What remains of a chunk list whose first chunk has `c` left. -/
def putBack (c : List UInt8) (cs : List (List UInt8)) : List (List UInt8) :=
  match c with
  | [] => cs
  | b :: bs => (b :: bs) :: cs

/-- Asks for at most `n` bytes: they come from the first chunk, which is dropped once it is used
up; without a chunk the answer is empty or the reason of the failure. -/
def read (n : Nat) (s : Stream) : Except String (List UInt8) × Stream :=
  match s.chunks with
  | c :: cs => (.ok (c.take n), ⟨putBack (c.drop n) cs, s.ending, n :: s.requests⟩)
  | [] =>
    match s.ending with
    | .exhausted => (.ok [], { s with requests := n :: s.requests })
    | .failing reason => (.error reason, { s with requests := n :: s.requests })

/-- The bytes that have not been handed out. -/
def bytes (s : Stream) : List UInt8 := s.chunks.flatten

theorem flatten_putBack (c : List UInt8) (cs : List (List UInt8)) :
    (putBack c cs).flatten = c ++ cs.flatten := by
  cases c <;> rfl

/-- An answer is the front of the bytes that had not been handed out. -/
theorem bytes_read {n : Nat} {s s' : Stream} {bs : List UInt8} (h : s.read n = (.ok bs, s')) :
    s.bytes = bs ++ s'.bytes := by
  unfold read at h
  split at h
  · next c cs hc =>
    cases h
    simp only [bytes, hc, flatten_putBack, List.flatten_cons]
    rw [← List.append_assoc, List.take_append_drop]
  · next hc =>
    split at h
    · cases h
      simp [bytes, hc]
    · cases h

end Stream

/-- A cursor: its stream, the bytes it has fetched and not taken, whether the stream has ended, and
the place of the next byte. -/
structure Cursor where
  stream : Stream
  window : List UInt8
  ended : Bool
  position : Position
deriving DecidableEq, Repr

namespace Cursor

def ofStream (s : Stream) : Cursor := ⟨s, [], false, .first⟩

def windowSize : Nat := 4

/-- Fetches bytes until `n` are in the window or the stream ends. -/
def fill (n : Nat) (c : Cursor) : EStateM.Result Failure Cursor Unit :=
  if n ≤ c.window.length ∨ c.ended then .ok () c
  else
    match c.stream.read (n - c.window.length) with
    | (.error reason, s) =>
      .error (.refused ⟨.unreadable reason, c.position⟩) { c with stream := s }
    | (.ok [], s) => .ok () { c with stream := s, ended := true }
    | (.ok (b :: bs), s) => fill n { c with stream := s, window := c.window ++ b :: bs }
termination_by n - c.window.length
decreasing_by simp only [List.length_append, List.length_cons]; omega

/-- The next `n` bytes, or as many as there are; the window must be large enough. -/
def ahead (n : Nat) : Scan Cursor (List UInt8) := fun c =>
  if windowSize < n then .error (.windowTooSmall windowSize) c
  else
    match fill n c with
    | .ok () c' => .ok (c'.window.take n) c'
    | .error e c' => .error e c'

/-- The next `n` bytes; for a negative `n`, the bytes of the window without the last `-n`. -/
def shown (n : Int) : Scan Cursor (List UInt8) :=
  if n < 0 then fun c => .ok (c.window.take (c.window.length - n.natAbs)) c else ahead n.toNat

/-- Takes the first byte of the window. -/
def skip (c : Cursor) : Cursor :=
  match c.window with
  | [] => c
  | b :: bs => { c with window := bs, position := c.position.next b }

/-- The bytes that have not been taken. -/
def bytes (c : Cursor) : List UInt8 := c.window ++ c.stream.bytes

/-- Fetching moves bytes from the stream to the window. -/
theorem bytes_fill {n : Nat} {c c' : Cursor} (h : fill n c = .ok () c') : c'.bytes = c.bytes := by
  fun_induction fill n c with
  | case1 => cases h; rfl
  | case2 => cases h
  | case3 c hn s hr =>
    cases h
    have := Stream.bytes_read hr
    simp [bytes, this]
  | case4 c hn b bs s hr ih =>
    have := Stream.bytes_read hr
    rw [ih h]
    simp [bytes, this]

theorem bytes_ahead {n : Nat} {c c' : Cursor} {bs : List UInt8} (h : ahead n c = .ok bs c') :
    c'.bytes = c.bytes ∧ bs = c'.window.take n := by
  unfold ahead at h
  split at h
  · cases h
  · split at h
    · next hf =>
      cases h
      exact ⟨bytes_fill hf, rfl⟩
    · cases h

instance : ByteInput Cursor where
  ahead := ahead
  skip := skip
  position := position
  left c := c.bytes.length
  left_ahead h := Nat.le_of_eq (congrArg List.length (bytes_ahead h).1)
  left_skip_le c := by
    rcases c with ⟨s, _ | ⟨b, bs⟩, e, p⟩ <;> simp [skip, bytes]
  left_skip {n c b bs c'} h := by
    obtain ⟨hb, hw⟩ := bytes_ahead h
    rw [← hb]
    rcases c' with ⟨s, _ | ⟨d, ds⟩, e, p⟩
    · simp at hw
    · simp [skip, bytes]

end Cursor
end ProtoSchema
