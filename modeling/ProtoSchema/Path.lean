import ProtoSchema.Text.Quoted

/-!
# ProtoSchema.Path

Paths of files. A path is the slashes it begins with and its parts. Empty parts and single dots are
dropped when a path is read, two dots are kept, and of the slashes in front two stay two and more
count as one. A path with a NUL in it names no file, and neither a path nor a part of one may be too
long, in bytes.
-/

namespace ProtoSchema

/-- A path: whether it begins with no slash, one slash or two, and its parts. -/
structure Path where
  slashes : Nat
  parts : List String
deriving DecidableEq, Repr

namespace Path

/-- The parts of a text between slashes. -/
def split : List Char → List (List Char)
  | [] => [[]]
  | c :: cs =>
    if c = '/' then [] :: split cs
    else
      match split cs with
      | [] => [[c]]
      | p :: ps => (c :: p) :: ps

/-- The path that a text spells. -/
def ofString (s : String) : Path :=
  let cs := s.toList
  let leading := (cs.takeWhile (· == '/')).length
  let parts := ((split cs).map String.ofList).filter fun p => p != "" && p != "."
  ⟨if leading ≤ 2 then leading else 1, parts⟩

/-- The text of a path; the path without parts is a dot. -/
def text (p : Path) : String :=
  if p.slashes = 0 ∧ p.parts = [] then "."
  else String.ofList (List.replicate p.slashes '/') ++ "/".intercalate p.parts

/-- Whether a path has a NUL in it. -/
def hasNul (p : Path) : Bool := p.parts.any fun part => part.toList.contains '\x00'

/-- The most bytes that a part may have. -/
def maxPartSize : Nat := 255

/-- The most bytes that a path may have. -/
def maxSize : Nat := 4095

/-- The last part of a path, empty if it has none. -/
def name (p : Path) : String := p.parts.getLast?.getD ""

/-- The path without its last part. -/
def parent (p : Path) : Path := { p with parts := p.parts.dropLast }

/-- The parts of a path without the steps up that undo a step down; `kept` holds those before, the
latest first. There is no step up from the root. -/
def collapse (rooted : Bool) (kept : List String) : List String → List String
  | [] => kept.reverse
  | p :: ps =>
    if p == ".." then
      match kept with
      | [] => collapse rooted (if rooted then [] else [p]) ps
      | q :: qs => collapse rooted (if q == ".." then p :: q :: qs else qs) ps
    else collapse rooted (p :: kept) ps

/-- The path without the steps up that undo a step down, whatever there is at the parts. -/
def collapsed (p : Path) : Path := { p with parts := collapse (p.slashes != 0) [] p.parts }

end Path

/-- An error of the system: its number and its wording. -/
structure SystemError where
  number : Nat
  wording : String
deriving DecidableEq, Repr

namespace SystemError

def notFound : SystemError := ⟨2, "No such file or directory"⟩
def denied : SystemError := ⟨13, "Permission denied"⟩
def notDirectory : SystemError := ⟨20, "Not a directory"⟩
def isDirectory : SystemError := ⟨21, "Is a directory"⟩
def tooLong : SystemError := ⟨36, "File name too long"⟩

def message (e : SystemError) : String := "[Errno " ++ toString e.number ++ "] " ++ e.wording

/-- Whether the error means that there is nothing: no such file, a bad descriptor, a part that goes
through a file, or links that lead round in a circle. -/
def meansAbsent (e : SystemError) : Bool := [2, 9, 20, 40].contains e.number

end SystemError

/-- Why nothing is done with a path. -/
inductive FileError where
  | system (e : SystemError) (p : Path)
  | nulInPath
deriving DecidableEq, Repr

/-- The wording of an error, with the number that the system gives to it, if it is the system's. -/
def FileError.message : FileError → String
  | system e p => e.message ++ ": " ++ Text.quoted p.text
  | nulInPath => "embedded null byte"

end ProtoSchema
