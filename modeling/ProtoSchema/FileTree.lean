import ProtoSchema.Document.Read
import ProtoSchema.Path

/-!
# ProtoSchema.FileTree

What is found at a path, and a directory tree as data. Whether something is there and whether it can be
opened are two questions: a path into a directory that may not be searched cannot be looked at, a locked
file is there but cannot be opened, and an open file may fail while it is read.

A path that begins with a slash leads to the directories of the system, of which little is known, and so
does a path that goes up from the root of a tree.
-/

namespace ProtoSchema

/-- What is found at a path: an error where looking at it fails, a directory, something that cannot be
opened for another reason, or a file with what can be read of it. -/
inductive Lookup where
  | nulInPath
  | hidden (e : SystemError)
  | directory
  | locked (e : SystemError)
  | file (content : Stream)
deriving DecidableEq, Repr

/-- Nothing is there. -/
@[match_pattern] abbrev Lookup.missing : Lookup := .hidden .notFound

/-- What stands under a name in a tree. Nobody may open a locked file, and nobody may search a sealed
directory. -/
inductive Entry where
  | file (content : Stream)
  | lockedFile
  | directory
  | sealedDirectory
deriving DecidableEq, Repr

/-- A directory tree: files and directories, each by its parts from the root. The directories on the
way to an entry need no entry of their own. -/
structure FileTree where
  entries : List (List String × Entry)
deriving Repr

namespace FileTree

/-- Whether there is a directory at `dir`. -/
def hasDirectory (t : FileTree) (dir : List String) : Bool :=
  dir.isEmpty ||
    t.entries.any fun (parts, entry) => dir.isPrefixOf parts &&
      (dir.length < parts.length || entry = .directory || entry = .sealedDirectory)

/-- Whether there is a directory at `dir` that may not be searched. -/
def isSealed (t : FileTree) (dir : List String) : Bool :=
  t.entries.lookup dir = some .sealedDirectory

/-- The file at `parts`. -/
def file? (t : FileTree) (parts : List String) : Option Lookup :=
  match t.entries.lookup parts with
  | some (.file content) => some (.file content)
  | some .lockedFile => some (.locked .denied)
  | _ => none

/-- What is found at `parts` from a directory that holds nothing known but the directories above. -/
def above (parts : List String) : Lookup :=
  match parts.dropWhile (· == "..") with
  | [] => .directory
  | p :: _ => if Path.maxPartSize < p.utf8ByteSize then .hidden .tooLong else .missing

/-- What is found at `parts` from the directory `dir`. The directory above a root of the system is
the root itself. -/
def walk (t : FileTree) (rooted : Bool) (dir : List String) : List String → Lookup
  | [] => .directory
  | p :: ps =>
    if t.isSealed dir then .hidden .denied
    else if p == ".." then
      if dir.isEmpty && !rooted then above ps else t.walk rooted dir.dropLast ps
    else if Path.maxPartSize < p.utf8ByteSize then .hidden .tooLong
    else
      let next := dir ++ [p]
      match t.file? next with
      | some found => if ps.isEmpty then found else .hidden .notDirectory
      | none => if t.hasDirectory next then t.walk rooted next ps else .missing

/-- What is known of the system: the directories at its root, and the null device. -/
def system : FileTree :=
  ⟨(["dev", "null"], .file (.ofList [])) ::
    ["bin", "boot", "etc", "home", "lib", "media", "mnt", "opt", "proc", "root", "run", "sbin", "srv",
      "sys", "tmp", "usr", "var"].map fun name => ([name], .directory)⟩

/-- What is found at a path. -/
def look (t : FileTree) (p : Path) : Lookup :=
  if p.hasNul then .nulInPath
  else if Path.maxSize < p.text.utf8ByteSize then .hidden .tooLong
  else if p.slashes = 0 then t.walk false [] p.parts
  else system.walk true [] p.parts

end FileTree

/-- Why a file holds no document. -/
inductive LoadError where
  | file (e : FileError)
  | reading (f : Failure)
deriving DecidableEq, Repr

namespace Lookup

/-- Opens what is found at a path. -/
def open? (found : Lookup) (p : Path) : Except FileError Stream :=
  match found with
  | nulInPath => .error .nulInPath
  | hidden e => .error (.system e p)
  | directory => .error (.system .isDirectory p)
  | locked e => .error (.system e p)
  | file content => .ok content

/-- Whether anything is found at a path. An error that does not mean that nothing is there is no answer. -/
def isFound (found : Lookup) (p : Path) : Except FileError Bool :=
  match found with
  | nulInPath => .ok false
  | hidden e => if e.meansAbsent then .ok false else .error (.system e p)
  | directory | locked _ | file _ => .ok true

end Lookup

/-- The document of the file that is found at a path, read as it comes. -/
def Document.load (found : Lookup) (p : Path) : Except LoadError Document :=
  match found.open? p with
  | .error e => .error (.file e)
  | .ok content =>
    match Document.ofStream content (some p.text) with
    | .ok d => .ok d
    | .error f => .error (.reading f)

end ProtoSchema
