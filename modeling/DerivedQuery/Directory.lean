/-!
# Directories

What a path leads to, and a directory tree held in memory.

* `Entry`: what a path leads to;
* `Directory`, `Directory.lookup`.
-/

namespace DerivedQuery

/-- What a path leads to. -/
inductive Entry where
  | missing
  /-- The path goes on after a file. -/
  | notDirectory
  | nameTooLong
  | directory
  /-- A file that may not be read. -/
  | forbidden
  | file (content : ByteArray)

namespace Entry

/-- Whether there is a file or a directory. -/
def isPresent : Entry → Bool
  | directory | forbidden | file _ => true
  | _ => false

/-- Why a text cannot be read, in the words of the system. -/
def problem? : Entry → Option String
  | missing => some "No such file or directory (os error 2)"
  | notDirectory => some "Not a directory (os error 20)"
  | nameTooLong => some "File name too long (os error 36)"
  | directory => some "Is a directory (os error 21)"
  | forbidden => some "Permission denied (os error 13)"
  | file content =>
    if (String.fromUTF8? content).isSome then none
    else some "stream did not contain valid UTF-8"

/-- The text of a file, or why it cannot be read. -/
def read (e : Entry) : Except String (List Char) :=
  match e, e.problem? with
  | file content, none => .ok ((String.fromUTF8? content).getD "").toList
  | _, problem => .error (problem.getD "")

end Entry

/-- The files below a directory, each under the names that lead to it. -/
structure Directory where
  files : List (List String × ByteArray)

namespace Directory

/-- The names in a path. -/
def names (path : String) : List String := path.splitOn "/"

/-- The directory with one more file. -/
def add (d : Directory) (path : String) (content : ByteArray) : Directory :=
  { files := d.files ++ [((names path).filter fun n => n ≠ "" ∧ n ≠ ".", content)] }

/-- What the names lead to from the root. -/
def entry (d : Directory) (location : List String) : Entry :=
  match d.files.lookup location with
  | some content => .file content
  | none =>
    if location = [] ∨ d.files.any fun f => location.isPrefixOf f.1 then .directory else .missing

/-- The most bytes that a name in a path may have. -/
def nameLimit : Nat := 255

/-- The most bytes that a path may have. -/
def pathLimit : Nat := 4095

/-- What names lead to from a place above the tree. There only the directories that lead to the tree
are known. -/
def outside : List String → Entry
  | [] => .directory
  | name :: rest =>
    if name = "" ∨ name = "." ∨ name = ".." then outside rest
    else if nameLimit < name.utf8ByteSize then .nameTooLong
    else .missing

/-- What names lead to from a place in the tree. -/
def follow (d : Directory) (place : List String) : List String → Entry
  | [] => d.entry place
  | name :: rest =>
    match d.entry place with
    | .directory =>
      if name = "" ∨ name = "." then d.follow place rest
      else if name = ".." then
        if place = [] then outside rest else d.follow place.dropLast rest
      else if nameLimit < name.utf8ByteSize then .nameTooLong
      else d.follow (place ++ [name]) rest
    | .file _ => .notDirectory
    | other => other

/-- What a path leads to. -/
def lookup (d : Directory) (path : String) : Entry :=
  if path = "" ∨ path.contains '\x00' then .missing
  else if pathLimit < path.utf8ByteSize then .nameTooLong
  else if path.startsWith "/" then outside (names path)
  else d.follow [] (names path)

end Directory

end DerivedQuery
