import Packrat.CommandLine

/-!
# Files in memory

A directory of files and a standard input, as a host of the command. Files are written under a path,
and one that is written again holds what was written last. The standard input can be read once;
after that it is empty.

## Main results

* `contents?_write`: what writing a file does to every path
-/

namespace Packrat.CommandLine

/-- A directory with the files in and below it, and a standard input. -/
structure Directory where
  /-- Files with the names that lead to them, those written last in front. -/
  files : List (List String × ByteArray) := []
  standardInput : ByteArray

/-- Bytes as text. -/
def textOf (bytes : ByteArray) : Except ReadError String :=
  match String.fromUTF8? bytes with
  | some text => .ok text
  | none => .error .notText

/-- Where the segments of a path have led so far. -/
inductive Place where
  /-- The directory itself, or the one below it that names lead to. -/
  | within (names : List String)
  /-- A directory around it, of which no more is known. -/
  | elsewhere
  | file (bytes : ByteArray)

namespace Directory

/-! ## Writing files -/

/-- The segments of a path that lead anywhere. -/
def names (path : String) : List String :=
  (path.splitOn "/").filter fun segment => segment ≠ "" ∧ segment ≠ "."

/-- Writes a file under a path, with the directories on the way to it. -/
def write (d : Directory) (path : String) (bytes : ByteArray) : Directory :=
  { d with files := (names path, bytes) :: d.files }

/-- What the file that names lead to holds. -/
def contents? (d : Directory) (names : List String) : Option ByteArray := d.files.lookup names

@[simp] theorem contents?_write (d : Directory) (path : String) (bytes : ByteArray)
    (ns : List String) :
    (d.write path bytes).contents? ns = if ns = names path then some bytes else d.contents? ns := by
  by_cases h : ns = names path
  · simp [contents?, write, h]
  · have : (ns == names path) = false := by simpa using h
    simp [contents?, write, List.lookup_cons, h, this]

/-- The directory after files have been written one behind the other. -/
def writeAll (d : Directory) (files : List (String × ByteArray)) : Directory :=
  files.foldl (fun d (path, bytes) => d.write path bytes) d

/-! ## Reading files -/

/-- The most bytes that a name may have. -/
def maxName : Nat := 255

/-- The most bytes that a path may have. -/
def maxPath : Nat := 4095

/-- The file or directory that names lead to. -/
def entry (d : Directory) (names : List String) : Except ReadError Place :=
  match d.contents? names with
  | some bytes => .ok (.file bytes)
  | none =>
    if d.files.any fun (path, _) => names.isPrefixOf path then .ok (.within names)
    else .error .notFound

/-- Follows one more segment. Behind a file no segment may come, not even an empty one. -/
def follow (d : Directory) : Place → String → Except ReadError Place
  | .file _, _ => .error .notADirectory
  | place, "" | place, "." => .ok place
  | .elsewhere, ".." | .within [], ".." => .ok .elsewhere
  | .within names, ".." => .ok (.within names.dropLast)
  | place, name =>
    if maxName < name.utf8ByteSize then .error .nameTooLong
    else
      match place with
      | .within names => d.entry (names ++ [name])
      | _ => .error .notFound

/-- The file that a path leads to. A path with a slash in front begins at the root. -/
def resolve (d : Directory) (path : String) : Except ReadError ByteArray :=
  if path.isEmpty then .error .notFound
  else if maxPath < path.utf8ByteSize then .error .nameTooLong
  else
    let begun := if path.startsWith "/" then .elsewhere else .within []
    match (path.splitOn "/").foldlM d.follow begun with
    | .ok (.file bytes) => .ok bytes
    | .ok _ => .error .isADirectory
    | .error e => .error e

/-- The directory as a host. -/
def host : Host (StateM Directory) where
  file path := do return (← get).resolve path >>= textOf
  standardInput := do
    let d ← get
    set { d with standardInput := ByteArray.empty }
    return textOf d.standardInput

end Directory

/-- Runs the command in a directory. -/
def runIn (d : Directory) (level : String) (arguments : List String) : Outcome :=
  ((run Directory.host level arguments).run d).1

end Packrat.CommandLine
