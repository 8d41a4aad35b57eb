import BracketTree.CommandLine.Files

/-!
A tree of files held in memory. Paths are resolved name by name: from the root of the tree if they
start with a slash, and otherwise from the working directory.
-/

namespace BracketTree
set_option autoImplicit false

namespace CommandLine

inductive Entry where
  | directory
  | file (content : ByteArray)
  /-- It can be read, but it is no plain file. -/
  | stream (content : ByteArray)

structure FileTree where
  /-- Each entry is given by the names that lead to it from the root. The directories on the way
  need no entries of their own. -/
  entries : List (List String × Entry)
  /-- The working directory, which needs no entry either. -/
  home : List String
  input : ByteArray

namespace FileTree

def pathLimit : Nat := 4096

def nameLimit : Nat := 255

def names (path : String) : List String :=
  (path.splitOn "/").filter fun s => !s.isEmpty && s != "."

def entry? (t : FileTree) (place : List String) : Option Entry :=
  match t.entries.lookup place with
  | some e => some e
  | none =>
    if place.isPrefixOf t.home || t.entries.any fun e => place.isPrefixOf e.1 then some .directory
    else none

def kindAt? (t : FileTree) (place : List String) : Option EntryKind :=
  match t.entry? place with
  | some .directory => some .directory
  | some (.file _) => some .file
  | some (.stream _) => none
  | none => none

/-- One step of a path from a place in the tree. The root is its own parent. -/
def enter (t : FileTree) (place : List String) (name : String) : Except FileError (List String) :=
  if t.kindAt? place ≠ some .directory then .error .notADirectory
  else if name.isEmpty || name = "." then .ok place
  else if name = ".." then .ok place.dropLast
  else if nameLimit < name.utf8ByteSize then .error .nameTooLong
  else if (t.entry? (place ++ [name])).isSome then .ok (place ++ [name])
  else .error .notFound

def resolve (t : FileTree) (path : String) : Except FileError (List String) :=
  if path.isEmpty then .error .notFound
  else if pathLimit ≤ path.utf8ByteSize then .error .nameTooLong
  else (path.splitOn "/").foldlM t.enter (if path.startsWith "/" then [] else t.home)

def read (t : FileTree) (path : String) : Except FileError ByteArray :=
  (t.resolve path).bind fun place =>
    match t.entry? place with
    | some (.file content) => .ok content
    | some (.stream content) => .ok content
    | some .directory => .error .isADirectory
    | none => .error .notFound

def kind? (t : FileTree) (path : String) : Option EntryKind :=
  (t.resolve path).toOption.bind t.kindAt?

/-- The names from `place` to a plain file, if it lies at or under `place`. -/
def fileFrom? (place : List String) : List String × Entry → Option (List String)
  | (names, .file _) =>
    if place.isPrefixOf names then some (names.drop place.length) else none
  | (_, .directory) => none
  | (_, .stream _) => none

/-- A directory under `path` is listed by its whole path, so one whose path is too long is passed
over. -/
def walk (t : FileTree) (path : String) : List (List String) :=
  match t.resolve path with
  | .error _ => []
  | .ok place =>
    (t.entries.filterMap (fileFrom? place)).filter fun names =>
      (join path names.dropLast).utf8ByteSize < pathLimit

def files (t : FileTree) : Files Id := ⟨t.read, t.kind?, t.walk, t.input⟩

end FileTree
end CommandLine
end BracketTree
