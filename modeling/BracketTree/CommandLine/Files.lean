/-!
Files as the command lines see them: what can be asked of them, what can go wrong, and the names in
a path.
-/

namespace BracketTree
set_option autoImplicit false

namespace CommandLine

inductive FileError where
  | notFound
  | notADirectory
  | isADirectory
  | nameTooLong
  | notText
  | other (text : String)
  deriving DecidableEq

def FileError.message : FileError → String
  | notFound => "No such file or directory (os error 2)"
  | notADirectory => "Not a directory (os error 20)"
  | isADirectory => "Is a directory (os error 21)"
  | nameTooLong => "File name too long (os error 36)"
  | notText => "stream did not contain valid UTF-8"
  | other text => text

inductive EntryKind where
  | file
  | directory
  deriving DecidableEq

structure Files (m : Type → Type) where
  read : String → m (Except FileError ByteArray)
  /-- None for what is neither a plain file nor a directory. -/
  kind? : String → m (Option EntryKind)
  /-- The plain files under a directory, each by the names that lead there from it. -/
  walk : String → m (List (List String))
  input : m ByteArray

def decode (bytes : ByteArray) : Except FileError String :=
  match String.fromUTF8? bytes with
  | none => .error .notText
  | some text => .ok text

def Files.readText {m : Type → Type} [Monad m] (files : Files m) (path : String) :
    m (Except FileError String) := do
  return (← files.read path).bind decode

def fileName (path : String) : String :=
  (((path.splitOn "/").filter fun s => !s.isEmpty && s != ".").getLast?).getD path

/-- A name up to its last point, and what follows the point. A point at the start does not count. -/
def splitName (name : String) : String × Option String :=
  match (name.splitOn ".").reverse with
  | [] => (name, none)
  | last :: before =>
    let stem := ".".intercalate before.reverse
    if stem.isEmpty then (name, none) else (stem, some last)

def stem (path : String) : String := (splitName (fileName path)).1

def extension? (path : String) : Option String := (splitName (fileName path)).2

def join (path : String) (names : List String) : String :=
  if names.isEmpty then path
  else if path.endsWith "/" then path ++ "/".intercalate names
  else path ++ "/" ++ "/".intercalate names

def namesLe : List String → List String → Bool
  | [], _ => true
  | _ :: _, [] => false
  | a :: as, b :: bs => a < b || (a == b && namesLe as bs)

structure Transcript where
  exit : Nat
  stdout : String
  stderr : String

end CommandLine
end BracketTree
