import BracketTree.CommandLine.Evaluation
import BracketTree.CommandLine.Survey

/-!
The program: `eval-host ARGUMENTS` evaluates a source, `xtask ARGUMENTS` checks program files. Here
files are those of the system.
-/

namespace BracketTree
set_option autoImplicit false

namespace CommandLine

def fileError : IO.Error → FileError
  | .noFileOrDirectory .. => .notFound
  | .inappropriateType .. => .notADirectory
  | e => .other (toString e)

def systemKind? (path : String) : IO (Option EntryKind) := do
  try
    match (← (← IO.FS.realPath path).metadata).type with
    | .dir => return some .directory
    | .file => return some .file
    | _ => return none
  catch _ => return none

def systemRead (path : String) : IO (Except FileError ByteArray) := do
  if (← systemKind? path) == some .directory then return .error .isADirectory
  try return .ok (← IO.FS.readBinFile path)
  catch e => return .error (fileError e)

/-- The plain files under a directory; links are not followed, and a directory that cannot be listed
is passed over. -/
partial def systemWalk (path : String) (names : List String) : IO (List (List String)) := do
  try
    let entries ← (← IO.FS.realPath (join path names)).readDir
    let found ← entries.toList.mapM fun e => do
      match (← e.path.symlinkMetadata).type with
      | .file => return [names ++ [e.fileName]]
      | .dir => systemWalk path (names ++ [e.fileName])
      | _ => return []
    return found.flatten
  catch _ => return []

def systemFiles : Files IO where
  read := systemRead
  kind? := systemKind?
  walk path := systemWalk path []
  input := do (← IO.getStdin).readBinToEnd

end CommandLine
end BracketTree

open BracketTree.CommandLine in
def main (args : List String) : IO UInt32 := do
  let transcript ← match args with
    | "eval-host" :: rest => evaluateCommand systemFiles rest
    | "xtask" :: rest => surveyCommand systemFiles rest
    | _ => pure ⟨2, "", "eval-host ARGUMENTS, or xtask ARGUMENTS\n"⟩
  IO.print transcript.stdout
  IO.eprint transcript.stderr
  return transcript.exit.toUInt32
