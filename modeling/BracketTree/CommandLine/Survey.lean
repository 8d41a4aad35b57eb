import BracketTree.Check
import BracketTree.CommandLine.Files

/-!
# The command that checks program files

It checks a file, or all files with the extension `ast` under a directory, in the order of their
paths, and sums up what was found. All that it prints goes to standard error.
-/

namespace BracketTree
set_option autoImplicit false

namespace CommandLine
variable {m : Type → Type} [Monad m]

def programDirectory : String := "programs"

def programFiles (files : Files m) (path : String) : m (List String) := do
  let found ← files.walk path
  let programs := found.filter fun names => extension? (join path names) == some "ast"
  return (programs.mergeSort namesLe).map (join path)

def targets (files : Files m) : Option String → m (Except String (List String))
  | some path => do
    match ← files.kind? path with
    | some .file => return .ok [path]
    | some .directory => return .ok (← programFiles files path)
    | none => return .error s!"路径不存在: {path}"
  | none => do
    match ← files.kind? programDirectory with
    | some _ => return .ok (← programFiles files programDirectory)
    | none =>
      return .error
        s!"默认程序目录不存在: {programDirectory}\n请在 workspace 根目录运行，或指定文件路径"

def checkFile (files : Files m) (path : String) : m Report := do
  match ← files.readText path with
  | .error e => return [⟨.error, path, none, s!"无法读取文件 - {e.message}", none⟩]
  | .ok source => return checkSource path true source

def verdict (r : Report) : String :=
  if r.hasErrors then s!"❌ {r.errors} 个错误, {r.warnings} 个警告"
  else if r.warnings != 0 then s!"⚠️  0 个错误, {r.warnings} 个警告"
  else "✅ 检查通过，无错误"

def summary (count : Nat) (r : Report) : String :=
  "─────────────────────────────────────────────────────\n" ++
    s!"检查完成: {count} 个文件\n\n" ++ String.join (r.map fun d => d.text ++ "\n") ++
    s!"\n{verdict r}\n"

def surveyFailure (before text : String) : Transcript := ⟨1, "", s!"{before}xtask error: {text}\n"⟩

def survey (files : Files m) (path : Option String) : m Transcript := do
  match ← targets files path with
  | .error text => return surveyFailure "" text
  | .ok [] => return ⟨0, "", "未找到程序文件（.ast）\n"⟩
  | .ok paths =>
    let reports ← paths.mapM (checkFile files)
    let report : Report := reports.flatten
    let text := s!"==> 检查 {paths.length} 个程序文件...\n\n" ++ summary paths.length report
    if report.hasErrors then return surveyFailure text "程序检查发现错误"
    else return ⟨0, "", text⟩

def surveyHelp : String :=
  "xtask - 开发辅助工具\n\n" ++
  "USAGE:\n" ++
  "  cargo xtask <command>\n\n" ++
  "COMMANDS:\n" ++
  "  check-all       运行 fmt、clippy、test 门禁检查\n" ++
  "  ast-check       检查 .ast 程序文件\n\n" ++
  "AST-CHECK:\n" ++
  "  cargo xtask ast-check [path]\n\n" ++
  "  不带参数：检查 programs/ 下所有 .ast 文件\n" ++
  "  带路径参数：检查指定文件或目录\n\n" ++
  "  检查内容：\n" ++
  "    - 分词错误\n" ++
  "    - 括号不匹配等致命建树错误\n" ++
  "    - 建树时已恢复的错误\n" ++
  "    - 求值时会被跳过的顶层语句\n\n"

/-- The whole command; arguments after the path are ignored. -/
def surveyCommand (files : Files m) (args : List String) : m Transcript :=
  match args with
  | "ast-check" :: rest => survey files rest.head?
  | [] | "help" :: _ | "-h" :: _ | "--help" :: _ => return ⟨0, "", surveyHelp⟩
  | other :: _ => return surveyFailure "" s!"unknown xtask subcommand: {other}"

end CommandLine
end BracketTree
