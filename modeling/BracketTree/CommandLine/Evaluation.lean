import BracketTree.Builder
import BracketTree.Check
import BracketTree.CommandLine.Files
import BracketTree.Config
import BracketTree.Tree.Evaluate

/-!
# The command that evaluates a program

It reads a source from a file or from standard input, builds the tree, prints what was asked for,
reports diagnostics, and prints the labels of the nodes in the order of evaluation.
-/

namespace BracketTree
set_option autoImplicit false

namespace CommandLine

structure Options where
  input : Option String
  config : Option String
  verbose : Nat
  tokens : Bool
  tree : Bool
  noEval : Bool
  noRecover : Bool

def Options.standard : Options := ⟨none, none, 0, false, false, false, false⟩

inductive Stop where
  | usage
  | version
  | help
  deriving DecidableEq

namespace Options

def withInput (o : Options) (path : String) : Except Stop Options :=
  if o.input.isSome || path.isEmpty then .error .usage else .ok { o with input := some path }

def withConfig (o : Options) (path : String) : Except Stop Options :=
  if o.config.isSome || path.isEmpty then .error .usage else .ok { o with config := some path }

/-- A switch may be given once. -/
def withSwitch (o : Options) : String → Except Stop Options
  | "tokens" => if o.tokens then .error .usage else .ok { o with tokens := true }
  | "tree" => if o.tree then .error .usage else .ok { o with tree := true }
  | "no-eval" => if o.noEval then .error .usage else .ok { o with noEval := true }
  | "no-recover" => if o.noRecover then .error .usage else .ok { o with noRecover := true }
  | "verbose" => .ok { o with verbose := o.verbose + 1 }
  | "version" => .error .version
  | "help" => .error .help
  | _ => .error .usage

def isValue (arg : String) : Bool := !arg.startsWith "-" || arg = "-"

/-- A group of short options; tells whether a value is still to come. -/
def withShorts (o : Options) : List Char → Except Stop (Options × Bool)
  | [] => .ok (o, false)
  | 'c' :: [] => .ok (o, true)
  | 'c' :: '=' :: value => (o.withConfig (String.ofList value)).map fun o => (o, false)
  | 'c' :: value => (o.withConfig (String.ofList value)).map fun o => (o, false)
  | 'v' :: rest => withShorts { o with verbose := o.verbose + 1 } rest
  | 'V' :: _ => .error .version
  | 'h' :: _ => .error .help
  | _ :: _ => .error .usage

def withLong (o : Options) (text : String) : Except Stop (Options × Bool) :=
  match text.splitOn "=" with
  | ["config"] => .ok (o, true)
  | [name] => (o.withSwitch name).map fun o => (o, false)
  | "config" :: value => (o.withConfig ("=".intercalate value)).map fun o => (o, false)
  | _ => .error .usage

def withOption (o : Options) (arg : String) : Except Stop (Options × Bool) :=
  match arg.toList with
  | '-' :: '-' :: long => o.withLong (String.ofList long)
  | _ :: shorts => o.withShorts shorts
  | [] => .error .usage

/-- Arguments are read in order; after `--` all are inputs. -/
def parse (o : Options) : List String → Except Stop Options
  | [] => .ok o
  | arg :: rest =>
    if arg = "--" then rest.foldlM withInput o
    else if isValue arg then
      match o.withInput arg with
      | .error stop => .error stop
      | .ok o => parse o rest
    else
      match o.withOption arg with
      | .error stop => .error stop
      | .ok (o, false) => parse o rest
      | .ok (o, true) =>
        match rest with
        | [] => .error .usage
        | value :: rest =>
          if isValue value then
            match o.withConfig value with
            | .error stop => .error stop
            | .ok o => parse o rest
          else .error .usage

/-- Options on the command line outweigh the settings. -/
def amend (o : Options) (c : Config) : Config :=
  { c with recover := c.recover && !o.noRecover, evaluate := c.evaluate && !o.noEval }

end Options

def failure (text : String) : Transcript := ⟨1, "", s!"错误: {text}\n"⟩

def evaluateText (o : Options) (c : Config) (sourceId source : String) : Transcript :=
  let fatal (stdout message : String) : Transcript :=
    ⟨1, stdout, (Diagnostic.text ⟨.error, sourceId, none, message, none⟩) ++ "\n"⟩
  match scan source with
  | .error e => fatal "" s!"分词失败: {e.message}"
  | .ok tokens =>
    let tokenLine := if o.tokens then Token.line tokens ++ "\n" else ""
    match build sourceId c.recover tokens with
    | .error e => fatal tokenLine s!"建树失败: {e.message}"
    | .ok built =>
      let treeLine := if o.tree then built.tree.print Tree.rootId ++ "\n" else ""
      let report := built.report ++ built.tree.analysis sourceId
      let stderr := String.join (report.map fun d => d.text ++ "\n")
      if c.evaluate then
        let run := built.tree.evaluateProgram .tracing #[]
        match run.result with
        | .ok () =>
          let trace := String.join (run.state.toList.map fun label => label ++ "\n")
          ⟨if Report.hasErrors report then 1 else 0, tokenLine ++ treeLine ++ trace, stderr⟩
        | .error e =>
          ⟨1, tokenLine ++ treeLine, stderr ++ s!"错误: 求值失败: {sourceId}: {e.message}\n"⟩
      else ⟨if Report.hasErrors report then 1 else 0, tokenLine ++ treeLine, stderr⟩

variable {m : Type → Type} [Monad m]

def loadConfig (files : Files m) : Option String → m (Except String Config)
  | none => return .ok .standard
  | some path => do
    match ← files.readText path with
    | .error e => return .error s!"读取配置文件 {path} 失败: {e.message}: {e.message}"
    | .ok text =>
      match Config.ofJson text with
      | .error _ => return .error s!"解析配置文件 {path} 失败"
      | .ok c => return .ok c

def loadSource (files : Files m) : Option String → m (Except String (String × String))
  | none => do
    match decode (← files.input) with
    | .error e => return .error s!"无法读取标准输入: {e.message}"
    | .ok text => return .ok ("stdin", text)
  | some path => do
    match ← files.readText path with
    | .error e => return .error s!"无法读取源文件: {path}: {e.message}"
    | .ok text => return .ok (stem path, text)

def usage : String := "eval-host [OPTIONS] [INPUT]\n"

/-- The whole command. The settings are read before the source. -/
def evaluateCommand (files : Files m) (args : List String) : m Transcript := do
  match Options.parse .standard args with
  | .error .usage => return ⟨2, "", usage⟩
  | .error .version => return ⟨0, "eval-host 0.1.0\n", ""⟩
  | .error .help => return ⟨0, usage, ""⟩
  | .ok o =>
    match ← loadConfig files o.config with
    | .error text => return failure text
    | .ok c =>
      match ← loadSource files o.input with
      | .error text => return failure text
      | .ok (sourceId, source) => return evaluateText o (o.amend c) sourceId source

end CommandLine
end BracketTree
