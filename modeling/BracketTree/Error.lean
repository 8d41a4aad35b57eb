import BracketTree.Scope
import BracketTree.Token
import BracketTree.Token.Scanner

/-!
What can go wrong with a tree. Each type lists causes; `message` gives the words.
-/

namespace BracketTree
set_option autoImplicit false

def nodeRef (id : NodeId) : String := s!"#{id}"

/-- The tokens do not form a tree. Nodes are given by their labels. -/
inductive StructureError where
  | unsupported (token : String)
  | aboveRoot (name : String)
  | notOpening (close found : String)
  | mismatch (opening close : String)
  | emptyParens
  | promotedWithChildren (name : String) (count : Nat)
  | operandCount (node expected : String) (actual : Nat)
  | invalidChild (node found : String)
  | unclosed (name : String)
  deriving DecidableEq

namespace StructureError

def message : StructureError → String
  | unsupported token => s!"不支持的 token {token}"
  | aboveRoot name => s!"无法越过根节点 {name} 向上移动"
  | notOpening close found => s!"遇到闭括号 {close}，但其父节点 {found} 不是开括号"
  | mismatch opening close => s!"括号匹配错误：'{opening}' 对 '{close}'"
  | emptyParens => "AST 中不允许出现空括号"
  | promotedWithChildren name count => s!"无法提升已有 {count} > 0 个子节点的节点 {name}"
  | operandCount node expected actual => s!"节点 {node} 期望 {expected} 个操作数，实际 {actual}"
  | invalidChild node found => s!"节点 {node} 不接受子节点 {found}"
  | unclosed name => s!"输入结束时括号 '{name}' 尚未闭合"

end StructureError

/-- A stage of a node's life was asked for out of turn. Nodes are given as printed. -/
inductive StageError where
  | noSuchNode (id : NodeId)
  | notAChild (parent child : String)
  | initRoot
  | setupBeforeInit (node : String)
  | setupWithoutParent (node : String)
  | analyzeBeforeSetup (node : String)
  | evaluateBeforeSetup (node : String)
  | alreadyEvaluated (node : String)
  deriving DecidableEq

namespace StageError

def message : StageError → String
  | noSuchNode id => s!"节点 {nodeRef id} 不存在"
  | notAChild parent child => s!"节点 {child} 不是 {parent} 的子节点"
  | initRoot => "无法初始化根节点"
  | setupBeforeInit node => s!"节点 {node} 初始化之前无法 setup"
  | setupWithoutParent node => s!"节点 {node} 没有父节点，无法 setup"
  | analyzeBeforeSetup node => s!"节点 {node} 在 init 与 setup 之前无法做静态分析"
  | evaluateBeforeSetup node => s!"节点 {node} 在 init、setup 与分析完成之前无法求值"
  | alreadyEvaluated node => s!"节点 {node} 已经求值过"

end StageError

structure HookError where
  node : String
  reason : String
  deriving DecidableEq

def HookError.message (e : HookError) : String := s!"求值节点 {e.node} 失败：{e.reason}"

inductive TreeError where
  | scan (e : ScanError)
  | shape (e : StructureError)
  | stage (e : StageError)
  | hook (e : HookError)
  /-- No place was found from which to go on. -/
  | unrecoverable (cause : TreeError) (reason : String)
  deriving DecidableEq

def TreeError.message : TreeError → String
  | scan e => s!"词法错误: {e.message}"
  | shape e => s!"解析错误: {e.message}"
  | stage e => s!"生命周期错误: {e.message}"
  | hook e => s!"求值错误: {e.message}"
  | unrecoverable cause reason => s!"Cannot recover from error '{cause.message}': {reason}"

/-- How an insertion fails: for good, or with a damaged statement given up and a node from which
to go on. -/
inductive InsertError where
  | fatal (e : TreeError)
  | recovered (e : TreeError) (resumeAt : NodeId)
  deriving DecidableEq

def InsertError.message : InsertError → String
  | fatal e => e.message
  | recovered e resumeAt => s!"已恢复的错误: {e.message}（从节点 {nodeRef resumeAt} 继续）"

end BracketTree
