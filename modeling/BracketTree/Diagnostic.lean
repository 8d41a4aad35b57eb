/-!
Diagnostics: what a reader of the source should know about a tree, or about why there is none.
A report is a list of diagnostics in the order in which they arose.
-/

namespace BracketTree
set_option autoImplicit false

inductive Level where
  | warn
  | error
  deriving DecidableEq

namespace Level

def text : Level → String
  | warn => "WARN"
  | error => "ERROR"

protected def max : Level → Level → Level
  | warn, b => b
  | error, _ => error

end Level

structure Diagnostic where
  level : Level
  sourceId : String
  /-- Position of the token that gave rise to it. -/
  token : Option Nat
  message : String
  detail : Option String
  deriving DecidableEq

/-- `[LEVEL] source#token: message`, with the detail on a line of its own. -/
def Diagnostic.text (d : Diagnostic) : String :=
  let place := match d.token with
    | none => ""
    | some i => s!"#{i}"
  let detail := match d.detail with
    | none => ""
    | some x => s!"\n  | {x}"
  s!"[{d.level.text}] {d.sourceId}{place}: {d.message}{detail}"

abbrev Report := List Diagnostic

namespace Report

def count (r : Report) (level : Level) : Nat := List.countP (fun d => d.level == level) r

def errors (r : Report) : Nat := r.count .error

def warnings (r : Report) : Nat := r.count .warn

def hasErrors (r : Report) : Bool := r.errors != 0

def worst? (r : Report) : Option Level :=
  List.foldl (fun m d => some (m.elim d.level d.level.max)) none r

theorem count_append (r s : Report) (level : Level) :
    count (r ++ s) level = r.count level + s.count level :=
  List.countP_append

end Report
end BracketTree
