import BracketTree.Blank
import BracketTree.Token

/-!
# Reading tokens from the notation

A source text is read in one pass. Outside every list only white space and `[` may stand. Inside
`[ … ]` runs of text become `cmd` tokens, and `{` opens code. Inside `{ … }` a name is a run of
ASCII letters, `name:'…'` gives it a value, and every other mark is a token of its own.
`step` reads one character; `scan` folds it over the text.
-/

namespace BracketTree
set_option autoImplicit false

inductive Unfinished where
  | command (depth : Nat)
  | code (depth : Nat)
  | value (name : String)
  | described (text : String)
  deriving DecidableEq

def Unfinished.message : Unfinished → String
  | command depth => s!"CMD 模式中仍有 {depth} 层 '[' 未闭合"
  | code depth => s!"CODE 模式中仍有 {depth} 层 '\x7b' 未闭合"
  | value name => s!"token '{name}' 的值未闭合"
  | described text => text

inductive ScanError where
  | strayChar (ch : Char) (pos : Nat)
  | strayClose (pos : Nat)
  | namelessColon (pos : Nat)
  | repeatedColon (name : String) (pos : Nat)
  | strayQuote (pos : Nat)
  | quoteExpected (name : String) (ch : Char) (pos : Nat)
  | unexpectedEnd (context : Unfinished)
  deriving DecidableEq

namespace ScanError

def message : ScanError → String
  | strayChar ch pos => s!"位置 {pos}：AST 输入中出现非法字符 '{ch}'，期望 '['"
  | strayClose pos => s!"位置 {pos}：CMD 模式中出现意外的 '\x7d'"
  | namelessColon pos => s!"位置 {pos}：CODE 模式中 ':' 前没有 token"
  | repeatedColon name pos => s!"位置 {pos}：token '{name}' 中出现重复的 ':'"
  | strayQuote pos => s!"位置 {pos}：值位置之外出现意外的单引号"
  | quoteExpected name ch pos => s!"位置 {pos}：token '{name}' 的 ':' 之后期望单引号，实际 '{ch}'"
  | unexpectedEnd context => s!"输入意外结束：{context.message}"

/-- The offending character's position; the end of the text has none. -/
def position? : ScanError → Option Nat
  | strayChar _ pos => some pos
  | strayClose pos => some pos
  | namelessColon pos => some pos
  | repeatedColon _ pos => some pos
  | strayQuote pos => some pos
  | quoteExpected _ _ pos => some pos
  | unexpectedEnd _ => none

end ScanError

namespace Scanner

inductive Pending where
  | named (name : String)
  /-- The colon has been read, the quote has not. -/
  | awaiting (name : String)
  | quoted (name text : String) (escaped : Bool)
  deriving DecidableEq

def Pending.token : Pending → Token
  | named name => .bare name
  | awaiting name => .bare name
  | quoted name text _ => .valued name text

inductive Mode where
  | outside
  /-- Inside `depth` command lists, `text` being the run read so far. -/
  | command (depth : Nat) (text : Option String)
  /-- Inside `depth` blocks within `lists` command lists. -/
  | code (lists depth : Nat) (pending : Option Pending)
  deriving DecidableEq

abbrev Step := List Token × Mode

def textTokens : Option String → List Token
  | none => []
  | some text => [.valued "cmd" text]

def pendingTokens : Option Pending → List Token
  | none => []
  | some p => [p.token]

def stepOutside (pos : Nat) (c : Char) : Except ScanError Step :=
  if c = '[' then .ok ([.mark '['], .command 1 none)
  else if isBlank c then .ok ([], .outside)
  else .error (.strayChar c pos)

def stepCommand (depth : Nat) (text : Option String) (pos : Nat) (c : Char) :
    Except ScanError Step :=
  if c = '[' then .ok (textTokens text ++ [.mark '['], .command (depth + 1) none)
  else if c = ']' then
    .ok (textTokens text ++ [.mark ']'],
      if depth - 1 = 0 then .outside else .command (depth - 1) none)
  else if c = '{' then .ok (textTokens text ++ [.mark '{'], .code depth 1 none)
  else if c = '}' then .error (.strayClose pos)
  else .ok ([], .command depth (some ((text.getD "").push c)))

/-- Inside quotes a backslash takes the next character literally and a quote ends the value. -/
def stepQuoted (lists depth : Nat) (name text : String) (escaped : Bool) (c : Char) : Step :=
  if escaped then ([], .code lists depth (some (.quoted name (text.push c) false)))
  else if c = '\\' then ([], .code lists depth (some (.quoted name text true)))
  else if c = '\'' then ([.valued name text], .code lists depth none)
  else ([], .code lists depth (some (.quoted name (text.push c) false)))

def stepAwaiting (lists depth : Nat) (name : String) (pos : Nat) (c : Char) :
    Except ScanError Step :=
  if c = '\'' then .ok ([], .code lists depth (some (.quoted name "" false)))
  else if c = ':' then .error (.repeatedColon name pos)
  else .error (.quoteExpected name c pos)

/-- Code outside every value; `name` is the run of letters read so far. -/
def stepPlain (lists depth : Nat) (name : Option String) (pos : Nat) (c : Char) :
    Except ScanError Step :=
  let done := pendingTokens (name.map .named)
  if c = '}' then
    .ok (done ++ [.mark '}'],
      if depth - 1 = 0 then .command lists none else .code lists (depth - 1) none)
  else if c = '{' then .ok (done ++ [.mark '{'], .code lists (depth + 1) none)
  else if c = ':' then
    match name with
    | some name => .ok ([], .code lists depth (some (.awaiting name)))
    | none => .error (.namelessColon pos)
  else if c = ';' then .ok (done, .code lists depth none)
  else if c = '\'' then .error (.strayQuote pos)
  else if isBlank c then .ok (done, .code lists depth none)
  else if c.isAlpha then
    .ok ([], .code lists depth (some (.named ((name.getD "").push c))))
  else .ok (done ++ [.mark c], .code lists depth none)

def step : Mode → Nat → Char → Except ScanError Step
  | .outside, pos, c => stepOutside pos c
  | .command depth text, pos, c => stepCommand depth text pos c
  | .code lists depth none, pos, c => stepPlain lists depth none pos c
  | .code lists depth (some (.named name)), pos, c => stepPlain lists depth (some name) pos c
  | .code lists depth (some (.awaiting name)), pos, c => stepAwaiting lists depth name pos c
  | .code lists depth (some (.quoted name text escaped)), _, c =>
    .ok (stepQuoted lists depth name text escaped c)

def Mode.unfinished : Mode → Option Unfinished
  | .outside => none
  | .command depth _ => some (.command depth)
  | .code _ depth none => some (.code depth)
  | .code _ depth (some (.named _)) => some (.code depth)
  | .code _ _ (some (.awaiting name)) => some (.value name)
  | .code _ _ (some (.quoted name _ _)) => some (.value name)

/-- Reads the rest of a text, whose next character has position `pos`. -/
def run : Mode → Nat → List Char → Except ScanError (List Token)
  | mode, _, [] =>
    match mode.unfinished with
    | none => .ok []
    | some context => .error (.unexpectedEnd context)
  | mode, pos, c :: rest =>
    match step mode pos c with
    | .error e => .error e
    | .ok (tokens, next) =>
      match run next (pos + 1) rest with
      | .error e => .error e
      | .ok later => .ok (tokens ++ later)

end Scanner

def scan (source : String) : Except ScanError (List Token) :=
  Scanner.run .outside 0 source.toList

end BracketTree
