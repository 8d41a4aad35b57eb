import BracketTree.Diagnostic
import BracketTree.Tree.Insert

/-!
# Building a tree from tokens

A builder takes one token at a time and inserts it at its focus. When an insertion is recovered, the
builder leaves a warning, moves its focus to where work goes on, and passes over the rest of the
damaged statement: `pending` counts the brackets of that statement that are still open.
-/

namespace BracketTree
set_option autoImplicit false

structure Builder where
  sourceId : String
  recovers : Bool
  tree : Tree
  focus : NodeId
  pending : Nat
  fed : Nat
  report : Report

structure Built where
  tree : Tree
  report : Report

namespace Builder

def start (sourceId : String) (recovers : Bool) : Builder :=
  ⟨sourceId, recovers, .start, Tree.rootId, 0, 0, []⟩

def discard (b : Builder) (item : Item) : Builder :=
  match item.kind.brace? with
  | none => b
  | some brace => { b with pending := if brace.isOpening then b.pending + 1 else b.pending - 1 }

/-- Goes on at `resumeAt` after the failure `e` of token `index`. The focus and its ancestors before
the failure are `lineage`: those between the closed node and `resumeAt` are still open. -/
def resume (b : Builder) (lineage : List NodeId) (e : TreeError) (resumeAt : NodeId)
    (index : Nat) : Builder × Except TreeError Unit :=
  if b.recovers then
    let warning : Diagnostic :=
      ⟨.warn, b.sourceId, some index, s!"已恢复的错误: {e.message}", some (b.tree.print resumeAt)⟩
    ({ b with
      focus := resumeAt
      pending := (lineage.idxOf? resumeAt).elim 0 (· - 1)
      report := b.report ++ [warning] }, .ok ())
  else (b, .error e)

def feed (b : Builder) (token : Token) : Builder × Except TreeError Unit :=
  let next := { b with fed := b.fed + 1 }
  match Item.ofToken? token with
  | .error e => (next, .error (.shape e))
  | .ok item =>
    if 0 < b.pending then (next.discard item, .ok ())
    else
      match b.tree.insert b.focus item with
      | (t, .ok focus) => ({ next with tree := t, focus := focus }, .ok ())
      | (t, .error (.fatal e)) => ({ next with tree := t }, .error e)
      | (t, .error (.recovered e resumeAt)) =>
        { next with tree := t }.resume ((b.tree.lineage b.focus).map Node.id) e resumeAt b.fed

def feedAll (b : Builder) : List Token → Builder × Except TreeError Unit
  | [] => (b, .ok ())
  | token :: rest =>
    match b.feed token with
    | (b, .error e) => (b, .error e)
    | (b, .ok ()) => b.feedAll rest

def finish (b : Builder) : Except TreeError Built :=
  if b.focus = Tree.rootId ∧ b.pending = 0 then .ok ⟨b.tree, b.report⟩
  else .error (.shape (.unclosed (b.tree.label b.focus)))

end Builder

def build (sourceId : String) (recovers : Bool) (tokens : List Token) : Except TreeError Built :=
  match (Builder.start sourceId recovers).feedAll tokens with
  | (_, .error e) => .error e
  | (b, .ok ()) => b.finish

def buildSource (sourceId : String) (recovers : Bool) (source : String) :
    Except TreeError Built :=
  match scan source with
  | .error e => .error (.scan e)
  | .ok tokens => build sourceId recovers tokens

end BracketTree
