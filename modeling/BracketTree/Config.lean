import BracketTree.Json.Record

/-!
The settings of a run, and their JSON form. A field that is left out has its default.
-/

namespace BracketTree
set_option autoImplicit false

structure Config where
  recover : Bool
  evaluate : Bool
  logLevel : String
  deriving DecidableEq

namespace Config
open Json

def standard : Config := ⟨true, true, "info"⟩

def toJson (c : Config) : String :=
  object [("recover", ofBool c.recover), ("evaluate", ofBool c.evaluate),
    ("log_level", quote c.logLevel)]

structure Given where
  recover : Option Bool
  evaluate : Option Bool
  logLevel : Option String

def Given.nothing : Given := ⟨none, none, none⟩

def Given.config (g : Given) : Config :=
  ⟨g.recover.getD standard.recover, g.evaluate.getD standard.evaluate,
    g.logLevel.getD standard.logLevel⟩

def member (g : Given) (key : String) (s : List Char) : Except Fault (Given × List Char) :=
  if key = "recover" then
    (readOnce g.recover readBool s).map fun r => ({ g with recover := some r.1 }, r.2)
  else if key = "evaluate" then
    (readOnce g.evaluate readBool s).map fun r => ({ g with evaluate := some r.1 }, r.2)
  else if key = "log_level" then
    (readOnce g.logLevel readString s).map fun r => ({ g with logLevel := some r.1 }, r.2)
  else ((readColon s).bind skipValue).map fun r => (g, r)

def ofArray : Reader Given := fun s => do
  let (recover, first, s) ← readElement? readBool true s
  let (evaluate, first, s) ← readElement? readBool first s
  let (logLevel, _, s) ← readElement? readString first s
  let rest ← endArray s
  .ok (⟨recover, evaluate, logLevel⟩, rest)

def ofJson (text : String) : Except Fault Config :=
  (readDocument (readRecord ofArray (readMembers member Given.nothing)) text).map Given.config

end Config
end BracketTree
