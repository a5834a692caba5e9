import Cyclomatic.Event
import Cyclomatic.ParseTree.Normalize

/-! # Parsed sources

A grammar gives a parse tree for a source in a dialect. A source is parsed if
the tree shows no fault and is not too deep; its syntax tree is then the normal
form of the parse tree.
-/

namespace Cyclomatic

namespace Grammar

/-- What a grammar answers for a source. -/
inductive Answer where
  | tree (faulty : Bool) (t : ParseTree)
  | refused (reason : String)
  | interrupted
  | unavailable

end Grammar

abbrev Grammar := Dialect → String → Grammar.Answer

structure Parsed where
  path : String
  dialect : Dialect
  source : Bytes
  tree : Tree

namespace Parsed

def language (p : Parsed) : Language := p.dialect.language

def text (p : Parsed) : String := Utf8.decode p.source

/-- Trees with a longer way down are not taken. -/
def depthLimit : Nat := 1000

/-- The dialect for a path: by its suffix, or else the fallback of that name. -/
def dialectFor (path fallback : String) : Except Failure Dialect :=
  match (Dialect.ofPath? path).or (Dialect.ofText? fallback) with
  | some d => .ok d
  | none => .error (.unknownDialect fallback)

def standardFallback : String := Dialect.tsx.toText

def ofTree (path : String) (dialect : Dialect) (source : Bytes) (t : ParseTree) : Traced Parsed := do
  Traced.note (.parsed path dialect)
  if t.depth > depthLimit then Traced.fail .tooDeep
  else return ⟨path, dialect, source, t.normalize source⟩

def ofAnswer (path : String) (dialect : Dialect) (source : Bytes) : Grammar.Answer → Traced Parsed
  | .refused reason => .fail (.refused reason)
  | .interrupted => .fail .interrupted
  | .unavailable => .fail (.unavailable dialect)
  | .tree true t => .fail (.syntaxError path (t.firstFaultLine? source))
  | .tree false t => ofTree path dialect source t

/-- Parse a source under a path, with a fallback for paths that tell no dialect. -/
def ofSource (grammar : Grammar) (fallback source path : String) : Traced Parsed := do
  let dialect ← .ofExcept (dialectFor path fallback)
  ofAnswer path dialect (Utf8.encode source) (grammar dialect source)

end Parsed

end Cyclomatic
