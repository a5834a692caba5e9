import Cyclomatic.Value.Yaml.Mark

/-! # Tokens of block-structured text

The text is cut into tokens. Indentation opens and closes blocks, and a scalar
or flow collection is a key if a colon follows it on its line: its key token is
put in front of it when the colon is met.
-/

namespace Cyclomatic.Yaml

/-- What a line that starts with a percent sign says of the document below it. -/
inductive Directive where
  | version (major minor : Nat)
  /-- Tags that start with the handle stand for longer ones. -/
  | handle (name start : String)
  | other (name : String)
  deriving DecidableEq, Repr

inductive Token where
  | directive (d : Directive)
  | documentStart
  | documentEnd
  | blockSequence
  | blockMapping
  | blockEnd
  | flowSequence
  | flowSequenceEnd
  | flowMapping
  | flowMappingEnd
  | entry
  | comma
  | key
  | value
  | alias (name : String)
  | anchor (name : String)
  | tag (handle : Option String) (suffix : String)
  | scalar (plain : Bool) (text : String)
  | streamEnd
  /-- The text goes wrong from here on. -/
  | fault (f : Fault)
  deriving DecidableEq, Repr

/-- The name of a token in messages. -/
def Token.name : Token → String
  | .directive _ => "<directive>"
  | .documentStart => "<document start>"
  | .documentEnd => "<document end>"
  | .blockSequence => "<block sequence start>"
  | .blockMapping => "<block mapping start>"
  | .blockEnd => "<block end>"
  | .flowSequence => "["
  | .flowSequenceEnd => "]"
  | .flowMapping => "\x7b"
  | .flowMappingEnd => "\x7d"
  | .entry => "-"
  | .comma => ","
  | .key => "?"
  | .value => ":"
  | .alias _ => "<alias>"
  | .anchor _ => "<anchor>"
  | .tag .. => "<tag>"
  | .scalar .. => "<scalar>"
  | .streamEnd => "<stream end>"
  | .fault _ => ""

/-- A token and where it starts. -/
structure Lexeme where
  token : Token
  mark : Mark
  deriving DecidableEq, Repr

end Cyclomatic.Yaml
