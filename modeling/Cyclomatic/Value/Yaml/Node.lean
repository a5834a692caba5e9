import Cyclomatic.Value.Yaml.Scalar
import Cyclomatic.Value.Yaml.Token

/-! # Nodes from tokens

Tokens make a tree of nodes. An alias stands for the node that has its name; a
node that is not complete yet counts there as an empty one.
-/

namespace Cyclomatic.Yaml

inductive Node where
  | scalar (mark : Mark) (tag : Tag) (text : String)
  | sequence (mark : Mark) (tag : Tag) (items : List Node)
  | mapping (mark : Mark) (tag : Tag) (entries : List (Node × Node))

namespace Node

def mark : Node → Mark
  | .scalar m .. => m
  | .sequence m .. => m
  | .mapping m .. => m

def tag : Node → Tag
  | .scalar _ t _ => t
  | .sequence _ t _ => t
  | .mapping _ t _ => t

/-- The name of a node's sort in messages. -/
def sort : Node → String
  | .scalar .. => "scalar"
  | .sequence .. => "sequence"
  | .mapping .. => "mapping"

/-- The node that stands for nothing. -/
def empty (m : Mark) : Node := .scalar m .null ""

/-! ## Reading tokens -/

/-- What is left to read, the nodes that have names, and the handles of tags. -/
structure Source where
  lexemes : List Lexeme
  anchors : List (String × Node) := []
  handles : List (String × String) := []

abbrev Reading := StateT Source (Except Fault)

/-- The next token, if the text does not go wrong before it. -/
def peek : Reading Lexeme := do
  match (← get).lexemes with
  | ⟨.fault f, _⟩ :: _ => throw f
  | t :: _ => return t
  | [] => return ⟨.streamEnd, {}⟩

def skip : Reading Unit := modify fun s => { s with lexemes := s.lexemes.drop 1 }

/-- Skip the next token if it is a certain one. -/
def accept (t : Token) : Reading Bool := do
  let found := (← peek).token = t
  if found then skip
  return found

/-- The next token cannot stand where it stands. -/
def unexpected {α : Type} (context : Option (String × Option Mark)) (problem : String) :
    Reading α := do
  let t ← peek
  throw (.problem context (problem ++ Quoted.encode t.token.name) t.mark)

/-! ## Names and tags -/

/-- What stands in front of a node. -/
structure Properties where
  /-- Where the first of them starts. -/
  mark : Option Mark := none
  anchor : Option String := none
  tag : Option String := none

/-- A name, and where it starts. -/
def anchor? : Reading (Option (String × Mark)) := do
  match ← peek with
  | ⟨.anchor name, m⟩ => skip; return some (name, m)
  | _ => return none

/-- A tag as a handle and what follows it, and where it starts. -/
def tag? : Reading (Option ((Option String × String) × Mark)) := do
  match ← peek with
  | ⟨.tag handle suffix, m⟩ => skip; return some ((handle, suffix), m)
  | _ => return none

/-- A tag at a place with its handle written out. -/
def writtenOut (start m : Mark) : Option String × String → Reading String
  | (none, suffix) => return suffix
  | (some handle, suffix) => do
      match (← get).handles.lookup handle with
      | some meaning => return meaning ++ suffix
      | none =>
          throw (.problem (some ("while parsing a node", some start))
            ("found undefined tag handle " ++ Quoted.encode handle) m)

/-- A name and a tag, in either order. -/
def properties : Reading Properties := do
  let first ← anchor?
  let tag ← tag?
  let second ← if first.isNone && tag.isSome then anchor? else pure none
  let start := (first.map (·.2)).or (tag.map (·.2))
  let written ← tag.mapM fun (parts, m) => writtenOut (start.getD m) m parts
  return ⟨start, (first.or second).map (·.1), written⟩

/-- A name may be given only once. -/
def checkAnchor (start : Mark) : Option String → Reading Unit
  | none => return ()
  | some name => do
      if let some node := (← get).anchors.lookup name then
        throw (.problem
          (some (s!"found duplicate anchor {Quoted.encode name}; first occurrence", some node.mark))
          "second occurrence" start)

/-- Give a node its name. -/
def declare (name : Option String) (node : Node) : Reading Unit :=
  match name with
  | some name => modify fun s => { s with anchors := (name, node) :: s.anchors }
  | none => return ()

/-- The node that an alias stands for. -/
def named (name : String) (m : Mark) : Reading Node := do
  match (← get).anchors.lookup name with
  | some node => return node
  | none => throw (.problem none ("found undefined alias " ++ Quoted.encode name) m)

/-- A tag that is given, unless it leaves the choice open, or else another one. -/
def tagOr (standard : Tag) : Option String → Tag
  | none | some "!" => standard
  | some name => .ofName name

/-- The tag of a scalar; one in quotes is a text if no tag is given. -/
def scalarTag (plain : Bool) (text : String) (given : Option String) : Tag :=
  tagOr (if plain || given.isSome then .ofPlain text else .text) given

/-! ## Collections -/

/-! Entries that have been read have the last one first until their collection ends. -/

/-- Tokens before which a node is left out. -/
def blockStops : List Token := [.key, .value, .blockEnd]

mutual

/-- A node in a block, or in a flow collection. A sequence that is the value of a key may
stand at the key's own column; it then has entries but no start. -/
def read : (fuel depth : Nat) → (block bare : Bool) → Reading Node
  | 0, _, _, _ | _, 0, _, _ => throw .nesting
  | fuel + 1, depth + 1, block, bare => do
      let t ← peek
      if let .alias name := t.token then
        skip
        return ← named name t.mark
      let p ← properties
      let t ← peek
      let start := p.mark.getD t.mark
      /- Read a collection whose name is known inside it. -/
      let collect (make : Node) (content : Reading Node) : Reading Node := do
        checkAnchor start p.anchor
        declare p.anchor make
        let node ← content
        declare p.anchor node
        return node
      let list (content : Reading (List Node)) : Reading Node :=
        let tag := tagOr .sequence p.tag
        collect (.sequence start tag []) (.sequence start tag <$> content)
      let map (content : Reading (List (Node × Node))) : Reading Node :=
        let tag := tagOr .mapping p.tag
        collect (.mapping start tag []) (.mapping start tag <$> content)
      let leaf (node : Node) : Reading Node := do
        checkAnchor start p.anchor
        declare p.anchor node
        return node
      match t.token, block, bare with
      | .entry, _, true => list (bareItems fuel depth [])
      | .scalar plain text, _, _ => skip; leaf (.scalar start (scalarTag plain text p.tag) text)
      | .flowSequence, _, _ => skip; list (flowItems fuel depth t.mark true [])
      | .flowMapping, _, _ => skip; map (flowEntries fuel depth t.mark true [])
      | .blockSequence, true, _ => skip; list (blockItems fuel depth t.mark [])
      | .blockMapping, true, _ => skip; map (blockEntries fuel depth t.mark [])
      | _, _, _ =>
          if p.mark.isSome then leaf (.scalar start (scalarTag true "" p.tag) "")
          else
            let context := if block then "while parsing a block node" else "while parsing a flow node"
            unexpected (some (context, some start)) "expected the node content, but found "

/-- A node, or the empty one, which is at a place, if a stop comes first. -/
def readOr : (fuel depth : Nat) → (block bare : Bool) → (stops : List Token) → Mark → Reading Node
  | 0, _, _, _, _, _ => throw .nesting
  | fuel + 1, depth, block, bare, stops, m => do
      if (← peek).token ∈ stops then return .empty m else read fuel depth block bare

/-- The entries of a sequence in a block, up to and with the end of the block. -/
def blockItems : (fuel depth : Nat) → (start : Mark) → List Node → Reading (List Node)
  | 0, _, _, _ => throw .nesting
  | fuel + 1, depth, start, acc => do
      match ← peek with
      | ⟨.entry, m⟩ =>
          skip
          let item ← readOr fuel depth true false [.entry, .blockEnd] m.next
          blockItems fuel depth start (item :: acc)
      | ⟨.blockEnd, _⟩ => skip; return acc.reverse
      | _ =>
          unexpected (some ("while parsing a block collection", some start))
            "expected <block end>, but found "

/-- The entries of a sequence that has no start. -/
def bareItems : (fuel depth : Nat) → List Node → Reading (List Node)
  | 0, _, _ => throw .nesting
  | fuel + 1, depth, acc => do
      match ← peek with
      | ⟨.entry, m⟩ =>
          skip
          let item ← readOr fuel depth true false (.entry :: blockStops) m.next
          bareItems fuel depth (item :: acc)
      | _ => return acc.reverse

/-- The entries of a mapping in a block, up to and with the end of the block. -/
def blockEntries :
    (fuel depth : Nat) → (start : Mark) → List (Node × Node) → Reading (List (Node × Node))
  | 0, _, _, _ => throw .nesting
  | fuel + 1, depth, start, acc => do
      match ← peek with
      | ⟨.key, m⟩ =>
          skip
          let key ← readOr fuel depth true true blockStops m.next
          let value ← pairValue fuel depth true true blockStops
          blockEntries fuel depth start ((key, value) :: acc)
      | ⟨.blockEnd, _⟩ => skip; return acc.reverse
      | _ =>
          unexpected (some ("while parsing a block mapping", some start))
            "expected <block end>, but found "

/-- The value after a key; it may be left out, with its colon or without. -/
def pairValue : (fuel depth : Nat) → (block bare : Bool) → (stops : List Token) → Reading Node
  | 0, _, _, _, _ => throw .nesting
  | fuel + 1, depth, block, bare, stops => do
      match ← peek with
      | ⟨.value, m⟩ => skip; readOr fuel depth block bare stops m.next
      | t => return .empty t.mark

/-- A key and its value in a flow collection that a token ends; the key token is at a place. -/
def flowPair : (fuel depth : Nat) → (close : Token) → Mark → Reading (Node × Node)
  | 0, _, _, _ => throw .nesting
  | fuel + 1, depth, close, m => do
      let key ← readOr fuel depth false false [.value, .comma, close] m.next
      let value ← pairValue fuel depth false false [.comma, close]
      return (key, value)

/-- The items of a sequence in brackets, up to and with the closing one. -/
def flowItems : (fuel depth : Nat) → (start : Mark) → (first : Bool) → List Node →
    Reading (List Node)
  | 0, _, _, _, _ => throw .nesting
  | fuel + 1, depth, start, first, acc => do
      if ← accept .flowSequenceEnd then return acc.reverse
      if !first then
        unless ← accept .comma do
          unexpected (some ("while parsing a flow sequence", some start))
            "expected ',' or ']', but got "
      match ← peek with
      | ⟨.key, m⟩ =>
          skip
          let pair ← flowPair fuel (depth - 1) .flowSequenceEnd m
          flowItems fuel depth start false (.mapping m .mapping [pair] :: acc)
      | ⟨.flowSequenceEnd, _⟩ => skip; return acc.reverse
      | _ =>
          let item ← read fuel depth false false
          flowItems fuel depth start false (item :: acc)

/-- The entries of a mapping in braces, up to and with the closing one. -/
def flowEntries : (fuel depth : Nat) → (start : Mark) → (first : Bool) → List (Node × Node) →
    Reading (List (Node × Node))
  | 0, _, _, _, _ => throw .nesting
  | fuel + 1, depth, start, first, acc => do
      if ← accept .flowMappingEnd then return acc.reverse
      if !first then
        unless ← accept .comma do
          unexpected (some ("while parsing a flow mapping", some start))
            "expected ',' or '\x7d', but got "
      match ← peek with
      | ⟨.key, m⟩ =>
          skip
          let pair ← flowPair fuel depth .flowMappingEnd m
          flowEntries fuel depth start false (pair :: acc)
      | ⟨.flowMappingEnd, _⟩ => skip; return acc.reverse
      | _ =>
          let key ← read fuel depth false false
          let t ← peek
          flowEntries fuel depth start false ((key, .empty t.mark) :: acc)

end

/-! ## Documents -/

/-- Handles that need no directive. -/
def standardHandles : List (String × String) := [("!", "!"), ("!!", Tag.space)]

/-- Read directives; `versioned` says that one has given a version. The fuel is the count of
tokens. -/
def directives : (fuel : Nat) → (versioned : Bool) → Reading Unit
  | 0, _ => return ()
  | fuel + 1, versioned => do
      let stop (problem : String) (m : Mark) : Reading Unit := throw (.problem none problem m)
      match ← peek with
      | ⟨.directive d, m⟩ =>
          skip
          match d with
          | .version major _ =>
              if versioned then stop "found duplicate YAML directive" m
              if major ≠ 1 then
                stop "found incompatible YAML document (version 1.* is required)" m
              directives fuel true
          | .handle name meaning =>
              if ((← get).handles.lookup name).isSome then
                stop ("duplicate tag handle " ++ Quoted.encode name) m
              modify fun s => { s with handles := s.handles ++ [(name, meaning)] }
              directives fuel versioned
          | .other _ => directives fuel versioned
      | _ => return ()

/-- The directives and the separator at the start of a document. -/
def documentStart : Reading Unit := do
  modify fun s => { s with handles := [] }
  directives (← get).lexemes.length false
  modify fun s => { s with handles := s.handles ++ standardHandles }
  unless ← accept .documentStart do
    unexpected none "expected '<document start>', but found "

def isDirective : Token → Bool
  | .directive _ => true
  | _ => false

/-- The first document. Only one that starts with a separator may be empty. -/
def first (fuel depth : Nat) : Reading Node := do
  let t ← peek
  if isDirective t.token || t.token = .documentStart then
    documentStart
    let t ← peek
    if isDirective t.token || t.token ∈ [.documentStart, .documentEnd, .streamEnd] then
      return .empty t.mark
    read fuel depth true false
  else
    modify fun s => { s with handles := standardHandles }
    read fuel depth true false

/-- Skip the ends of documents. -/
def skipEnds : Reading Unit :=
  modify fun s => { s with lexemes := s.lexemes.dropWhile (·.token = .documentEnd) }

/-- The one document of a stream of tokens, in which collections stand so deep at most inside each
other; none if there are no tokens. -/
def document (depth : Nat) : Reading (Option Node) := do
  if (← peek).token = .streamEnd then return none
  let node ← first (8 * (← get).lexemes.length + 8) depth
  skipEnds
  let t ← peek
  if t.token = .streamEnd then return some node
  documentStart
  throw (.problem (some ("expected a single document in the stream", some node.mark))
    "but found another document" t.mark)

end Node

end Cyclomatic.Yaml
