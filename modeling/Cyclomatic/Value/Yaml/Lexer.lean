import Cyclomatic.Value.Yaml.BlockText
import Cyclomatic.Value.Yaml.PlainText
import Cyclomatic.Value.Yaml.Property
import Cyclomatic.Value.Yaml.QuotedText

/-! # Cutting text into tokens

The lexer goes from token to token. It keeps the columns of the open blocks,
and for each level of flow collections the place of the token that would be a
key if a colon came next. A token is settled once no key token can come before
it any more; where the text goes wrong, the settled tokens still count.
-/

namespace Cyclomatic.Yaml

/-- A token that may turn out to be a key. -/
structure Candidate where
  /-- How many tokens stand before it. -/
  before : Nat
  /-- In its place only a key can stand. -/
  required : Bool
  mark : Mark

structure Lexer where
  place : Cursor
  /-- More than the count of characters that are left. -/
  fuel : Nat
  /-- The column of the innermost block, and those around it. -/
  indent : Int := -1
  outer : List Int := []
  keyAllowed : Bool := true
  /-- The candidate outside flow collections. -/
  candidate : Option Candidate := none
  /-- The candidates inside each open flow collection, innermost first. -/
  flow : List (Option Candidate) := []
  /-- How many tokens are settled. -/
  settled : Nat := 0
  /-- The tokens after those. -/
  queue : List Lexeme := []
  /-- The end of the text is reached. -/
  done : Bool := false

namespace Lexer

def inFlow (s : Lexer) : Bool := !s.flow.isEmpty

/-- A token that starts at a place. -/
def emitAt (m : Mark) (t : Token) (s : Lexer) : Lexer := { s with queue := s.queue ++ [⟨t, m⟩] }

/-- A token of so many characters at the present place. -/
def emit (t : Token) (length : Nat) (s : Lexer) : Lexer :=
  { s.emitAt s.place.mark t with place := s.place.forward length }

/-- A token from the present place to another one. -/
def emitTo (after : Cursor) (t : Token) (s : Lexer) : Lexer :=
  { s.emitAt s.place.mark t with place := after }

/-- Something is wrong at the present place. -/
def stop {α : Type} (problem : String) (s : Lexer) : Except Fault α :=
  .error (.problem none problem s.place.mark)

/-! ## Candidates for keys -/

def currentKey (s : Lexer) : Option Candidate :=
  match s.flow with
  | [] => s.candidate
  | c :: _ => c

def setKey (c : Option Candidate) (s : Lexer) : Lexer :=
  match s.flow with
  | [] => { s with candidate := c }
  | _ :: rest => { s with flow := c :: rest }

/-- The colon after a required key is missing. -/
def missingColon (s : Lexer) (c : Candidate) : Fault :=
  .problem (some ("while scanning a simple key", some c.mark)) "could not find expected ':'"
    s.place.mark

/-- Give up the candidate of the current level. -/
def dropKey (s : Lexer) : Except Fault Lexer :=
  match s.currentKey with
  | some c => if c.required then .error (s.missingColon c) else .ok (s.setKey none)
  | none => .ok s

/-- Keys stand on one line and are at most this long. -/
def keyLimit : Nat := 1024

def stale (s : Lexer) (c : Candidate) : Bool :=
  c.mark.line ≠ s.place.line || s.place.index - c.mark.index > keyLimit

def refresh (s : Lexer) (c : Option Candidate) : Except Fault (Option Candidate) :=
  match c with
  | some k =>
      if !s.stale k then .ok c else if k.required then .error (s.missingColon k) else .ok none
  | none => .ok none

/-- Give up the candidates that are too far back. -/
def dropStale (s : Lexer) : Except Fault Lexer := do
  let candidate ← s.refresh s.candidate
  let flow ← s.flow.mapM s.refresh
  return { s with candidate, flow }

/-- Take the next token as a candidate, if a key may stand there. -/
def saveKey (s : Lexer) : Except Fault Lexer := do
  if !s.keyAllowed then return s
  let s ← s.dropKey
  let required := !s.inFlow && s.indent == s.place.column
  return s.setKey (some ⟨s.settled + s.queue.length, required, s.place.mark⟩)

/-- How many tokens of the queue stand before every candidate. -/
def ready (s : Lexer) : Nat :=
  (s.candidate :: s.flow).foldl
    (fun n c => min n ((c.map fun k => k.before - s.settled).getD n)) s.queue.length

/-! ## Blocks -/

/-- Close the blocks that stand further in than a column. -/
def unwindFrom (column : Int) (close : Lexeme) :
    List Int → Int → List Lexeme → Int × List Int × List Lexeme
  | [], indent, queue => (indent, [], queue)
  | i :: outer, indent, queue =>
      if indent > column then unwindFrom column close outer i (queue ++ [close])
      else (indent, i :: outer, queue)

def unwind (column : Int) (s : Lexer) : Lexer :=
  if s.inFlow then s
  else
    let (indent, outer, queue) := unwindFrom column ⟨.blockEnd, s.place.mark⟩ s.outer s.indent s.queue
    { s with indent, outer, queue }

/-- Open a block at the present place, if it stands further in than the innermost one. -/
def openBlock (t : Token) (s : Lexer) : Lexer :=
  if s.indent < s.place.column then
    { s.emitAt s.place.mark t with indent := s.place.column, outer := s.indent :: s.outer }
  else s

/-! ## What is between tokens -/

/-- Skip blanks, comments and line breaks; the answer says whether a line has ended. -/
def skipGap : Nat → Cursor → Bool × Cursor
  | 0, c => (false, c)
  | fuel + 1, c =>
      let c := c.skipSpaces
      let c := if c.peek = '#' then c.skipWhile (!isBreak ·) else c
      match c.lineBreak? with
      | some (_, after) => (true, (skipGap fuel after).2)
      | none => (false, c)

def toNext (s : Lexer) : Lexer :=
  let c := if s.place.index = 0 && s.place.peek = '\ufeff' then s.place.next else s.place
  let (broke, place) := skipGap s.fuel c
  { s with place, keyAllowed := s.keyAllowed || (broke && !s.inFlow) }

/-! ## Tokens -/

def fetchSeparator (t : Token) (s : Lexer) : Except Fault Lexer := do
  let s ← (s.unwind (-1)).dropKey
  return { s with keyAllowed := false }.emit t 3

def fetchDirective (s : Lexer) : Except Fault Lexer := do
  let s ← (s.unwind (-1)).dropKey
  let (t, after) ← Property.directive s.place
  return { s with keyAllowed := false }.emitTo after t

def fetchFlowStart (t : Token) (s : Lexer) : Except Fault Lexer := do
  let s ← s.saveKey
  return { s with flow := none :: s.flow, keyAllowed := true }.emit t 1

def fetchFlowEnd (t : Token) (s : Lexer) : Except Fault Lexer := do
  let s ← s.dropKey
  return { s with flow := s.flow.drop 1, keyAllowed := false }.emit t 1

def fetchComma (s : Lexer) : Except Fault Lexer := do
  let s ← s.dropKey
  return { s with keyAllowed := true }.emit .comma 1

def fetchEntry (s : Lexer) : Except Fault Lexer := do
  if !s.inFlow && !s.keyAllowed then s.stop "sequence entries are not allowed here"
  let s := if s.inFlow then s else s.openBlock .blockSequence
  let s ← s.dropKey
  return { s with keyAllowed := true }.emit .entry 1

def fetchKey (s : Lexer) : Except Fault Lexer := do
  if !s.inFlow && !s.keyAllowed then s.stop "mapping keys are not allowed here"
  let s := if s.inFlow then s else s.openBlock .blockMapping
  let s ← s.dropKey
  return { s with keyAllowed := !s.inFlow }.emit .key 1

/-- Put tokens in front of a candidate. -/
def insertBefore (c : Candidate) (new : List Lexeme) (s : Lexer) : Lexer :=
  let before := c.before - s.settled
  { s with queue := s.queue.take before ++ new ++ s.queue.drop before }

/-- The colon after a key. -/
def valueAfter (c : Candidate) (s : Lexer) : Lexer :=
  let s := { s.setKey none with keyAllowed := false }
  if !s.inFlow && s.indent < (c.mark.column : Int) then
    { s.insertBefore c [⟨.blockMapping, c.mark⟩, ⟨.key, c.mark⟩] with
      indent := c.mark.column, outer := s.indent :: s.outer }
  else s.insertBefore c [⟨.key, c.mark⟩]

/-- A colon that no candidate stands before. -/
def valueAlone (s : Lexer) : Except Fault Lexer := do
  if !s.inFlow && !s.keyAllowed then s.stop "mapping values are not allowed here"
  let s := if s.inFlow then s else s.openBlock .blockMapping
  dropKey { s with keyAllowed := !s.inFlow }

def fetchValue (s : Lexer) : Except Fault Lexer := do
  let s ← match s.currentKey with
    | some c => pure (s.valueAfter c)
    | none => s.valueAlone
  return s.emit .value 1

def fetchReference (sort : String) (token : String → Token) (s : Lexer) : Except Fault Lexer := do
  let s ← s.saveKey
  let (name, after) ← Property.reference sort s.place
  return { s with keyAllowed := false }.emitTo after (token name)

def fetchTag (s : Lexer) : Except Fault Lexer := do
  let s ← s.saveKey
  let (t, after) ← Property.tag s.place
  return { s with keyAllowed := false }.emitTo after t

def fetchBlockText (fold : Bool) (s : Lexer) : Except Fault Lexer := do
  let s ← s.dropKey
  let (text, after) ← blockText fold (max 1 (s.indent + 1).toNat) s.fuel s.place
  return { s with keyAllowed := true }.emitTo after (.scalar false text)

def fetchQuoted (double : Bool) (s : Lexer) : Except Fault Lexer := do
  let s ← s.saveKey
  let (text, after) ← quoted double s.fuel s.place
  return { s with keyAllowed := false }.emitTo after (.scalar false text)

def fetchPlain (s : Lexer) : Except Fault Lexer := do
  let s ← s.saveKey
  let (text, after, broke) := plainText s.inFlow (s.indent + 1) s.fuel s.place
  return { s with keyAllowed := broke }.emitTo after (.scalar true text)

def finish (s : Lexer) : Except Fault Lexer := do
  return { (← (s.unwind (-1)).dropKey) with done := true }.emit .streamEnd 0

/-- Read the token at the present place. -/
def token (s : Lexer) : Except Fault Lexer :=
  let c := s.place
  let alone := s.inFlow || endsWord (c.peekAt 1)
  if c.atEnd then s.finish
  else if c.column = 0 && c.peek = '%' then s.fetchDirective
  else if c.column = 0 && c.atTriple '-' then s.fetchSeparator .documentStart
  else if c.column = 0 && c.atTriple '.' then s.fetchSeparator .documentEnd
  else
    match c.peek with
    | '[' => s.fetchFlowStart .flowSequence
    | '\x7b' => s.fetchFlowStart .flowMapping
    | ']' => s.fetchFlowEnd .flowSequenceEnd
    | '\x7d' => s.fetchFlowEnd .flowMappingEnd
    | ',' => s.fetchComma
    | '*' => s.fetchReference "alias" .alias
    | '&' => s.fetchReference "anchor" .anchor
    | '!' => s.fetchTag
    | '\'' => s.fetchQuoted false
    | '"' => s.fetchQuoted true
    | ch =>
        if ch = '-' && endsWord (c.peekAt 1) then s.fetchEntry
        else if ch = '?' && alone then s.fetchKey
        else if ch = ':' && alone then s.fetchValue
        else if ch = '|' && !s.inFlow then s.fetchBlockText false
        else if ch = '>' && !s.inFlow then s.fetchBlockText true
        else if startsPlain s.inFlow c then s.fetchPlain
        else
          let problem := s!"found character {c.shown} that cannot start any token"
          .error (.problem (some ("while scanning for the next token", none)) problem c.mark)

/-- Go to the next token and read it. -/
def fetch (s : Lexer) : Except Fault Lexer := do
  let s ← s.toNext.dropStale
  let s ← (s.unwind s.place.column).token
  if s.done then return s else s.dropStale

/-- Read tokens to the end of the text, after those that are settled, which have the last one
first. Each step takes a character at least. -/
def run : Nat → List Lexeme → Lexer → List Lexeme
  | 0, acc, _ => acc.reverse
  | fuel + 1, acc, s =>
      match s.fetch with
      | .error f => acc.reverse ++ [⟨.fault f, s.place.mark⟩]
      | .ok s =>
          if s.done then acc.reverse ++ s.queue
          else
            let n := s.ready
            run fuel ((s.queue.take n).reverse ++ acc)
              { s with settled := s.settled + n, queue := s.queue.drop n }

end Lexer

/-- The tokens of a text: they end where the text ends, or where it goes wrong. -/
def tokens (cs : List Char) : List Lexeme :=
  match cs.find? (!isAllowed ·) with
  | some c => [⟨.fault (.character c (cs.findIdx (!isAllowed ·))), {}⟩]
  | none =>
      let fuel := cs.length + 1
      Lexer.run fuel [] { place := { rest := cs }, fuel }

end Cyclomatic.Yaml
