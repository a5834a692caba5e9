import Cyclomatic.Text.Numeral
import Cyclomatic.Value.Basic

/-! # Command-line arguments

A command takes switches, some of which take a value, and at most one operand.
A long switch may be cut short as long as it is clear which one is meant; a
short switch may have its value, or further short switches, right behind it.
After two dashes nothing is a switch, and a value of only two dashes counts as
a list of no values.
-/

namespace Cyclomatic.Command

/-- What the value of a switch must be. -/
inductive Reading where
  | text
  | integer
  | real
  | choice (names : List String)
  deriving DecidableEq, Repr

inductive Action where
  | store (r : Reading)
  | flag
  | help
  | version
  deriving DecidableEq, Repr

structure Switch where
  names : List String
  key : String
  action : Action
  required : Bool := false
  deriving DecidableEq, Repr

/-- How much an operand takes: one argument, at most one, or one of some choices with all that
follows it. -/
inductive Extent where
  | one
  | optional
  | rest (choices : List String)
  deriving DecidableEq, Repr

structure Operand where
  key : String
  extent : Extent
  deriving DecidableEq, Repr

structure Usage where
  program : String
  operand : Option Operand := none
  switches : List Switch := []
  deriving Repr

/-- Why reading arguments ends before a command is known. -/
inductive Stop where
  | help (program : String)
  | version
  | misuse (program message : String)
  deriving DecidableEq, Repr

namespace Switch

def takesValue (s : Switch) : Bool := s.action matches .store _

def title (s : Switch) : String := "/".intercalate s.names

end Switch

/-- A switch as it is used: under which name, and with which text joined to it. -/
structure Use where
  switch : Switch
  name : String
  joint : Option String := none

/-- What an argument is before switches take their values. -/
inductive Mark where
  | operand
  | divider
  | switch (use : Option Use)

abbrev Item := String × Mark

namespace Usage

variable (u : Usage)

def misuse {α : Type} (message : String) : Except Stop α := .error (.misuse u.program message)

def misuseOf {α : Type} (title message : String) : Except Stop α :=
  u.misuse s!"argument {title}: {message}"

def named : List (String × Switch) := u.switches.flatMap fun s => s.names.map (·, s)

def lookup? (name : String) : Option Switch := u.named.lookup name

/-! ## Switches and operands -/

/-- The text before the first equals sign, and the text after it. -/
def splitEquals (arg : String) : String × Option String :=
  let name := arg.toList.takeWhile (· ≠ '=')
  match arg.toList.drop name.length with
  | _ :: rest => (String.ofList name, some (String.ofList rest))
  | [] => (String.ofList name, none)

def startsWith (whole start : String) : Bool := start.toList.isPrefixOf whole.toList

/-- The uses that a long switch, perhaps cut short, can stand for. -/
def longUses (arg : String) : List Use :=
  let (name, value) := splitEquals arg
  (u.named.filter fun (n, _) => startsWith n name).map fun (n, s) => ⟨s, n, value⟩

/-- The uses that a short switch with text behind it can stand for. -/
def shortUses (arg : String) : List Use :=
  let short := String.ofList (arg.toList.take 2)
  u.named.filterMap fun (n, s) =>
    if n = short then some ⟨s, n, some (String.ofList (arg.toList.drop 2))⟩
    else if startsWith n arg then some ⟨s, n, none⟩
    else none

/-- A minus sign with digits, and at most one point before the last of them; a line end may
follow. -/
def isNegativeNumber (arg : String) : Bool :=
  let chars := arg.toList
  match if chars.getLast? = some '\n' then chars.dropLast else chars with
  | '-' :: cs =>
      let whole := cs.takeWhile Numeral.isDigit
      match cs.drop whole.length with
      | [] => !whole.isEmpty
      | '.' :: fraction => !fraction.isEmpty && fraction.all Numeral.isDigit
      | _ => false
  | _ => false

def classify (arg : String) : Except Stop Mark :=
  match arg.toList with
  | '-' :: second :: _ =>
      match u.lookup? arg with
      | some s => .ok (.switch (some ⟨s, arg, none⟩))
      | none =>
          let (name, value) := splitEquals arg
          match value, u.lookup? name with
          | some text, some s => .ok (.switch (some ⟨s, name, some text⟩))
          | _, _ =>
              match if second = '-' then u.longUses arg else u.shortUses arg with
              | [use] => .ok (.switch (some use))
              | [] =>
                  if isNegativeNumber arg || arg.toList.contains ' ' then .ok .operand
                  else .ok (.switch none)
              | uses =>
                  let matching := ", ".intercalate (uses.map (·.name))
                  u.misuse s!"ambiguous option: {arg} could match {matching}"
  | _ => .ok .operand

def marks : List String → Except Stop (List Item)
  | [] => .ok []
  | arg :: args =>
      if arg = "--" then .ok ((arg, .divider) :: args.map (·, .operand))
      else do
        let mark ← u.classify arg
        return (arg, mark) :: (← marks args)

/-! ## Reading -/

/-- What has been read so far. -/
structure Progress where
  values : List (String × Value) := []
  operandLeft : Bool := true
  extras : List String := []

def Progress.assign (key : String) (v : Value) (p : Progress) : Progress :=
  { p with values := p.values ++ [(key, v)] }

def Progress.leave (args : List String) (p : Progress) : Progress :=
  { p with extras := p.extras ++ args }

def shownChoice (title value : String) (choices : List String) {α : Type} : Except Stop α :=
  let list := ", ".intercalate (choices.map Quoted.encode)
  u.misuseOf title s!"invalid choice: {Quoted.encode value} (choose from {list})"

def read (title text : String) : Reading → Except Stop Value
  | .text => .ok (.text text)
  | .integer =>
      match Numeral.integer? text with
      | some i => .ok (.int i)
      | none => u.misuseOf title s!"invalid int value: {Quoted.encode text}"
  | .real =>
      match Numeral.real? text with
      | some x => .ok (.num (.real x))
      | none => u.misuseOf title s!"invalid float value: {Quoted.encode text}"
  | .choice names =>
      if text ∈ names then .ok (.text text) else u.shownChoice title text names

/-- The value that a switch is given. -/
def valueOf (s : Switch) (text : String) (r : Reading) : Except Stop Value :=
  if text = "--" then .ok (.list []) else u.read s.title text r

def act (s : Switch) (value : Option String) (p : Progress) : Except Stop Progress :=
  match s.action, value with
  | .help, _ => .error (.help u.program)
  | .version, _ => .error .version
  | .flag, _ => .ok (p.assign s.key (.bool true))
  | .store r, some text => return p.assign s.key (← u.valueOf s text r)
  | .store _, none => .ok p

/-- What one argument sets off: switches with their values, and whether the next argument is
taken as a value. -/
structure Effect where
  uses : List (Switch × Option String)
  takesNext : Bool := false

/-- The switches in one argument. Text joined to a short switch that takes no value is read as
further short switches; the fuel is the length of that text. -/
def effect (next : Option Item) : Nat → Use → Except Stop Effect
  | fuel, use =>
      let s := use.switch
      match use.joint with
      | none =>
          if !s.takesValue then .ok ⟨[(s, none)], false⟩
          else
            match next with
            | some (arg, .operand) => .ok ⟨[(s, some arg)], true⟩
            | _ => u.misuseOf s.title "expected one argument"
      | some text =>
          if s.takesValue then .ok ⟨[(s, some text)], false⟩
          else
            let ignored : Except Stop Effect :=
              u.misuseOf s.title s!"ignored explicit argument {Quoted.encode text}"
            match text.toList, fuel with
            | c :: rest, fuel + 1 =>
                let name := String.ofList ['-', c]
                match if startsWith use.name "--" then none else u.lookup? name with
                | none => ignored
                | some t => do
                    let joint := if rest.isEmpty then none else some (String.ofList rest)
                    let e ← effect next fuel ⟨t, name, joint⟩
                    return { e with uses := (s, none) :: e.uses }
            | _, _ => ignored

def isSwitch : Item → Bool
  | (_, .switch _) => true
  | _ => false

def isDivider : Item → Bool
  | (_, .divider) => true
  | _ => false

/-- How many items an operand takes; none if it cannot be met. -/
def extentOf (items : List Item) : Extent → Option Nat
  | extent =>
      let before := (items.takeWhile isDivider).length
      let later := items.drop before
      match extent, later with
      | .rest _, (_, .operand) :: _ => some items.length
      | .one, (_, .operand) :: more | .optional, (_, .operand) :: more =>
          some (before + 1 + (more.takeWhile isDivider).length)
      | .optional, _ => some before
      | _, _ => none

/-- Give the operand its arguments; a divider among them does not count. -/
def takeOperand (o : Operand) (args : List String) (p : Progress) : Except Stop Progress :=
  let p := { p with operandLeft := false }
  match o.extent with
  | .rest choices =>
      match args with
      | first :: _ =>
          if first ∈ choices then .ok (p.assign o.key (.texts args))
          else u.shownChoice o.key first choices
      | [] => .ok p
  | _ =>
      match args.erase "--" with
      | text :: _ => .ok (p.assign o.key (.text text))
      | [] => .ok p

/-- Give the operand what it can take here: how many items that is, and what is then read. -/
def operands (items : List Item) (p : Progress) : Except Stop (Nat × Progress) :=
  match u.operand with
  | some o =>
      if !p.operandLeft then .ok (0, p)
      else
        match extentOf items o.extent with
        | some n => return (n, ← u.takeOperand o ((items.take n).map (·.1)) p)
        | none => .ok (0, p)
  | none => .ok (0, p)

/-- Read items one after the other; the fuel is one more than their count. -/
def walk : Nat → List Item → Progress → Except Stop Progress
  | 0, _, p => .ok p
  | fuel + 1, items, p => do
      let before := items.takeWhile (!isSwitch ·)
      match items.drop before.length with
      | [] =>
          let (n, p) ← u.operands items p
          return p.leave ((items.drop n).map (·.1))
      | (arg, mark) :: later =>
          let (n, p) ← if before.isEmpty then pure (0, p) else u.operands items p
          if 0 < n then walk fuel (items.drop n) p
          else
            let p := p.leave (before.map (·.1))
            match mark with
            | .switch (some use) =>
                let e ← u.effect later.head? (arg.length + 1) use
                let p ← e.uses.foldlM (fun p (s, value) => u.act s value p) p
                walk fuel (if e.takesNext then later.drop 1 else later) p
            | _ => walk fuel later (p.leave [arg])

/-- The names of what must be given and is not. -/
def missing (p : Progress) : List String :=
  (match u.operand with
    | some ⟨key, .one⟩ => if p.operandLeft then [key] else []
    | _ => []) ++
  (u.switches.filter fun s => s.required && (p.values.lookup s.key).isNone).map (·.title)

/-- Read arguments: the values of switches and operand, and the arguments that are neither. -/
def parse (args : List String) : Except Stop Progress := do
  let items ← u.marks args
  let p ← u.walk (items.length + 1) items {}
  match u.missing p with
  | [] => return p
  | names =>
      let list := ", ".intercalate names
      u.misuse s!"the following arguments are required: {list}"

/-! ## Values -/

/-- The last value given under a key. -/
def Progress.get? (p : Progress) (key : String) : Option Value := p.values.reverse.lookup key

/-- The last value given under a key, or null. -/
def Progress.value (p : Progress) (key : String) : Value := (p.get? key).getD .null

def Progress.text? (p : Progress) (key : String) : Option String :=
  match p.get? key with
  | some (.text s) => some s
  | _ => none

def Progress.flag (p : Progress) (key : String) : Bool := (p.get? key).isSome

end Usage

end Cyclomatic.Command
