import Cyclomatic.Number.Basic
import Cyclomatic.Text.Quoted

/-! # Data values

The values that configuration files hold and that reports are written from:
scalars, lists, and maps that keep the order of their keys. Integers, floating
numbers and booleans compare as numbers.
-/

namespace Cyclomatic

inductive Value where
  | null
  | bool (b : Bool)
  | num (n : Num)
  | text (s : String)
  | list (items : List Value)
  | map (entries : List (Value × Value))
  deriving Inhabited

namespace Value

def int (i : Int) : Value := .num (.int i)

def nat (n : Nat) : Value := .num (.int n)

def ofText? : Option String → Value
  | some s => .text s
  | none => .null

def ofInt? : Option Int → Value
  | some i => .int i
  | none => .null

def texts (xs : List String) : Value := .list (xs.map .text)

/-- A map from text keys. -/
def record (fields : List (String × Value)) : Value :=
  .map (fields.map fun (k, v) => (.text k, v))

/-- The number a value counts as: booleans count as zero and one. -/
def number? : Value → Option Num
  | .num n => some n
  | .bool b => some (.int (if b then 1 else 0))
  | _ => none

/-- Whether a value counts as present: empty and zero values do not. -/
def truthy : Value → Bool
  | .null => false
  | .bool b => b
  | .num n => !n.isZero
  | .text s => !s.isEmpty
  | .list items => !items.isEmpty
  | .map entries => !entries.isEmpty

/-- The name of a value's kind, as messages give it. -/
def kindName : Value → String
  | .null => "NoneType"
  | .bool _ => "bool"
  | .num (.int _) => "int"
  | .num (.real _) => "float"
  | .text _ => "str"
  | .list _ => "list"
  | .map _ => "dict"

mutual

/-- Equality of values: numbers by their exact value, maps without regard to order. -/
def same : Value → Value → Bool
  | .null, .null => true
  | .text s, .text t => s == t
  | .list xs, .list ys => sameList xs ys
  | .map es, .map fs => es.length == fs.length && sameEntries es fs
  | .num m, v => sameNumber m v
  | .bool b, v => sameNumber (.int (if b then 1 else 0)) v
  | _, _ => false
where
  sameNumber (m : Num) (v : Value) : Bool :=
    match v.number? with
    | some n => m.same n
    | none => false

def sameList : List Value → List Value → Bool
  | [], [] => true
  | x :: xs, y :: ys => same x y && sameList xs ys
  | _, _ => false

def sameEntries : List (Value × Value) → List (Value × Value) → Bool
  | [], _ => true
  | (k, v) :: es, fs => sameMember k v fs && sameEntries es fs

def sameMember (k v : Value) : List (Value × Value) → Bool
  | [] => false
  | (k', v') :: fs => (same k k' && same v v') || sameMember k v fs

end

/-- Two values of kinds that have no common order. -/
structure Mismatch where
  symbol : String
  left : String
  right : String
  deriving DecidableEq, Repr

def Mismatch.message (m : Mismatch) : String :=
  s!"'{m.symbol}' not supported between instances of '{m.left}' and '{m.right}'"

/-- An order relation between values, with the sign it is written by. -/
structure Relation where
  symbol : String
  onNumbers : Num → Num → Bool
  onOrdering : Ordering → Bool

def Relation.less : Relation := ⟨"<", Num.lt, (· == .lt)⟩
def Relation.atMost : Relation := ⟨"<=", Num.le, (· != .gt)⟩
def Relation.greater : Relation := ⟨">", fun a b => b.lt a, (· == .gt)⟩
def Relation.atLeast : Relation := ⟨">=", fun a b => b.le a, (· != .lt)⟩

mutual

/-- Compare two values: numbers by value, texts by code point, lists by their
first unequal items and then by length. -/
def compare (r : Relation) : Value → Value → Except Mismatch Bool
  | .text s, .text t => .ok (r.onOrdering (Ord.compare s t))
  | .list xs, .list ys => compareList r xs ys
  | a, b =>
      match a.number?, b.number? with
      | some m, some n => .ok (r.onNumbers m n)
      | _, _ => .error ⟨r.symbol, a.kindName, b.kindName⟩

def compareList (r : Relation) : List Value → List Value → Except Mismatch Bool
  | [], [] => .ok (r.onOrdering .eq)
  | [], _ :: _ => .ok (r.onOrdering .lt)
  | _ :: _, [] => .ok (r.onOrdering .gt)
  | x :: xs, y :: ys => if same x y then compareList r xs ys else compare r x y

end

mutual

/-- A value as messages show it inside another value. -/
def shown : Value → String
  | .null => "None"
  | .bool b => if b then "True" else "False"
  | .num n => n.toText
  | .text s => Quoted.encode s
  | .list items => "[" ++ ", ".intercalate (shownList items) ++ "]"
  | .map entries => "\x7b" ++ ", ".intercalate (shownEntries entries) ++ "\x7d"

def shownList : List Value → List String
  | [] => []
  | x :: xs => shown x :: shownList xs

def shownEntries : List (Value × Value) → List String
  | [] => []
  | (k, v) :: es => (shown k ++ ": " ++ shown v) :: shownEntries es

end

/-- A value as messages show it: a text stands for itself. -/
def display : Value → String
  | .text s => s
  | v => shown v

end Value

/-- The entries of a map, in the order their keys were first given. -/
abbrev Entries := List (Value × Value)

namespace Entries

def get? (entries : Entries) (key : Value) : Option Value :=
  (entries.find? fun (k, _) => k.same key).map (·.2)

def field? (entries : Entries) (name : String) : Option Value := entries.get? (.text name)

/-- Give a key a value: in its place if the key is there, else at the end. -/
def insert : Entries → Value → Value → Entries
  | [], key, value => [(key, value)]
  | (k, v) :: rest, key, value =>
      if k.same key then (k, value) :: rest else (k, v) :: insert rest key value

def erase (entries : Entries) (key : Value) : Entries :=
  entries.filter fun (k, _) => !k.same key

/-- Take over every entry of `other`, in order. -/
def update (entries other : Entries) : Entries :=
  other.foldl (fun acc (k, v) => acc.insert k v) entries

def ofList (pairs : List (Value × Value)) : Entries := update [] pairs

end Entries

end Cyclomatic
