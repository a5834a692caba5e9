import Cyclomatic.Tree.Basic

/-! # Sketches of programs

Trees that have the shape of a program, most without its text, to state facts
about particular programs with.
-/

namespace Cyclomatic.Sketch

/-- A statement after which control goes on. -/
def statement : Tree := .ofSlots { kind := .plain, type := "statement" } {}

/-- A statement at which the function is left. -/
def leave : Tree := .ofSlots { kind := .plain, type := "return", exits := true } {}

def block (ss : List Tree) : Tree :=
  .ofSlots { kind := .block, type := "block" } { statements := ss }

def function (ss : List Tree) : Tree :=
  .ofSlots { kind := .function, type := "function" } { body := some (block ss) }

def branch (yes no : List Tree) : Tree :=
  .ofSlots { kind := .branch, type := "if" }
    { consequent := some (block yes), alternate := some (block no) }

def loop (body : List Tree) : Tree :=
  .ofSlots { kind := .whileLoop, type := "while" } { body := some (block body) }

/-- A multiway branch on the statements of its cases. -/
def switch (cases : List (List Tree)) : Tree :=
  .ofSlots { kind := .switch, type := "switch" }
    { cases := cases.map fun ss => .ofSlots { kind := .case, type := "case" } { statements := ss } }

def handler (body : List Tree) : Tree :=
  .ofSlots { kind := .handler, type := "catch" } { body := some (block body) }

/-- A guarded block; it may lack a handler or a final part. -/
def guarded (body : List Tree) (caught final : Option (List Tree)) : Tree :=
  .ofSlots { kind := .guarded, type := "try" }
    { body := some (block body), handler := caught.map handler, finalizer := final.map block }

/-- A node with the place that it has in a source. -/
def placed (kind : Kind) (place : Place) (slots : Tree.Slots := {}) : Tree :=
  .ofSlots { kind, type := "stretch", place } slots

/-- A node that takes up a part of the text. -/
def stretch (kind : Kind) (start stop : Int) (slots : Tree.Slots := {}) : Tree :=
  placed kind { startByte := start, endByte := stop } slots

end Cyclomatic.Sketch
