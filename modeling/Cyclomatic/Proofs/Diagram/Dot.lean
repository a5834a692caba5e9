import Cyclomatic.Diagram.Dot
import Cyclomatic.Proofs.Flow.Connectivity
import Cyclomatic.Proofs.Number.Text

/-! # A drawing tells its diagram

Each line of a drawing with a label is a head, the quoted label and a tail. A
label may hold any text, and still the quote that ends it is the one that was
written to end it. So from the text of a drawing alone its title, its nodes and
its edges can be read.
-/

namespace Cyclomatic.Diagram.Dot

/-! ## Quoted texts -/

/-- What a character behind a backslash stands for. -/
def unescapeChar (c : Char) : Char := if c = 'n' then '\n' else c

/-- A quoted text from behind its opening quote on, and what follows its closing quote. A
backslash escapes the character behind it. -/
def unquote? : List Char → Option (List Char × List Char)
  | [] => none
  | '"' :: cs => some ([], cs)
  | '\\' :: c :: cs => (unquote? cs).map fun (s, rest) => (unescapeChar c :: s, rest)
  | c :: cs => (unquote? cs).map fun (s, rest) => (c :: s, rest)

/-- A character that was escaped is read back as one character. -/
theorem unquote?_escapeChar (c : Char) (cs : List Char) :
    unquote? (escapeChar c ++ cs) = (unquote? cs).map fun (s, rest) => (c :: s, rest) := by
  fun_cases escapeChar c with
  | case1 heq => simp [heq, unquote?, unescapeChar]
  | case2 _ heq => simp [heq, unquote?, unescapeChar]
  | case3 _ _ heq => simp [heq, unquote?, unescapeChar]
  | case4 hslash hquote _ => simp [unquote?, hslash]

/-- A quoted text is read to the quote that ends it, and its escapes are undone. -/
theorem unquote?_flatMap (s rest : List Char) :
    unquote? (s.flatMap escapeChar ++ '"' :: rest) = some (s, rest) := by
  induction s with
  | nil => rfl
  | cons c s ih =>
      rw [List.flatMap_cons, List.append_assoc, unquote?_escapeChar, ih]
      rfl

/-- To read a quoted text takes at least its closing quote. -/
theorem length_lt_of_unquote? {cs s rest : List Char} (hread : unquote? cs = some (s, rest)) :
    rest.length < cs.length := by
  fun_induction unquote? cs generalizing s with
  | case1 => cases hread
  | case2 cs =>
      cases hread
      simp
  | case3 c cs ih =>
      obtain ⟨read, hsome, heq⟩ := Option.map_eq_some_iff.mp hread
      cases heq
      have := ih hsome
      simp only [List.length_cons]
      omega
  | case4 c cs _ _ ih =>
      obtain ⟨read, hsome, heq⟩ := Option.map_eq_some_iff.mp hread
      cases heq
      have := ih hsome
      simp only [List.length_cons]
      omega

/-- Every quoted text of a text; there are none if the last one is not ended. -/
def quotations? : List Char → Option (List String)
  | [] => some []
  | c :: cs =>
      if c = '"' then
        match hread : unquote? cs with
        | some (s, rest) =>
            have := length_lt_of_unquote? hread
            (quotations? rest).map (String.ofList s :: ·)
        | none => none
      else quotations? cs
termination_by cs => cs.length

/-- What holds no quote adds no quoted text. -/
theorem quotations?_append {cs : List Char} (hcs : '"' ∉ cs) (rest : List Char) :
    quotations? (cs ++ rest) = quotations? rest := by
  induction cs with
  | nil => rfl
  | cons c cs ih =>
      rw [List.mem_cons, not_or] at hcs
      rw [List.cons_append, quotations?, if_neg (Ne.symm hcs.1), ih hcs.2]

/-- A text that was escaped between quotes is read back whole, and reading goes on after it. -/
theorem quotations?_quoted (s : String) (rest : List Char) :
    quotations? ('"' :: (s.toList.flatMap escapeChar ++ '"' :: rest)) =
      (quotations? rest).map (s :: ·) := by
  rw [quotations?, if_pos rfl]
  -- The match keeps its equation for termination, so it is read off after the split.
  split
  next read =>
    rw [unquote?_flatMap] at read
    cases read
    rw [String.ofList_toList]
  next read =>
    rw [unquote?_flatMap] at read
    cases read

/-! ## Lines with a label -/

def quoting (head s tail : String) : String := head ++ "\"" ++ escape s ++ "\"" ++ tail

def nodeHead (id : String) : String := "  " ++ id ++ " [label="

def edgeHead (source target : String) : String :=
  "  " ++ source ++ " -> " ++ target ++ " [label="

/-- The line of a node is a name, a quoted label and the style of its kind. -/
theorem nodeLine_eq (showCode : Bool) (n : Node) :
    nodeLine showCode n =
      quoting (nodeHead n.id) (nodeLabel showCode n) (nodeStyle n.kind ++ "];") := by
  rw [← String.toList_inj]
  simp [nodeLine, labelled, quoting, nodeHead, toString]

theorem edgeLine_eq (e : Edge) :
    edgeLine e =
      quoting (edgeHead e.source e.target) e.label (edgeStyle e.label ++ "];") := by
  rw [← String.toList_inj]
  simp [edgeLine, labelled, quoting, edgeHead, toString]

theorem titleLine_eq (title : String) : titleLine title = quoting "  label=" title ";" := by
  rw [← String.toList_inj]
  simp [titleLine, labelled, quoting]

variable {head s tail : String}

/-- A quoted text stands between two quotes, each of its characters escaped. -/
theorem toList_quoting (head s tail : String) : (quoting head s tail).toList =
    head.toList ++ '"' :: (s.toList.flatMap escapeChar ++ '"' :: tail.toList) := by
  simp [quoting, escape]

theorem newline_not_mem_escapeChar (c : Char) : '\n' ∉ escapeChar c := by
  unfold escapeChar
  split
  next => decide
  next =>
    split
    next => decide
    next =>
      split
      next => decide
      next hfeed => exact fun hmem => hfeed (List.mem_singleton.mp hmem).symm

/-- A quoted text never breaks its line, whatever it holds. -/
theorem newline_not_mem_quoting (hhead : '\n' ∉ head.toList) (htail : '\n' ∉ tail.toList) :
    '\n' ∉ (quoting head s tail).toList := by
  have hescaped : '\n' ∉ s.toList.flatMap escapeChar := by
    intro hmem
    obtain ⟨c, _, hc⟩ := List.mem_flatMap.mp hmem
    exact newline_not_mem_escapeChar c hc
  simp [toList_quoting, hhead, hescaped, htail]

/-- A line at its first quoted text: what is before it, what is quoted, and what is behind it. -/
def cut? (line : List Char) : Option (String × String × String) :=
  match line.dropWhile (· ≠ '"') with
  | [] => none
  | _ :: cs => (unquote? cs).map fun (s, rest) =>
      (String.ofList (line.takeWhile (· ≠ '"')), String.ofList s, String.ofList rest)

/-- A line is cut at the quotes that were written around its label. -/
theorem cut?_quoting (hhead : '"' ∉ head.toList) :
    cut? (quoting head s tail).toList = some (head, s, tail) := by
  have hrun : ∀ c ∈ head.toList, decide (c ≠ '"') = true :=
    fun c hc => decide_eq_true fun heq => hhead (heq ▸ hc)
  unfold cut?
  rw [toList_quoting, List.dropWhile_append_of_pos hrun, List.takeWhile_append_of_pos hrun]
  simp [unquote?_flatMap]

/-- Wherever some characters stand outside of quotes, these are the texts quoted among them. -/
def Quotes (cs : List Char) (contents : List String) : Prop :=
  ∀ rest, quotations? (cs ++ rest) = (quotations? rest).map (contents ++ ·)

theorem Quotes.of_not_mem {cs : List Char} (hcs : '"' ∉ cs) : Quotes cs [] := by
  intro rest
  rw [quotations?_append hcs]
  simp

/-- The quoted texts of two pieces are those of the one and then those of the other, since a piece
does not end inside a quoted text. -/
theorem Quotes.append {cs ds : List Char} {xs ys : List String} (hcs : Quotes cs xs)
    (hds : Quotes ds ys) : Quotes (cs ++ ds) (xs ++ ys) := by
  intro rest
  rw [List.append_assoc, hcs, hds, Option.map_map]
  simp [Function.comp_def]

/-- A quoted text is the first one of its line. -/
theorem Quotes.quoting (hhead : '"' ∉ head.toList) {contents : List String}
    (htail : Quotes tail.toList contents) :
    Quotes (quoting head s tail).toList (s :: contents) := by
  intro rest
  rw [toList_quoting, List.append_assoc, quotations?_append hhead, List.cons_append,
    List.append_assoc, List.cons_append, quotations?_quoted, htail, Option.map_map]
  rfl

/-- A text is quoted line by line. -/
theorem Quotes.intercalate {ls : List (String × List String)}
    (hls : ∀ l ∈ ls, Quotes l.1.toList l.2) :
    Quotes ("\n".intercalate (ls.map (·.1))).toList (ls.flatMap (·.2)) := by
  induction ls with
  | nil => exact .of_not_mem (by decide)
  | cons l ls ih =>
      obtain ⟨hl, hls⟩ := List.forall_mem_cons.mp hls
      cases ls with
      | nil => simpa using hl
      | cons m ls =>
          have hfeed : Quotes "\n".toList [] := .of_not_mem (by decide)
          rw [List.map_cons, List.map_cons, String.intercalate_cons_cons, String.toList_append,
            String.toList_append, List.flatMap_cons, ← List.append_nil l.2]
          exact (hl.append hfeed).append (ih hls)

/-! ## The statements of a text -/

/-- What a line of a drawing says. -/
inductive Statement where
  | title (text : String)
  | node (id label : String) (kind : NodeKind)
  | edge (e : Edge)
  deriving DecidableEq, Repr

namespace Statement

def title? : Statement → Option String
  | .title text => some text
  | _ => none

def node? : Statement → Option (String × String × NodeKind)
  | .node id label kind => some (id, label, kind)
  | _ => none

def edge? : Statement → Option Edge
  | .edge e => some e
  | _ => none

end Statement

/-- The kind of a node by what is behind its label. -/
def kindOf? (tail : String) : Option NodeKind :=
  NodeKind.all.find? fun kind => tail = nodeStyle kind ++ "];"

/-- The words of a head, with empty ones for further blanks. -/
def words (head : String) : List String := (head.toList.splitOn ' ').map String.ofList

/-- A line is read by the words before its label; a line without a label says nothing. -/
def statement? (line : List Char) : Option Statement :=
  match cut? line with
  | none => none
  | some (head, label, tail) =>
      match words head with
      | ["", "", "label="] => some (.title label)
      | ["", "", id, "[label="] => (kindOf? tail).map (.node id label)
      | ["", "", source, "->", target, "[label="] => some (.edge ⟨source, target, label⟩)
      | _ => none

def statements (text : String) : List Statement := (text.toList.splitOn '\n').filterMap statement?

def readTitle? (text : String) : Option String := (statements text).findSome? Statement.title?

/-- The nodes of a text: identifiers, labels and kinds. -/
def readNodes (text : String) : List (String × String × NodeKind) :=
  (statements text).filterMap Statement.node?

def readEdges (text : String) : List Edge := (statements text).filterMap Statement.edge?

/-- An identifier: it has no blanks, quotes or line feeds. -/
def IsId (s : String) : Prop := ∀ c ∈ [' ', '"', '\n'], c ∉ s.toList

theorem isId_vertexName (i : Nat) : IsId (vertexName i) := by
  have hword : ∀ c ∈ [' ', '"', '\n'], c ∉ "node_".toList := by simp
  have hnumeric : ∀ c ∈ [' ', '"', '\n'], isNumeric c = false := by simp [isNumeric]
  intro c hc
  rw [vertexName, String.toList_append, List.mem_append, not_or]
  exact ⟨hword c hc, (numeric_repr i).not_mem (hnumeric c hc)⟩

/-- What comes before the label of a node has neither quotes nor line breaks. -/
theorem IsId.not_mem_nodeHead {id : String} (hid : IsId id) {c : Char} (hc : c ∈ ['"', '\n']) :
    c ∉ (nodeHead id).toList := by
  have hwords : ∀ c ∈ ['"', '\n'], c ∉ "  ".toList ∧ c ∉ " [label=".toList := by simp
  simp only [nodeHead, String.toList_append, List.mem_append, not_or]
  exact ⟨⟨(hwords c hc).1, hid c (List.mem_cons_of_mem ' ' hc)⟩, (hwords c hc).2⟩

theorem IsId.not_mem_edgeHead {source target : String} (hsource : IsId source)
    (htarget : IsId target) {c : Char} (hc : c ∈ ['"', '\n']) :
    c ∉ (edgeHead source target).toList := by
  have hwords : ∀ c ∈ ['"', '\n'],
      c ∉ "  ".toList ∧ c ∉ " -> ".toList ∧ c ∉ " [label=".toList := by simp
  obtain ⟨hindent, harrow, hkey⟩ := hwords c hc
  have hmem := List.mem_cons_of_mem ' ' hc
  simp only [edgeHead, String.toList_append, List.mem_append, not_or]
  exact ⟨⟨⟨⟨hindent, hsource c hmem⟩, harrow⟩, htarget c hmem⟩, hkey⟩

/-- A word without blanks ends at the next blank. -/
theorem words_append {word : String} (hword : ' ' ∉ word.toList) (rest : String) :
    words (word ++ " " ++ rest) = word :: words rest := by
  have hsplit : (word ++ " " ++ rest).toList = word.toList ++ ' ' :: rest.toList := by simp
  rw [words, hsplit, List.splitOn_append_cons_self_of_not_mem hword, List.map_cons,
    String.ofList_toList, words]

theorem words_key : words "[label=" = ["[label="] := by decide

/-- The name of a node is the third word of its line. -/
theorem words_nodeHead {id : String} (hid : IsId id) :
    words (nodeHead id) = ["", "", id, "[label="] := by
  have hhead : nodeHead id = "" ++ " " ++ ("" ++ " " ++ (id ++ " " ++ "[label=")) := by
    rw [← String.toList_inj]
    simp [nodeHead]
  rw [hhead, words_append (by decide), words_append (by decide), words_append (hid _ (by decide)),
    words_key]

/-- The ends of an edge are the third and the fifth word of its line. -/
theorem words_edgeHead {source target : String} (hsource : IsId source) (htarget : IsId target) :
    words (edgeHead source target) = ["", "", source, "->", target, "[label="] := by
  have hhead : edgeHead source target = "" ++ " " ++ ("" ++ " " ++ (source ++ " " ++
      ("->" ++ " " ++ (target ++ " " ++ "[label=")))) := by
    rw [← String.toList_inj]
    simp [edgeHead]
  rw [hhead, words_append (by decide), words_append (by decide),
    words_append (hsource _ (by decide)), words_append (by decide),
    words_append (htarget _ (by decide)), words_key]

/-- Every kind of node has a style of its own. -/
theorem kindOf?_nodeStyle (kind : NodeKind) : kindOf? (nodeStyle kind ++ "];") = some kind := by
  cases kind <;> decide +kernel

theorem statement?_titleLine (title : String) :
    statement? (titleLine title).toList = some (.title title) := by
  have hwords : words "  label=" = ["", "", "label="] := by decide
  unfold statement?
  rw [titleLine_eq, cut?_quoting (by decide)]
  simp only [hwords]

/-- The line of a node tells its name, its label and its kind. -/
theorem statement?_nodeLine (showCode : Bool) {n : Node} (hid : IsId n.id) :
    statement? (nodeLine showCode n).toList = some (.node n.id (nodeLabel showCode n) n.kind) := by
  unfold statement?
  rw [nodeLine_eq, cut?_quoting (hid.not_mem_nodeHead (by decide))]
  simp only [words_nodeHead hid, kindOf?_nodeStyle, Option.map_some]

/-- The line of an edge tells its ends and its label. -/
theorem statement?_edgeLine {e : Edge} (hsource : IsId e.source) (htarget : IsId e.target) :
    statement? (edgeLine e).toList = some (.edge e) := by
  unfold statement?
  rw [edgeLine_eq, cut?_quoting (hsource.not_mem_edgeHead htarget (by decide))]
  simp only [words_edgeHead hsource htarget]

/-- What lines tell one by one, they tell in their order. -/
theorem filterMap_statement? {α : Type} {line : α → String} {told : α → Statement} {xs : List α}
    (htold : ∀ x ∈ xs, statement? (line x).toList = some (told x)) :
    (xs.map fun x => (line x).toList).filterMap statement? = xs.map told := by
  rw [List.filterMap_map, ← List.filterMap_eq_map]
  exact List.filterMap_congr htold

/-! ## Diagrams with identifiers -/

/-- Nodes are named by identifiers, also where edges name them. -/
structure Identified (d : Diagram) : Prop where
  nodes : ∀ n ∈ d.nodes, IsId n.id
  sources : ∀ e ∈ d.edges, IsId e.source
  targets : ∀ e ∈ d.edges, IsId e.target

/-- The nodes of a diagram that comes from a graph are named by their numbers, so all names are
words. -/
theorem identified_ofGraph (g : Flow.Graph) (name path : Option String) :
    Identified (ofGraph g name path) where
  nodes := by
    refine List.forall_mem_map.mpr fun v _ => ?_
    rw [ofVertex_id]
    exact isId_vertexName v.1
  sources := List.forall_mem_map.mpr fun e _ => isId_vertexName e.source
  targets := List.forall_mem_map.mpr fun e _ => isId_vertexName e.target

theorem identified_diagram {source : Bytes} {t : Tree} {name path : Option String} {d : Diagram}
    (hd : (Analysis.diagram source t name path).result = .ok d) : Identified d := by
  unfold Analysis.diagram at hd
  dsimp only at hd
  split at hd
  next g _ =>
    cases hd
    exact identified_ofGraph g name path
  next => cases hd

/-! ## The lines of a drawing -/

/-- The colour of a node, which its line quotes as well. -/
def fill : NodeKind → List String
  | .entry => ["#ccffcc"]
  | .exit => ["#ffcccc"]
  | .decision | .process => []

/-- Behind its label a node has at most one quoted text, the colour of its kind. -/
theorem quotes_nodeTail (kind : NodeKind) :
    Quotes (nodeStyle kind ++ "];").toList (fill kind) := by
  have hfilled (colour : String) :
      Quotes (quoting ", shape=ellipse, style=filled, fillcolor=" colour "];").toList [colour] :=
    .quoting (by decide) (.of_not_mem (by decide))
  have hentry : nodeStyle .entry ++ "];" =
      quoting ", shape=ellipse, style=filled, fillcolor=" "#ccffcc" "];" := by decide +kernel
  have hexit : nodeStyle .exit ++ "];" =
      quoting ", shape=ellipse, style=filled, fillcolor=" "#ffcccc" "];" := by decide +kernel
  cases kind with
  | entry => exact hentry ▸ hfilled "#ccffcc"
  | exit => exact hexit ▸ hfilled "#ffcccc"
  | decision => exact .of_not_mem (by decide)
  | process => exact .of_not_mem (by decide)

theorem newline_not_mem_nodeTail (kind : NodeKind) : '\n' ∉ (nodeStyle kind ++ "];").toList := by
  cases kind <;> decide +kernel

/-- Behind its label an edge has neither quotes nor line breaks. -/
theorem not_mem_edgeTail (label : String) :
    ∀ c ∈ ['"', '\n'], c ∉ (edgeStyle label ++ "];").toList := by
  unfold edgeStyle
  split
  next => simp
  next =>
    split
    next => simp
    next => split <;> simp

/-- The lines of a drawing, each with the texts that it quotes. -/
def quotedLines (showCode : Bool) (title : Option String) (d : Diagram) :
    List (String × List String) :=
  [("digraph CFG \x7b", [])] ++ ((titleOf title d).map fun t => (titleLine t, [t])).toList ++
    [("  node [shape=box, fontname=monospace, fontsize=10];", [])] ++
    d.nodes.map (fun n => (nodeLine showCode n, nodeLabel showCode n :: fill n.kind)) ++
    d.edges.map (fun e => (edgeLine e, [e.label])) ++ [("\x7d", [])]

variable {showCode : Bool} {title : Option String} {d : Diagram}

theorem lines_eq : lines showCode title d = (quotedLines showCode title d).map (·.1) := by
  cases htitle : titleOf title d <;> simp [lines, quotedLines, htitle, Function.comp_def]

/-- The quoted texts of a drawing: the title, for each node its label and its colour, and the
labels of the edges. -/
theorem flatMap_quotedLines : (quotedLines showCode title d).flatMap (·.2) =
    (titleOf title d).toList ++ d.nodes.flatMap (fun n => nodeLabel showCode n :: fill n.kind) ++
      d.edges.map (·.label) := by
  cases htitle : titleOf title d <;>
    simp [quotedLines, htitle, List.flatMap_map, ← List.map_eq_flatMap]

/-- What holds of each kind of line holds of every line of a drawing. -/
theorem forall_mem_quotedLines {P : String × List String → Prop}
    (hopen : P ("digraph CFG \x7b", []))
    (htitle : ∀ t, titleOf title d = some t → P (titleLine t, [t]))
    (hstyle : P ("  node [shape=box, fontname=monospace, fontsize=10];", []))
    (hnodes : ∀ n ∈ d.nodes, P (nodeLine showCode n, nodeLabel showCode n :: fill n.kind))
    (hedges : ∀ e ∈ d.edges, P (edgeLine e, [e.label])) (hclose : P ("\x7d", [])) :
    ∀ l ∈ quotedLines showCode title d, P l := by
  simp only [quotedLines, List.forall_mem_append, List.forall_mem_singleton, List.forall_mem_map,
    Option.mem_toList, Option.map_eq_some_iff]
  refine ⟨⟨⟨⟨⟨hopen, ?_⟩, hstyle⟩, hnodes⟩, hedges⟩, hclose⟩
  rintro _ ⟨t, ht, rfl⟩
  exact htitle t ht

section

variable (hd : Identified d)

include hd

/-- No line of a drawing breaks, so that lines can be told apart in its text. -/
theorem newline_not_mem_lines : ∀ l ∈ lines showCode title d, '\n' ∉ l.toList := by
  rw [lines_eq, List.forall_mem_map]
  refine forall_mem_quotedLines (by decide) (fun t _ => ?_) (by decide +kernel)
    (fun n hn => ?_) (fun e he => ?_) (by decide)
  · rw [titleLine_eq]
    exact newline_not_mem_quoting (by decide) (by decide)
  · rw [nodeLine_eq]
    exact newline_not_mem_quoting ((hd.nodes n hn).not_mem_nodeHead (by simp))
      (newline_not_mem_nodeTail n.kind)
  · rw [edgeLine_eq]
    exact newline_not_mem_quoting
      ((hd.sources e he).not_mem_edgeHead (hd.targets e he) (by simp))
      (not_mem_edgeTail e.label '\n' (by simp))

/-- A drawing has the lines that were written, whatever its labels hold. -/
theorem splitOn_render : (render showCode title d).toList.splitOn '\n' =
    (lines showCode title d).map String.toList := by
  rw [render, String.toList_intercalate]
  refine List.splitOn_intercalate '\n' ?_ (by simp [lines])
  exact List.forall_mem_map.mpr (newline_not_mem_lines hd)

/-- Each line of a drawing has the quoted texts that are listed with it. -/
theorem quotes_quotedLines : ∀ l ∈ quotedLines showCode title d, Quotes l.1.toList l.2 := by
  refine forall_mem_quotedLines (.of_not_mem (by decide)) (fun t _ => ?_)
    (.of_not_mem (by decide +kernel)) (fun n hn => ?_) (fun e he => ?_) (.of_not_mem (by decide))
  · dsimp only
    rw [titleLine_eq]
    exact .quoting (by decide) (.of_not_mem (by decide))
  · dsimp only
    rw [nodeLine_eq]
    exact .quoting ((hd.nodes n hn).not_mem_nodeHead (by simp)) (quotes_nodeTail n.kind)
  · dsimp only
    rw [edgeLine_eq]
    exact .quoting ((hd.sources e he).not_mem_edgeHead (hd.targets e he) (by simp))
      (.of_not_mem (not_mem_edgeTail e.label '"' (by simp)))

/-- The quoted texts of a drawing can be read back, in order and unchanged. -/
theorem quotations?_render : quotations? (render showCode title d).toList =
    some ((titleOf title d).toList ++
      d.nodes.flatMap (fun n => nodeLabel showCode n :: fill n.kind) ++
      d.edges.map (·.label)) := by
  have hlines : ∀ l ∈ quotedLines showCode title d, Quotes l.1.toList l.2 := quotes_quotedLines hd
  -- Nothing follows the last line.
  have hquotes := Quotes.intercalate hlines []
  rw [List.append_nil, ← lines_eq, flatMap_quotedLines] at hquotes
  rw [render, hquotes, quotations?, Option.map_some, List.append_nil]

/-- A drawing says what its title is, what its nodes are and what its edges are, in this order and
no more. -/
theorem statements_render : statements (render showCode title d) =
    ((titleOf title d).map Statement.title).toList ++
      d.nodes.map (fun n => .node n.id (nodeLabel showCode n) n.kind) ++ d.edges.map .edge := by
  have hnodes : (d.nodes.map fun n => (nodeLine showCode n).toList).filterMap statement? =
      d.nodes.map fun n => .node n.id (nodeLabel showCode n) n.kind :=
    filterMap_statement? fun n hn => statement?_nodeLine showCode (hd.nodes n hn)
  have hedges : (d.edges.map fun e => (edgeLine e).toList).filterMap statement? =
      d.edges.map .edge :=
    filterMap_statement? fun e he => statement?_edgeLine (hd.sources e he) (hd.targets e he)
  have hopen : statement? "digraph CFG \x7b".toList = none := by decide +kernel
  have hstyle : statement?
      "  node [shape=box, fontname=monospace, fontsize=10];".toList = none := by decide +kernel
  have hclose : statement? "\x7d".toList = none := by decide +kernel
  rw [statements, splitOn_render hd]
  simp only [lines, List.map_append, List.map_map, List.filterMap_append, Function.comp_def, hnodes,
    hedges, List.map_cons, List.map_nil, List.filterMap_cons, List.filterMap_nil, hopen, hstyle,
    hclose, List.nil_append, List.append_nil]
  cases titleOf title d <;> simp [statement?_titleLine]

theorem readTitle?_render : readTitle? (render showCode title d) = titleOf title d := by
  have hnodes : (d.nodes.map fun n => Statement.node n.id (nodeLabel showCode n) n.kind).findSome?
      Statement.title? = none := by simp [Statement.title?]
  have hedges : (d.edges.map Statement.edge).findSome? Statement.title? = none := by
    simp [Statement.title?]
  rw [readTitle?, statements_render hd, List.findSome?_append, List.findSome?_append, hnodes,
    hedges]
  cases titleOf title d <;> rfl

/-- The nodes of a diagram can be read off its drawing. -/
theorem readNodes_render : readNodes (render showCode title d) =
    d.nodes.map fun n => (n.id, nodeLabel showCode n, n.kind) := by
  rw [readNodes, statements_render hd]
  cases titleOf title d <;>
    simp [List.filterMap_cons, List.filterMap_map, Function.comp_def, Statement.node?]

/-- The edges of a diagram can be read off its drawing. -/
theorem readEdges_render : readEdges (render showCode title d) = d.edges := by
  rw [readEdges, statements_render hd]
  cases titleOf title d <;>
    simp [List.filterMap_cons, List.filterMap_map, Function.comp_def, Statement.edge?]

end

theorem nodeLabel_false (n : Node) : nodeLabel false n = n.label := by
  unfold nodeLabel
  split
  next h _ => cases h
  next => rfl

/-- What a text tells of a diagram and its title. -/
structure Tells (text : String) (title : Option String) (d : Diagram) : Prop where
  /-- Its lines are the ones that were written. -/
  lines : text.toList.splitOn '\n' = (lines false title d).map String.toList
  /-- Each node, each edge and the title has a line, and there are three more. -/
  count : (text.toList.splitOn '\n').length =
    d.nodes.length + d.edges.length + (titleOf title d).toList.length + 3
  /-- It quotes the title, the labels and the colours, and nothing else. -/
  quotations : quotations? text.toList = some ((titleOf title d).toList ++
    d.nodes.flatMap (fun n => n.label :: fill n.kind) ++ d.edges.map (·.label))
  /-- In each line the quotes around the label are the written ones. -/
  cut_title : ∀ t, titleOf title d = some t →
    cut? (titleLine t).toList = some ("  label=", t, ";")
  cut_node : ∀ n ∈ d.nodes,
    cut? (nodeLine false n).toList = some (nodeHead n.id, n.label, nodeStyle n.kind ++ "];")
  cut_edge : ∀ e ∈ d.edges,
    cut? (edgeLine e).toList = some (edgeHead e.source e.target, e.label, edgeStyle e.label ++ "];")
  /-- The diagram can be read from it. -/
  title : readTitle? text = titleOf title d
  nodes : readNodes text = d.nodes.map fun n => (n.id, n.label, n.kind)
  edges : readEdges text = d.edges

/-- A drawing without code tells the diagram it was made from. -/
theorem tells_render (hd : Identified d) (title : Option String) :
    Tells (render false title d) title d where
  lines := splitOn_render hd
  count := by
    rw [splitOn_render hd]
    cases htitle : titleOf title d <;> simp [lines, htitle] <;> omega
  quotations := by
    rw [quotations?_render hd]
    simp only [nodeLabel_false]
  cut_title t _ := by rw [titleLine_eq, cut?_quoting (by decide)]
  cut_node n hn := by
    rw [nodeLine_eq, cut?_quoting ((hd.nodes n hn).not_mem_nodeHead (by simp)), nodeLabel_false]
  cut_edge e he := by
    rw [edgeLine_eq,
      cut?_quoting ((hd.sources e he).not_mem_edgeHead (hd.targets e he) (by simp))]
  title := readTitle?_render hd
  nodes := by
    rw [readNodes_render hd]
    simp only [nodeLabel_false]
  edges := readEdges_render hd

/-- The drawing of a function's diagram tells the diagram, whatever the title and the labels
hold. So diagrams with one drawing have the same title, the same nodes up to what is not drawn,
and the same edges. -/
theorem drawing_tells_diagram {source : Bytes} {t : Tree} {name path : Option String}
    (hd : (Analysis.diagram source t name path).result = .ok d) (title : Option String) :
    Tells (render false title d) title d ∧
    ∀ (source' : Bytes) (t' : Tree) (name' path' title' : Option String) (d' : Diagram),
      (Analysis.diagram source' t' name' path').result = .ok d' →
      render false title' d' = render false title d →
      titleOf title' d' = titleOf title d ∧
      (d'.nodes.map fun n => (n.id, n.label, n.kind)) =
        (d.nodes.map fun n => (n.id, n.label, n.kind)) ∧
      d'.edges = d.edges := by
  have htells := tells_render (identified_diagram hd) title
  refine ⟨htells, fun source' t' name' path' title' d' hd' heq => ?_⟩
  have htells' := tells_render (identified_diagram hd') title'
  -- Title, nodes and edges are read from the text, and there is only one text.
  rw [heq] at htells'
  exact ⟨htells'.title.symm.trans htells.title, htells'.nodes.symm.trans htells.nodes,
    htells'.edges.symm.trans htells.edges⟩

/-- A text that looks like the end of one line and the start of another. -/
def imitation : String := "\"];\n  node_9 [label=\"\\"

/-- A multiway branch, with that text as the test of its only case. -/
def imitating : Tree :=
  Sketch.function [Sketch.stretch .switch 0 22 { cases := [Sketch.stretch .case 0 22
    { condition := some (Sketch.stretch .plain 0 22) }] }]

theorem imitating_told : ∃ d d',
    (Analysis.diagram imitation.toUTF8.toList imitating (some "f\\") none).result = .ok d ∧
    (Analysis.diagram imitation.toUTF8.toList imitating none (some "a.js")).result = .ok d' ∧
    d.edges.map (·.label) = ["", imitation, Flow.returnLabel, Flow.returnLabel] ∧
    Tells (render false none d) none d ∧ d' ≠ d ∧
    render false (some "f\\") d' = render false none d ∧ d'.edges = d.edges := by
  have hlabels : (Flow.Graph.ofFunction imitation.toUTF8.toList imitating).toOption.map
      (fun g => g.edges.map (·.label)) =
        some ["", imitation, Flow.returnLabel, Flow.returnLabel] := by cbv
  obtain ⟨g, hg⟩ : ∃ g, Flow.Graph.ofFunction imitation.toUTF8.toList imitating = .ok g := ⟨_, rfl⟩
  rw [hg] at hlabels
  have hd (name path : Option String) :
      (Analysis.diagram imitation.toUTF8.toList imitating name path).result =
        .ok (ofGraph g name path) := by simp only [Analysis.diagram, hg]
  -- The name of the one is the title of the other; their paths differ, and are not drawn.
  have hsame : render false (some "f\\") (ofGraph g none (some "a.js")) =
      render false none (ofGraph g (some "f\\") none) := rfl
  obtain ⟨htells, hagree⟩ := drawing_tells_diagram (hd (some "f\\") none) none
  obtain ⟨-, -, hedges⟩ := hagree _ _ _ _ _ _ (hd none (some "a.js")) hsame
  refine ⟨_, _, hd (some "f\\") none, hd none (some "a.js"), ?_, htells, ?_, hsame, hedges⟩
  · rw [ofGraph, List.map_map]
    exact Option.some.inj hlabels
  · simp [ofGraph]

end Cyclomatic.Diagram.Dot
