import Cyclomatic.Format
import Cyclomatic.Proofs.Flow.Emission
import Cyclomatic.Proofs.Number.Text
import Cyclomatic.Proofs.Path
import Cyclomatic.Proofs.Text.Styled

/-! # Colour is decoration

Reports and listings put texts, numbers and fixed words between their codes.
Where no text of a report or a diagram holds the escape character, no span of
its lines does, however it is cut and filled up. So with and without colour the
same is written, but for the codes.
-/

namespace Cyclomatic

/-! ## Parts of lines -/

/-- Numbers hold no escape character. -/
theorem codeFree_of_numeric {s : String} (hs : Numeric s.toList) : CodeFree s := hs.not_mem rfl

theorem codeFree_nat (n : Nat) : CodeFree (toString n) := codeFree_of_numeric (numeric_repr n)

theorem codeFree_int (i : Int) : CodeFree (toString i) := codeFree_of_numeric (numeric_toString i)

theorem codeFree_of_orFail {a : Num} {text : String}
    (htext : (orFail (a.toFixed 2) : Except Failure String) = .ok text) : CodeFree text := by
  cases hfixed : a.toFixed 2 with
  | error e =>
      rw [hfixed] at htext
      cases htext
  | ok fixed =>
      rw [hfixed] at htext
      obtain rfl := Except.ok.inj htext
      exact codeFree_of_numeric (Num.numeric_of_toFixed hfixed)

theorem mem_of_nonempty? {name : Option String} {s : String} (hs : nonempty? name = some s) :
    s ∈ name := by
  rw [nonempty?, Option.filter_eq_some_iff] at hs
  exact hs.1

theorem codeFree_basename {path : String} (hpath : CodeFree path) :
    CodeFree (Path.basename path) :=
  fun hmem => hpath (Path.basename_subset path hmem)

theorem Lines.mem_of_mem_splitFrom {line cs l : List Char} (hl : l ∈ splitFrom line cs) {c : Char}
    (hc : c ∈ l) : c ∈ line ∨ c ∈ cs := by
  fun_induction splitFrom line cs with grind

/-- The lines of a text hold no escape character if the text does not. -/
theorem codeFree_of_mem_split {code line : String} (hcode : CodeFree code)
    (hline : line ∈ Lines.split code) : CodeFree line := by
  obtain ⟨chars, hchars, rfl⟩ := List.mem_map.mp hline
  refine hcode.of_subset fun c hc => ?_
  rcases Lines.mem_of_mem_splitFrom hchars hc with hnone | hmem
  · cases hnone
  · exact hmem

/-- What a list is mapped to comes from its elements, if all of them could be mapped. -/
theorem exists_of_mem_mapM {ε α β : Type} {f : α → Except ε β} {as : List α} {bs : List β}
    (hbs : as.mapM f = .ok bs) {b : β} (hb : b ∈ bs) : ∃ a ∈ as, f a = .ok b := by
  induction as generalizing bs with
  | nil =>
      obtain rfl := Except.ok.inj hbs
      cases hb
  | cons a as ih =>
      rw [List.mapM_cons] at hbs
      obtain ⟨first, hfirst, hbs⟩ := Outline.bind_eq_ok_iff.mp hbs
      obtain ⟨rest, hrest, hbs⟩ := Outline.bind_eq_ok_iff.mp hbs
      obtain rfl := Except.ok.inj hbs
      rcases List.mem_cons.mp hb with rfl | hb
      · exact ⟨a, List.mem_cons_self, hfirst⟩
      · obtain ⟨x, hx, hfx⟩ := ih hrest hb
        exact ⟨x, List.mem_cons_of_mem a hx, hfx⟩

namespace FileReport

/-- No text of a report holds the escape character. -/
structure CodeFree (r : FileReport) : Prop where
  path : Cyclomatic.CodeFree r.path
  names : ∀ f ∈ r.functions, Cyclomatic.CodeFree f.name
  error : ∀ e ∈ r.error, Cyclomatic.CodeFree e

variable {r : FileReport}

theorem codeFree_functionLine {f : FunctionSummary} (hname : Cyclomatic.CodeFree f.name) :
    (functionLine f).CodeFree := by
  rw [functionLine, Styled.codeFree_painted]
  simp only [codeFree_append]
  exact ⟨⟨⟨⟨⟨⟨by decide, codeFree_int _⟩, by decide⟩, hname⟩, by decide⟩, codeFree_int _⟩,
    by decide⟩

/-- No line of a file's report holds an escape character of its own. -/
theorem codeFree_lines (hr : r.CodeFree) {lines : List Styled} (hlines : r.lines = .ok lines) :
    ∀ line ∈ lines, line.CodeFree := by
  have htitle : (Styled.painted .bold ("Complexity analysis: " ++ r.path)).CodeFree :=
    Styled.codeFree_painted.mpr (codeFree_append.mpr ⟨by decide, hr.path⟩)
  unfold FileReport.lines at hlines
  dsimp only at hlines
  split at hlines
  next error herror =>
    obtain rfl := Except.ok.inj hlines
    have herror := hr.error error (mem_of_nonempty? herror)
    refine List.forall_mem_cons.mpr ⟨htitle, List.forall_mem_singleton.mpr ?_⟩
    exact Styled.codeFree_painted.mpr (codeFree_append.mpr ⟨by decide, herror⟩)
  next =>
    split at hlines
    next =>
      obtain rfl := Except.ok.inj hlines
      refine List.forall_mem_cons.mpr ⟨htitle, List.forall_mem_singleton.mpr ?_⟩
      exact Styled.codeFree_bare.mpr (by decide)
    next =>
      obtain ⟨shown, _, hlines⟩ := Outline.bind_eq_ok_iff.mp hlines
      obtain ⟨average, haverage, hlines⟩ := Outline.bind_eq_ok_iff.mp hlines
      obtain rfl := Except.ok.inj hlines
      refine List.forall_mem_append.mpr ⟨?_, List.forall_mem_map.mpr fun f hf => ?_⟩
      · simp only [List.forall_mem_cons, Styled.codeFree_bare, codeFree_append]
        exact ⟨htitle, ⟨by decide, codeFree_nat _⟩, ⟨by decide, codeFree_of_orFail haverage⟩,
          Styled.codeFree_blank, List.forall_mem_nil _⟩
      · exact codeFree_functionLine (hr.names f hf)

/-- With the codes deleted, a report in colour is the report without; or both fail alike. -/
theorem map_strip_render (hr : r.CodeFree) : (r.render true).map Ink.strip = r.render false := by
  unfold FileReport.render
  cases hlines : r.lines with
  | error e => rfl
  | ok lines => exact congrArg Except.ok (Styled.strip_renderLines (codeFree_lines hr hlines))

end FileReport

namespace ProjectReport

/-- No text of a report holds the escape character. -/
structure CodeFree (r : ProjectReport) : Prop where
  files : ∀ file ∈ r.files, file.CodeFree
  errors : ∀ e ∈ r.errors, Cyclomatic.CodeFree e

variable {r : ProjectReport} {line : Styled} {lines : List Styled}

/-- The functions of a report come with paths and names that hold no escape character. -/
theorem codeFree_of_mem_located (hr : r.CodeFree) {path : String} {f : FunctionSummary}
    (hmem : (path, f) ∈ r.located) : Cyclomatic.CodeFree path ∧ Cyclomatic.CodeFree f.name := by
  obtain ⟨file, hfile, hmem⟩ := List.mem_flatMap.mp hmem
  obtain ⟨f, hf, heq⟩ := List.mem_map.mp hmem
  cases heq
  exact ⟨(hr.files file hfile).path, (hr.files file hfile).names f hf⟩

theorem codeFree_banner {ink : Ink} {title : String} (htitle : Cyclomatic.CodeFree title) :
    ∀ line ∈ banner ink title, line.CodeFree := by
  have hrule : (Styled.rule '=' 70).CodeFree := Styled.codeFree_rule (by decide) 70
  refine List.forall_mem_cons.mpr ⟨hrule, List.forall_mem_cons.mpr ⟨?_, ?_⟩⟩
  · exact Styled.codeFree_painted.mpr htitle
  · exact List.forall_mem_singleton.mpr hrule

theorem codeFree_caption (risk : Risk) : Cyclomatic.CodeFree risk.caption := by
  cases risk <;> decide +kernel

/-- The line of a risk level holds a caption and numbers only. -/
theorem codeFree_riskLine {risk : Risk} (hline : r.riskLine risk = .ok line) : line.CodeFree := by
  obtain ⟨count, _, hline⟩ := Outline.bind_eq_ok_iff.mp hline
  obtain rfl := Except.ok.inj hline
  simp only [Styled.CodeFree, List.forall_mem_cons, codeFree_append]
  exact ⟨by decide, ⟨⟨by decide, codeFree_caption risk⟩, by decide⟩, ⟨by decide, codeFree_nat _⟩,
    List.forall_mem_nil _⟩

theorem codeFree_summaryLines (hlines : r.summaryLines = .ok lines) :
    ∀ line ∈ lines, line.CodeFree := by
  obtain ⟨shown, _, hlines⟩ := Outline.bind_eq_ok_iff.mp hlines
  obtain ⟨average, haverage, hlines⟩ := Outline.bind_eq_ok_iff.mp hlines
  obtain ⟨elapsed, helapsed, hlines⟩ := Outline.bind_eq_ok_iff.mp hlines
  obtain ⟨risks, hrisks, hlines⟩ := Outline.bind_eq_ok_iff.mp hlines
  obtain rfl := Except.ok.inj hlines
  refine List.forall_mem_append.mpr ⟨List.forall_mem_append.mpr ⟨?_, fun line hline => ?_⟩,
    List.forall_mem_singleton.mpr Styled.codeFree_blank⟩
  · simp only [List.forall_mem_cons, Styled.codeFree_bare, Styled.codeFree_painted,
      codeFree_append]
    exact ⟨by decide, Styled.codeFree_rule (by decide) 40,
      ⟨by decide, codeFree_of_numeric r.filesAnalyzed.numeric_toText⟩,
      ⟨by decide, codeFree_nat _⟩, ⟨by decide, codeFree_of_orFail haverage⟩,
      ⟨⟨by decide, codeFree_of_orFail helapsed⟩, by decide⟩, List.forall_mem_nil _⟩
  · obtain ⟨risk, _, hrisk⟩ := exists_of_mem_mapM hrisks hline
    exact codeFree_riskLine hrisk

/-- A row of the table holds a name, a path and numbers, each of them cut or padded. -/
theorem codeFree_rowLine {path : String} {f : FunctionSummary} (hpath : Cyclomatic.CodeFree path)
    (hname : Cyclomatic.CodeFree f.name) (hline : r.rowLine path f = .ok line) :
    line.CodeFree := by
  have hmark : Cyclomatic.CodeFree truncationMark := by decide
  have hshown := codeFree_padRight (codeFree_truncate hname hmark nameWidth) nameWidth
  have hscore := codeFree_padLeft (codeFree_int f.complexity) 4
  obtain ⟨risk, _, hline⟩ := Outline.bind_eq_ok_iff.mp hline
  obtain rfl := Except.ok.inj hline
  rw [Styled.codeFree_painted]
  simp only [codeFree_append]
  exact ⟨⟨⟨⟨⟨⟨⟨by decide, hshown⟩, by decide⟩, hscore⟩, by decide⟩, codeFree_basename hpath⟩,
    by decide⟩, codeFree_int _⟩

/-- No row of the table holds an escape character of its own. -/
theorem codeFree_tableLines (hr : r.CodeFree) (hlines : r.tableLines = .ok lines) :
    ∀ line ∈ lines, line.CodeFree := by
  unfold tableLines at hlines
  split at hlines
  next =>
    obtain rfl := Except.ok.inj hlines
    refine List.forall_mem_cons.mpr ⟨?_, List.forall_mem_singleton.mpr Styled.codeFree_blank⟩
    exact Styled.codeFree_painted.mpr (by decide)
  next =>
    obtain ⟨rows, hrows, hlines⟩ := Outline.bind_eq_ok_iff.mp hlines
    obtain rfl := Except.ok.inj hlines
    refine List.forall_mem_append.mpr ⟨List.forall_mem_append.mpr ⟨?_, fun line hline => ?_⟩,
      List.forall_mem_singleton.mpr Styled.codeFree_blank⟩
    · have hhead : tableHead.CodeFree := Styled.codeFree_bare.mpr (by decide)
      simp only [List.forall_mem_cons, Styled.codeFree_painted]
      exact ⟨by decide, Styled.codeFree_rule (by decide) 70, hhead, List.forall_mem_nil _⟩
    · obtain ⟨⟨path, f⟩, hmem, hrow⟩ := exists_of_mem_mapM hrows hline
      obtain ⟨hpath, hname⟩ := codeFree_of_mem_located hr hmem
      exact codeFree_rowLine hpath hname hrow

theorem codeFree_errorLines (hr : r.CodeFree) : ∀ line ∈ r.errorLines, line.CodeFree := by
  unfold errorLines
  split
  · exact List.forall_mem_nil _
  · refine List.forall_mem_append.mpr ⟨List.forall_mem_append.mpr
      ⟨codeFree_banner (by decide), List.forall_mem_map.mpr fun e he => ?_⟩,
      List.forall_mem_singleton.mpr Styled.codeFree_blank⟩
    exact Styled.codeFree_bare.mpr (codeFree_append.mpr ⟨by decide, hr.errors e he⟩)

/-- No line of a project's report holds an escape character of its own, whatever section it is
in. -/
theorem codeFree_lines (hr : r.CodeFree) (hlines : r.lines = .ok lines) :
    ∀ line ∈ lines, line.CodeFree := by
  obtain ⟨summary, hsummary, hlines⟩ := Outline.bind_eq_ok_iff.mp hlines
  obtain ⟨table, htable, hlines⟩ := Outline.bind_eq_ok_iff.mp hlines
  obtain rfl := Except.ok.inj hlines
  have hblank : ∀ line ∈ [Styled.blank], line.CodeFree :=
    List.forall_mem_singleton.mpr Styled.codeFree_blank
  simp only [List.forall_mem_append]
  exact ⟨⟨⟨⟨⟨hblank, codeFree_banner (by decide)⟩, hblank⟩, codeFree_summaryLines hsummary⟩,
    codeFree_tableLines hr htable⟩, codeFree_errorLines hr⟩

theorem map_strip_render (hr : r.CodeFree) : (r.render true).map Ink.strip = r.render false := by
  unfold ProjectReport.render
  cases hlines : r.lines with
  | error e => rfl
  | ok lines => exact congrArg Except.ok (Styled.strip_renderLines (codeFree_lines hr hlines))

end ProjectReport

namespace Diagram

/-- No text of a diagram holds the escape character. -/
structure CodeFree (d : Diagram) : Prop where
  ids : ∀ n ∈ d.nodes, Cyclomatic.CodeFree n.id
  labels : ∀ n ∈ d.nodes, Cyclomatic.CodeFree n.label
  codes : ∀ n ∈ d.nodes, ∀ code ∈ n.code, Cyclomatic.CodeFree code
  sources : ∀ e ∈ d.edges, Cyclomatic.CodeFree e.source
  targets : ∀ e ∈ d.edges, Cyclomatic.CodeFree e.target
  edgeLabels : ∀ e ∈ d.edges, Cyclomatic.CodeFree e.label
  functionName : ∀ name ∈ d.functionName, Cyclomatic.CodeFree name
  filePath : ∀ path ∈ d.filePath, Cyclomatic.CodeFree path

namespace Listing

variable {d : Diagram}

theorem codeFree_title (hd : d.CodeFree) : Cyclomatic.CodeFree (title d) := by
  have hname : Cyclomatic.CodeFree ((nonempty? d.functionName).getD "function") := by
    cases hfunction : nonempty? d.functionName with
    | none => decide
    | some name => exact hd.functionName name (mem_of_nonempty? hfunction)
  unfold title
  dsimp only
  split
  next path hpath =>
    simp only [codeFree_append]
    exact ⟨⟨⟨hname, by decide⟩, hd.filePath path (mem_of_nonempty? hpath)⟩, by decide⟩
  next => exact hname

/-- The code of a node is shown line by line. -/
theorem codeFree_codeLines {n : Node} (hcode : ∀ code ∈ n.code, Cyclomatic.CodeFree code) :
    ∀ line ∈ codeLines n, line.CodeFree := by
  unfold codeLines
  split
  next code hsome =>
    refine List.forall_mem_map.mpr fun line hline => ?_
    have hline := codeFree_of_mem_split (hcode code hsome) hline
    exact Styled.codeFree_painted.mpr (codeFree_append.mpr ⟨by decide, hline⟩)
  next => exact List.forall_mem_nil _

theorem codeFree_nodeLines (hd : d.CodeFree) (verbose : Bool) {n : Node} (hn : n ∈ d.nodes) :
    ∀ line ∈ nodeLines verbose n, line.CodeFree := by
  refine List.forall_mem_cons.mpr ⟨?_, ?_⟩
  · have hid := codeFree_padRight (hd.ids n hn) 10
    simp only [Styled.CodeFree, List.forall_mem_cons, codeFree_append]
    exact ⟨⟨⟨by decide, hid⟩, by decide⟩, hd.labels n hn, List.forall_mem_nil _⟩
  · split
    · exact codeFree_codeLines (hd.codes n hn)
    · exact List.forall_mem_nil _

theorem codeFree_edgeLine (hd : d.CodeFree) {e : Edge} (he : e ∈ d.edges) :
    (edgeLine e).CodeFree := by
  rw [edgeLine, Styled.codeFree_bare]
  simp only [codeFree_append]
  refine ⟨⟨⟨⟨by decide, hd.sources e he⟩, by decide⟩, hd.targets e he⟩, ?_⟩
  split
  · decide
  · simp only [codeFree_append]
    exact ⟨⟨by decide, hd.edgeLabels e he⟩, by decide⟩

theorem codeFree_totals (d : Diagram) : (totals d).CodeFree := by
  rw [totals, Styled.codeFree_bare]
  simp only [codeFree_append]
  exact ⟨⟨⟨⟨⟨⟨by decide, codeFree_nat _⟩, by decide⟩, codeFree_nat _⟩, by decide⟩,
    codeFree_nat _⟩, by decide⟩

/-- No line of a listing holds an escape character of its own. -/
theorem codeFree_lines (hd : d.CodeFree) (verbose : Bool) :
    ∀ line ∈ lines verbose d, line.CodeFree := by
  have htitle := codeFree_title hd
  simp only [lines, List.forall_mem_append, List.forall_mem_cons, Styled.codeFree_painted,
    codeFree_append]
  exact ⟨⟨⟨⟨⟨⟨by decide, htitle⟩, Styled.codeFree_rule (by decide) 70, List.forall_mem_nil _⟩,
    List.forall_mem_flatMap.mpr fun n hn => codeFree_nodeLines hd verbose hn⟩,
    Styled.codeFree_blank, List.forall_mem_nil _⟩,
    List.forall_mem_map.mpr fun e he => codeFree_edgeLine hd he⟩,
    Styled.codeFree_blank, codeFree_totals d, List.forall_mem_nil _⟩

/-- A listing in colour is the plain one once codes are taken out. -/
theorem strip_render (hd : d.CodeFree) (verbose : Bool) :
    Ink.strip (render true verbose d) = render false verbose d :=
  Styled.strip_renderLines (codeFree_lines hd verbose)

end Listing

end Diagram

namespace Format

/-- Where no text holds the escape character, what is written in colour differs from what is
written without by the codes alone: reports of projects and of files, which fail alike if they
fail, and listings of diagrams. -/
theorem colour_is_decoration (verbose : Bool) :
    (∀ r : ProjectReport, r.CodeFree →
      (renderProject r (.text true verbose)).map Ink.strip =
        renderProject r (.text false verbose)) ∧
    (∀ r : FileReport, r.CodeFree →
      (renderFile r (.text true verbose)).map Ink.strip = renderFile r (.text false verbose)) ∧
    ∀ (d : Diagram) (title : Option String), d.CodeFree →
      (renderDiagram d title (.text true verbose)).map Ink.strip =
        renderDiagram d title (.text false verbose) := by
  refine ⟨fun r hr => ProjectReport.map_strip_render hr, fun r hr => FileReport.map_strip_render hr,
    fun d title hd => ?_⟩
  exact congrArg Except.ok (Diagram.Listing.strip_render hd verbose)

/-- A file with a function of very high complexity, whose name is too long for a table. -/
def outlier : FileReport where
  path := "src/outlier.js"
  functions := [⟨"aNameOfMoreCharactersThanATableHasRoomFor", 3, 25, 80⟩]

/-- A decision with code of two lines. -/
def forked : Diagram where
  nodes := [{ id := "node_0", label := "IF (L1)", kind := .decision, code := some "a &&\n b" }]
  edges := [⟨"node_0", "node_0", "T"⟩]

def withOutlier : ProjectReport where
  files := [outlier]
  filesAnalyzed := .int 1
  errors := ["b.js: [0m"]

/-- Both texts are there, and they differ by codes alone. -/
def Decorated (coloured plain : Except Failure String) : Prop :=
  ∃ text bare, coloured = .ok text ∧ plain = .ok bare ∧ text ≠ bare ∧ Ink.strip text = bare

/-- Texts that differ, of which one is the other without codes, are both there. -/
theorem decorated_of_map_strip {coloured plain : Except Failure String}
    (hstrip : coloured.map Ink.strip = plain) (hdiffer : coloured.toOption ≠ plain.toOption) :
    Decorated coloured plain := by
  subst hstrip
  cases coloured with
  | error e => exact absurd rfl hdiffer
  | ok text => exact ⟨text, _, rfl, rfl, fun heq => hdiffer (congrArg some heq), rfl⟩

theorem outlier_and_forked_in_colour :
    Decorated (renderProject withOutlier (.text true true))
      (renderProject withOutlier (.text false true)) ∧
    Decorated (renderFile outlier (.text true true)) (renderFile outlier (.text false true)) ∧
    Decorated (renderDiagram forked none (.text true true))
      (renderDiagram forked none (.text false true)) := by
  have hfile : outlier.CodeFree := ⟨by decide, by decide, by simp [outlier]⟩
  have hfiles : withOutlier.CodeFree := ⟨List.forall_mem_singleton.mpr hfile, by decide⟩
  have hforked : forked.CodeFree :=
    ⟨by decide, by decide, by simp [forked]; decide, by decide, by decide, by decide,
      by simp [forked], by simp [forked]⟩
  obtain ⟨hproject, hreport, hdiagram⟩ := colour_is_decoration true
  exact ⟨decorated_of_map_strip (hproject _ hfiles) (by decide +kernel),
    decorated_of_map_strip (hreport _ hfile) (by decide +kernel),
    decorated_of_map_strip (hdiagram _ none hforked) (by decide +kernel)⟩

end Format

end Cyclomatic
