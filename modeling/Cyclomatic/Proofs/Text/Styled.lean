import Cyclomatic.Text.Styled

/-! # Colour can be taken out again

Every code starts with the escape character, and no code is the start of
another. So in a text that is made of spans without that character the codes
stand apart, and to delete them leaves the text of the spans.
-/

namespace Cyclomatic

namespace Ink

/-- The character that every code starts with. -/
def escape : Char := '\x1b'

/-- The codes that colour puts into a text. -/
def codes : List (List Char) :=
  [reset, bold.code, dim.code, red.code, green.code, yellow.code, cyan.code].map String.toList

/-- What is left of a text without its codes, after some characters that are yet to be left out. -/
def dropCodes : Nat → List Char → List Char
  | _, [] => []
  | skip + 1, _ :: cs => dropCodes skip cs
  | 0, c :: cs =>
      match codes.find? (·.isPrefixOf (c :: cs)) with
      | some code => dropCodes (code.length - 1) cs
      | none => c :: dropCodes 0 cs

/-- A text with every code deleted. -/
def strip (s : String) : String := String.ofList (dropCodes 0 s.toList)

variable {c : Char} {cs : List Char}

theorem dropCodes_cons (hc : c ≠ escape) (cs : List Char) :
    dropCodes 0 (c :: cs) = c :: dropCodes 0 cs := by
  have hstart : ∀ code ∈ codes, code.head? = some escape := by decide
  have hnone : codes.find? (·.isPrefixOf (c :: cs)) = none := by
    rw [List.find?_eq_none]
    intro code hcode hprefix
    cases code with
    | nil => exact absurd (hstart [] hcode) (by decide)
    | cons d ds =>
        obtain rfl : d = escape := Option.some.inj (hstart _ hcode)
        rw [List.isPrefixOf_iff_prefix, List.cons_prefix_cons] at hprefix
        exact hc hprefix.1.symm
  rw [dropCodes, hnone]

/-- What holds no escape character is kept. -/
theorem dropCodes_append (hcs : escape ∉ cs) (rest : List Char) :
    dropCodes 0 (cs ++ rest) = cs ++ dropCodes 0 rest := by
  induction cs with
  | nil => rfl
  | cons c cs ih =>
      rw [List.mem_cons, not_or] at hcs
      obtain ⟨hc, hcs⟩ := hcs
      rw [List.cons_append, dropCodes_cons (Ne.symm hc), ih hcs, List.cons_append]

/-- The code of an ink is taken out, and nothing behind it. -/
theorem dropCodes_code_append (ink : Ink) (rest : List Char) :
    dropCodes 0 (ink.code.toList ++ rest) = dropCodes 0 rest := by
  cases ink <;> rfl

theorem dropCodes_reset_append (rest : List Char) :
    dropCodes 0 (reset.toList ++ rest) = dropCodes 0 rest := rfl

end Ink

/-! ## Texts in which no code can start -/

def CodeFree (s : String) : Prop := Ink.escape ∉ s.toList

instance (s : String) : Decidable (CodeFree s) :=
  inferInstanceAs (Decidable (Ink.escape ∉ s.toList))

@[simp] theorem codeFree_append {s t : String} :
    CodeFree (s ++ t) ↔ CodeFree s ∧ CodeFree t := by
  rw [CodeFree, String.toList_append, List.mem_append, not_or]
  rfl

/-- What has no other characters than a text has no code either. -/
theorem CodeFree.of_subset {s : String} (hs : CodeFree s) {cs : List Char} (hcs : cs ⊆ s.toList) :
    CodeFree (String.ofList cs) := by
  rw [CodeFree, String.toList_ofList]
  exact fun hmem => hs (hcs hmem)

theorem codeFree_replicate {c : Char} (hc : c ≠ Ink.escape) (n : Nat) :
    CodeFree (String.ofList (List.replicate n c)) := by
  rw [CodeFree, String.toList_ofList]
  exact fun hmem => hc (List.eq_of_mem_replicate hmem).symm

theorem codeFree_padRight {s : String} (hs : CodeFree s) (width : Nat) :
    CodeFree (padRight width s) :=
  codeFree_append.mpr ⟨hs, codeFree_replicate (by decide) _⟩

theorem codeFree_padLeft {s : String} (hs : CodeFree s) (width : Nat) :
    CodeFree (padLeft width s) :=
  codeFree_append.mpr ⟨codeFree_replicate (by decide) _, hs⟩

/-- To cut a text adds the mark of the cut and nothing else. -/
theorem codeFree_truncate {s mark : String} (hs : CodeFree s) (hmark : CodeFree mark)
    (limit : Int) : CodeFree (truncate limit mark s) := by
  unfold truncate
  split
  · exact hs
  · exact codeFree_append.mpr ⟨hs.of_subset (List.take_subset _ _), hmark⟩

namespace Styled

/-- No code can start in any span of a line. -/
def CodeFree (line : Styled) : Prop := ∀ span ∈ line, Cyclomatic.CodeFree span.text

/-- A line without ink is free of codes if its text is. -/
@[simp] theorem codeFree_bare {text : String} :
    (bare text).CodeFree ↔ Cyclomatic.CodeFree text := by
  simp [CodeFree, bare]

/-- So is a line in one ink. Its codes are added only when it is shown. -/
@[simp] theorem codeFree_painted {ink : Ink} {text : String} :
    (painted ink text).CodeFree ↔ Cyclomatic.CodeFree text := by
  simp [CodeFree, painted]

@[simp] theorem codeFree_blank : blank.CodeFree := codeFree_bare.mpr (by decide)

theorem codeFree_rule {c : Char} (hc : c ≠ Ink.escape) (width : Nat) : (rule c width).CodeFree :=
  codeFree_painted.mpr (codeFree_replicate hc width)

/-! ## Lines with their codes deleted -/

/-- The codes around a piece of a line are taken out, its text stays. -/
theorem dropCodes_span_append {span : Span} (hspan : Cyclomatic.CodeFree span.text)
    (rest : List Char) :
    Ink.dropCodes 0 ((span.render true).toList ++ rest) =
      (span.render false).toList ++ Ink.dropCodes 0 rest := by
  obtain ⟨text, ink⟩ := span
  cases ink with
  | none => exact Ink.dropCodes_append hspan rest
  | some ink =>
      change Ink.dropCodes 0 ((ink.code ++ text ++ Ink.reset).toList ++ rest) = text.toList ++ _
      rw [String.toList_append, String.toList_append, List.append_assoc, List.append_assoc,
        Ink.dropCodes_code_append, Ink.dropCodes_append hspan, Ink.dropCodes_reset_append]

/-- Piece by piece, a line loses its codes and keeps its text. -/
theorem dropCodes_render_append {line : Styled} (hline : line.CodeFree) (rest : List Char) :
    Ink.dropCodes 0 ((line.render true).toList ++ rest) =
      (line.render false).toList ++ Ink.dropCodes 0 rest := by
  induction line with
  | nil => rfl
  | cons span line ih =>
      obtain ⟨hspan, hline⟩ := List.forall_mem_cons.mp hline
      simp only [render, List.map_cons, String.join_cons, String.toList_append,
        List.append_assoc] at ih ⊢
      rw [dropCodes_span_append hspan, ih hline]

/-- Line by line, a page loses its codes and keeps its text. -/
theorem dropCodes_renderLines {lines : List Styled} (hlines : ∀ line ∈ lines, line.CodeFree) :
    Ink.dropCodes 0 (renderLines true lines).toList = (renderLines false lines).toList := by
  induction lines with
  | nil => rfl
  | cons line lines ih =>
      obtain ⟨hline, hrest⟩ := List.forall_mem_cons.mp hlines
      cases lines with
      | nil =>
          have hdropped := dropCodes_render_append hline []
          rw [List.append_nil] at hdropped
          simpa [renderLines, Ink.dropCodes] using hdropped
      | cons next lines =>
          have hfeed : Ink.escape ∉ "\n".toList := by decide
          simp only [renderLines, List.map_cons, String.intercalate_cons_cons,
            String.toList_append, List.append_assoc] at ih ⊢
          rw [dropCodes_render_append hline, Ink.dropCodes_append hfeed, ih hrest]

/-- Coloured lines with the codes deleted are the lines without colour. -/
theorem strip_renderLines {lines : List Styled} (hlines : ∀ line ∈ lines, line.CodeFree) :
    Ink.strip (renderLines true lines) = renderLines false lines := by
  rw [Ink.strip, dropCodes_renderLines hlines, String.ofList_toList]

end Styled

end Cyclomatic
