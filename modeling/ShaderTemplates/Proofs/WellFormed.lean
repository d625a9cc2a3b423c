import ShaderTemplates.Proofs.LayoutPasses
import ShaderTemplates.Proofs.Words

/-!
# Well-formed templates

A well-formed template is a sequence of lines, blocks and conditionals, one below the other
(`Tree`).  Its types carry what makes it well-formed: a name is a word of letters, digits and
underscores, a line has something on it, and a block holds at least one line.

`Tree.evaluate` says what such a template means, without reading its text: a conditional becomes
its chosen branch, a block becomes its printed form around the given body, and a variable becomes
its value.  `Tree.inventory` says what it asks for.
-/

namespace ShaderTemplates.Template

open Text

-- ── Words and lines ──────────────────────────────────────────────────────────

/-- A letter or digit of ASCII, or an underscore. -/
def isNameChar (c : Char) : Bool := c.isAlphanum || c == '_'

/-- A name: a non-empty word of letters, digits and underscores. -/
structure Identifier where
  chars : List Char
  nonempty : chars ≠ []
  nameChars : ∀ c ∈ chars, isNameChar c = true

/-- The name as values are stored under it. -/
def Identifier.name (i : Identifier) : String := String.ofList i.chars

/-- A character that can start no marker and no new line. -/
def isPlainChar (c : Char) : Bool := !(c == '@' || c == '<' || c == '\n' || c == '\r')

/-- A part of a line. -/
inductive Segment where
  | plain (c : Char) (h : isPlainChar c = true)
  | variable (name : Identifier) (alternatives : List Identifier)

/-- A part of a line as it is written. -/
def Segment.print : Segment → List Char
  | .plain c _ => [c]
  | .variable name alternatives => variableText name.chars (alternatives.map Identifier.chars)

/-- A line with something on it. -/
structure Line where
  segments : List Segment
  visible : Visible (segments.flatMap Segment.print)

/-- A line as it is written, without its line break. -/
def Line.print (l : Line) : List Char := l.segments.flatMap Segment.print

/-- One or more lines with line breaks between them. -/
def printLines (first : Line) (others : List Line) : List Char :=
  first.print ++ others.flatMap fun l => '\n' :: l.print

-- ── Templates ────────────────────────────────────────────────────────────────

/-- A well-formed template. -/
inductive Tree where
  | line (l : Line)
  | block (name : Identifier) (first : Line) (others : List Line)
  | ifThen (name : Identifier) (default? : Option Bool) (whenTrue : Tree)
  | ifElse (name : Identifier) (default? : Option Bool) (whenTrue whenFalse : Tree)
  /-- Two templates, one below the other. -/
  | seq (first second : Tree)

/-- The text of a well-formed template. -/
def Tree.print : Tree → List Char
  | .line l => l.print
  | .block name first others => blockText name.chars (printLines first others)
  | .ifThen name default? t =>
    ifLine name.chars default? ++ '\n' :: (t.print ++ '\n' :: endIfKeyword)
  | .ifElse name default? t u =>
    ifLine name.chars default? ++ '\n' ::
      (t.print ++ '\n' :: (elseKeyword ++ '\n' :: (u.print ++ '\n' :: endIfKeyword)))
  | .seq a b => a.print ++ '\n' :: b.print

/-- A template whose conditionals have been decided. The branch that a conditional does not have is
    empty. -/
inductive Page where
  | nothing
  | line (l : Line)
  | block (name : Identifier) (body : List Char)
  | seq (first second : Page)

-- ── Evaluation ───────────────────────────────────────────────────────────────

/-- Decides the conditionals, and counts those that were decided. -/
def Tree.choose (conditions : Table Bool) : Tree → Except (Kind × String) (Page × Nat)
  | .line l => .ok (.line l, 0)
  | .block name first others => .ok (.block name (printLines first others), 0)
  | .ifThen name _ t => do
    match ← demand conditions .condition name.name with
    | true =>
      let chosen ← t.choose conditions
      return (chosen.1, chosen.2 + 1)
    | false => return (.nothing, 1)
  | .ifElse name _ t u => do
    match ← demand conditions .condition name.name with
    | true =>
      let chosen ← t.choose conditions
      return (chosen.1, chosen.2 + 1)
    | false =>
      let chosen ← u.choose conditions
      return (chosen.1, chosen.2 + 1)
  | .seq a b => do
    let first ← a.choose conditions
    let second ← b.choose conditions
    return (.seq first.1 second.1, first.2 + second.2)

/-- Puts the given bodies into the blocks. -/
def Page.fill (bodies : Table String) : Page → Except (Kind × String) Page
  | .nothing => .ok .nothing
  | .line l => .ok (.line l)
  | .block name _ => do
    let body ← demand bodies .block name.name
    return .block name body.toList
  | .seq p q => do
    let first ← p.fill bodies
    let second ← q.fill bodies
    return .seq first second

def Segment.write (values : Table String) : Segment → Except (Kind × String) (List Char)
  | .plain c _ => .ok [c]
  | .variable name _ => (demand values .variable name.name).map String.toList

/-- Writes the parts of a line one after the other. -/
def writeSegments (values : Table String) : List Segment → Except (Kind × String) (List Char)
  | [] => .ok []
  | s :: rest => do
    let before ← s.write values
    let after ← writeSegments values rest
    return before ++ after

/-- Writes a page with the values of its variables, those in bodies included. -/
def Page.write (values : Table String) : Page → Except (Kind × String) (List Char)
  | .nothing => .ok []
  | .line l => writeSegments values l.segments
  | .block name body => do
    let text ← (fillVariables values body).mapError Unresolved.demanded
    return blockText name.chars text
  | .seq p q => do
    let before ← p.write values
    let after ← q.write values
    return before ++ '\n' :: after

def Page.blockCount : Page → Nat
  | .nothing => 0
  | .line _ => 0
  | .block _ _ => 1
  | .seq p q => p.blockCount + q.blockCount

/-- What a part of a line asks for and offers, if it is a variable. -/
def Segment.entry? : Segment → Option (String × List String)
  | .plain _ _ => none
  | .variable name alternatives => some (name.name, (alternatives.map Identifier.name).eraseDups)

/-- The variables of a line, in order. -/
def Line.variables (l : Line) : List (String × List String) := l.segments.filterMap Segment.entry?

def Page.variableCount : Page → Nat
  | .nothing => 0
  | .line l => l.variables.length
  | .block _ body => (vars body).length
  | .seq p q => p.variableCount + q.variableCount

/-- What a well-formed template means. The conditions are asked for first, from the outside to the
    inside and in order, then the bodies, then the values of the variables. -/
def Tree.evaluate (t : Tree) (v : Values) : Except (Kind × String) Conversion := do
  let chosen ← t.choose v.conditions
  let page ← chosen.1.fill v.blocks
  let text ← page.write v.vars
  return {
    text := String.ofList text
    stats := ⟨chosen.2, page.blockCount, page.variableCount⟩ }

-- ── Inventory ────────────────────────────────────────────────────────────────

/-- The conditions with their defaults: a conditional before those in its branches. -/
def Tree.conditions : Tree → List (String × Bool)
  | .line _ => []
  | .block _ _ _ => []
  | .ifThen name default? t => (name.name, default?.getD false) :: t.conditions
  | .ifElse name default? t u =>
    (name.name, default?.getD false) :: (t.conditions ++ u.conditions)
  | .seq a b => a.conditions ++ b.conditions

/-- The blocks with their bodies. -/
def Tree.blocks : Tree → List (String × String)
  | .line _ => []
  | .block name first others => [(name.name, String.ofList (printLines first others))]
  | .ifThen _ _ t => t.blocks
  | .ifElse _ _ t u => t.blocks ++ u.blocks
  | .seq a b => a.blocks ++ b.blocks

/-- The variables with their alternatives. -/
def Tree.vars : Tree → List (String × List String)
  | .line l => l.variables
  | .block _ first others => first.variables ++ others.flatMap Line.variables
  | .ifThen _ _ t => t.vars
  | .ifElse _ _ t u => t.vars ++ u.vars
  | .seq a b => a.vars ++ b.vars

/-- What a well-formed template asks for, each name at its first place. -/
def Tree.inventory (t : Tree) : Inventory where
  conditions := .ofListFirst t.conditions
  blocks := .ofListLast t.blocks
  vars := .ofListFirst t.vars

-- ── Layouts of templates ─────────────────────────────────────────────────────

def Tree.layout : Tree → Layout
  | .line l => .plain l.print
  | .block name first others => .block name.chars (printLines first others)
  | .ifThen name default? t => .ifThen name.chars default? t.layout
  | .ifElse name default? t u => .ifElse name.chars default? t.layout u.layout
  | .seq a b => .seq a.layout b.layout

def Page.layout : Page → Layout
  | .nothing => .plain []
  | .line l => .plain l.print
  | .block name body => .block name.chars body
  | .seq p q => .seq p.layout q.layout

@[simp] theorem Tree.print_layout (t : Tree) : t.layout.print = t.print := by
  induction t with
  | line l => rfl
  | block name first others => rfl
  | ifThen name default? t iht => rw [Tree.layout, Layout.print, iht, Tree.print]
  | ifElse name default? t u iht ihu => rw [Tree.layout, Layout.print, iht, ihu, Tree.print]
  | seq a b iha ihb => rw [Tree.layout, Layout.print, iha, ihb, Tree.print]

-- ── Characters ───────────────────────────────────────────────────────────────

theorem conditionChar_of_nameChar {c : Char} (h : isNameChar c = true) :
    isConditionChar c = true := by
  cases hc : isConditionChar c with
  | true => rfl
  | false =>
      simp only [isConditionChar, isAsciiBlank, Bool.not_eq_false', Bool.or_eq_true,
        beq_iff_eq] at hc
      rcases hc with rfl | (((rfl | rfl) | rfl) | rfl) | rfl <;> exact absurd h (by decide)

theorem variableChar_of_nameChar {c : Char} (h : isNameChar c = true) :
    isVariableChar c = true := by
  cases hc : isVariableChar c with
  | true => rfl
  | false =>
      simp only [isVariableChar, isAsciiBlank, Bool.not_eq_false', Bool.or_eq_true,
        beq_iff_eq] at hc
      rcases hc with ((rfl | rfl) | rfl) | (((rfl | rfl) | rfl) | rfl) | rfl <;>
        exact absurd h (by decide)

theorem alternativeChar_of_nameChar {c : Char} (h : isNameChar c = true) :
    isAlternativeChar c = true := by
  cases hc : isAlternativeChar c with
  | true => rfl
  | false =>
      simp only [isAlternativeChar, isAsciiBlank, Bool.not_eq_false', Bool.or_eq_true,
        beq_iff_eq] at hc
      rcases hc with ((rfl | rfl) | rfl) | (((rfl | rfl) | rfl) | rfl) | rfl <;>
        exact absurd h (by decide)

theorem Identifier.isName (i : Identifier) : IsName i.chars :=
  ⟨i.nonempty, fun c hc => conditionChar_of_nameChar (i.nameChars c hc)⟩

/-- A character that is neither plain nor in a name is in no line. -/
theorem Identifier.not_mem {i : Identifier} {c : Char} (h : isNameChar c = false) :
    c ∉ i.chars := by
  intro hm
  rw [i.nameChars c hm] at h
  cases h

/-- The at sign and line breaks do not occur in a line. -/
theorem Segment.not_mem_print {c : Char} (hplain : isPlainChar c = false)
    (hname : isNameChar c = false) (hmark : c ∉ ['<', '=', '|', '>']) (s : Segment) :
    c ∉ s.print := by
  intro hm
  cases s with
  | plain d h =>
      rw [List.mem_singleton.mp hm, h] at hplain
      cases hplain
  | «variable» name alternatives =>
      simp only [List.mem_cons, not_or] at hmark
      obtain ⟨hopen, heq, hbar, hclose, -⟩ := hmark
      rcases List.mem_cons.mp hm with h | h
      · exact hopen h
      rcases List.mem_append.mp h with h | h
      · exact Identifier.not_mem hname h
      rcases List.mem_append.mp h with h | h
      · cases alternatives with
        | nil => exact List.not_mem_nil h
        | cons first others =>
            rcases List.mem_cons.mp h with h | h
            · exact heq h
            rcases List.mem_append.mp h with h | h
            · exact Identifier.not_mem hname h
            obtain ⟨word, hword, hc⟩ := List.mem_flatMap.mp h
            obtain ⟨i, -, rfl⟩ := List.mem_map.mp hword
            rcases List.mem_cons.mp hc with hc | hc
            · exact hbar hc
            · exact Identifier.not_mem hname hc
      · exact hclose (List.mem_singleton.mp h)

theorem Segment.not_mem_flatMap {c : Char} (hplain : isPlainChar c = false)
    (hname : isNameChar c = false) (hmark : c ∉ ['<', '=', '|', '>']) (segments : List Segment) :
    c ∉ segments.flatMap Segment.print := by
  intro hm
  obtain ⟨s, -, hs⟩ := List.mem_flatMap.mp hm
  exact s.not_mem_print hplain hname hmark hs

theorem Line.no_at (l : Line) : '@' ∉ l.print :=
  Segment.not_mem_flatMap rfl rfl (by decide) l.segments

theorem Line.no_break (l : Line) : '\n' ∉ l.print :=
  Segment.not_mem_flatMap rfl rfl (by decide) l.segments

theorem Line.no_return (l : Line) : '\r' ∉ l.print :=
  Segment.not_mem_flatMap rfl rfl (by decide) l.segments

theorem Line.opens (l : Line) : Opens l.print :=
  Visible.opens l.visible l.no_break

theorem Line.closes (l : Line) : Closes l.print :=
  Visible.closes l.visible l.no_break l.no_return

-- ── Well-formed templates are readable ───────────────────────────────────────

theorem not_mem_printLines {c : Char} (h : ∀ l : Line, c ∉ l.print) (hc : c ≠ '\n') (first : Line)
    (others : List Line) : c ∉ printLines first others := by
  intro hm
  rcases List.mem_append.mp hm with hm | hm
  · exact h first hm
  · obtain ⟨l, -, hl⟩ := List.mem_flatMap.mp hm
    rcases List.mem_cons.mp hl with hl | hl
    · exact hc hl
    · exact h l hl

theorem framed_printLines (first : Line) (others : List Line) :
    Framed (printLines first others) := by
  refine ⟨first.opens.append _, ?_⟩
  rw [printLines]
  induction others generalizing first with
  | nil =>
      rw [List.flatMap_nil, List.append_nil]
      exact first.closes
  | cons l others ih =>
      have hl := (ih l).prepend (first.print ++ ['\n'])
      simpa using hl

theorem Tree.framed (t : Tree) : Framed t.print := by
  induction t with
  | line l => exact ⟨l.opens, l.closes⟩
  | block name first others =>
      refine ⟨⟨[], '/', _, rfl, List.not_mem_nil, rfl⟩, ?_⟩
      have hend : Closes endBlockLine :=
        ⟨endBlockLine.dropLast, 'k', [], rfl, rfl, fun x hx => absurd hx List.not_mem_nil⟩
      have h := hend.prepend (blockLine name.chars ++ '\n' :: (printLines first others ++ ['\n']))
      simpa [Tree.print, blockText] using h
  | ifThen name default? t iht =>
      refine ⟨⟨[], '@', _, rfl, List.not_mem_nil, rfl⟩, ?_⟩
      have hend : Closes endIfKeyword :=
        ⟨endIfKeyword.dropLast, 'f', [], rfl, rfl, fun x hx => absurd hx List.not_mem_nil⟩
      have h := hend.prepend (ifLine name.chars default? ++ '\n' :: (t.print ++ ['\n']))
      simpa [Tree.print] using h
  | ifElse name default? t u iht ihu =>
      refine ⟨⟨[], '@', _, rfl, List.not_mem_nil, rfl⟩, ?_⟩
      have hend : Closes endIfKeyword :=
        ⟨endIfKeyword.dropLast, 'f', [], rfl, rfl, fun x hx => absurd hx List.not_mem_nil⟩
      have h := hend.prepend (ifLine name.chars default? ++ '\n' ::
        (t.print ++ '\n' :: (elseKeyword ++ '\n' :: (u.print ++ ['\n']))))
      simpa [Tree.print] using h
  | seq a b iha ihb =>
      refine ⟨iha.opens.append _, ?_⟩
      have h := ihb.closes.prepend (a.print ++ ['\n'])
      simpa [Tree.print] using h

theorem readable_block (name : Identifier) (first : Line) (others : List Line) :
    (Layout.block name.chars (printLines first others)).Readable :=
  ⟨name.isName, not_mem_printLines Line.no_at (by decide) first others,
    .inr (framed_printLines first others)⟩

/-- The markers of a well-formed template can be read. -/
theorem Tree.readable (t : Tree) : t.layout.Readable := by
  induction t with
  | line l => exact l.no_at
  | block name first others => exact readable_block name first others
  | ifThen name default? t iht =>
      exact ⟨name.isName, (t.print_layout).symm ▸ t.framed, iht⟩
  | ifElse name default? t u iht ihu =>
      exact ⟨name.isName, (t.print_layout).symm ▸ t.framed, (u.print_layout).symm ▸ u.framed,
        iht, ihu⟩
  | seq a b iha ihb => exact ⟨iha, ihb⟩

end ShaderTemplates.Template
