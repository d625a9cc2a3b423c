/-!
# Texts

Three sets of blanks occur in templates and names:

* `isBlank` — the `White_Space` characters of Unicode, used where text is trimmed;
* `isAsciiBlank` — space, tab, line feed, form feed and carriage return, which end a word;
* `isInlineBlank` — space, tab and carriage return, which may stand inside a line. A carriage
  return counts because it only matters as the first half of a CR LF line break.

Each set contains the next (`isBlank_of_isAsciiBlank`, `isAsciiBlank_of_isInlineBlank`).

Line breaks are `\n`; a carriage return directly before one belongs to it. `unixBreaks` writes
every CR LF as a plain LF in one pass from the left, so a carriage return in front of a CR LF
stays where it is.

The label of a camel-case name (`Label.display`) has a space after each of its words, a word being a
capital letter followed by at least one other character that is no capital: `ShadowCaster` is shown
as `Shadow Caster`. A capital directly before another capital stays joined to it, so `RGBColor` is
one word.
-/

namespace ShaderTemplates

namespace Text

/-- Space, tab or carriage return. -/
def isInlineBlank (c : Char) : Bool :=
  c == ' ' || c == '\t' || c == '\r'

/-- The five ASCII blanks that end a word. -/
def isAsciiBlank (c : Char) : Bool :=
  c == ' ' || c == '\t' || c == '\n' || c == '\x0c' || c == '\r'

/-- The characters with the Unicode property `White_Space`. -/
def isBlank (c : Char) : Bool :=
  let n := c.toNat
  (9 ≤ n && n ≤ 13) || n == 0x20 || n == 0x85 || n == 0xa0 || n == 0x1680 ||
    (0x2000 ≤ n && n ≤ 0x200a) || n == 0x2028 || n == 0x2029 || n == 0x202f ||
    n == 0x205f || n == 0x3000

theorem isAsciiBlank_of_isInlineBlank {c : Char} (h : isInlineBlank c = true) :
    isAsciiBlank c = true := by
  simp only [isInlineBlank, isAsciiBlank, Bool.or_eq_true, beq_iff_eq] at h ⊢
  rcases h with (h | h) | h <;> simp [h]

theorem isBlank_of_isAsciiBlank {c : Char} (h : isAsciiBlank c = true) : isBlank c = true := by
  simp only [isAsciiBlank, Bool.or_eq_true, beq_iff_eq] at h
  rcases h with (((h | h) | h) | h) | h <;> subst h <;> decide

-- ── Trimming ─────────────────────────────────────────────────────────────────

/-- The text without the blanks at its end. -/
def trimEnd (cs : List Char) : List Char :=
  (cs.reverse.dropWhile isBlank).reverse

/-- The text without the blanks at its start and its end. -/
def trim (cs : List Char) : List Char :=
  trimEnd (cs.dropWhile isBlank)

/-- A name made of blanks only (or of nothing) names nothing. -/
def isBlankText (s : String) : Bool :=
  s.toList.all isBlank

/-- Trimming removes blanks and nothing else. -/
theorem trimEnd_append_drop (cs : List Char) :
    trimEnd cs ++ cs.drop (trimEnd cs).length = cs := by
  have h := List.takeWhile_append_dropWhile (p := isBlank) (l := cs.reverse)
  have h' : (cs.reverse.dropWhile isBlank).reverse ++ (cs.reverse.takeWhile isBlank).reverse = cs := by
    rw [← List.reverse_append, h, List.reverse_reverse]
  unfold trimEnd
  generalize (cs.reverse.dropWhile isBlank).reverse = a at h' ⊢
  rw [← h']
  simp

theorem trimEnd_length_le (cs : List Char) : (trimEnd cs).length ≤ cs.length := by
  have h := congrArg List.length (trimEnd_append_drop cs)
  simp only [List.length_append] at h
  omega

-- ── Lines ────────────────────────────────────────────────────────────────────

/-- The number of line breaks in a text. -/
def lineBreaks (cs : List Char) : Nat :=
  cs.count '\n'

/-- Every CR LF pair becomes a single LF. -/
def unixBreaks : List Char → List Char
  | [] => []
  | '\r' :: '\n' :: rest => '\n' :: unixBreaks rest
  | c :: rest => c :: unixBreaks rest

/-- The number of lines of a text; a line break at the very end starts no further line. -/
def lineCount (s : String) : Nat :=
  let cs := s.toList
  lineBreaks cs + if cs.isEmpty || cs.getLast? == some '\n' then 0 else 1

@[simp] theorem lineBreaks_append (a b : List Char) :
    lineBreaks (a ++ b) = lineBreaks a + lineBreaks b :=
  List.count_append

/-- A text without carriage returns has no CR LF. -/
theorem unixBreaks_of_no_return {cs : List Char} (h : '\r' ∉ cs) : unixBreaks cs = cs := by
  induction cs with
  | nil => rfl
  | cons c cs ih =>
      have hc : c ≠ '\r' := by
        rintro rfl
        exact h List.mem_cons_self
      have hcs : '\r' ∉ cs := fun hm => h (List.mem_cons_of_mem _ hm)
      rw [unixBreaks, ih hcs]
      rintro rest rfl
      exact absurd rfl hc

end Text

-- ── Display labels ───────────────────────────────────────────────────────────

namespace Label

open Text (trimEnd)

/-- The characters of a name with a space after each word; the last word has one too. -/
def spaced : List Char → List Char
  | [] => []
  | c :: rest =>
    if c.isUpper && !(rest.takeWhile (!·.isUpper)).isEmpty then
      c :: (rest.takeWhile (!·.isUpper) ++ ' ' :: spaced (rest.dropWhile (!·.isUpper)))
    else
      c :: spaced rest
termination_by cs => cs.length
decreasing_by
  · exact Nat.lt_succ_of_le (List.dropWhile_sublist _).length_le
  · exact Nat.lt_succ_self _

/-- The label shown for a directive name. -/
def display (name : String) : String :=
  String.ofList (trimEnd (spaced name.toList))

end Label

end ShaderTemplates
