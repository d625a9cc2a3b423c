import ShaderTemplates.Proofs.MarkerLines
import ShaderTemplates.Template.Content

/-!
# Texts that are their own content

The blank lines at the end of a branch or of a body belong to the marker behind it.  A text whose
last line has something on it (`Closes`) loses only the line break in front of that marker
(`content_of_closes`).
-/

namespace ShaderTemplates.Template

open Text

/-- A text whose last line with anything on it is its last line. -/
def Closes (cs : List Char) : Prop :=
  ∃ a c b, cs = a ++ c :: b ∧ isBlank c = false ∧
    ∀ x ∈ b, isBlank x = true ∧ x ≠ '\n' ∧ x ≠ '\r'

theorem trimEnd_of_visible {c : Char} (hc : isBlank c = false) (a : List Char) {b : List Char}
    (hb : ∀ x ∈ b, isBlank x = true) : trimEnd (a ++ c :: b) = a ++ [c] := by
  have hrev : (a ++ c :: b).reverse = b.reverse ++ c :: a.reverse := by simp
  have hb' : ∀ x ∈ b.reverse, isBlank x = true := fun x hx => hb x (List.mem_reverse.mp hx)
  rw [trimEnd, hrev, dropWhile_run hb' hc]
  simp

theorem keptBlanks_line {b : List Char} (hb : ∀ x ∈ b, x ≠ '\n' ∧ x ≠ '\r') :
    keptBlanks (b ++ ['\n']) = b := by
  have hline : (b ++ ['\n']).takeWhile (· != '\n') = b :=
    takeWhile_run (fun x hx => by simpa using (hb x hx).1) rfl []
  have hlast : b.getLast? ≠ some '\r' := fun h => (hb _ (List.mem_of_getLast? h)).2 rfl
  rw [keptBlanks, if_pos (by simp), hline]
  exact if_neg hlast

/-- A text that ends with a line of content is its own content. -/
theorem content_of_closes {cs : List Char} (h : Closes cs) : content (cs ++ ['\n']) = cs := by
  obtain ⟨a, c, b, rfl, hc, hb⟩ := h
  have hb' : ∀ x ∈ b ++ ['\n'], isBlank x = true := by
    intro x hx
    rcases List.mem_append.mp hx with hx | hx
    · exact (hb x hx).1
    · rw [List.mem_singleton.mp hx]
      rfl
  have htext : a ++ c :: b ++ ['\n'] = a ++ c :: (b ++ ['\n']) := by simp
  have hdrop : (a ++ c :: (b ++ ['\n'])).drop (a ++ [c]).length = b ++ ['\n'] := by simp
  rw [content, htext, trimEnd_of_visible hc a hb', hdrop, keptBlanks_line fun x hx => (hb x hx).2]
  simp

theorem Closes.prepend {cs : List Char} (h : Closes cs) (before : List Char) :
    Closes (before ++ cs) := by
  obtain ⟨a, c, b, rfl, hc, hb⟩ := h
  exact ⟨before ++ a, c, b, by simp, hc, hb⟩

-- ── Lines with something on them ─────────────────────────────────────────────

/-- A line that holds a character which is no blank. -/
def Visible (line : List Char) : Prop := ∃ c ∈ line, isBlank c = false

theorem Visible.opens {line : List Char} (h : Visible line) (hline : '\n' ∉ line) :
    Opens line := by
  obtain ⟨c, hc, hblank⟩ := h
  obtain ⟨a, b, rfl⟩ := List.append_of_mem hc
  refine ⟨a, c, b, rfl, fun hm => hline (List.mem_append_left _ hm), ?_⟩
  cases hascii : isAsciiBlank c with
  | false => rfl
  | true => rw [isBlank_of_isAsciiBlank hascii] at hblank; cases hblank

/-- Behind the last character that is no blank there are blanks only. -/
theorem Visible.last {line : List Char} (h : Visible line) :
    ∃ a c b, line = a ++ c :: b ∧ isBlank c = false ∧ ∀ x ∈ b, isBlank x = true := by
  induction line with
  | nil =>
      obtain ⟨c, hc, -⟩ := h
      exact absurd hc List.not_mem_nil
  | cons x line ih =>
      by_cases hline : Visible line
      · obtain ⟨a, c, b, rfl, hc, hb⟩ := ih hline
        exact ⟨x :: a, c, b, rfl, hc, hb⟩
      · have hblank : ∀ y ∈ line, isBlank y = true := by
          intro y hy
          cases hy' : isBlank y with
          | true => rfl
          | false => exact absurd ⟨y, hy, hy'⟩ hline
        obtain ⟨c, hc, hvisible⟩ := h
        rcases List.mem_cons.mp hc with rfl | hc
        · exact ⟨[], c, line, rfl, hvisible, hblank⟩
        · rw [hblank c hc] at hvisible
          cases hvisible

theorem Visible.closes {line : List Char} (h : Visible line) (hbreak : '\n' ∉ line)
    (hreturn : '\r' ∉ line) : Closes line := by
  obtain ⟨a, c, b, rfl, hc, hb⟩ := h.last
  refine ⟨a, c, b, rfl, hc, ?_⟩
  intro x hx
  have hmem : x ∈ a ++ c :: b := List.mem_append_right _ (List.mem_cons_of_mem _ hx)
  refine ⟨hb x hx, ?_, ?_⟩
  · rintro rfl
    exact hbreak hmem
  · rintro rfl
    exact hreturn hmem

end ShaderTemplates.Template
