import ShaderTemplates.Text

/-!
# Content before a marker line

The content of a branch or of a block ends before the line of the marker that closes it. The line
break in front of that line belongs to the marker, together with the blank lines before it;
blanks at the end of the last line with content are kept (`content`).
-/

namespace ShaderTemplates.Template

open Text

/-- The blanks that stay behind the last character of a content: those up to the line break, less a
    carriage return that belongs to it. -/
def keptBlanks (blanks : List Char) : List Char :=
  if '\n' ∈ blanks then
    let line := blanks.takeWhile (· != '\n')
    if line.getLast? = some '\r' then line.dropLast else line
  else []

/-- The content of a region that ends where a marker starts. -/
def content (region : List Char) : List Char :=
  let body := trimEnd region
  body ++ keptBlanks (region.drop body.length)

theorem keptBlanks_length_le (blanks : List Char) :
    (keptBlanks blanks).length ≤ blanks.length := by
  have h := (List.takeWhile_sublist (· != '\n') (l := blanks)).length_le
  unfold keptBlanks
  split
  · dsimp only
    split
    · rw [List.length_dropLast]
      omega
    · exact h
  · exact Nat.zero_le _

/-- A content is no longer than its region. -/
theorem content_length_le (region : List Char) : (content region).length ≤ region.length := by
  have h := keptBlanks_length_le (region.drop (trimEnd region).length)
  have h' := trimEnd_length_le region
  simp only [content, List.length_append, List.length_drop] at h ⊢
  omega

end ShaderTemplates.Template
