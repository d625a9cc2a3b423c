import ShaderTemplates.Template.Token.Stream

/-!
# Reading without a budget

Every step of the reader takes at least one character, so a budget of one step for each
character is enough and `tokenize` never runs out of it.  What is left is the plain walk
`piecesFrom`, which satisfies three equations:

* `piecesFrom_nil`: nothing is read from the empty text;
* `piecesFrom_char`: a character that starts no marker stands for itself;
* `piecesFrom_marker`: a marker becomes a token, and reading goes on behind it.

`reading_induction` is the induction that follows these equations.
-/

namespace ShaderTemplates.Template

open Text

/-- The pieces of a text from a position on. -/
def piecesFrom (p : Position) (cs : List Char) : List (Piece Token) :=
  readPieces cs.length p cs

/-- The start of a line. -/
def Position.lineAt (n : Nat) : Position := ⟨true, n⟩

@[simp] theorem Position.lineAt_lineStart (n : Nat) : (Position.lineAt n).lineStart = true := rfl

@[simp] theorem Position.lineAt_line (n : Nat) : (Position.lineAt n).line = n := rfl

/-- A match leaves less than it was given. -/
theorem marker?_rest_length {b : Bool} {cs : List Char} {f : Found}
    (h : marker? b cs = some f) : f.rest.length < cs.length := by
  have happ := congrArg List.length (marker?_append h)
  have hpos := List.length_pos_iff.mpr (marker?_source_ne_nil h)
  rw [List.length_append] at happ
  omega

/-- A budget of one step for each character is as good as any larger one. -/
theorem readPieces_of_length_le {budget : Nat} {p : Position} {cs : List Char}
    (h : cs.length ≤ budget) : readPieces budget p cs = piecesFrom p cs := by
  rw [piecesFrom]
  induction hn : cs.length using Nat.strongRecOn generalizing budget p cs with
  | ind n ih =>
      subst hn
      cases cs with
      | nil => cases budget <;> rfl
      | cons c rest =>
          obtain ⟨budget, rfl⟩ : ∃ b, budget = b + 1 :=
            ⟨budget - 1, by simp only [List.length_cons] at h; omega⟩
          simp only [List.length_cons, Nat.add_le_add_iff_right] at h
          rw [List.length_cons, readPieces, readPieces]
          cases hm : marker? p.lineStart (c :: rest) with
          | none =>
              have hrest : readPieces budget (p.pastChar c) rest =
                  readPieces rest.length (p.pastChar c) rest := ih rest.length (by simp) h rfl
              show _ :: _ = _ :: _
              rw [hrest]
          | some f =>
              have hlt := marker?_rest_length hm
              rw [List.length_cons] at hlt
              have hrest : ∀ b, f.rest.length ≤ b →
                  readPieces b (p.pastMarker f.source) f.rest =
                    readPieces f.rest.length (p.pastMarker f.source) f.rest :=
                fun b hb => ih f.rest.length (by simpa using hlt) hb rfl
              show _ :: _ = _ :: _
              rw [hrest budget (by omega), hrest rest.length (by omega)]

theorem length_le_byteLength (cs : List Char) : cs.length ≤ byteLength cs := by
  induction cs with
  | nil => exact Nat.zero_le _
  | cons c rest ih =>
      have := Char.utf8Size_pos c
      rw [List.length_cons, byteLength]
      omega

/-- The budget of the reader is never used up. -/
theorem tokenize_eq_piecesFrom (cs : List Char) : tokenize cs = piecesFrom (.lineAt 1) cs := by
  have := length_le_byteLength cs
  exact readPieces_of_length_le (by rw [stepsPerByte]; omega)

-- ── Equations ────────────────────────────────────────────────────────────────

@[simp] theorem piecesFrom_nil (p : Position) : piecesFrom p [] = [] := rfl

/-- A character that starts no marker stands for itself. -/
theorem piecesFrom_char {p : Position} {c : Char} {rest : List Char}
    (h : marker? p.lineStart (c :: rest) = none) :
    piecesFrom p (c :: rest) = .char c :: piecesFrom (p.pastChar c) rest := by
  rw [piecesFrom, List.length_cons, readPieces, h]
  rfl

/-- A marker becomes a token, and reading goes on behind it. -/
theorem piecesFrom_marker {p : Position} {cs : List Char} {f : Found}
    (h : marker? p.lineStart cs = some f) :
    piecesFrom p cs =
      .item ⟨f.marker, f.source, p.line⟩ :: piecesFrom (p.pastMarker f.source) f.rest := by
  have hlt := marker?_rest_length h
  cases cs with
  | nil => exact absurd hlt (Nat.not_lt_zero _)
  | cons c rest =>
      rw [piecesFrom, List.length_cons, readPieces, h]
      show _ :: _ = _ :: _
      rw [readPieces_of_length_le (by rw [List.length_cons] at hlt; omega)]

/-- Induction along the walk of the reader. -/
theorem reading_induction {motive : Position → List Char → Prop}
    (nil : ∀ p, motive p [])
    (char : ∀ p c rest, marker? p.lineStart (c :: rest) = none →
      motive (p.pastChar c) rest → motive p (c :: rest))
    (marker : ∀ p cs f, marker? p.lineStart cs = some f →
      motive (p.pastMarker f.source) f.rest → motive p cs)
    (p : Position) (cs : List Char) : motive p cs := by
  induction hn : cs.length using Nat.strongRecOn generalizing p cs with
  | ind n ih =>
      subst hn
      cases cs with
      | nil => exact nil p
      | cons c rest =>
          cases hm : marker? p.lineStart (c :: rest) with
          | none => exact char p c rest hm (ih _ (by simp) _ _ rfl)
          | some f => exact marker p _ f hm (ih _ (marker?_rest_length hm) _ _ rfl)

@[simp] theorem tokenSource_piecesFrom (p : Position) (cs : List Char) :
    tokenSource (piecesFrom p cs) = cs :=
  tokenSource_readPieces _ _ _

-- ── Line breaks ──────────────────────────────────────────────────────────────

/-- A text that is over, or that goes on with a line break. -/
def LineEnd (rest : List Char) : Prop := rest = [] ∨ ∃ after, rest = '\n' :: after

theorem lineEnd_nil : LineEnd [] := .inl rfl

theorem lineEnd_break (after : List Char) : LineEnd ('\n' :: after) := .inr ⟨after, rfl⟩

/-- No marker starts with a line break. -/
theorem marker?_lineBreak (b : Bool) (rest : List Char) : marker? b ('\n' :: rest) = none := rfl

/-- After a line break reading is at the start of the next line. -/
theorem piecesFrom_lineBreak (p : Position) (rest : List Char) :
    piecesFrom p ('\n' :: rest) = .char '\n' :: piecesFrom (.lineAt (p.line + 1)) rest :=
  piecesFrom_char (marker?_lineBreak p.lineStart rest)

/-- At the end of a line it does not matter what the line held. -/
theorem piecesFrom_lineEnd (p : Position) {rest : List Char} (h : LineEnd rest) :
    piecesFrom p rest = piecesFrom (.lineAt p.line) rest := by
  obtain rfl | ⟨after, rfl⟩ := h
  · rfl
  · rw [piecesFrom_lineBreak, piecesFrom_lineBreak]
    rfl

end ShaderTemplates.Template
