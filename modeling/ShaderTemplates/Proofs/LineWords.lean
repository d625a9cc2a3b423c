import ShaderTemplates.Proofs.LineBreaks
import ShaderTemplates.Proofs.Words

/-!
# Variables line by line

The variables of a text are those of its lines: what stands on a line is read in the same way
whatever stands on the lines around it, and blanks at its end make no difference
(`itemsFrom_line`).  This holds for every text, markers of other kinds included.
-/

namespace ShaderTemplates.Template

open Text

/-- The variables of a text, given whether only blanks stand before it on its line. -/
def itemsFrom (lineStart : Bool) (cs : List Char) : List (String × List String) :=
  Piece.items (wordsFrom lineStart cs)

/-- The variables of a text of whole lines, its last line break left out. -/
def lineItems (cs : List Char) : List (String × List String) := itemsFrom true (cs ++ ['\n'])

theorem itemsFrom_char {b : Bool} {c : Char} {rest : List Char}
    (h : marker? b (c :: rest) = none) :
    itemsFrom b (c :: rest) = itemsFrom ((Position.pastChar ⟨b, 1⟩ c).lineStart) rest := by
  rw [itemsFrom, wordsFrom_char h, Piece.items_char]
  rfl

theorem itemsFrom_marker {b : Bool} {cs : List Char} {f : Found} (h : marker? b cs = some f) :
    itemsFrom b cs = Piece.items (markerWord f.marker f.source) ++
      itemsFrom (f.source.getLast? == some '\n') f.rest := by
  rw [itemsFrom, wordsFrom_marker h, Piece.items_append]
  rfl

theorem itemsFrom_afterBlankLines (cs : List Char) :
    itemsFrom true cs = itemsFrom true (afterBlankLines cs) := by
  rw [itemsFrom, wordsFrom_blankLines, Piece.items_append, Piece.items_plain]
  rfl

/-- A line holds the variables that it holds when it stands alone. -/
theorem itemsFrom_line {tail after : List Char} (ht : Breaks tail after) (b : Bool)
    (x : List Char) :
    itemsFrom b (x ++ tail) = itemsFrom b (x ++ ['\n']) ++ itemsFrom true after := by
  induction hn : x.length using Nat.strongRecOn generalizing b x with
  | ind n ih =>
      have hm := marker?_alike ht b x
      cases ha : marker? b (x ++ tail) with
      | none =>
          rw [ha] at hm
          cases ha' : marker? b (x ++ ['\n']) with
          | some f => rw [ha'] at hm; cases hm
          | none =>
              cases x with
              | nil =>
                  obtain ⟨blanks, hb, rfl⟩ := ht
                  have hall : ∀ c ∈ blanks ++ ['\n'], isAsciiBlank c = true := by
                    intro c hc
                    rcases List.mem_append.mp hc with hc | hc
                    · exact isAsciiBlank_of_isInlineBlank (hb c hc)
                    · rw [List.mem_singleton.mp hc]
                      rfl
                  have hw := wordsFrom_blanks hall (by simp) b after
                  rw [List.append_assoc] at hw
                  rw [List.nil_append, itemsFrom, show blanks ++ '\n' :: after =
                    blanks ++ (['\n'] ++ after) from rfl, hw, Piece.items_append,
                    Piece.items_plain]
                  rfl
              | cons c x =>
                  rw [List.cons_append] at ha ha' ⊢
                  rw [List.cons_append, itemsFrom_char ha, itemsFrom_char ha']
                  exact ih x.length (by simp at hn; omega) _ x rfl
      | some f =>
          rw [ha] at hm
          cases ha' : marker? b (x ++ ['\n']) with
          | none => rw [ha'] at hm; cases hm
          | some f' =>
              have happ := marker?_append ha
              have happ' := marker?_append ha'
              have hlen := marker?_rest_length ha'
              rw [ha'] at hm
              rw [itemsFrom_marker ha, itemsFrom_marker ha']
              cases hm with
              | onLine m s s' y =>
                  simp only [List.length_append, List.length_singleton] at hlen
                  rw [← List.append_assoc] at happ happ'
                  have hs : s ++ y = s' ++ y :=
                    (List.append_cancel_right happ).trans (List.append_cancel_right happ').symm
                  rw [List.append_cancel_right hs]
                  show _ ++ itemsFrom _ (y ++ tail) = _ ++ itemsFrom _ (y ++ ['\n']) ++ _
                  rw [ih y.length (by omega) _ y rfl, List.append_assoc]
              | pastBreak m s s' hvar =>
                  -- the header takes the blank lines behind the line, which hold no variable
                  obtain ⟨blanks, hb, rfl⟩ := ht
                  have hsource : s = x ++ blanks ++ '\n' :: blankLines after := by
                    have h : x ++ (blanks ++ '\n' :: after) =
                        x ++ blanks ++ '\n' :: blankLines after ++ afterBlankLines after := by
                      rw [List.append_assoc, List.append_assoc, List.cons_append,
                        blankLines_append]
                    exact List.append_cancel_right (happ.trans h)
                  have hlast : s.getLast? = some '\n' := by
                    rw [hsource, List.getLast?_append, getLast?_break_blankLines]
                    rfl
                  have hitems : ∀ s, Piece.items (markerWord m s) = [] := by
                    intro s
                    rw [markerWord_plain hvar]
                    exact Piece.items_plain s
                  show _ ++ itemsFrom (s.getLast? == some '\n') (afterBlankLines after) = _
                  rw [hlast, itemsFrom_afterBlankLines after, hitems, hitems]
                  rfl

/-- The variables before and behind a line break. -/
theorem itemsFrom_break (x after : List Char) :
    itemsFrom true (x ++ '\n' :: after) = lineItems x ++ itemsFrom true after :=
  itemsFrom_line (breaks_plain after) true x

/-- A variable has an opening bracket. -/
theorem open_mem_of_itemsFrom {e : String × List String} {b : Bool} {cs : List Char}
    (h : e ∈ itemsFrom b cs) : '<' ∈ cs := by
  induction hn : cs.length using Nat.strongRecOn generalizing b cs with
  | ind n ih =>
      cases hm : marker? b cs with
      | none =>
          cases cs with
          | nil => exact absurd h List.not_mem_nil
          | cons c rest =>
              rw [itemsFrom_char hm] at h
              exact List.mem_cons_of_mem _ (ih rest.length (by simp at hn; omega) h rfl)
      | some f =>
          have happ := marker?_append hm
          have hlen := marker?_rest_length hm
          rw [itemsFrom_marker hm] at h
          rcases List.mem_append.mp h with h | h
          · have hwhy := marker?_explained hm
            obtain ⟨m, source, rest⟩ := f
            cases m with
            | «variable» name alternatives =>
                have hvar : variableWord? cs = some ⟨.variable name alternatives, source, rest⟩ :=
                  hwhy
                cases cs with
                | nil => cases hvar
                | cons c cs =>
                    by_cases hc : c = '<'
                    · subst hc
                      exact List.mem_cons_self
                    · rw [variableWord?_of_ne hc] at hvar
                      cases hvar
            | ifHeader name default? => exact absurd ((Piece.items_plain source) ▸ h) List.not_mem_nil
            | elseLine => exact absurd ((Piece.items_plain source) ▸ h) List.not_mem_nil
            | endIf => exact absurd ((Piece.items_plain source) ▸ h) List.not_mem_nil
            | blockHeader name => exact absurd ((Piece.items_plain source) ▸ h) List.not_mem_nil
            | endBlock => exact absurd ((Piece.items_plain source) ▸ h) List.not_mem_nil
          · rw [← happ]
            exact List.mem_append_right _ (ih f.rest.length (by omega) h rfl)

end ShaderTemplates.Template
