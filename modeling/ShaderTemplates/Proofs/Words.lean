import ShaderTemplates.Proofs.Layout
import ShaderTemplates.Proofs.Pieces

/-!
# The variables of a text

To the last pass a text is plain but for its variables (`wordsFrom`).  Markers of the other kinds
take characters that are plain to it, and the blank lines that a header takes hold no variable
either.  So the variables of a layout are those of its lines and bodies (`Layout.wordsFrom_print`),
even where a body starts with blank lines.
-/

namespace ShaderTemplates.Template

open Text

/-- What a variable asks for, and what it offers. -/
def Variable.entry (v : Variable) : String × List String := (v.name, v.alternatives)

/-- A marker as the last pass sees it. -/
def markerWord (m : Marker) (source : List Char) : List (Piece (String × List String)) :=
  match m with
  | .variable name alternatives => [.item (name, alternatives)]
  | _ => Piece.plain source

/-- A piece as the last pass sees it. -/
def tokenWord : Piece Token → List (Piece (String × List String))
  | .char c => [.char c]
  | .item t => markerWord t.marker t.source

/-- The text from a position on, with its variables in their places. -/
def wordsFrom (lineStart : Bool) (cs : List Char) : List (Piece (String × List String)) :=
  (piecesFrom ⟨lineStart, 1⟩ cs).flatMap tokenWord

theorem markerWord_plain {m : Marker} (h : ∀ name alternatives, m ≠ .variable name alternatives)
    (source : List Char) : markerWord m source = Piece.plain source := by
  cases m with
  | «variable» name alternatives => exact absurd rfl (h name alternatives)
  | ifHeader name default? => rfl
  | elseLine => rfl
  | endIf => rfl
  | blockHeader name => rfl
  | endBlock => rfl

theorem pastChar_lineStart {p q : Position} (h : p.lineStart = q.lineStart) (c : Char) :
    (p.pastChar c).lineStart = (q.pastChar c).lineStart := by
  unfold Position.pastChar
  split
  · rfl
  · split
    · exact h
    · rfl

/-- What is told of the tokens without their lines does not depend on the line of the reader. -/
theorem flatMap_piecesFrom_eq {β : Type} {tell : Piece Token → List β}
    (htell : ∀ m s n k, tell (.item ⟨m, s, n⟩) = tell (.item ⟨m, s, k⟩)) {p q : Position}
    (h : p.lineStart = q.lineStart) (cs : List Char) :
    (piecesFrom p cs).flatMap tell = (piecesFrom q cs).flatMap tell := by
  induction p, cs using reading_induction generalizing q with
  | nil p => rfl
  | char p c rest hm ih =>
      have hm' : marker? q.lineStart (c :: rest) = none := h ▸ hm
      rw [piecesFrom_char hm, piecesFrom_char hm', List.flatMap_cons, List.flatMap_cons,
        ih (pastChar_lineStart h c)]
  | marker p cs f hm ih =>
      have hm' : marker? q.lineStart cs = some f := h ▸ hm
      have hpast : (p.pastMarker f.source).lineStart = (q.pastMarker f.source).lineStart := rfl
      rw [piecesFrom_marker hm, piecesFrom_marker hm', List.flatMap_cons, List.flatMap_cons,
        ih hpast, htell f.marker f.source p.line q.line]

/-- The line does not matter to the variables. -/
theorem flatMap_tokenWord_eq {p q : Position} (h : p.lineStart = q.lineStart) (cs : List Char) :
    (piecesFrom p cs).flatMap tokenWord = (piecesFrom q cs).flatMap tokenWord :=
  flatMap_piecesFrom_eq (fun _ _ _ _ => rfl) h cs

theorem flatMap_tokenWord (p : Position) (cs : List Char) :
    (piecesFrom p cs).flatMap tokenWord = wordsFrom p.lineStart cs := by
  rw [wordsFrom, flatMap_tokenWord_eq (p := p) (q := ⟨p.lineStart, 1⟩) rfl]

theorem variablePieces_words (cs : List Char) :
    (variablePieces cs).map (Piece.map Variable.entry) = wordsFrom true cs := by
  have hpiece : ∀ p : Piece Token, (variablePiece p).map (Piece.map Variable.entry) = tokenWord p := by
    intro p
    cases p with
    | char c => rfl
    | item t =>
        obtain ⟨m, source, line⟩ := t
        cases m with
        | «variable» name alternatives => rfl
        | ifHeader name default? => exact Piece.map_plain _ _
        | elseLine => exact Piece.map_plain _ _
        | endIf => exact Piece.map_plain _ _
        | blockHeader name => exact Piece.map_plain _ _
        | endBlock => exact Piece.map_plain _ _
  rw [variablePieces, tokenize_eq_piecesFrom, List.map_flatMap]
  exact congrArg (fun f => (piecesFrom (.lineAt 1) cs).flatMap f) (funext hpiece)

-- ── Equations ────────────────────────────────────────────────────────────────

@[simp] theorem wordsFrom_nil (b : Bool) : wordsFrom b [] = [] := rfl

theorem wordsFrom_char {b : Bool} {c : Char} {rest : List Char}
    (h : marker? b (c :: rest) = none) :
    wordsFrom b (c :: rest) =
      .char c :: wordsFrom ((Position.pastChar ⟨b, 1⟩ c).lineStart) rest := by
  rw [wordsFrom, piecesFrom_char h, List.flatMap_cons, flatMap_tokenWord]
  rfl

theorem wordsFrom_marker {b : Bool} {cs : List Char} {f : Found} (h : marker? b cs = some f) :
    wordsFrom b cs =
      markerWord f.marker f.source ++ wordsFrom (f.source.getLast? == some '\n') f.rest := by
  rw [wordsFrom, piecesFrom_marker h, List.flatMap_cons, flatMap_tokenWord]
  rfl

theorem wordsFrom_lineBreak (b : Bool) (rest : List Char) :
    wordsFrom b ('\n' :: rest) = .char '\n' :: wordsFrom true rest :=
  wordsFrom_char (marker?_lineBreak b rest)

/-- At the end of a line it does not matter what the line held. -/
theorem wordsFrom_lineEnd (b : Bool) {rest : List Char} (h : LineEnd rest) :
    wordsFrom b rest = wordsFrom true rest := by
  obtain rfl | ⟨after, rfl⟩ := h
  · rfl
  · rw [wordsFrom_lineBreak, wordsFrom_lineBreak]

/-- The variables of a text without at signs are found in it alone. -/
theorem wordsFrom_text {s : List Char} (hs : '@' ∉ s) (b : Bool) {rest : List Char}
    (h : LineEnd rest) : wordsFrom b (s ++ rest) = wordsFrom b s ++ wordsFrom true rest := by
  rw [wordsFrom, piecesFrom_text hs h, List.flatMap_append, flatMap_tokenWord, flatMap_tokenWord]
  rfl

-- ── Blank lines ──────────────────────────────────────────────────────────────

theorem startsMarker_of_isAsciiBlank {c : Char} (h : isAsciiBlank c = true) :
    startsMarker c = false := by
  simp only [isAsciiBlank, Bool.or_eq_true, beq_iff_eq] at h
  rcases h with (((h | h) | h) | h) | h <;> subst h <;> decide

theorem marker?_of_head {c : Char} (h : startsMarker c = false) (b : Bool) (rest : List Char) :
    marker? b (c :: rest) = none := by
  simp [marker?, h]

/-- Blank lines hold no variable. -/
theorem wordsFrom_blanks {s : List Char} (hs : ∀ c ∈ s, isAsciiBlank c = true)
    (hlast : s.getLast? = some '\n') (b : Bool) (rest : List Char) :
    wordsFrom b (s ++ rest) = Piece.plain s ++ wordsFrom true rest := by
  induction s generalizing b with
  | nil => cases hlast
  | cons c s ih =>
      have hc := startsMarker_of_isAsciiBlank (hs c List.mem_cons_self)
      rw [List.cons_append, wordsFrom_char (marker?_of_head hc b _)]
      cases s with
      | nil =>
          have hbreak : c = '\n' := by simpa using hlast
          subst hbreak
          rfl
      | cons d s =>
          rw [ih (fun x hx => hs x (List.mem_cons_of_mem _ hx)) (by simpa using hlast)]
          rfl

theorem getLast?_break_blankLines (cs : List Char) :
    ('\n' :: blankLines cs).getLast? = some '\n' := by
  rw [blankLines]
  cases h : headerEnd? cs with
  | none => rfl
  | some n => simp [List.getLast?_cons, (headerEnd?_spec h).2]

/-- The blank lines that a header takes hold no variable. -/
theorem wordsFrom_blankLines (cs : List Char) :
    wordsFrom true cs = Piece.plain (blankLines cs) ++ wordsFrom true (afterBlankLines cs) := by
  cases h : headerEnd? cs with
  | none => rw [blankLines, afterBlankLines, h]; rfl
  | some n =>
      obtain ⟨hall, hlast⟩ := headerEnd?_spec h
      have hw := wordsFrom_blanks hall hlast true (cs.drop n)
      rw [List.take_append_drop] at hw
      rw [hw, blankLines, afterBlankLines, h]
      rfl

/-- A header is plain text, and the text behind its line is read as if it had been taken alone. -/
theorem wordsFrom_header {b : Bool} {m : Marker} {header rest : List Char}
    (hm : ∀ name alternatives, m ≠ .variable name alternatives)
    (h : marker? b (header ++ '\n' :: rest) =
      some ⟨m, header ++ '\n' :: blankLines rest, afterBlankLines rest⟩) :
    wordsFrom b (header ++ '\n' :: rest) =
      Piece.plain (header ++ ['\n']) ++ wordsFrom true rest := by
  have hlast : (header ++ '\n' :: blankLines rest).getLast? = some '\n' := by
    rw [List.getLast?_append, getLast?_break_blankLines]
    rfl
  rw [wordsFrom_marker h, markerWord_plain hm, hlast, wordsFrom_blankLines rest]
  simp [Piece.plain]

-- ── Layouts ──────────────────────────────────────────────────────────────────

namespace Layout

/-- The variables of a layout are read in its lines. -/
def Lettered : Layout → Prop
  | plain s => '@' ∉ s
  | block name body => IsName name ∧ '@' ∉ body
  | ifThen name _ t => IsName name ∧ t.Lettered
  | ifElse name _ t u => IsName name ∧ t.Lettered ∧ u.Lettered
  | seq a b => a.Lettered ∧ b.Lettered

theorem Readable.lettered {l : Layout} (h : l.Readable) : l.Lettered := by
  induction l with
  | plain s => exact h
  | block name body =>
      obtain ⟨hname, hat, -⟩ := h
      exact ⟨hname, hat⟩
  | ifThen name default? t iht =>
      obtain ⟨hname, -, ht⟩ := h
      exact ⟨hname, iht ht⟩
  | ifElse name default? t u iht ihu =>
      obtain ⟨hname, -, -, ht, hu⟩ := h
      exact ⟨hname, iht ht, ihu hu⟩
  | seq a b iha ihb =>
      obtain ⟨ha, hb⟩ := h
      exact ⟨iha ha, ihb hb⟩

/-- A layout with its variables in their places; all other markers are plain text. -/
def words : Layout → List (Piece (String × List String))
  | plain s => wordsFrom true s
  | block name body =>
    Piece.plain (blockLine name ++ ['\n']) ++
      (wordsFrom true body ++ Piece.plain ('\n' :: endBlockLine))
  | ifThen name default? t =>
    Piece.plain (ifLine name default? ++ ['\n']) ++
      (t.words ++ Piece.plain ('\n' :: endIfKeyword))
  | ifElse name default? t u =>
    Piece.plain (ifLine name default? ++ ['\n']) ++
      (t.words ++ (Piece.plain ('\n' :: (elseKeyword ++ ['\n'])) ++
        (u.words ++ Piece.plain ('\n' :: endIfKeyword))))
  | seq a b => a.words ++ .char '\n' :: b.words

theorem wordsFrom_endMarker {m : Marker} {source rest : List Char}
    (hm : ∀ name alternatives, m ≠ .variable name alternatives)
    (h : marker? true (source ++ rest) = some ⟨m, source, rest⟩) (hr : LineEnd rest) :
    wordsFrom true ('\n' :: (source ++ rest)) =
      Piece.plain ('\n' :: source) ++ wordsFrom true rest := by
  rw [wordsFrom_lineBreak, wordsFrom_marker h, markerWord_plain hm, wordsFrom_lineEnd _ hr]
  rfl

/-- The variables of the text of a layout, whatever comes behind its last line. -/
theorem wordsFrom_append {l : Layout} (h : l.Lettered) {rest : List Char} (hr : LineEnd rest) :
    wordsFrom true (l.print ++ rest) = l.words ++ wordsFrom true rest := by
  have hendIf : ∀ {rest}, LineEnd rest → wordsFrom true ('\n' :: (endIfKeyword ++ rest)) =
      Piece.plain ('\n' :: endIfKeyword) ++ wordsFrom true rest := fun hr =>
    wordsFrom_endMarker (fun _ _ => Marker.noConfusion) (marker?_endIf _) hr
  induction l generalizing rest with
  | plain s => exact wordsFrom_text h true hr
  | block name body =>
      obtain ⟨hname, hat⟩ := h
      have htext : (Layout.block name body).print ++ rest =
          blockLine name ++ '\n' :: (body ++ '\n' :: (endBlockLine ++ rest)) := by
        simp [print, blockText]
      have hend : wordsFrom true ('\n' :: (endBlockLine ++ rest)) =
          Piece.plain ('\n' :: endBlockLine) ++ wordsFrom true rest :=
        wordsFrom_endMarker (fun _ _ => Marker.noConfusion) (marker?_endBlockLine _) hr
      rw [htext, wordsFrom_header (fun _ _ => Marker.noConfusion)
        (marker?_blockLine true hname.nonempty hname.wordChars _),
        wordsFrom_text hat true (lineEnd_break _), hend, words]
      simp
  | ifThen name default? t iht =>
      obtain ⟨hname, ht⟩ := h
      have htext : (Layout.ifThen name default? t).print ++ rest =
          ifLine name default? ++ '\n' :: (t.print ++ '\n' :: (endIfKeyword ++ rest)) := by
        simp [print]
      rw [htext, wordsFrom_header (fun _ _ => Marker.noConfusion)
        (marker?_ifLine true hname.nonempty hname.chars default? _),
        iht ht (lineEnd_break _), hendIf hr, words]
      simp
  | ifElse name default? t u iht ihu =>
      obtain ⟨hname, ht, hu⟩ := h
      have htext : (Layout.ifElse name default? t u).print ++ rest =
          ifLine name default? ++ '\n' :: (t.print ++ '\n' :: (elseKeyword ++ '\n' ::
            (u.print ++ '\n' :: (endIfKeyword ++ rest)))) := by
        simp [print]
      rw [htext, wordsFrom_header (fun _ _ => Marker.noConfusion)
        (marker?_ifLine true hname.nonempty hname.chars default? _),
        iht ht (lineEnd_break _), wordsFrom_lineBreak,
        wordsFrom_header (fun _ _ => Marker.noConfusion) (marker?_elseLine _),
        ihu hu (lineEnd_break _), hendIf hr, words]
      simp [Piece.plain]
  | seq a b iha ihb =>
      obtain ⟨ha, hb⟩ := h
      have htext : (Layout.seq a b).print ++ rest = a.print ++ '\n' :: (b.print ++ rest) := by
        simp [print]
      rw [htext, iha ha (lineEnd_break _), wordsFrom_lineBreak, ihb hb hr, words]
      simp

theorem wordsFrom_print {l : Layout} (h : l.Lettered) : wordsFrom true l.print = l.words := by
  have hw := wordsFrom_append h lineEnd_nil
  rw [List.append_nil, wordsFrom_nil, List.append_nil] at hw
  exact hw

end Layout

end ShaderTemplates.Template
