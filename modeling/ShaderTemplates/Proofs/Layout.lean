import ShaderTemplates.Proofs.Contents

/-!
# Layouts

A layout is a template in which every marker stands on a line of its own: plain text, blocks and
conditionals, one after the other.  It says in advance which tokens the reader will find
(`Layout.tokens`), and the reader finds just these, whatever comes behind the last line of the
layout (`Layout.piecesFrom_print`).
-/

namespace ShaderTemplates.Template

open Text

/-- A template whose markers stand on lines of their own. -/
inductive Layout where
  /-- Text without markers other than variables. -/
  | plain (s : List Char)
  | block (name body : List Char)
  | ifThen (name : List Char) (default? : Option Bool) (whenTrue : Layout)
  | ifElse (name : List Char) (default? : Option Bool) (whenTrue whenFalse : Layout)
  /-- Two layouts with a line break between them. -/
  | seq (first second : Layout)

/-- A block as it is written. -/
def blockText (name body : List Char) : List Char :=
  blockLine name ++ '\n' :: (body ++ '\n' :: endBlockLine)

namespace Layout

/-- The text of a layout. -/
def print : Layout → List Char
  | plain s => s
  | block name body => blockText name body
  | ifThen name default? t =>
    ifLine name default? ++ '\n' :: (t.print ++ '\n' :: endIfKeyword)
  | ifElse name default? t u =>
    ifLine name default? ++ '\n' ::
      (t.print ++ '\n' :: (elseKeyword ++ '\n' :: (u.print ++ '\n' :: endIfKeyword)))
  | seq a b => a.print ++ '\n' :: b.print

end Layout

-- ── Well-formedness ──────────────────────────────────────────────────────────

/-- The first and the last line hold content. -/
structure Framed (cs : List Char) : Prop where
  opens : Opens cs
  closes : Closes cs

/-- A word that can be the name of a condition or of a block. -/
structure IsName (name : List Char) : Prop where
  nonempty : name ≠ []
  chars : ∀ c ∈ name, isConditionChar c = true

theorem IsName.wordChars {name : List Char} (h : IsName name) :
    ∀ c ∈ name, isWordChar c = true :=
  fun c hc => wordChar_of_conditionChar (h.chars c hc)

theorem IsName.no_break {name : List Char} (h : IsName name) : '\n' ∉ name := by
  intro hm
  exact absurd (h.chars _ hm) (by decide)

/-- The markers of a layout can be read: branches start and end with a line of content, and so does
    a body unless it is empty. -/
def Layout.Readable : Layout → Prop
  | plain s => '@' ∉ s
  | block name body => IsName name ∧ '@' ∉ body ∧ (body = [] ∨ Framed body)
  | ifThen name _ t => IsName name ∧ Framed t.print ∧ t.Readable
  | ifElse name _ t u =>
    IsName name ∧ Framed t.print ∧ Framed u.print ∧ t.Readable ∧ u.Readable
  | seq a b => a.Readable ∧ b.Readable

-- ── Tokens ───────────────────────────────────────────────────────────────────

/-- The header of a block. With an empty body it takes the empty line that stands for the body. -/
def blockToken (line : Nat) (name body : List Char) : Token :=
  ⟨.blockHeader (String.ofList name),
    blockLine name ++ (if body = [] then ['\n', '\n'] else ['\n']), line⟩

/-- The pieces between the markers of a block. -/
def bodyPieces (line : Nat) (body : List Char) : List (Piece Token) :=
  if body = [] then [] else piecesFrom (.lineAt line) body ++ [.char '\n']

def endBlockToken (line : Nat) : Token := ⟨.endBlock, endBlockLine, line⟩

def ifToken (line : Nat) (name : List Char) (default? : Option Bool) : Token :=
  ⟨.ifHeader (String.ofList name) default?, ifLine name default? ++ ['\n'], line⟩

def elseToken (line : Nat) : Token := ⟨.elseLine, elseKeyword ++ ['\n'], line⟩

def endIfToken (line : Nat) : Token := ⟨.endIf, endIfKeyword, line⟩

/-- The tokens of a layout that starts on a given line. -/
def Layout.tokens (n : Nat) : Layout → List (Piece Token)
  | plain s => piecesFrom (.lineAt n) s
  | block name body =>
    .item (blockToken n name body) ::
      (bodyPieces (n + 1) body ++ [.item (endBlockToken (n + 2 + lineBreaks body))])
  | ifThen name default? t =>
    .item (ifToken n name default?) ::
      (t.tokens (n + 1) ++ .char '\n' :: [.item (endIfToken (n + 2 + lineBreaks t.print))])
  | ifElse name default? t u =>
    .item (ifToken n name default?) ::
      (t.tokens (n + 1) ++ .char '\n' :: .item (elseToken (n + 2 + lineBreaks t.print)) ::
        (u.tokens (n + 3 + lineBreaks t.print) ++ .char '\n' ::
          [.item (endIfToken (n + 4 + lineBreaks t.print + lineBreaks u.print))]))
  | seq a b => a.tokens n ++ .char '\n' :: b.tokens (n + 1 + lineBreaks a.print)

-- ── Reading a layout ─────────────────────────────────────────────────────────

@[simp] theorem lineBreaks_cons_break (cs : List Char) :
    lineBreaks ('\n' :: cs) = lineBreaks cs + 1 := by
  simp [lineBreaks]

theorem lineBreaks_eq_zero {cs : List Char} (h : '\n' ∉ cs) : lineBreaks cs = 0 :=
  List.count_eq_zero.mpr h

theorem lineBreaks_blockLine {name : List Char} (h : IsName name) :
    lineBreaks (blockLine name) = 0 := by
  refine lineBreaks_eq_zero ?_
  simp [blockLine, leader, blockKeyword, h.no_break]

theorem lineBreaks_ifLine {name : List Char} (h : IsName name) (default? : Option Bool) :
    lineBreaks (ifLine name default?) = 0 := by
  refine lineBreaks_eq_zero ?_
  have hd : '\n' ∉ defaultText default? := by
    cases default? with
    | none => exact List.not_mem_nil
    | some value => cases value <;> decide
  simp [ifLine, ifKeyword, h.no_break, hd]

theorem lineBreaks_elseKeyword : lineBreaks elseKeyword = 0 := rfl

theorem lineBreaks_endIfKeyword : lineBreaks endIfKeyword = 0 := rfl

theorem lineBreaks_endBlockLine : lineBreaks endBlockLine = 0 := rfl

/-- Behind a marker that takes the line break reading is at the start of the next line. -/
theorem pastMarker_break (p : Position) (s : List Char) :
    p.pastMarker (s ++ ['\n']) = .lineAt (p.line + lineBreaks s + 1) := by
  simp [Position.pastMarker, Position.lineAt, lineBreaks, Nat.add_assoc]

/-- What is read behind a marker that does not take the line break. -/
theorem piecesFrom_pastMarker (p : Position) (s : List Char) {rest : List Char}
    (h : LineEnd rest) :
    piecesFrom (p.pastMarker s) rest = piecesFrom (.lineAt (p.line + lineBreaks s)) rest :=
  piecesFrom_lineEnd _ h

/-- A line break between two texts. -/
theorem piecesFrom_nextLine (n : Nat) (rest : List Char) :
    piecesFrom (.lineAt n) ('\n' :: rest) = .char '\n' :: piecesFrom (.lineAt (n + 1)) rest :=
  piecesFrom_lineBreak _ rest

theorem piecesFrom_ifLine {name : List Char} (h : IsName name) (default? : Option Bool) (n : Nat)
    {rest : List Char} (hr : Opens rest) :
    piecesFrom (.lineAt n) (ifLine name default? ++ '\n' :: rest) =
      .item (ifToken n name default?) :: piecesFrom (.lineAt (n + 1)) rest := by
  have hm := marker?_ifLine true h.nonempty h.chars default? rest
  rw [blankLines_of_opens hr, afterBlankLines_of_opens hr] at hm
  rw [piecesFrom_marker hm]
  show _ :: piecesFrom (Position.pastMarker _ (_ ++ ['\n'])) rest = _
  rw [pastMarker_break, lineBreaks_ifLine h]
  rfl

theorem piecesFrom_elseLine (n : Nat) {rest : List Char} (hr : Opens rest) :
    piecesFrom (.lineAt n) (elseKeyword ++ '\n' :: rest) =
      .item (elseToken n) :: piecesFrom (.lineAt (n + 1)) rest := by
  have hm := marker?_elseLine rest
  rw [blankLines_of_opens hr, afterBlankLines_of_opens hr] at hm
  rw [piecesFrom_marker hm]
  show _ :: piecesFrom (Position.pastMarker _ (_ ++ ['\n'])) rest = _
  rw [pastMarker_break, lineBreaks_elseKeyword]
  rfl

theorem piecesFrom_endIf (n : Nat) {rest : List Char} (hr : LineEnd rest) :
    piecesFrom (.lineAt n) (endIfKeyword ++ rest) =
      .item (endIfToken n) :: piecesFrom (.lineAt n) rest := by
  rw [piecesFrom_marker (marker?_endIf rest), piecesFrom_pastMarker _ _ hr]
  rfl

theorem piecesFrom_endBlock (n : Nat) {rest : List Char} (hr : LineEnd rest) :
    piecesFrom (.lineAt n) (endBlockLine ++ rest) =
      .item (endBlockToken n) :: piecesFrom (.lineAt n) rest := by
  rw [piecesFrom_marker (marker?_endBlockLine rest), piecesFrom_pastMarker _ _ hr]
  rfl

theorem opens_endBlockLine (rest : List Char) : Opens (endBlockLine ++ rest) :=
  ⟨[], '/', _, rfl, List.not_mem_nil, rfl⟩

/-- The header of a block and its body. -/
theorem piecesFrom_blockLine {name body : List Char} (h : IsName name) (hat : '@' ∉ body)
    (hbody : body = [] ∨ Framed body) (n : Nat) (rest : List Char) :
    piecesFrom (.lineAt n) (blockLine name ++ '\n' :: (body ++ '\n' :: (endBlockLine ++ rest))) =
      .item (blockToken n name body) ::
        (bodyPieces (n + 1) body ++
          piecesFrom (.lineAt (n + 2 + lineBreaks body)) (endBlockLine ++ rest)) := by
  have hm := marker?_blockLine true h.nonempty h.wordChars (body ++ '\n' :: (endBlockLine ++ rest))
  by_cases hnil : body = []
  · subst hnil
    have hopens := opens_endBlockLine rest
    have hend : headerEnd? ('\n' :: (endBlockLine ++ rest)) = some 1 := by
      rw [headerEnd?, headerEnd?_of_opens hopens]
      rfl
    have hblank : blankLines ([] ++ '\n' :: (endBlockLine ++ rest)) = ['\n'] := by
      rw [List.nil_append, blankLines, hend]
      rfl
    have hafter : afterBlankLines ([] ++ '\n' :: (endBlockLine ++ rest)) = endBlockLine ++ rest := by
      rw [List.nil_append, afterBlankLines, hend]
      rfl
    rw [hblank, hafter] at hm
    have hpast : (Position.lineAt n).pastMarker (blockLine name ++ ['\n', '\n']) =
        .lineAt (n + 2) := by
      have hp := pastMarker_break (.lineAt n) (blockLine name ++ ['\n'])
      rw [List.append_assoc, lineBreaks_append, lineBreaks_blockLine h] at hp
      exact hp
    rw [piecesFrom_marker hm]
    show _ :: piecesFrom (Position.pastMarker _ (blockLine name ++ ['\n', '\n'])) _ = _
    rw [hpast]
    rfl
  · have hframed : Framed body := hbody.resolve_left hnil
    have hopens : Opens (body ++ '\n' :: (endBlockLine ++ rest)) := hframed.opens.append _
    rw [blankLines_of_opens hopens, afterBlankLines_of_opens hopens] at hm
    rw [piecesFrom_marker hm]
    show _ :: piecesFrom (Position.pastMarker _ (blockLine name ++ ['\n'])) _ = _
    rw [pastMarker_break, lineBreaks_blockLine h, piecesFrom_text hat (lineEnd_break _),
      piecesFrom_nextLine, blockToken, bodyPieces, if_neg hnil, if_neg hnil]
    have hline : n + 1 + lineBreaks body + 1 = n + 2 + lineBreaks body := by omega
    simp [hline]

/-- The reader finds the tokens of a layout, whatever comes behind its last line. -/
theorem Layout.piecesFrom_print {l : Layout} (h : l.Readable) (n : Nat) {rest : List Char}
    (hr : LineEnd rest) :
    piecesFrom (.lineAt n) (l.print ++ rest) =
      l.tokens n ++ piecesFrom (.lineAt (n + lineBreaks l.print)) rest := by
  induction l generalizing n rest with
  | plain s => exact piecesFrom_text h hr _
  | block name body =>
      obtain ⟨hname, hat, hbody⟩ := h
      have htext : (Layout.block name body).print ++ rest =
          blockLine name ++ '\n' :: (body ++ '\n' :: (endBlockLine ++ rest)) := by
        simp [print, blockText]
      have hcount : lineBreaks (Layout.block name body).print = 2 + lineBreaks body := by
        simp [print, blockText, lineBreaks_blockLine hname, lineBreaks_endBlockLine]
        omega
      rw [htext, hcount, piecesFrom_blockLine hname hat hbody, piecesFrom_endBlock _ hr, tokens]
      simp [← Nat.add_assoc]
  | ifThen name default? t iht =>
      obtain ⟨hname, hframed, ht⟩ := h
      have htext : (Layout.ifThen name default? t).print ++ rest =
          ifLine name default? ++ '\n' :: (t.print ++ '\n' :: (endIfKeyword ++ rest)) := by
        simp [print]
      have hcount : lineBreaks (Layout.ifThen name default? t).print = 2 + lineBreaks t.print := by
        simp [print, lineBreaks_ifLine hname, lineBreaks_endIfKeyword]
        omega
      rw [htext, hcount, piecesFrom_ifLine hname default? n (hframed.opens.append _),
        iht ht _ (lineEnd_break _), piecesFrom_nextLine, piecesFrom_endIf _ hr, tokens]
      have hline : n + 1 + lineBreaks t.print + 1 = n + 2 + lineBreaks t.print := by omega
      simp [hline, ← Nat.add_assoc]
  | ifElse name default? t u iht ihu =>
      obtain ⟨hname, hframedT, hframedU, ht, hu⟩ := h
      have htext : (Layout.ifElse name default? t u).print ++ rest =
          ifLine name default? ++ '\n' :: (t.print ++ '\n' :: (elseKeyword ++ '\n' ::
            (u.print ++ '\n' :: (endIfKeyword ++ rest)))) := by
        simp [print]
      have hcount : lineBreaks (Layout.ifElse name default? t u).print =
          4 + lineBreaks t.print + lineBreaks u.print := by
        simp [print, lineBreaks_ifLine hname, lineBreaks_endIfKeyword, lineBreaks_elseKeyword]
        omega
      rw [htext, hcount, piecesFrom_ifLine hname default? n (hframedT.opens.append _),
        iht ht _ (lineEnd_break _), piecesFrom_nextLine,
        piecesFrom_elseLine _ (hframedU.opens.append _), ihu hu _ (lineEnd_break _),
        piecesFrom_nextLine, piecesFrom_endIf _ hr, tokens]
      have hline : n + 1 + lineBreaks t.print + 1 = n + 2 + lineBreaks t.print := by omega
      have hline' : n + 2 + lineBreaks t.print + 1 = n + 3 + lineBreaks t.print := by omega
      have hline'' : n + 3 + lineBreaks t.print + lineBreaks u.print + 1 =
          n + 4 + lineBreaks t.print + lineBreaks u.print := by omega
      simp [hline, hline', hline'', ← Nat.add_assoc]
  | seq a b iha ihb =>
      obtain ⟨ha, hb⟩ := h
      have htext : (Layout.seq a b).print ++ rest = a.print ++ '\n' :: (b.print ++ rest) := by
        simp [print]
      have hcount : lineBreaks (Layout.seq a b).print =
          1 + lineBreaks a.print + lineBreaks b.print := by
        simp [print]
        omega
      rw [htext, hcount, iha ha _ (lineEnd_break _), piecesFrom_nextLine, ihb hb _ hr, tokens]
      have hline : n + lineBreaks a.print + 1 = n + 1 + lineBreaks a.print := by omega
      simp [hline, ← Nat.add_assoc]

/-- The tokens of a layout as a whole text. -/
theorem Layout.tokenize_print {l : Layout} (h : l.Readable) : tokenize l.print = l.tokens 1 := by
  have hp := l.piecesFrom_print h 1 lineEnd_nil
  rw [List.append_nil, piecesFrom_nil, List.append_nil] at hp
  rw [tokenize_eq_piecesFrom, hp]

/-- The tokens of a layout stand for its text. -/
theorem Layout.tokenSource_tokens {l : Layout} (h : l.Readable) (n : Nat) :
    tokenSource (l.tokens n) = l.print := by
  have hp := congrArg tokenSource (l.piecesFrom_print h n lineEnd_nil)
  rw [List.append_nil, piecesFrom_nil, List.append_nil, tokenSource_piecesFrom] at hp
  exact hp.symm

end ShaderTemplates.Template
