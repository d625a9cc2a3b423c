import ShaderTemplates.Proofs.BranchTexts
import ShaderTemplates.Proofs.Canonical
import ShaderTemplates.Proofs.CarriageReturns
import ShaderTemplates.Proofs.Tables
import Mathlib.Data.List.DropRight

/-!
# Bodies that are read back

A body that is printed in its block and read again need not be the same body: blank lines around it
are lost, an `@endblock` line in it ends the block, and another header of the same name gives the
block another body.  What is read back is stable all the same (`readBack_settles`).  The reason is
that every body that is read from a text can be printed and read again (`readBack?_of_mem_blocks`):
its region holds no end marker, and does not start with a blank line.

A body without at signs that has something on its first and its last line is read back as it is.
-/

namespace ShaderTemplates.Template

open Text

-- ── Contents of contents ─────────────────────────────────────────────────────

theorem trimEnd_trimEnd (cs : List Char) : trimEnd (trimEnd cs) = trimEnd cs := by
  rw [trimEnd, trimEnd, List.reverse_reverse, List.dropWhile_idempotent]

/-- A content is the content of its own line. -/
theorem content_content {region : List Char} (hreturn : '\r' ∉ region) :
    content (content region ++ ['\n']) = content region := by
  have hprefix := keptBlanks_prefix (region.drop (trimEnd region).length)
  have hbreak := lineBreak_not_mem_keptBlanks (region.drop (trimEnd region).length)
  have hregion : content region =
      trimEnd region ++ keptBlanks (region.drop (trimEnd region).length) := rfl
  rw [hregion]
  generalize keptBlanks (region.drop (trimEnd region).length) = kept at hprefix hbreak
  have hdrop : ∀ x ∈ kept, x ∈ region.drop (trimEnd region).length := fun x hx => hprefix.mem hx
  have hblank : ∀ x ∈ kept ++ ['\n'], isBlank x = true := by
    intro x hx
    rcases List.mem_append.mp hx with hx | hx
    · exact blank_of_mem_drop region (hdrop x hx)
    · rw [List.mem_singleton.mp hx]
      rfl
  have hline : ∀ x ∈ kept, x ≠ '\n' ∧ x ≠ '\r' := by
    refine fun x hx => ⟨?_, ?_⟩
    · rintro rfl
      exact hbreak hx
    · rintro rfl
      exact hreturn (List.mem_of_mem_drop (hdrop _ hx))
  rw [content, List.append_assoc, trimEnd_append_blanks _ hblank, trimEnd_trimEnd,
    List.drop_left, keptBlanks_line hline]

-- ── Texts in front of an end line ────────────────────────────────────────────

theorem piecesFrom_endBlockLine {q : Position} (hq : q.lineStart = true) :
    piecesFrom q endBlockLine = [.item ⟨.endBlock, endBlockLine, q.line⟩] := by
  have hm : marker? q.lineStart endBlockLine = some ⟨.endBlock, endBlockLine, []⟩ :=
    hq ▸ marker?_endBlockLine []
  rw [piecesFrom_marker hm]
  rfl

/-- The pieces are those of a text with an end line behind it.  All markers of the text are as the
    predicate says. -/
def EndsWithLine (P : Marker → Prop) (ps : List (Piece Token)) : Prop :=
  ∃ before stop, ps = before ++ [.item stop] ∧ stop.marker = .endBlock ∧
    stop.source = endBlockLine ∧ ∀ t, .item t ∈ before → P t.marker

theorem EndsWithLine.cons {P : Marker → Prop} {ps : List (Piece Token)} (h : EndsWithLine P ps)
    {p : Piece Token} (hp : ∀ t, p = .item t → P t.marker) : EndsWithLine P (p :: ps) := by
  obtain ⟨before, stop, rfl, hstop, hsource, hbefore⟩ := h
  refine ⟨p :: before, stop, rfl, hstop, hsource, ?_⟩
  intro t ht
  rcases List.mem_cons.mp ht with ht | ht
  · exact hp t ht.symm
  · exact hbefore t ht

theorem endsWithLine_endBlockLine (P : Marker → Prop) {q : Position} (hq : q.lineStart = true) :
    EndsWithLine P (piecesFrom q endBlockLine) :=
  ⟨[], _, piecesFrom_endBlockLine hq, rfl, rfl, fun _ ht => absurd ht List.not_mem_nil⟩

/-- A marker that leaves the end line only is followed by the start of a line. -/
theorem lineStart_before_endLine {b : Bool} {c s : List Char} {m : Marker}
    (h : marker? b (c ++ '\n' :: endBlockLine) = some ⟨m, s, endBlockLine⟩) (q : Position) :
    (q.pastMarker s).lineStart = true := by
  have happ : s ++ endBlockLine = c ++ '\n' :: endBlockLine := marker?_append h
  have hsource : s = c ++ ['\n'] := by
    refine (List.append_left_inj endBlockLine).mp ?_
    rw [happ, List.append_assoc, List.singleton_append]
  rw [Position.pastMarker, hsource, List.getLast?_append]
  rfl

/-- With an end line behind it a text has the markers that it has with another line end behind it.
    None of them takes the end line. -/
theorem endsWithLine_of_pieces {P : Marker → Prop} {p q : Position} {c tail after : List Char}
    {ps qs : List (Piece Token)} (ht : Breaks tail after) (hpq : p.lineStart = q.lineStart)
    (h : piecesFrom p (c ++ tail) = ps ++ qs) (hps : c <+: tokenSource ps)
    (hP : ∀ t, .item t ∈ ps → P t.marker) :
    EndsWithLine P (piecesFrom q (c ++ '\n' :: endBlockLine)) := by
  induction hn : c.length using Nat.strongRecOn generalizing p q c ps with
  | ind n ih =>
      cases c with
      | nil =>
          rw [List.nil_append, piecesFrom_lineBreak]
          exact (endsWithLine_endBlockLine P rfl).cons fun t ht => nomatch ht
      | cons x c =>
          have hne : ps ≠ [] := by
            rintro rfl
            cases List.prefix_nil.mp hps
          obtain ⟨a, ps, rfl⟩ := List.exists_cons_of_ne_nil hne
          have hP' : ∀ t, .item t ∈ ps → P t.marker := fun t ht =>
            hP t (List.mem_cons_of_mem _ ht)
          obtain ⟨h1, h2⟩ | ⟨m, s, z, hz, h1, h2⟩ | ⟨m, s, s', h1, h2⟩ :=
            marker?_both ht (breaks_plain endBlockLine) p.lineStart (x :: c)
          · rw [List.cons_append] at h h1 h2 ⊢
            rw [piecesFrom_char h1] at h
            obtain ⟨rfl, hrest⟩ := List.cons.inj h
            rw [piecesFrom_char (hpq ▸ h2)]
            exact (ih c.length (by simp at hn; omega) (pastChar_lineStart hpq x) hrest
              (List.cons_prefix_cons.mp hps).2 hP' rfl).cons fun t ht => nomatch ht
          · rw [piecesFrom_marker h1] at h
            obtain ⟨rfl, hrest⟩ := List.cons.inj h
            rw [piecesFrom_marker (hpq ▸ h2)]
            have hsource : z <+: tokenSource ps := by
              rw [hz] at hps
              exact (List.prefix_append_right_inj s).mp hps
            have hshort : z.length < n := by
              have hpos := List.length_pos_iff.mpr (marker?_source_ne_nil h1)
              have := congrArg List.length hz
              simp only [List.length_append] at this hpos
              omega
            have hmarker : P m := hP _ List.mem_cons_self
            exact (ih z.length hshort (p := p.pastMarker s) (q := q.pastMarker s) rfl hrest hsource
              hP' rfl).cons fun t ht => by cases ht; exact hmarker
          · -- the header takes the line break and nothing of the end line
            rw [piecesFrom_marker h1] at h
            obtain ⟨rfl, -⟩ := List.cons.inj h
            rw [piecesFrom_marker (hpq ▸ h2)]
            have hmarker : P m := hP _ List.mem_cons_self
            exact (endsWithLine_endBlockLine P (lineStart_before_endLine h2 q)).cons fun t ht => by
              cases ht
              exact hmarker

-- ── Reading back ─────────────────────────────────────────────────────────────

/-- The body that is reported for a name after a body was printed in a block of that name. -/
def readBack? (name body : String) : Option String :=
  (scan (String.ofList (Block.canonical name.toList body.toList))).blocks.get? name

/-- Blanks that are no header's end in front of one end of a line are none in front of another. -/
theorem headerEnd?_of_breaks {tail after body : List Char} (ht : Breaks tail after)
    (h : headerEnd? (body ++ tail) = none) : headerEnd? (body ++ ['\n']) = none := by
  obtain ⟨-, h'⟩ | ⟨n, _, h', -⟩ | ⟨n, _, h', -⟩ := ht.headerEnd body
  · exact h'
  · rw [h] at h'
    cases h'
  · rw [h] at h'
    cases h'

/-- The blank lines that a header takes end before the end line. -/
theorem afterBlankLines_before_end (body : List Char) :
    afterBlankLines (body ++ '\n' :: endBlockLine) =
      afterBlankLines (body ++ ['\n']) ++ endBlockLine := by
  have htext : body ++ '\n' :: endBlockLine = body ++ ['\n'] ++ endBlockLine := by simp
  rw [htext]
  exact afterBlankLines_stop rfl _ _

/-- A header takes nothing of a text that starts with no blank line. -/
theorem afterBlankLines_of_none {body : List Char} (h : headerEnd? (body ++ ['\n']) = none) :
    afterBlankLines (body ++ '\n' :: endBlockLine) = body ++ ['\n'] ++ endBlockLine := by
  rw [afterBlankLines_before_end, afterBlankLines, h]
  rfl

theorem EndsWithLine.split {P : Marker → Prop} {ps : List (Piece Token)} (h : EndsWithLine P ps) :
    ∃ found, splitEndBlock ps = some found := by
  obtain ⟨before, stop, rfl, hstop, -⟩ := h
  induction before with
  | nil => exact ⟨_, splitEndBlock_found (fun _ ht => absurd ht List.not_mem_nil) hstop []⟩
  | cons p before ih =>
      obtain ⟨found, hfound⟩ := ih
      rw [List.cons_append]
      cases p with
      | char c => exact ⟨_, by rw [splitEndBlock, hfound]; rfl⟩
      | item t =>
          rw [splitEndBlock]
          split
          · exact ⟨_, rfl⟩
          · exact ⟨_, by rw [hfound]; rfl⟩

/-- The text behind the header of a printed block ends with the end line. -/
theorem endsWithLine_afterBlankLines (body : List Char) {q : Position} (hq : q.lineStart = true) :
    EndsWithLine (fun _ => True) (piecesFrom q (afterBlankLines (body ++ '\n' :: endBlockLine))) := by
  rw [afterBlankLines_before_end]
  have happ := blankLines_append (body ++ ['\n'])
  obtain hnil | ⟨c, last, hlast⟩ := List.eq_nil_or_concat (afterBlankLines (body ++ ['\n']))
  · rw [hnil]
    exact endsWithLine_endBlockLine _ hq
  · rw [List.concat_eq_append] at hlast
    rw [hlast, ← List.append_assoc] at happ
    have hbreak : last = '\n' := by simpa using (List.append_inj_right' happ rfl)
    rw [hlast, hbreak, List.append_assoc, List.singleton_append]
    exact endsWithLine_of_pieces (breaks_plain endBlockLine) rfl (List.append_nil _).symm
      (by rw [tokenSource_piecesFrom]; exact List.prefix_append _ _) fun _ _ => trivial

section ReadBack

variable {name : String} (hne : name ≠ "")
  (hname : ∀ c ∈ name.toList, isAsciiBlank c = false)
include hne hname

/-- The pieces of a printed block are its header, which takes the blank lines behind it, and those of
    the text from there on. -/
theorem tokenize_canonical (body : List Char) :
    ∃ (header : Token) (q : Position), header.marker = .blockHeader name ∧ q.lineStart = true ∧
      tokenize (Block.canonical name.toList body) =
        .item header :: piecesFrom q (afterBlankLines (body ++ '\n' :: endBlockLine)) := by
  have hchars : name.toList ≠ [] := fun h => hne (String.toList_eq_nil_iff.mp h)
  have hwords : ∀ c ∈ name.toList, isWordChar c = true := fun c hc => by
    rw [isWordChar, hname c hc]
    rfl
  have hm := marker?_blockLine true hchars hwords (body ++ '\n' :: endBlockLine)
  rw [String.ofList_toList] at hm
  have htext : Block.canonical name.toList body =
      blockLine name.toList ++ '\n' :: (body ++ '\n' :: endBlockLine) := by
    rw [canonical_eq_blockText, blockText]
  rw [tokenize_eq_piecesFrom, htext, piecesFrom_marker hm]
  exact ⟨_, _, rfl, lineStart_pastHeader (show Marker.EndsLine (.blockHeader name) from trivial) hm,
    rfl⟩

/-- The whole text behind the header is the region, if its only end marker is its end line. -/
theorem readBack?_of_region {body region : List Char}
    (hregion : afterBlankLines (body ++ '\n' :: endBlockLine) = region ++ endBlockLine)
    (hread : ∀ q : Position, q.lineStart = true →
      EndsWithLine (· ≠ .endBlock) (piecesFrom q (region ++ endBlockLine))) :
    readBack? name (String.ofList body) = some (String.ofList (content region)) := by
  obtain ⟨header, q, hheader, hq, hpieces⟩ := tokenize_canonical hne hname body
  obtain ⟨before, stop, hsplit, hstop, hsource, hbefore⟩ := hread q hq
  have hbody : tokenSource before = region := by
    have htext := congrArg tokenSource hsplit
    rw [tokenSource_piecesFrom, tokenSource_append, tokenSource_item, hsource, tokenSource_nil,
      List.append_nil] at htext
    exact (List.append_cancel_right htext).symm
  have hblocks : blockPieces (Block.canonical name.toList body) =
      [.item ⟨name, header.line, content region, header.source ++ (region ++ endBlockLine)⟩] := by
    rw [blockPieces, hpieces, hregion, hsplit,
      gatherBlocks_closed hheader (splitEndBlock_found hbefore hstop []), hbody, hsource,
      gatherBlocks]
  rw [readBack?, scan, String.toList_ofList, String.toList_ofList, inventory, blocks, hblocks]
  show List.lookup name [(name, String.ofList (content region))] = _
  rw [List.lookup_cons, beq_self_eq_true]

theorem readBack?_empty : readBack? name "" = some "" :=
  readBack?_of_region hne hname (show afterBlankLines _ = [] ++ endBlockLine from rfl)
    fun _ hq => endsWithLine_endBlockLine _ hq

/-- Every body that is read from a text without carriage returns can be printed and read again. -/
theorem readBack?_of_mem_blocks {cs : List Char} (hreturn : '\r' ∉ cs) {b : Block}
    (hb : b ∈ blocks cs) :
    readBack? name (String.ofList b.body) = some (String.ofList b.body) := by
  obtain ⟨s, hs, rfl⟩ : ∃ s : BlockSite, s.Among (tokenize cs) ∧ s.block = b :=
    mem_gatherBlocks (Piece.item_of_mem_items hb)
  rw [tokenize_eq_piecesFrom] at hs
  obtain ⟨p, hp, hinside, hopen⟩ := hs.read_inside
  obtain ⟨hblank, -⟩ := hs.read_after
  have hreturn' : '\r' ∉ tokenSource s.region := by
    intro hm
    have htext := congrArg tokenSource hs.pieces
    rw [tokenSource_piecesFrom] at htext
    rw [htext, BlockSite.inside] at hreturn
    simp [hm] at hreturn
  show readBack? name (String.ofList (content (tokenSource s.region))) =
    some (String.ofList (content (tokenSource s.region)))
  have htext : tokenSource s.inside =
      tokenSource s.region ++ (s.stop.source ++ tokenSource s.after) := by
    rw [BlockSite.inside, tokenSource_append, tokenSource_item]
  obtain ⟨hnil, -⟩ | ⟨tail, after, hregion, ht, -⟩ := content_append_blanks hblank
  · rw [hnil]
    exact readBack?_empty hne hname
  · have hclosed := content_content hreturn'
    generalize content (tokenSource s.region) = body at hregion hclosed ⊢
    have ht' := ht.append (s.stop.source ++ tokenSource s.after)
    rw [htext, hregion, List.append_assoc] at hopen hinside
    have hopen' := afterBlankLines_of_none (headerEnd?_of_breaks ht' hopen)
    have hread := readBack?_of_region hne hname hopen' fun q hq => by
      rw [List.append_assoc]
      exact endsWithLine_of_pieces ht' (hp.trans hq.symm) hinside.symm
        ⟨tail, hregion.symm⟩ hs.region
    rwa [hclosed] at hread

/-- A text without at signs is read back as it is, if its first and its last line have something on
    them. -/
theorem readBack?_of_framed {body : List Char} (hat : '@' ∉ body) (h : Framed body) :
    readBack? name (String.ofList body) = some (String.ofList body) := by
  have hopen := afterBlankLines_of_none (headerEnd?_of_opens (h.opens.append ['\n']))
  have hread := readBack?_of_region hne hname hopen fun q hq => by
    rw [List.append_assoc]
    refine endsWithLine_of_pieces (breaks_plain endBlockLine) rfl
      (piecesFrom_text hat (lineEnd_break _) q) ?_ ?_
    · exact (tokenSource_piecesFrom _ _).symm ▸ List.prefix_rfl
    · intro t ht
      obtain ⟨_, _, hm⟩ := variable_of_mem_text hat ht
      rw [hm]
      exact Marker.noConfusion
  rwa [content_of_closes h.closes] at hread

/-- Some body is read back for each body that was printed. -/
theorem exists_readBack? (body : String) :
    ∃ b ∈ blocks (Block.canonical name.toList body.toList),
      readBack? name body = some (String.ofList b.body) := by
  obtain ⟨header, q, hheader, hq, hpieces⟩ := tokenize_canonical hne hname body.toList
  obtain ⟨⟨region, stop, after⟩, hsplit⟩ := (endsWithLine_afterBlankLines body.toList hq).split
  -- the block that the header opens has the name, and of the blocks of that name the last counts
  have hlisted : name ∈
      ((blocks (Block.canonical name.toList body.toList)).map fun b =>
        (b.name, String.ofList b.body)).map (·.1) := by
    rw [blocks, blockPieces, hpieces, gatherBlocks_closed hheader hsplit]
    exact List.mem_cons_self
  rw [← List.mem_eraseDups, ← Directives.names_ofListLast] at hlisted
  obtain ⟨e, he, hname⟩ := List.mem_map.mp hlisted
  obtain ⟨b, hb, heq⟩ := List.mem_map.mp (Directives.mem_ofListLast he)
  refine ⟨b, hb, ?_⟩
  have hlookup := SortedMap.lookup_of_mem (Directives.nodup _) he
  rw [hname] at hlookup
  rw [readBack?, scan, String.toList_ofList]
  exact hlookup.trans (congrArg (fun e => some e.2) heq.symm)

/-- Reading a printed body back gives a body that is read back as it is.  It is the body itself if
    there is no at sign in it and it is empty or has something on its first and its last line. -/
theorem readBack_settles (body : String) (hreturn : '\r' ∉ body.toList) :
    ∃ r, readBack? name body = some r ∧ readBack? name r = some r ∧
      ('@' ∉ body.toList →
        body = "" ∨ Visible (firstLine body.toList) ∧ Visible (lastLine body.toList) → r = body) := by
  obtain ⟨b, hb, hread⟩ := exists_readBack? hne hname body
  have hreturn' : '\r' ∉ Block.canonical name.toList body.toList := by
    have hname' : '\r' ∉ name.toList := by
      intro hm
      cases hname '\r' hm
    rw [canonical_eq_blockText]
    exact no_return_blockText hname' hreturn
  refine ⟨_, hread, readBack?_of_mem_blocks hne hname hreturn' hb, ?_⟩
  intro hat hvisible
  refine Option.some.inj (hread.symm.trans ?_)
  obtain rfl | ⟨hfirst, hlast⟩ := hvisible
  · exact readBack?_empty hne hname
  · have hframed := readBack?_of_framed hne hname hat (framed_of_visible hfirst hlast hreturn)
    rwa [String.ofList_toList] at hframed

end ReadBack

/-- A body that ends its block and opens another one of the same name. -/
def reopenedBody : String := "\n\tx\n// @endblock\n@block B\n\n y <n> \n\n"

/-- A body that starts and ends with a line of content. -/
def plainBody : String := "x <\n\n y\t"

theorem readBack_settles_sample :
    readBack? "B" reopenedBody = some " y <n> " ∧ readBack? "B" " y <n> " = some " y <n> " ∧
      readBack? "B" plainBody = some plainBody := by
  have hread : readBack? "B" reopenedBody = some " y <n> " := by decide +kernel
  have hname : ∀ c ∈ "B".toList, isAsciiBlank c = false := by
    intro c hc
    obtain rfl : c = 'B' := by simpa using hc
    rfl
  obtain ⟨r, hr, hagain, -⟩ :=
    readBack_settles (show "B" ≠ "" by decide) hname reopenedBody (by decide +kernel)
  obtain rfl : r = " y <n> " := Option.some.inj (hr.symm.trans hread)
  obtain ⟨s, hs, -, hplain⟩ :=
    readBack_settles (show "B" ≠ "" by decide) hname plainBody (by decide +kernel)
  have hvisible : Visible (firstLine plainBody.toList) ∧ Visible (lastLine plainBody.toList) :=
    ⟨⟨'x', by decide +kernel, by decide⟩, ⟨'y', by decide +kernel, by decide⟩⟩
  obtain rfl : s = plainBody := hplain (by decide +kernel) (.inr hvisible)
  exact ⟨hread, hagain, hs⟩

end ShaderTemplates.Template
