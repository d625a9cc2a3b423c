import ShaderTemplates.Proofs.BlockSites
import ShaderTemplates.Proofs.Contents
import ShaderTemplates.Proofs.LineWords

/-!
# Where blocks stand

The markers of a block are read where they stand (`BlockSite.Among.read_inside`,
`BlockSite.Among.read_after`).  Its body starts behind a line break, because its header ends with
one, and only blanks stand between its last line break and its end marker (`mem_blocks_region`).  So
the body is made of whole lines, and the variables in it are variables of the text
(`lineItems_body_subset`).
-/

namespace ShaderTemplates.Template

open Text

-- ── The start of a line ──────────────────────────────────────────────────────

/-- Only blanks stand on the last line of a text, which begins at the start of a line if
    `lineStart` says so. -/
def BlankEnd (lineStart : Prop) (s : List Char) : Prop :=
  (lineStart ∧ ∀ c ∈ s, isInlineBlank c = true) ∨
    ∃ a i, s = a ++ '\n' :: i ∧ ∀ c ∈ i, isInlineBlank c = true

theorem BlankEnd.prepend {P Q : Prop} {s : List Char} (before : List Char) (h : BlankEnd P s)
    (hstart : P → (∀ c ∈ s, isInlineBlank c = true) → BlankEnd Q (before ++ s)) :
    BlankEnd Q (before ++ s) := by
  obtain ⟨hp, hs⟩ | ⟨a, i, rfl, hi⟩ := h
  · exact hstart hp hs
  · exact .inr ⟨before ++ a, i, by simp, hi⟩

/-- A token is read where it stands, and the rest of the text from where the token leaves off. At the
    start of a line there are only blanks before it on its line. -/
theorem piecesFrom_item {p : Position} {cs : List Char} {ps qs : List (Piece Token)} {t : Token}
    (h : piecesFrom p cs = ps ++ .item t :: qs) :
    ∃ q : Position,
      marker? q.lineStart (t.source ++ tokenSource qs) =
        some ⟨t.marker, t.source, tokenSource qs⟩ ∧
      qs = piecesFrom (q.pastMarker t.source) (tokenSource qs) ∧
      (q.lineStart = true → BlankEnd (p.lineStart = true) (tokenSource ps)) := by
  induction ps generalizing p cs with
  | nil =>
      cases hm : marker? p.lineStart cs with
      | none =>
          cases cs with
          | nil => cases h
          | cons c rest =>
              rw [piecesFrom_char hm] at h
              cases h
      | some f =>
          have happ := marker?_append hm
          rw [piecesFrom_marker hm] at h
          cases h
          refine ⟨p, ?_, by rw [tokenSource_piecesFrom], fun hstart => ?_⟩
          · rw [tokenSource_piecesFrom, happ, hm]
          · exact .inl ⟨hstart, fun c hc => absurd hc List.not_mem_nil⟩
  | cons x ps ih =>
      cases hm : marker? p.lineStart cs with
      | none =>
          cases cs with
          | nil => cases h
          | cons c rest =>
              rw [piecesFrom_char hm, List.cons_append] at h
              obtain ⟨rfl, hrest⟩ := List.cons.inj h
              obtain ⟨q, hq, hqs, hblank⟩ := ih hrest
              refine ⟨q, hq, hqs, fun hend => ?_⟩
              refine (hblank hend).prepend [c] fun hstart hs => ?_
              -- the reader is at the start of a line behind `c`, so `c` is a blank
              by_cases hbreak : c = '\n'
              · subst hbreak
                exact .inr ⟨[], _, rfl, hs⟩
              · rw [Position.pastChar, if_neg hbreak] at hstart
                split at hstart
                · next hc =>
                    refine .inl ⟨hstart, fun d hd => ?_⟩
                    rcases List.mem_cons.mp hd with rfl | hd
                    · exact hc
                    · exact hs d hd
                · cases hstart
      | some f =>
          rw [piecesFrom_marker hm, List.cons_append] at h
          obtain ⟨rfl, hrest⟩ := List.cons.inj h
          obtain ⟨q, hq, hqs, hblank⟩ := ih hrest
          refine ⟨q, hq, hqs, fun hend => ?_⟩
          refine (hblank hend).prepend f.source fun hstart hs => ?_
          have hlast : f.source.getLast? = some '\n' := by simpa [Position.pastMarker] using hstart
          obtain ⟨a, ha⟩ := List.getLast?_eq_some_iff.mp hlast
          exact .inr ⟨a, _, by rw [ha]; simp, hs⟩

-- ── Sites as they are read ───────────────────────────────────────────────────

namespace BlockSite

variable {s : BlockSite} {p : Position} {cs : List Char}

/-- The header is read where it stands, and takes the blank lines behind it. -/
theorem Among.read_header (h : s.Among (piecesFrom p cs)) :
    ∃ q : Position,
      marker? q.lineStart (s.header.source ++ tokenSource s.inside) =
        some ⟨.blockHeader s.name, s.header.source, tokenSource s.inside⟩ ∧
      s.inside = piecesFrom (q.pastMarker s.header.source) (tokenSource s.inside) := by
  obtain ⟨q, hm, hinside, -⟩ := piecesFrom_item h.pieces
  exact ⟨q, h.header ▸ hm, hinside⟩

/-- The region starts at the start of a line, and not with a blank one. -/
theorem Among.read_inside (h : s.Among (piecesFrom p cs)) :
    ∃ q : Position, q.lineStart = true ∧ s.inside = piecesFrom q (tokenSource s.inside) ∧
      headerEnd? (tokenSource s.inside) = none := by
  obtain ⟨q, hm, hinside⟩ := h.read_header
  have hlast : s.header.source.getLast? = some '\n' := marker?_explained hm
  refine ⟨_, by rw [Position.pastMarker, hlast]; rfl, hinside, ?_⟩
  obtain ⟨_, _, more, -, -, hends⟩ := blockHeader?_eq_some (matcher_of_marker? hm)
  obtain ⟨n, hn, hf⟩ := Option.map_eq_some_iff.mp hends
  injection hf with hmarker hsource hrest
  exact hrest ▸ headerEnd?_drop hn

/-- The region ends before the blanks of a line, and behind the end marker reading is not at the start
    of a line. -/
theorem Among.read_after (h : s.Among (piecesFrom p cs)) :
    BlankEnd True (tokenSource s.region) ∧
      ∃ q : Position, q.lineStart = false ∧ s.after = piecesFrom q (tokenSource s.after) := by
  obtain ⟨q, hq, hinside, -⟩ := h.read_inside
  obtain ⟨r, hm, hafter, hblank⟩ := piecesFrom_item hinside.symm
  rw [h.stop] at hm
  have hstart : r.lineStart = true := marker?_explained hm
  refine ⟨?_, _, ?_, hafter⟩
  · obtain ⟨-, hs⟩ | hs := hblank hstart
    · exact .inl ⟨trivial, hs⟩
    · exact .inr hs
  · obtain ⟨_, -, hf⟩ := Option.map_eq_some_iff.mp (matcher_of_marker? hm)
    injection hf with hmarker hsource hrest
    rw [Position.pastMarker, ← hsource, List.getLast?_append]
    rfl

end BlockSite

-- ── Regions of blocks ────────────────────────────────────────────────────────

/-- A region of a text that starts behind a line break and ends before blanks of a line. -/
structure LineRegion (cs region : List Char) : Prop where
  place : ∃ before after, cs = before ++ '\n' :: (region ++ after)
  blankEnd : BlankEnd True region

/-- Every block that is gathered from a text has a region of whole lines as its body. -/
theorem mem_gatherBlocks_region {b : Block} {p : Position} {cs : List Char}
    (h : .item b ∈ gatherBlocks (piecesFrom p cs)) :
    ∃ region, b.body = content region ∧ LineRegion cs region := by
  obtain ⟨s, hs, rfl⟩ := mem_gatherBlocks h
  obtain ⟨q, hm, -⟩ := hs.read_header
  have hlast : s.header.source.getLast? = some '\n' := marker?_explained hm
  obtain ⟨header, hsource⟩ := List.getLast?_eq_some_iff.mp hlast
  have htext := congrArg tokenSource hs.pieces
  rw [tokenSource_piecesFrom, tokenSource_append, tokenSource_item, hsource, BlockSite.inside,
    tokenSource_append, tokenSource_item] at htext
  exact ⟨tokenSource s.region, rfl,
    ⟨tokenSource s.before ++ header, s.stop.source ++ tokenSource s.after, by rw [htext]; simp⟩,
    hs.read_after.1⟩

/-- The body of a block is the content of a region of whole lines. -/
theorem mem_blocks_region {b : Block} {cs : List Char} (h : b ∈ blocks cs) :
    ∃ region, b.body = content region ∧ LineRegion cs region := by
  have hb := Piece.item_of_mem_items h
  rw [blockPieces, tokenize_eq_piecesFrom] at hb
  exact mem_gatherBlocks_region hb

-- ── Bodies of whole lines ────────────────────────────────────────────────────

theorem trimEnd_append_blanks (a : List Char) {b : List Char} (hb : ∀ c ∈ b, isBlank c = true) :
    trimEnd (a ++ b) = trimEnd a := by
  have hb' : ∀ c ∈ b.reverse, isBlank c = true := fun c hc => hb c (List.mem_reverse.mp hc)
  rw [trimEnd, trimEnd, List.reverse_append, List.dropWhile_append_of_pos hb']

theorem isBlank_of_isInlineBlank {c : Char} (h : isInlineBlank c = true) : isBlank c = true :=
  isBlank_of_isAsciiBlank (isAsciiBlank_of_isInlineBlank h)

theorem keptBlanks_of_no_break {blanks : List Char} (h : '\n' ∉ blanks) : keptBlanks blanks = [] := by
  rw [keptBlanks, if_neg h]

/-- Blanks with a line break are the kept ones, a carriage return at most, and the line break. -/
theorem keptBlanks_append {blanks : List Char} (h : '\n' ∈ blanks) :
    ∃ r after, blanks = keptBlanks blanks ++ (r ++ '\n' :: after) ∧
      ∀ c ∈ r, isInlineBlank c = true := by
  have hcut := List.takeWhile_append_dropWhile (p := (· != '\n')) (l := blanks)
  have hdrop : ∃ after, blanks.dropWhile (· != '\n') = '\n' :: after := by
    cases hd : blanks.dropWhile (· != '\n') with
    | nil =>
        have hno : '\n' ∉ blanks.takeWhile (· != '\n') := break_not_mem_firstLine blanks
        rw [hd, List.append_nil] at hcut
        rw [hcut] at hno
        exact absurd h hno
    | cons c after =>
        have hc := List.head?_dropWhile_not (· != '\n') blanks
        rw [hd] at hc
        have hbreak : c = '\n' := by simpa using hc
        exact ⟨after, by rw [hbreak]⟩
  obtain ⟨after, hafter⟩ := hdrop
  rw [hafter] at hcut
  rw [keptBlanks, if_pos h]
  dsimp only
  split
  · next hlast =>
      obtain ⟨line, hline⟩ := List.getLast?_eq_some_iff.mp hlast
      refine ⟨['\r'], after, ?_, List.forall_mem_singleton.mpr rfl⟩
      rw [hline] at hcut ⊢
      rw [List.dropLast_concat, ← hcut]
      simp
  · exact ⟨[], after, hcut.symm, fun c hc => absurd hc List.not_mem_nil⟩

/-- A region of whole lines is its content and the end of its last line, or nothing but blanks. -/
theorem content_of_blankEnd {region : List Char} (h : BlankEnd True region) :
    content region = [] ∨
      ∃ tail after, region = content region ++ tail ∧ Breaks tail after := by
  have htrim := trimEnd_append_drop region
  obtain ⟨-, hall⟩ | ⟨a, i, hregion, hi⟩ := h
  · have hnil : trimEnd region = [] := by
      have h := trimEnd_append_blanks [] (b := region)
        fun c hc => isBlank_of_isInlineBlank (hall c hc)
      exact h
    have hbreak : '\n' ∉ region := by
      intro hm
      have := hall _ hm
      cases this
    refine .inl ?_
    rw [content, hnil]
    exact keptBlanks_of_no_break hbreak
  · have hblank : ∀ c ∈ '\n' :: i, isBlank c = true := by
      intro c hc
      rcases List.mem_cons.mp hc with rfl | hc
      · rfl
      · exact isBlank_of_isInlineBlank (hi c hc)
    have hshort : (trimEnd region).length ≤ a.length := by
      rw [hregion, trimEnd_append_blanks a hblank]
      exact trimEnd_length_le a
    have hbreak : '\n' ∈ region.drop (trimEnd region).length := by
      rw [hregion] at hshort ⊢
      rw [List.drop_append_of_le_length hshort]
      exact List.mem_append_right _ List.mem_cons_self
    obtain ⟨r, after, hkept, hr⟩ := keptBlanks_append hbreak
    refine .inr ⟨r ++ '\n' :: after, after, ?_, r, hr, rfl⟩
    rw [content, List.append_assoc, ← hkept, htrim]

/-- The variables in the body of a block are variables of the text. -/
theorem lineItems_body_subset {b : Block} {cs : List Char} (h : b ∈ blocks cs) :
    ∀ e ∈ lineItems b.body, e ∈ itemsFrom true cs := by
  intro e he
  obtain ⟨region, hbody, ⟨before, after, hplace⟩, hend⟩ := mem_blocks_region h
  obtain hnil | ⟨tail, rest, hregion, ht⟩ := content_of_blankEnd hend
  · rw [hbody, hnil] at he
    exact absurd (open_mem_of_itemsFrom he) (by decide)
  · have ht' : Breaks (tail ++ after) (rest ++ after) := by
      obtain ⟨blanks, hb, rfl⟩ := ht
      exact ⟨blanks, hb, by simp⟩
    have htext : cs = before ++ '\n' :: (b.body ++ (tail ++ after)) := by
      rw [hplace, hbody, ← List.append_assoc, ← hregion]
    rw [htext, itemsFrom_break, itemsFrom_line ht']
    exact List.mem_append_right _ (List.mem_append_left _ he)

end ShaderTemplates.Template
