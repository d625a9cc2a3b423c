import ShaderTemplates.Proofs.ConvertedBreaks
import ShaderTemplates.Proofs.InsertedValues
import ShaderTemplates.Proofs.PlainTemplates
import ShaderTemplates.Proofs.ReadBack
import ShaderTemplates.Proofs.RedrawnTexts
import ShaderTemplates.Proofs.ShownBlocks

/-!
# Outputs that show the stored bodies

A converted text shows the blocks that were filled in it, each with the body that it was given
(`blocks_of_stable`), if

* no line of the text that the conditionals leave has both an at sign and an opening bracket on it,
* each body is clean, or was read from a text without carriage returns and has no variable in it
  (`KeptBody`), and
* no value has an at sign in it.

Such a body is read back from its printed block as it is (`KeptBody.lasting`), and the printed block
is read as it was printed, whatever is behind it (`unplacedFrom_canonical`).  The texts between the
blocks are redrawn, so no block comes up in them and none is lost.
-/

namespace ShaderTemplates.Template

open Text

-- ── Blocks without lines ─────────────────────────────────────────────────────

theorem mem_blockMarkers {ps : List (Piece Token)} {m : Marker} (hm : m.ofBlock = true) :
    m ∈ blockMarkers ps ↔ ∃ t, .item t ∈ ps ∧ t.marker = m := by
  rw [blockMarkers, List.mem_filter, and_iff_left hm, List.mem_map]
  constructor
  · rintro ⟨t, ht, rfl⟩
    exact ⟨t, Piece.item_of_mem_items ht, rfl⟩
  · rintro ⟨t, ht, rfl⟩
    obtain ⟨before, after, rfl⟩ := List.append_of_mem ht
    exact ⟨t, by simp, rfl⟩

theorem headerFree_iff {ps : List (Piece Token)} :
    HeaderFree ps ↔ ∀ name, .blockHeader name ∉ blockMarkers ps := by
  constructor
  · intro h name hm
    obtain ⟨t, ht, hmarker⟩ := (mem_blockMarkers rfl).mp hm
    exact h t name ht hmarker
  · intro h t name ht hmarker
    exact h name ((mem_blockMarkers rfl).mpr ⟨t, ht, hmarker⟩)

/-- Whether there is a block depends on the markers of blocks only. -/
theorem exists_site_iff {ps : List (Piece Token)} :
    (∃ s : BlockSite, s.Among ps) ↔
      ∃ name, [Marker.blockHeader name, .endBlock].Sublist (blockMarkers ps) := by
  constructor
  · rintro ⟨s, hs⟩
    refine ⟨s.name, ?_⟩
    rw [hs.pieces, BlockSite.inside, blockMarkers_append, blockMarkers_item, blockMarkers_append,
      blockMarkers_item, hs.header, hs.stop]
    show List.Sublist _ (_ ++ Marker.blockHeader s.name :: (_ ++ Marker.endBlock :: _))
    refine List.sublist_append_of_sublist_right (.cons_cons _ ?_)
    exact List.sublist_append_of_sublist_right (.cons_cons _ (List.nil_sublist _))
  · rintro ⟨name, h⟩
    induction ps with
    | nil => cases h
    | cons p ps ih =>
        have hrest : [Marker.blockHeader name, .endBlock].Sublist (blockMarkers ps) →
            ∃ s : BlockSite, s.Among (p :: ps) := by
          intro h
          obtain ⟨s, hs⟩ := ih h
          exact ⟨s.behind [p], hs.behind [p]⟩
        cases p with
        | char c => exact hrest h
        | item t =>
            rw [blockMarkers_item, List.filter_cons, List.filter_nil] at h
            split at h
            · rcases List.cons_sublist_cons'.mp h with h | ⟨ht, h⟩
              · exact hrest h
              · obtain ⟨u, hu, hmarker⟩ := (mem_blockMarkers rfl).mp (List.singleton_sublist.mp h)
                cases hsplit : splitEndBlock ps with
                | none => exact absurd hmarker (splitEndBlock_eq_none hsplit u hu)
                | some found =>
                    obtain ⟨region, stop, after⟩ := found
                    refine ⟨⟨[], t, name, region, stop, after⟩, ?_, ht.symm,
                      splitEndBlock_marker hsplit, region_of_splitEndBlock hsplit⟩
                    rw [BlockSite.inside, splitEndBlock_append hsplit]
                    rfl
            · exact hrest h

/-- The names and bodies of the blocks among pieces. -/
def shownEntries (ps : List (Piece Token)) : List (String × List Char) :=
  (Piece.items (gatherBlocks ps)).map Block.entry

theorem shownEntries_of_no_site {ps : List (Piece Token)} (h : ¬ ∃ s : BlockSite, s.Among ps) :
    shownEntries ps = [] := by
  obtain hplain | ⟨s, hs, -⟩ := gatherBlocks_cases ps
  · rw [shownEntries, hplain, Piece.items_plain]
    rfl
  · exact absurd ⟨s, hs⟩ h

theorem BlockSite.Among.shownEntries {s : BlockSite} {ps : List (Piece Token)} (h : s.Among ps)
    (hfirst : HeaderFree s.before) :
    Template.shownEntries ps = (s.name, content (tokenSource s.region)) ::
      Template.shownEntries s.after := by
  rw [Template.shownEntries, h.gatherBlocks_eq hfirst, Piece.items_append, Piece.items_plain]
  rfl

/-- The same site, its tokens without their lines. -/
def BlockSite.unplaced (s : BlockSite) : BlockSite where
  before := s.before.map (Piece.map Token.unplaced)
  header := s.header.unplaced
  name := s.name
  region := s.region.map (Piece.map Token.unplaced)
  stop := s.stop.unplaced
  after := s.after.map (Piece.map Token.unplaced)

theorem item_unplaced {ps : List (Piece Token)} {t : Token}
    (h : .item t ∈ ps.map (Piece.map Token.unplaced)) : ∃ u, .item u ∈ ps ∧ u.unplaced = t := by
  obtain ⟨p, hp, heq⟩ := List.mem_map.mp h
  cases p with
  | char c => cases heq
  | item u =>
      cases heq
      exact ⟨u, hp, rfl⟩

theorem BlockSite.Among.unplaced {s : BlockSite} {ps : List (Piece Token)} (h : s.Among ps) :
    s.unplaced.Among (ps.map (Piece.map Token.unplaced)) := by
  refine ⟨?_, h.header, h.stop, ?_⟩
  · rw [h.pieces, BlockSite.inside, List.map_append, List.map_cons, List.map_append, List.map_cons]
    rfl
  · intro t ht
    obtain ⟨u, hu, rfl⟩ := item_unplaced ht
    exact h.region u hu

/-- The lines of tokens do not matter to the blocks. -/
theorem shownEntries_unplaced {ps : List (Piece Token)} {found : List Block} (h : Shows ps found) :
    shownEntries (ps.map (Piece.map Token.unplaced)) = found.map Block.entry := by
  induction h with
  | @nothing ps hnone =>
      refine shownEntries_of_no_site ?_
      rw [exists_site_iff, blockMarkers_unplaced, ← exists_site_iff]
      rintro ⟨s, hs⟩
      exact hnone s hs
  | block s hs hfirst _ ih =>
      have hfirst' : HeaderFree s.unplaced.before := by
        rw [headerFree_iff] at hfirst ⊢
        show ∀ name, _ ∉ blockMarkers (s.before.map _)
        rwa [blockMarkers_unplaced]
      rw [hs.unplaced.shownEntries hfirst']
      show (s.name, content (tokenSource (s.region.map _))) :: shownEntries (s.after.map _) = _
      rw [ih, tokenSource_unplaced]
      rfl

theorem entries_blocks (cs : List Char) :
    (blocks cs).map Block.entry = shownEntries (unplacedFrom true cs) := by
  have h := shownEntries_unplaced (Shows.gathered (tokenize cs))
  rw [tokenize_eq_piecesFrom, map_unplaced] at h
  rw [blocks, blockPieces, tokenize_eq_piecesFrom]
  exact h.symm

-- ── Printed blocks ───────────────────────────────────────────────────────────

/-- A line does not bring together what is read apart behind it. -/
theorem LineRead.cut {behind : List Char} (hclosed : Closed behind) {b : Bool} {l : List Char}
    {front : List (Piece Token)} (h : LineRead b l front) (after : List Char)
    (hafter : unplacedFrom true (after ++ behind) =
      unplacedFrom true after ++ unplacedFrom true behind) :
    unplacedFrom b (l ++ '\n' :: (after ++ behind)) =
      unplacedFrom b (l ++ '\n' :: after) ++ unplacedFrom true behind := by
  have hnone : ∀ c ∈ ([] : List Char), isInlineBlank c = true := fun c hc =>
    absurd hc List.not_mem_nil
  cases h with
  | toEnd source read =>
      have hread := fun cs => read [] cs hnone
      simp only [List.nil_append] at hread
      rw [hread, hread, hafter]
      simp
  | header source marker read =>
      have hread := fun cs => read [] cs hnone
      simp only [List.nil_append] at hread
      -- the header takes the same blank lines of both texts
      rw [unplacedFrom_blankLines, (hclosed after).1, (hclosed after).2,
        unplacedFrom_blankLines after, List.append_assoc] at hafter
      rw [hread, hread, (hclosed after).1, (hclosed after).2, List.append_cancel_left hafter]
      simp

/-- Whole lines are read by themselves in front of a text that starts with no blank line. -/
theorem unplacedFrom_lines {behind : List Char} (hclosed : Closed behind) (b : Bool)
    (c : List Char) :
    unplacedFrom b (c ++ '\n' :: behind) =
      unplacedFrom b (c ++ ['\n']) ++ unplacedFrom true behind := by
  induction hn : c.length using Nat.strongRecOn generalizing b c with
  | ind n ih =>
      by_cases hbreak : '\n' ∈ c
      · obtain ⟨l, after, rfl, -⟩ := List.eq_append_cons_of_mem hbreak
        obtain ⟨front, hfront⟩ := unplacedFrom_line b l
        have hshort : after.length < n := by
          rw [← hn]
          simp
          omega
        have hafter := ih after.length hshort true after rfl
        have hcut := hfront.cut hclosed (after ++ ['\n']) (by simpa using hafter)
        simpa using hcut
      · obtain ⟨front, hfront⟩ := unplacedFrom_line b c
        exact hfront.cut hclosed [] rfl

/-- The region of a block that is printed with a body. -/
def printedRegion (body : List Char) : List (Piece Token) :=
  unplacedFrom true (afterBlankLines (body ++ ['\n']))

section

variable {name : List Char} (hne : name ≠ []) (hname : ∀ c ∈ name, isWordChar c = true)
include hne hname

/-- A printed block is read as it was printed, whatever is behind it. -/
theorem unplacedFrom_canonical (b : Bool) (body rest : List Char) :
    unplacedFrom b (Block.canonical name body ++ rest) =
      .item ⟨.blockHeader (String.ofList name),
          blockLine name ++ '\n' :: blankLines (body ++ ['\n']), 0⟩ ::
        (printedRegion body ++ .item ⟨.endBlock, endBlockLine, 0⟩ :: unplacedFrom false rest) := by
  have hclosed : Closed (endBlockLine ++ rest) := closed_cons (c := '/') rfl _
  have htext : Block.canonical name body ++ rest =
      blockLine name ++ '\n' :: (body ++ ['\n'] ++ (endBlockLine ++ rest)) := by
    simp [canonical_eq_blockText, blockText]
  have hheader := marker?_blockLine b hne hname (body ++ ['\n'] ++ (endBlockLine ++ rest))
  have hlines := unplacedFrom_lines hclosed true body
  have hbody : body ++ '\n' :: (endBlockLine ++ rest) =
      body ++ ['\n'] ++ (endBlockLine ++ rest) := by simp
  rw [hbody, unplacedFrom_blankLines, (hclosed _).1, (hclosed _).2,
    unplacedFrom_blankLines (body ++ ['\n']), List.append_assoc] at hlines
  rw [htext, unplacedFrom_marker hheader]
  have hlast : (blockLine name ++ '\n' :: blankLines (body ++ ['\n'])).getLast? = some '\n' := by
    rw [List.getLast?_append, getLast?_break_blankLines]
    rfl
  dsimp only
  rw [(hclosed _).1, (hclosed _).2, hlast]
  show _ :: unplacedFrom true _ = _
  rw [List.append_cancel_left hlines, printedRegion,
    unplacedFrom_marker (marker?_endBlockLine rest)]
  rfl

end

/-- The header of a block has its keyword on the line that it starts on. -/
theorem BlockSite.Among.header_text {s : BlockSite} {p : Position} {cs : List Char}
    (h : s.Among (piecesFrom p cs)) :
    ∃ a w, s.header.source = a ++ (blockKeyword ++ w) ∧ '\n' ∉ a := by
  obtain ⟨q, hm, -⟩ := h.read_header
  have hmatch : blockHeader? (s.header.source ++ tokenSource s.inside) =
      some ⟨.blockHeader s.name, s.header.source, tokenSource s.inside⟩ := matcher_of_marker? hm
  obtain ⟨z, -, hmatch⟩ := Option.bind_eq_some_iff.mp hmatch
  dsimp only at hmatch
  split at hmatch
  · cases hmatch
  · obtain ⟨n, -, hf⟩ := Option.map_eq_some_iff.mp hmatch
    injection hf with _ hsource
    rw [List.append_assoc, List.append_assoc] at hsource
    exact ⟨_, _, hsource.symm, lineBreak_not_mem_leaders false _⟩

theorem BlockSite.Among.length_header {s : BlockSite} {p : Position} {cs : List Char}
    (h : s.Among (piecesFrom p cs)) : blockKeyword.length ≤ s.header.source.length := by
  obtain ⟨a, w, hsource, -⟩ := h.header_text
  rw [hsource, List.length_append, List.length_append]
  omega

theorem BlockSite.Among.length_stop {s : BlockSite} {p : Position} {cs : List Char}
    (h : s.Among (piecesFrom p cs)) : endBlockKeyword.length ≤ s.stop.source.length := by
  obtain ⟨q, -, hinside, -⟩ := h.read_inside
  obtain ⟨r, hm, -⟩ := piecesFrom_item hinside.symm
  rw [h.stop] at hm
  obtain ⟨_, -, hf⟩ := Option.map_eq_some_iff.mp (matcher_of_marker? hm)
  injection hf with _ hsource
  rw [← hsource, List.length_append]
  omega

-- ── Lasting bodies ───────────────────────────────────────────────────────────

/-- A body that a block keeps: a clean one, or one that was read from a text without carriage returns
    and has no variable on its lines. -/
inductive KeptBody : String → Prop where
  | clean {body : String} (h : CleanBody body.toList) : KeptBody body
  | read {cs : List Char} {b : Block} (hreturn : '\r' ∉ cs) (hb : b ∈ blocks cs)
      (hvars : vars (b.body ++ ['\n']) = []) : KeptBody (String.ofList b.body)

/-- A body that is read back from its printed block as it is, and that has no variable in it. -/
structure Lasting (name body : String) : Prop where
  readBack : readBack? name body = some body
  no_variable : lineItems body.toList = []
  no_return : '\r' ∉ body.toList

/-- The printed form of a block leaves no room for another block with as long a region. -/
theorem BlockSite.Among.fills {s : BlockSite} {name body : List Char} (hne : name ≠ [])
    (hname : ∀ c ∈ name, isWordChar c = true)
    (h : s.Among (piecesFrom (.lineAt 1) (Block.canonical name body)))
    (hlong : body.length ≤ (tokenSource s.region).length) :
    s.before = [] ∧ s.after = [] ∧
      s.region.map (Piece.map Token.unplaced) = printedRegion body := by
  have hheader : 6 ≤ s.header.source.length := h.length_header
  have hstop : 9 ≤ s.stop.source.length := h.length_stop
  have hend : endBlockLine.length = 12 := rfl
  have hlength := congrArg (fun ps => (tokenSource ps).length) h.pieces
  simp only [tokenSource_piecesFrom, tokenSource_append, tokenSource_item, inside,
    canonical_eq_blockText, blockText, List.length_append, List.length_cons] at hlength
  have hpieces := h.unplaced.pieces
  rw [map_unplaced, Position.lineAt_lineStart, ← List.append_nil (Block.canonical _ _),
    unplacedFrom_canonical hne hname, unplacedFrom_nil] at hpieces
  -- the first piece is the header that was printed
  have hbefore : s.before = [] := by
    cases hbefore : s.before with
    | nil => rfl
    | cons q before =>
        rw [BlockSite.unplaced, hbefore] at hpieces
        obtain ⟨hq, -⟩ := List.cons.inj hpieces
        cases q with
        | char c => cases hq
        | item t =>
            injection hq with hq
            have hsource : blockLine name ++ '\n' :: blankLines (body ++ ['\n']) = t.source :=
              congrArg Token.source hq
            have hfirst := congrArg (fun ps => (tokenSource ps).length) hbefore
            simp only [tokenSource_item, ← hsource, List.length_append, List.length_cons] at hfirst
            omega
  rw [BlockSite.unplaced, hbefore] at hpieces
  obtain ⟨hfirst, hpieces⟩ := List.cons.inj hpieces
  injection hfirst with hfirst
  have hsource : blockLine name ++ '\n' :: blankLines (body ++ ['\n']) = s.header.source :=
    congrArg Token.source hfirst
  rw [hbefore, ← hsource, tokenSource_nil, List.length_nil, List.length_append, List.length_cons]
    at hlength
  rw [inside] at hpieces
  -- and the last piece is the end line
  have hafter : s.after = [] := by
    obtain hnil | ⟨after, last, hlast⟩ := List.eq_nil_or_concat s.after
    · exact hnil
    · rw [List.concat_eq_append] at hlast
      rw [hlast, List.map_append, ← List.cons_append, ← List.append_assoc] at hpieces
      have hq := List.cons.inj (List.append_inj' hpieces rfl).2
      cases last with
      | char c => cases hq.1
      | item t =>
          injection hq.1 with hq
          have hsource : endBlockLine = t.source := congrArg Token.source hq
          have htail := congrArg (fun ps => (tokenSource ps).length) hlast
          simp only [tokenSource_append, tokenSource_item, ← hsource, List.length_append] at htail
          omega
  rw [hafter] at hpieces
  exact ⟨hbefore, hafter, (List.append_inj' hpieces rfl).1.symm⟩

section

variable {name body : String} (hne : name ≠ "") (hname : ∀ c ∈ name.toList, isAsciiBlank c = false)
include hne hname

/-- A body that is read back as it is stands in the block that it was printed in, and no end marker
    is in it. -/
theorem printedRegion_of_readBack? (h : readBack? name body = some body) :
    content (afterBlankLines (body.toList ++ ['\n'])) = body.toList ∧
      ∀ t, .item t ∈ printedRegion body.toList → t.marker ≠ .endBlock := by
  obtain ⟨b, hb, hread⟩ := exists_readBack? hne hname body
  obtain ⟨s, hs, rfl⟩ : ∃ s : BlockSite,
      s.Among (tokenize (Block.canonical name.toList body.toList)) ∧ s.block = b :=
    mem_gatherBlocks (Piece.item_of_mem_items hb)
  have hbody : content (tokenSource s.region) = body.toList := by
    have heq := Option.some.inj (hread.symm.trans h)
    exact heq ▸ (String.toList_ofList).symm
  rw [tokenize_eq_piecesFrom] at hs
  obtain ⟨-, -, hregion⟩ := hs.fills (fun h => hne (String.toList_eq_nil_iff.mp h))
    (fun c hc => by rw [isWordChar, hname c hc]; rfl) (hbody ▸ content_length_le _)
  have htext : tokenSource s.region = afterBlankLines (body.toList ++ ['\n']) := by
    rw [← tokenSource_unplaced, hregion, printedRegion, tokenSource_unplacedFrom]
  refine ⟨htext ▸ hbody, fun t ht => ?_⟩
  obtain ⟨u, hu, rfl⟩ := item_unplaced (hregion ▸ ht)
  exact hs.region u hu

/-- Printing a clean body and reading it back gives the body. -/
theorem CleanBody.lasting (h : CleanBody body.toList) : Lasting name body where
  readBack := by
    obtain ⟨r, hr, -, hsame⟩ := readBack_settles hne hname body h.no_return
    refine hr.trans (congrArg some (hsame h.no_at ?_))
    exact h.framed.imp_left String.toList_eq_nil_iff.mp
  no_variable := lineItems_of_no_open h.no_open
  no_return := h.no_return

/-- So does a body that was read before. -/
theorem lasting_of_mem_blocks {cs : List Char} (hreturn : '\r' ∉ cs) {b : Block}
    (hb : b ∈ blocks cs) (hvars : vars (b.body ++ ['\n']) = []) :
    Lasting name (String.ofList b.body) := by
  refine ⟨readBack?_of_mem_blocks hne hname hreturn hb, ?_, ?_⟩
  · rw [String.toList_ofList, lineItems, itemsFrom, ← vars_words, hvars]
    rfl
  · obtain ⟨region, hbody, ⟨before, after, hplace⟩, -⟩ := mem_blocks_region hb
    rw [String.toList_ofList, hbody]
    intro hm
    rw [hplace] at hreturn
    have hcontent := content_prefix region
    have hregion := hcontent.mem hm
    simp [hregion] at hreturn

theorem KeptBody.lasting (h : KeptBody body) : Lasting name body := by
  cases h with
  | clean h => exact h.lasting hne hname
  | read hreturn hb hvars => exact lasting_of_mem_blocks hne hname hreturn hb hvars

end

theorem words_unplaced (b : Bool) (cs : List Char) :
    (unplacedFrom b cs).flatMap tokenWord = wordsFrom b cs := by
  have hword : ∀ x : Piece Token, tokenWord (x.map Token.unplaced) = tokenWord x := by
    rintro (c | t) <;> rfl
  rw [unplacedFrom, List.flatMap_map, ← flatMap_tokenWord ⟨b, 0⟩]
  exact congrArg (fun f => (piecesFrom ⟨b, 0⟩ cs).flatMap f) (funext hword)

/-- A body without variables stays as it is if its region is filled. -/
theorem filled_printedRegion (text : String → List Char) {body : List Char}
    (h : lineItems body = []) :
    filled text (printedRegion body) = afterBlankLines (body ++ ['\n']) := by
  have hentries : entriesAmong (printedRegion body) = [] := by
    rw [printedRegion, entriesAmong, words_unplaced]
    exact (itemsFrom_afterBlankLines _).symm.trans h
  refine (filled_of_no_variables text fun t ht name alternatives hvar => ?_).trans
    (tokenSource_unplacedFrom _ _)
  have hentry : (name, alternatives) ∈ entriesAmong (printedRegion body) := by
    obtain ⟨before, after, hsplit⟩ := List.append_of_mem ht
    rw [hsplit, entriesAmong_append, entriesAmong, entriesAmong, List.flatMap_cons, tokenWord, hvar]
    exact List.mem_append_right _ List.mem_cons_self
  rw [hentries] at hentry
  cases hentry

/-- A block without variables in its body stays as it was printed if the text is filled. -/
theorem filled_canonical (text : String → List Char) {name body : List Char} (hne : name ≠ [])
    (hname : ∀ c ∈ name, isWordChar c = true) (hbody : lineItems body = []) (b : Bool)
    (rest : List Char) :
    filled text (unplacedFrom b (Block.canonical name body ++ rest)) =
      Block.canonical name body ++ filled text (unplacedFrom false rest) := by
  have hprinted : Block.canonical name body = blockLine name ++ '\n' ::
      (blankLines (body ++ ['\n']) ++ (afterBlankLines (body ++ ['\n']) ++ endBlockLine)) := by
    rw [← List.append_assoc, blankLines_append]
    simp [canonical_eq_blockText, blockText]
  rw [unplacedFrom_canonical hne hname, filled_item text fun _ _ => Marker.noConfusion,
    filled_append, filled_printedRegion text hbody, filled_item text fun _ _ => Marker.noConfusion,
    hprinted]
  simp only [List.append_assoc, List.cons_append]

-- ── The text around a block ──────────────────────────────────────────────────

namespace BlockSite

variable {s : BlockSite} {p : Position} {cs : List Char}

theorem Among.word_name (h : s.Among (piecesFrom p cs)) :
    s.name.toList ≠ [] ∧ ∀ c ∈ s.name.toList, isWordChar c = true := by
  obtain ⟨_, hheader, -⟩ := h.read_header
  exact blockHeader?_name (matcher_of_marker? hheader)

theorem Among.text (h : s.Among (piecesFrom p cs)) :
    cs = tokenSource s.before ++ (s.header.source ++ (tokenSource s.region ++
      (s.stop.source ++ tokenSource s.after))) := by
  have hsource := congrArg tokenSource h.pieces
  rwa [tokenSource_piecesFrom, tokenSource_append, tokenSource_item, inside, tokenSource_append,
    tokenSource_item] at hsource

/-- The text in front of a block is read as before if the block is printed. -/
theorem Among.readsTo_before (h : s.Among (piecesFrom p cs)) (body rest : List Char) :
    ∃ d, ReadsTo p.lineStart (tokenSource s.before) d
      (Block.canonical s.name.toList body ++ rest) (s.before.map (Piece.map Token.unplaced)) := by
  obtain ⟨q, hq⟩ := h.read_before s.name.toList body rest
  refine ⟨q.lineStart, ?_, tokenSource_unplaced s.before⟩
  rw [← map_unplaced, hq, List.map_append, map_unplaced]

/-- The keyword of a header stands on the line that goes on in front of it. -/
theorem Among.no_open_before (h : s.Among (piecesFrom p cs)) (hapart : Apart cs) {l : List Char}
    (hl : l <:+ tokenSource s.before) (hbreak : '\n' ∉ l) : '<' ∉ l := by
  obtain ⟨a, w, hsource, ha⟩ := h.header_text
  obtain ⟨before, hbefore⟩ := hl
  have hline : l ++ (a ++ ['@']) <:+: cs := by
    rw [h.text, ← hbefore, hsource]
    exact ⟨before, blockKeyword.tail ++ (w ++ (tokenSource s.region ++
      (s.stop.source ++ tokenSource s.after))), by simp [blockKeyword]⟩
  have hopen := hapart _ hline (by simp [hbreak, ha]) (by simp)
  exact fun hm => hopen (List.mem_append_left _ hm)

end BlockSite

-- ── Stable outputs ───────────────────────────────────────────────────────────

theorem unixBreaks_append_of_no_return {a : List Char} (ha : '\r' ∉ a) (b : List Char) :
    unixBreaks (a ++ b) = a ++ unixBreaks b := by
  induction a with
  | nil => rfl
  | cons c a ih =>
      rw [List.cons_append, unixBreaks_cons, ih fun hm => ha (List.mem_cons_of_mem c hm)]
      · rfl
      · rintro rfl
        exact absurd List.mem_cons_self ha

theorem no_return_canonical {name body : List Char} (hname : ∀ c ∈ name, isWordChar c = true)
    (hbody : '\r' ∉ body) : '\r' ∉ Block.canonical name body := by
  rw [canonical_eq_blockText]
  exact no_return_blockText (fun hm => absurd (hname _ hm) (by decide)) hbody

/-- Pieces with their blocks printed with other bodies. -/
def reprinted (bodies : Block → String) (ps : List (Piece Token)) : List Char :=
  Piece.source (fun b => Block.canonical b.name.toList (bodies b).toList) (gatherBlocks ps)

/-- A printed block is shown with its body, if that is read back as it is. -/
theorem shownEntries_canonical {name body : String} (hne : name.toList ≠ [])
    (hname : ∀ c ∈ name.toList, isWordChar c = true) (h : readBack? name body = some body)
    {before : List (Piece Token)} (hfirst : HeaderFree before) (b : Bool) (rest : List Char) :
    shownEntries (before ++ unplacedFrom b (Block.canonical name.toList body.toList ++ rest)) =
      (name, body.toList) :: shownEntries (unplacedFrom false rest) := by
  obtain ⟨hcontent, hregion⟩ := printedRegion_of_readBack? (fun h => hne (by rw [h]; rfl))
    (fun c hc => by simpa [isWordChar] using hname c hc) h
  have hread := unplacedFrom_canonical hne hname b body.toList rest
  rw [String.ofList_toList] at hread
  have hsite : BlockSite.Among
      ⟨before, _, name, printedRegion body.toList, _, unplacedFrom false rest⟩
      (before ++ unplacedFrom b (Block.canonical name.toList body.toList ++ rest)) :=
    ⟨congrArg (before ++ ·) hread, rfl, rfl, hregion⟩
  rw [hsite.shownEntries hfirst, printedRegion, tokenSource_unplacedFrom, hcontent]

/-- A text without blocks shows none after its variables were filled. -/
theorem shownEntries_filled_of_no_site {text : String → List Char} (htext : ∀ name, '@' ∉ text name)
    {p : Position} {cs : List Char} (hnone : ∀ s : BlockSite, ¬ s.Among (piecesFrom p cs))
    (hapart : Apart cs) :
    shownEntries (unplacedFrom p.lineStart (unixBreaks (filled text (unplacedFrom p.lineStart cs)))) =
      [] := by
  have hread : ReadsTo p.lineStart cs true [] (unplacedFrom p.lineStart cs) :=
    ⟨by simp, tokenSource_unplacedFrom _ _⟩
  have hredrawn := redrawn_filled htext closed_nil hread hapart (.inl rfl)
  obtain ⟨before, hbefore, hmarkers⟩ := hredrawn.read closed_nil hread
  have hpieces := hbefore.read
  rw [List.append_nil, unplacedFrom_nil, List.append_nil] at hpieces
  rw [hpieces]
  refine shownEntries_of_no_site ?_
  rw [exists_site_iff, hmarkers, ← map_unplaced, blockMarkers_unplaced, ← exists_site_iff]
  rintro ⟨s, hs⟩
  exact hnone s hs

namespace BlockSite

variable {s : BlockSite} {p : Position} {cs : List Char}

/-- The first block is written as it was printed, and so is the text behind it by itself. -/
theorem Among.filled_reprinted (h : s.Among (piecesFrom p cs)) (hfirst : HeaderFree s.before)
    (text : String → List Char) (bodies : Block → String)
    (hlasting : Lasting s.name (bodies s.block)) :
    unixBreaks (filled text (unplacedFrom p.lineStart (reprinted bodies (piecesFrom p cs)))) =
      unixBreaks (filled text (s.before.map (Piece.map Token.unplaced))) ++
        (Block.canonical s.name.toList (bodies s.block).toList ++
          unixBreaks (filled text (unplacedFrom false (reprinted bodies s.after)))) := by
  obtain ⟨hne, hname⟩ := h.word_name
  obtain ⟨d, hread⟩ := h.readsTo_before (bodies s.block).toList (reprinted bodies s.after)
  have hprinted : reprinted bodies (piecesFrom p cs) = tokenSource s.before ++
      (Block.canonical s.name.toList (bodies s.block).toList ++ reprinted bodies s.after) := by
    rw [reprinted, h.gatherBlocks_eq hfirst, Piece.source_append, Piece.source_plain,
      Piece.source_item]
    rfl
  rw [hprinted, hread.read, filled_append,
    filled_canonical text hne hname hlasting.no_variable, unixBreaks_append,
    unixBreaks_append_of_no_return (no_return_canonical hname hlasting.no_return)]
  rw [canonical_eq_blockText]
  exact fun h => absurd (Option.some.inj h) (by decide)

/-- The text in front of the first block shows no block after its variables were filled, and the
    block is shown behind it. -/
theorem Among.shownEntries_before (h : s.Among (piecesFrom p cs)) (hfirst : HeaderFree s.before)
    {text : String → List Char} (htext : ∀ name, '@' ∉ text name) (hapart : Apart cs)
    {body : String} (hbody : readBack? s.name body = some body) (out : List Char) :
    Template.shownEntries (unplacedFrom p.lineStart
        (unixBreaks (filled text (s.before.map (Piece.map Token.unplaced))) ++
          (Block.canonical s.name.toList body.toList ++ out))) =
      (s.name, body.toList) :: Template.shownEntries (unplacedFrom false out) := by
  obtain ⟨hne, hname⟩ := h.word_name
  obtain ⟨d, hread⟩ := h.readsTo_before body.toList out
  have hclosed : Closed (Block.canonical s.name.toList body.toList ++ out) := by
    rw [canonical_eq_blockText]
    exact closed_cons (c := '/') rfl _
  have hfront : Apart (tokenSource s.before) :=
    hapart.part ⟨[], s.header.source ++ (tokenSource s.region ++
      (s.stop.source ++ tokenSource s.after)), h.text.symm⟩
  have hredrawn := redrawn_filled htext hclosed hread hfront
    (.inr fun l hl hbreak => h.no_open_before hapart hl hbreak)
  obtain ⟨before, hwritten, hmarkers⟩ := hredrawn.read hclosed hread
  rw [hwritten.read, shownEntries_canonical hne hname hbody]
  rw [headerFree_iff] at hfirst ⊢
  rwa [hmarkers, blockMarkers_unplaced]

end BlockSite

/-- A text whose blocks are printed with other bodies and whose variables are filled shows these
    blocks with these bodies. -/
theorem shownEntries_filled {text : String → List Char} (htext : ∀ name, '@' ∉ text name)
    (bodies : Block → String) {ps : List (Piece Token)} {found : List Block} (h : Shows ps found)
    (hbodies : ∀ b ∈ found, KeptBody (bodies b)) {p : Position} {cs : List Char}
    (hps : ps = piecesFrom p cs) (hapart : Apart cs) :
    shownEntries (unplacedFrom p.lineStart
        (unixBreaks (filled text (unplacedFrom p.lineStart (reprinted bodies ps))))) =
      found.map fun b => (b.name, (bodies b).toList) := by
  induction h generalizing p cs with
  | @nothing ps hnone =>
      subst hps
      have hprinted : reprinted bodies (piecesFrom p cs) = cs := by
        obtain hplain | ⟨s, hs, -⟩ := gatherBlocks_cases (piecesFrom p cs)
        · rw [reprinted, hplain, Piece.source_plain, tokenSource_piecesFrom]
        · exact absurd hs (hnone s)
      rw [hprinted, shownEntries_filled_of_no_site htext hnone hapart]
      rfl
  | @block ps found s hs hfirst hrest ih =>
      subst hps
      obtain ⟨hne, hname⟩ := hs.word_name
      have hkept : KeptBody (bodies s.block) := hbodies _ List.mem_cons_self
      have hlasting : Lasting s.name (bodies s.block) :=
        hkept.lasting (fun h => hne (String.toList_eq_nil_iff.mpr h))
          fun c hc => by simpa [isWordChar] using hname c hc
      obtain ⟨-, q, hq, hafter⟩ := hs.read_after
      have hbehind := ih (fun b hb => hbodies b (List.mem_cons_of_mem _ hb)) hafter
        (hapart.part ⟨tokenSource s.before ++ (s.header.source ++ (tokenSource s.region ++
          s.stop.source)), [], by rw [hs.text]; simp⟩)
      rw [hq] at hbehind
      rw [hs.filled_reprinted hfirst text bodies hlasting,
        hs.shownEntries_before hfirst htext hapart hlasting.readBack, hbehind]
      rfl

/-- What keeps a second conversion from taking anything over from the output of a first one, given
    the text that the conditionals leave. -/
structure Stable (text : List Char) (v : Values) : Prop where
  apart : Apart text
  bodies : ∀ b ∈ blocks text, ∀ body, v.blocks.get? b.name = some body → KeptBody body
  values : ∀ name value, v.vars.get? name = some value → '@' ∉ value.toList

/-- The output of a stable conversion shows its blocks with the bodies that they were given. -/
theorem blocks_of_stable {template : String} {v : Values} {text : List Char × Nat} {c : Conversion}
    (hstructured : structured template v = .ok text) (hstable : Stable text.1 v)
    (h : convert template v = .ok c) :
    ∀ e ∈ (scan c.text).blocks.entries, v.blocks.get? e.1 = some e.2 := by
  obtain ⟨filledText, hassembled, hc⟩ := text_of_convert h
  obtain ⟨withBodies, hblocks, hvars⟩ := bind_eq_ok.mp hassembled
  obtain ⟨text', htext', hfill⟩ := bind_eq_ok.mp hblocks
  cases hstructured.symm.trans htext'
  obtain ⟨hcovered, rfl⟩ := fillBlocks_iff.mp hfill
  have hout : filledText = filled (inserted v.vars) (unplacedFrom true
      (Piece.source (printed v.blocks) (blockPieces text.1))) := by
    rw [(fillVariables_iff.mp hvars).2, filled, words_unplaced, ← variablePieces_words, gaps,
      Piece.source_map, Piece.source_map]
    rfl
  have hvalues : ∀ name, '@' ∉ inserted v.vars name := by
    intro name
    rw [inserted]
    cases hvalue : v.vars.get? name with
    | none => exact List.not_mem_nil
    | some value => exact hstable.values name value hvalue
  have hentries := shownEntries_filled hvalues (fun b => (v.blocks.get? b.name).getD "")
    (Shows.gathered (piecesFrom (.lineAt 1) text.1)) (fun b hb => by
      rw [← tokenize_eq_piecesFrom] at hb
      obtain ⟨body, hbody⟩ := Option.isSome_iff_exists.mp (hcovered b hb)
      rw [hbody]
      exact hstable.bodies b hb body hbody) rfl hstable.apart
  rw [← tokenize_eq_piecesFrom] at hentries
  intro e he
  obtain ⟨b, hb, rfl⟩ := List.mem_map.mp (Directives.mem_ofListLast he)
  rw [hc, String.toList_ofList, hout] at hb
  have hentry : b.entry ∈ _ := List.mem_map_of_mem hb
  rw [entries_blocks] at hentry
  obtain ⟨found, hfound, heq⟩ := List.mem_map.mp (hentries ▸ hentry)
  obtain ⟨body, hbody⟩ := Option.isSome_iff_exists.mp (hcovered found hfound)
  rw [hbody] at heq
  injection heq with hname hbodyText
  rw [← hname, hbody, ← hbodyText]
  exact congrArg some (String.ofList_toList).symm

end ShaderTemplates.Template
