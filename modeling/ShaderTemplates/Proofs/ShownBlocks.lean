import Mathlib.Data.List.Basic
import Mathlib.Data.List.Induction
import ShaderTemplates.Proofs.BlockSites
import ShaderTemplates.Proofs.KeptChoices

/-!
# Blocks that a text shows

A text shows the blocks that are found in it from the left: the first header that an end marker
follows opens a block, the block goes on to the first end marker, and the search goes on behind it
(`Shows`).  Gathering blocks finds these and no others (`shows_iff`).

Pulling from a text changes exactly the stored blocks that the text shows with another body
(`Generator.Pulls`): each takes the body of the last block of its name.  The names are reported in
the order in which the text first shows them, and then there is nothing left to pull.
-/

namespace ShaderTemplates

open Template

namespace Template

-- ── Blocks from the left ─────────────────────────────────────────────────────

/-- No piece is a block header. -/
def HeaderFree (ps : List (Piece Token)) : Prop :=
  ∀ t name, .item t ∈ ps → t.marker ≠ .blockHeader name

/-- The blocks that are found among pieces from the left. -/
inductive Shows : List (Piece Token) → List Block → Prop where
  | nothing {ps : List (Piece Token)} (hnone : ∀ s : BlockSite, ¬ s.Among ps) : Shows ps []
  | block {ps : List (Piece Token)} {found : List Block} (s : BlockSite) (hs : s.Among ps)
      (hfirst : HeaderFree s.before) (hrest : Shows s.after found) : Shows ps (s.block :: found)

theorem BlockSite.Among.endBlock_mem {s : BlockSite} {ps : List (Piece Token)} (h : s.Among ps) :
    ∃ t, .item t ∈ ps ∧ t.marker = .endBlock := by
  refine ⟨s.stop, ?_, h.stop⟩
  rw [h.pieces, BlockSite.inside]
  simp

/-- A site that starts later than the first piece is among the pieces behind it. -/
theorem BlockSite.Among.tail {s : BlockSite} {p : Piece Token} {ps before : List (Piece Token)}
    (h : s.Among (p :: ps)) (hbefore : s.before = p :: before) :
    BlockSite.Among { s with before } ps := by
  refine ⟨?_, h.header, h.stop, h.region⟩
  have hpieces := h.pieces
  rw [hbefore] at hpieces
  exact (List.cons.inj hpieces).2

namespace Shows

/-- A piece that is no header does not matter in front. -/
theorem skip {p : Piece Token} {ps : List (Piece Token)} {found : List Block}
    (hp : HeaderFree [p]) (h : Shows ps found) : Shows (p :: ps) found := by
  cases h with
  | nothing hnone =>
      refine .nothing fun s hs => ?_
      cases hbefore : s.before with
      | nil =>
          have hpieces := hs.pieces
          rw [hbefore, List.nil_append] at hpieces
          exact hp s.header s.name (List.mem_singleton.mpr (List.cons.inj hpieces).1.symm) hs.header
      | cons q before =>
          have hpieces := hs.pieces
          rw [hbefore] at hpieces
          exact hnone _ (hs.tail ((List.cons.inj hpieces).1 ▸ hbefore))
  | block s hs hfirst hrest =>
      refine .block (s.behind [p]) (hs.behind [p]) ?_ hrest
      intro t name ht
      rcases List.mem_cons.mp ht with ht | ht
      · exact hp t name (List.mem_singleton.mpr ht)
      · exact hfirst t name ht

/-- Without end markers no block is found. -/
theorem of_no_endBlock {ps : List (Piece Token)}
    (h : ∀ t, .item t ∈ ps → t.marker ≠ .endBlock) : Shows ps [] := by
  refine .nothing fun s hs => ?_
  obtain ⟨t, ht, hmarker⟩ := hs.endBlock_mem
  exact h t ht hmarker

end Shows

theorem splitEndBlock_eq_none {ps : List (Piece Token)} (h : splitEndBlock ps = none) :
    ∀ t, .item t ∈ ps → t.marker ≠ .endBlock := by
  fun_induction splitEndBlock ps with
  | case1 => exact fun t ht => absurd ht List.not_mem_nil
  | case2 c rest ih =>
      intro t ht
      rcases List.mem_cons.mp ht with ht | ht
      · cases ht
      · exact ih (Option.map_eq_none_iff.mp h) t ht
  | case3 => cases h
  | case4 u rest hu ih =>
      intro t ht
      rcases List.mem_cons.mp ht with ht | ht
      · cases ht
        exact hu
      · exact ih (Option.map_eq_none_iff.mp h) t ht

/-- Without headers everything stays plain. -/
theorem gatherBlocks_headerFree {before : List (Piece Token)} (h : HeaderFree before)
    (ps : List (Piece Token)) :
    gatherBlocks (before ++ ps) = Piece.plain (tokenSource before) ++ gatherBlocks ps := by
  induction before with
  | nil => rfl
  | cons p before ih =>
      have hbefore := ih fun t name ht => h t name (List.mem_cons_of_mem _ ht)
      cases p with
      | char c => rw [List.cons_append, gatherBlocks, hbefore]; rfl
      | item t =>
          rw [List.cons_append, gatherBlocks_item fun name => h t name List.mem_cons_self, hbefore,
            tokenSource_item, Piece.plain_append, List.append_assoc]

theorem BlockSite.Among.gatherBlocks_eq {s : BlockSite} {ps : List (Piece Token)} (h : s.Among ps)
    (hfirst : HeaderFree s.before) :
    gatherBlocks ps =
      Piece.plain (tokenSource s.before) ++ .item s.block :: gatherBlocks s.after := by
  rw [h.pieces, gatherBlocks_headerFree hfirst, BlockSite.inside,
    gatherBlocks_closed h.header (splitEndBlock_found h.region h.stop s.after)]
  rfl

namespace Shows

/-- The blocks that are gathered are found from the left. -/
theorem gathered (ps : List (Piece Token)) : Shows ps (Piece.items (gatherBlocks ps)) := by
  fun_induction gatherBlocks ps with
  | case1 => exact .of_no_endBlock fun t ht => absurd ht List.not_mem_nil
  | case2 rest c ih =>
      refine ih.skip fun t name ht => ?_
      cases List.mem_singleton.mp ht
  | case3 t rest name ht body stop after hs ih =>
      refine .block ⟨[], t, name, body, stop, after⟩ ⟨?_, ht, splitEndBlock_marker hs,
        region_of_splitEndBlock hs⟩ (fun t name ht => absurd ht List.not_mem_nil) ih
      rw [BlockSite.inside, splitEndBlock_append hs]
      rfl
  | case4 t rest name ht hs ih =>
      -- no end marker stands behind the header, so no block does
      have hnone := splitEndBlock_eq_none hs
      rw [Piece.items_append, Piece.items_plain, List.nil_append]
      generalize Piece.items (gatherBlocks rest) = found at ih ⊢
      cases ih with
      | nothing =>
          refine .of_no_endBlock fun u hu => ?_
          rcases List.mem_cons.mp hu with hu | hu
          · cases hu
            rw [ht]
            intro heq
            cases heq
          · exact hnone u hu
      | block s hs' =>
          obtain ⟨u, hu, hmarker⟩ := hs'.endBlock_mem
          exact absurd hmarker (hnone u hu)
  | case5 t rest ht ih =>
      rw [Piece.items_append, Piece.items_plain, List.nil_append]
      refine ih.skip fun u name hu => ?_
      cases List.mem_singleton.mp hu
      exact ht name

theorem eq_gathered {ps : List (Piece Token)} {found : List Block} (h : Shows ps found) :
    found = Piece.items (gatherBlocks ps) := by
  induction h with
  | @nothing ps hnone =>
      obtain hplain | ⟨s, hs, -⟩ := gatherBlocks_cases ps
      · rw [hplain, Piece.items_plain]
      · exact absurd hs (hnone s)
  | block s hs hfirst _ ih =>
      rw [hs.gatherBlocks_eq hfirst, Piece.items_append, Piece.items_plain, List.nil_append,
        Piece.items_item, ih]

end Shows

/-- Gathering finds the blocks that are found from the left, and no others. -/
theorem shows_iff {ps : List (Piece Token)} {found : List Block} :
    Shows ps found ↔ found = Piece.items (gatherBlocks ps) :=
  ⟨Shows.eq_gathered, fun h => h ▸ Shows.gathered ps⟩

-- ── Bodies by name ───────────────────────────────────────────────────────────

theorem get?_blocks_scan (output name : String) :
    (scan output).blocks.get? name =
      ((blocks output.toList).map fun b => (b.name, String.ofList b.body)).reverse.lookup name :=
  Directives.get?_ofListLast _ name

/-- Of several blocks with one name the last counts. -/
theorem get?_blocks_last {output : String} {before after : List Block} {b : Block}
    (h : blocks output.toList = before ++ b :: after) (hlast : ∀ b' ∈ after, b'.name ≠ b.name) :
    (scan output).blocks.get? b.name = some (String.ofList b.body) := by
  rw [get?_blocks_scan, h, List.map_append, List.map_cons, List.reverse_append, List.reverse_cons,
    List.append_assoc, List.lookup_append]
  have hafter : ((after.map fun b => (b.name, String.ofList b.body)).reverse).lookup b.name =
      none := by
    rw [List.lookup_eq_none_iff]
    intro e he
    obtain ⟨b', hb', rfl⟩ := List.mem_map.mp (List.mem_reverse.mp he)
    simpa using (hlast b' hb').symm
  rw [hafter, Option.none_or, List.singleton_append, lookup_entry_cons, if_pos rfl]

theorem get?_blocks_of_not_shown {output name : String}
    (h : ∀ b ∈ blocks output.toList, b.name ≠ name) : (scan output).blocks.get? name = none := by
  rw [get?_blocks_scan, List.lookup_eq_none_iff]
  intro e he
  obtain ⟨b, hb, rfl⟩ := List.mem_map.mp (List.mem_reverse.mp he)
  simpa using (h b hb).symm

end Template

/-- Names without repeats stand in the order of their first places. -/
theorem Directives.pairwise_eraseDups (l : List String) :
    l.eraseDups.Pairwise fun a b => l.idxOf a < l.idxOf b := by
  induction l using List.reverseRecOn with
  | nil => exact .nil
  | append_singleton l name ih =>
      have hkept : l.eraseDups.Pairwise fun a b => (l ++ [name]).idxOf a < (l ++ [name]).idxOf b :=
        ih.imp_of_mem fun ha hb hlt => by
          rwa [List.idxOf_append_of_mem (List.mem_eraseDups.mp ha),
            List.idxOf_append_of_mem (List.mem_eraseDups.mp hb)]
      rw [eraseDups_concat]
      by_cases hname : name ∈ l
      · rwa [if_pos hname]
      · rw [if_neg hname]
        refine List.pairwise_append.mpr ⟨hkept, List.pairwise_singleton _ _, fun a ha b hb => ?_⟩
        have ha := List.mem_eraseDups.mp ha
        rw [List.mem_singleton.mp hb, List.idxOf_append_of_mem ha,
          List.idxOf_append_of_notMem hname]
        exact Nat.lt_add_right _ (List.idxOf_lt_length_iff.mpr ha)

namespace Generator

/-- The stored blocks take over the last bodies that were found, and the names of those that change
    are reported in the order in which they are found first. -/
structure Pulls (g pulled : Generator) (found : List Block) (report : List String) : Prop where
  others : { pulled with values.blocks := g.values.blocks } = g
  names : pulled.values.blocks.keys = g.values.blocks.keys
  shown : ∀ before b after, found = before ++ b :: after → (∀ b' ∈ after, b'.name ≠ b.name) →
    b.name ∈ g.values.blocks.keys →
    pulled.values.blocks.get? b.name = some (String.ofList b.body)
  unshown : ∀ name, (∀ b ∈ found, b.name ≠ name) →
    pulled.values.blocks.get? name = g.values.blocks.get? name
  reported : ∀ name, name ∈ report ↔
    pulled.values.blocks.get? name ≠ g.values.blocks.get? name
  nodup : report.Nodup
  ordered : report.Pairwise fun a b =>
    (found.map Block.name).idxOf a < (found.map Block.name).idxOf b

/-- A block is reported if its stored body changes. -/
theorem mem_pulledNames_iff_ne (g : Generator) (output name : String) :
    name ∈ g.pulledNames output ↔
      (g.pull output).values.blocks.get? name ≠ g.values.blocks.get? name := by
  constructor
  · intro hmem
    obtain ⟨e, he, rfl⟩ := List.mem_map.mp hmem
    obtain ⟨-, stored, hstored, hne⟩ := mem_editedBlocks.mp he
    rw [get?_pull he, hstored]
    exact fun heq => hne (Option.some.inj heq).symm
  · intro hne
    rw [get?_blocks_pull] at hne
    cases hstored : g.values.blocks.get? name with
    | none => exact absurd (by rw [hstored]; rfl) hne
    | some stored =>
        cases hshown : (scan output).blocks.get? name with
        | none => exact absurd (by rw [hstored, hshown]; rfl) hne
        | some body =>
            rw [hstored, hshown] at hne
            refine List.mem_map_of_mem (mem_editedBlocks.mpr
              ⟨SortedMap.mem_of_lookup hshown, stored, hstored, fun heq => hne ?_⟩)
            rw [heq]
            rfl

theorem pulls_pull (g : Generator) (output : String) :
    g.Pulls (g.pull output) (blocks output.toList) (g.pulledNames output) where
  others := rfl
  names := SortedMap.keys_congr fun name => by
    rw [get?_blocks_pull]
    exact Option.isSome_map
  shown := by
    intro before b after hfound hlast hstored
    obtain ⟨stored, hstored⟩ := Option.isSome_iff_exists.mp (SortedMap.mem_keys.mp hstored)
    rw [get?_blocks_pull, hstored, get?_blocks_last hfound hlast]
    rfl
  unshown := by
    intro name hnone
    rw [get?_blocks_pull, get?_blocks_of_not_shown hnone]
    exact Option.map_id'
  reported := g.mem_pulledNames_iff_ne output
  nodup := g.nodup_editedBlocks output
  ordered := by
    have hsublist : (g.pulledNames output).Sublist
        ((blocks output.toList).map Block.name).eraseDups := by
      have hnames := Directives.names_ofListLast
        ((blocks output.toList).map fun b => (b.name, String.ofList b.body))
      rw [List.map_map] at hnames
      exact hnames ▸ List.filter_sublist.map _
    exact (Directives.pairwise_eraseDups _).sublist hsublist

/-- Pulling takes over the last bodies of the blocks that a text shows, reports the names whose
    bodies change, and leaves nothing to pull. -/
theorem pull_last_shown (g : Generator) (output : String) :
    ∃ found, (∀ other, Shows (tokenize output.toList) other ↔ other = found) ∧
      g.Pulls (g.pull output) found (g.pulledNames output) ∧
      (g.pull output).pulledNames output = [] ∧
      (g.pull output).pull output = g.pull output :=
  ⟨blocks output.toList, fun _ => shows_iff, g.pulls_pull output,
    pulledNames_eq_nil.mpr (g.editedBlocks_pull output),
    pull_of_not_edited (g.editedBlocks_pull output)⟩

end Generator

end ShaderTemplates
