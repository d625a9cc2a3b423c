import ShaderTemplates.Proofs.LayoutPasses

/-!
# Blocks where they stand

Blocks are gathered from the left: either no block is left, or the text up to the next one stays
plain and gathering goes on behind its end marker (`gatherBlocks_cases`).  So every block has a
site, which is its header, the pieces of its region and its end marker (`mem_gatherBlocks`).
-/

namespace ShaderTemplates.Template

open Text

-- ── Sites ────────────────────────────────────────────────────────────────────

/-- A block among pieces, and what stands around it. -/
structure BlockSite where
  before : List (Piece Token)
  header : Token
  name : String
  region : List (Piece Token)
  stop : Token
  after : List (Piece Token)

namespace BlockSite

/-- The block that is gathered from a site. -/
def block (s : BlockSite) : Block :=
  ⟨s.name, s.header.line, content (tokenSource s.region),
    s.header.source ++ (tokenSource s.region ++ s.stop.source)⟩

/-- The pieces from the region of a site on. -/
def inside (s : BlockSite) : List (Piece Token) := s.region ++ .item s.stop :: s.after

/-- The site is among the pieces: its header is closed by the first end marker behind it. -/
structure Among (s : BlockSite) (ps : List (Piece Token)) : Prop where
  pieces : ps = s.before ++ .item s.header :: s.inside
  header : s.header.marker = .blockHeader s.name
  stop : s.stop.marker = .endBlock
  region : ∀ t, .item t ∈ s.region → t.marker ≠ .endBlock

/-- The site with more pieces in front of it. -/
def behind (s : BlockSite) (more : List (Piece Token)) : BlockSite :=
  { s with before := more ++ s.before }

theorem Among.behind {s : BlockSite} {ps : List (Piece Token)} (h : s.Among ps)
    (more : List (Piece Token)) : (s.behind more).Among (more ++ ps) :=
  ⟨by rw [h.pieces, ← List.append_assoc]; rfl, h.header, h.stop, h.region⟩

theorem Among.after_length_lt {s : BlockSite} {ps : List (Piece Token)} (h : s.Among ps) :
    s.after.length < ps.length := by
  rw [h.pieces, inside]
  simp only [List.length_append, List.length_cons]
  omega

end BlockSite

theorem region_of_splitEndBlock {ps region after : List (Piece Token)} {stop : Token}
    (h : splitEndBlock ps = some (region, stop, after)) :
    ∀ t, .item t ∈ region → t.marker ≠ .endBlock := by
  fun_induction splitEndBlock ps generalizing region with
  | case1 => cases h
  | case2 c rest ih =>
      obtain ⟨⟨region', _⟩, hs, he⟩ := Option.map_eq_some_iff.mp h
      cases he
      intro t ht
      rcases List.mem_cons.mp ht with ht | ht
      · cases ht
      · exact ih hs t ht
  | case3 =>
      cases h
      exact fun t ht => absurd ht List.not_mem_nil
  | case4 u rest hu ih =>
      obtain ⟨⟨region', _⟩, hs, he⟩ := Option.map_eq_some_iff.mp h
      cases he
      intro t ht
      rcases List.mem_cons.mp ht with ht | ht
      · cases ht
        exact hu
      · exact ih hs t ht

/-- Either no block is gathered, or the pieces in front of the first one stay plain. -/
theorem gatherBlocks_cases (ps : List (Piece Token)) :
    gatherBlocks ps = Piece.plain (tokenSource ps) ∨
      ∃ s : BlockSite, s.Among ps ∧
        gatherBlocks ps =
          Piece.plain (tokenSource s.before) ++ .item s.block :: gatherBlocks s.after := by
  -- pieces that open no block come in front of what is gathered behind them
  have skip : ∀ (before : List (Piece Token)) {ps : List (Piece Token)},
      gatherBlocks (before ++ ps) = Piece.plain (tokenSource before) ++ gatherBlocks ps →
      (gatherBlocks ps = Piece.plain (tokenSource ps) ∨
        ∃ s : BlockSite, s.Among ps ∧
          gatherBlocks ps =
            Piece.plain (tokenSource s.before) ++ .item s.block :: gatherBlocks s.after) →
      gatherBlocks (before ++ ps) = Piece.plain (tokenSource (before ++ ps)) ∨
        ∃ s : BlockSite, s.Among (before ++ ps) ∧
          gatherBlocks (before ++ ps) =
            Piece.plain (tokenSource s.before) ++ .item s.block :: gatherBlocks s.after := by
    intro before ps hplain h
    obtain h | ⟨s, hs, h⟩ := h
    · refine .inl ?_
      rw [hplain, h, tokenSource_append, Piece.plain_append]
    · refine .inr ⟨s.behind before, hs.behind before, ?_⟩
      rw [hplain, h]
      show _ = Piece.plain (tokenSource (before ++ s.before)) ++ _
      rw [tokenSource_append, Piece.plain_append, List.append_assoc]
      rfl
  induction ps with
  | nil => exact .inl (by rw [gatherBlocks]; rfl)
  | cons p ps ih =>
      cases p with
      | char c => exact skip [.char c] (by rw [List.singleton_append, gatherBlocks]; rfl) ih
      | item t =>
          by_cases hplain : ∀ name, t.marker = .blockHeader name → splitEndBlock ps = none
          · refine skip [.item t] ?_ ih
            rw [List.singleton_append, gatherBlocks_plain hplain]
            simp
          · obtain ⟨name, hname⟩ := Classical.not_forall.mp hplain
            obtain ⟨hname, hsplit⟩ := Classical.not_imp.mp hname
            obtain ⟨⟨region, stop, after⟩, hs⟩ := Option.ne_none_iff_exists'.mp hsplit
            refine .inr ⟨⟨[], t, name, region, stop, after⟩, ⟨?_, hname, splitEndBlock_marker hs,
              region_of_splitEndBlock hs⟩, gatherBlocks_closed hname hs⟩
            rw [BlockSite.inside, splitEndBlock_append hs]
            rfl

/-- Every block that is gathered has a site. -/
theorem mem_gatherBlocks {ps : List (Piece Token)} {b : Block} (h : .item b ∈ gatherBlocks ps) :
    ∃ s : BlockSite, s.Among ps ∧ s.block = b := by
  induction hn : ps.length using Nat.strongRecOn generalizing ps with
  | ind n ih =>
      have hplain : ∀ cs : List Char, .item b ∉ (Piece.plain cs : List (Piece Block)) := by
        intro cs hm
        simp [Piece.plain] at hm
      obtain hnone | ⟨s, hs, hfirst⟩ := gatherBlocks_cases ps
      · rw [hnone] at h
        exact absurd h (hplain _)
      · rw [hfirst] at h
        rcases List.mem_append.mp h with h | h
        · exact absurd h (hplain _)
        · rcases List.mem_cons.mp h with h | h
          · cases h
            exact ⟨s, hs, rfl⟩
          · obtain ⟨s', hs', hb⟩ := ih _ (hn ▸ hs.after_length_lt) h rfl
            refine ⟨s'.behind (s.before ++ .item s.header :: (s.region ++ [.item s.stop])), ?_, hb⟩
            have hbehind := hs'.behind (s.before ++ .item s.header :: (s.region ++ [.item s.stop]))
            rw [hs.pieces, BlockSite.inside]
            simpa using hbehind

end ShaderTemplates.Template
