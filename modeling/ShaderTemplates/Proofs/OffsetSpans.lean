import ShaderTemplates.Proofs.OffsetConversion

/-!
# Offsets are sound

Tokens, conditionals and blocks stand one behind the other between offsets at which characters end,
and their lines are those on which they start (`Spans`).  The branches and bodies that are cut out
of the text stand between the offsets of their directives (`SameConditional`, `SameBlock`).
-/

namespace ShaderTemplates.Template.Offsets

open Text

-- ── Stretches ────────────────────────────────────────────────────────────────

/-- The line on which an offset lies: one more than the line breaks in front of it. -/
def LineOf (cs : List Char) (n line : Nat) : Prop :=
  ∃ before, slice cs 0 n = .ok before ∧ line = 1 + lineBreaks before

/-- A stretch of a text that is not empty, between two offsets at which characters end. -/
structure Stretch (cs : List Char) (start stop : Nat) : Prop where
  lt : start < stop
  le_length : stop ≤ byteLength cs
  before : ∃ text, slice cs 0 start = .ok text
  own : ∃ text, slice cs start stop = .ok text
  after : ∃ text, sliceFrom cs stop = .ok text

/-- What was found in a text takes stretches of it that follow each other, and is said to stand on
    the lines on which these start. -/
structure Spans {β : Type} (cs : List Char) (start stop line : β → Nat) (found : List β) :
    Prop where
  stretch : ∀ b ∈ found, Stretch cs (start b) (stop b)
  line : ∀ b ∈ found, LineOf cs (start b) (line b)
  ordered : found.Pairwise fun b b' => stop b ≤ start b'

theorem slice_append (before rest : List Char) :
    slice (before ++ rest) 0 (byteLength before) = .ok before := by
  have hat : At (before ++ rest) 0 (before ++ rest) := at_zero _
  have hbefore := hat.slice_eq
  rwa [Nat.zero_add] at hbefore

theorem stretch_of_append {before own after : List Char} (hown : own ≠ []) :
    Stretch (before ++ (own ++ after)) (byteLength before)
      (byteLength before + byteLength own) := by
  have hat : At (before ++ (own ++ after)) (byteLength before) (own ++ after) := at_append _ _
  have hlt : 0 < byteLength own := Nat.pos_of_ne_zero (mt byteLength_eq_zero.1 hown)
  refine ⟨Nat.lt_add_of_pos_right hlt, ?_, ⟨_, slice_append _ _⟩, ⟨_, hat.slice_eq⟩,
    ⟨_, hat.skip.sliceFrom_eq⟩⟩
  rw [← hat.skip.length_eq]
  exact Nat.le_add_right _ _

theorem lineOf_append {before rest : List Char} {line : Nat} :
    LineOf (before ++ rest) (byteLength before) line ↔ line = 1 + lineBreaks before := by
  constructor
  · rintro ⟨before', hbefore, rfl⟩
    rw [slice_append, Except.ok.injEq] at hbefore
    rw [hbefore]
  · intro hline
    exact ⟨before, slice_append before rest, hline⟩

/-- An item stands on a stretch of its text. -/
theorem stretch_of_placed {α β : Type} {text : α → List Char} {Finds : Nat → α → β → Prop}
    {start stop : β → Nat} {cs : List Char} {ps : List (Piece α)} {found : List β}
    (h : Placed text Finds 0 ps found) (hsource : Piece.source text ps = cs)
    (hplace : ∀ m a b, Finds m a b → start b = m ∧ stop b = m + byteLength (text a))
    {b : β} (hb : b ∈ found) (hlt : start b < stop b) : Stretch cs (start b) (stop b) := by
  obtain ⟨before, a, after, rfl, hfinds⟩ := h.split hb
  obtain ⟨hstart, hstop⟩ := hplace _ _ _ hfinds
  have hne : text a ≠ [] := by
    intro hnil
    rw [hstart, hstop, hnil] at hlt
    exact Nat.lt_irrefl _ hlt
  rw [← hsource, Piece.source_append, Piece.source_item, hstart, hstop, Nat.zero_add]
  exact stretch_of_append hne

-- ── Tokens ───────────────────────────────────────────────────────────────────

theorem line_pastChar (p : Position) (c : Char) :
    (p.pastChar c).line = p.line + lineBreaks [c] := by
  unfold Position.pastChar
  by_cases hc : c = '\n'
  · rw [if_pos hc, hc]
    rfl
  · have hzero : lineBreaks [c] = 0 := List.count_eq_zero.2 (by simpa using Ne.symm hc)
    rw [if_neg hc, hzero, Nat.add_zero]
    split <;> rfl

/-- The line of a token is the line of the reader and the line breaks that it passed. -/
theorem line_of_piecesFrom {p : Position} {cs : List Char} {before after : List (Piece Template.Token)}
    {t : Template.Token} (h : piecesFrom p cs = before ++ .item t :: after) :
    t.line = p.line + lineBreaks (tokenSource before) := by
  induction p, cs using reading_induction generalizing before with
  | nil p => exact absurd (h ▸ List.mem_append_right before List.mem_cons_self) List.not_mem_nil
  | char p c rest hm ih =>
      rw [piecesFrom_char hm] at h
      cases before with
      | nil => cases h
      | cons x before =>
          obtain ⟨rfl, hrest⟩ := List.cons.inj h
          show t.line = p.line + lineBreaks ([c] ++ tokenSource before)
          rw [ih hrest, line_pastChar, lineBreaks_append, Nat.add_assoc]
  | marker p cs f hm ih =>
      rw [piecesFrom_marker hm] at h
      cases before with
      | nil =>
          cases h
          rfl
      | cons x before =>
          obtain ⟨rfl, hrest⟩ := List.cons.inj h
          rw [ih hrest, Position.pastMarker, tokenSource_item, lineBreaks_append, Nat.add_assoc]

/-- A token is found at an offset. -/
def FindsToken (n : Nat) (t : Template.Token) (found : Token) : Prop :=
  found = ⟨t.marker, n, n + byteLength t.source, t.line⟩

theorem placed_located (n : Nat) (ps : List (Piece Template.Token)) :
    Placed Template.Token.source FindsToken n ps (located n ps) := by
  induction ps generalizing n with
  | nil => exact .nil n
  | cons p ps ih =>
      cases p with
      | char c => exact .char (ih _)
      | item t => exact .item rfl (ih _)

/-- The tokens of a text stand on stretches of it that follow each other, on their lines. -/
theorem spans_tokens (cs : List Char) :
    Spans cs Token.start Token.stop Token.line (located 0 (tokenize cs)) := by
  have hplaced := placed_located 0 (tokenize cs)
  have hplace : ∀ m t f, FindsToken m t f →
      f.start = m ∧ f.stop = m + byteLength t.source := by
    rintro m t f rfl
    exact ⟨rfl, rfl⟩
  refine ⟨fun f hf => stretch_of_placed hplaced (tokenSource_tokenize cs) hplace hf ?_,
    fun f hf => ?_, hplaced.pairwise hplace⟩
  · obtain ⟨before, t, after, hps, rfl⟩ := hplaced.split hf
    have hmem : .item t ∈ tokenize cs := hps ▸ List.mem_append_right before List.mem_cons_self
    have hne : byteLength t.source ≠ 0 := mt byteLength_eq_zero.1 (source_ne_nil_of_mem_readPieces hmem)
    exact Nat.lt_add_of_pos_right (Nat.pos_of_ne_zero hne)
  · obtain ⟨before, t, after, hps, rfl⟩ := hplaced.split hf
    have hline : t.line = 1 + lineBreaks (tokenSource before) := by
      rw [tokenize_eq_piecesFrom] at hps
      exact line_of_piecesFrom hps
    have hsource := tokenSource_tokenize cs
    rw [hps, tokenSource_append] at hsource
    show LineOf cs (0 + byteLength (tokenSource before)) t.line
    rw [hline, ← hsource, Nat.zero_add]
    exact lineOf_append.mpr rfl

-- ── Conditionals and blocks ──────────────────────────────────────────────────

/-- What starts with the header of a directive stands where its header stands. -/
theorem spans_of_placed {α β : Type} {text : α → List Char} {Finds : Nat → α → β → Prop}
    {start stop line : β → Nat} {cs : List Char} {ps : List (Piece α)} {found : List β}
    (h : Placed text Finds 0 ps found) (hsource : Piece.source text ps = cs)
    (hplace : ∀ m a b, Finds m a b → start b = m ∧ stop b = m + byteLength (text a))
    (hheader : ∀ m a b, Finds m a b → ∃ t ∈ located 0 (tokenize cs),
      t.start = start b ∧ t.line = line b ∧ t.stop ≤ stop b) :
    Spans cs start stop line found := by
  have htokens := spans_tokens cs
  refine ⟨fun b hb => stretch_of_placed h hsource hplace hb ?_, fun b hb => ?_, h.pairwise hplace⟩
  · obtain ⟨_, a, _, _, hfinds⟩ := h.split hb
    obtain ⟨t, ht, hstart, -, hstop⟩ := hheader _ _ _ hfinds
    have hlt := (htokens.stretch t ht).lt
    omega
  · obtain ⟨_, a, _, _, hfinds⟩ := h.split hb
    obtain ⟨t, ht, hstart, hline, -⟩ := hheader _ _ _ hfinds
    rw [← hstart, ← hline]
    exact htokens.line t ht

theorem spans_conditionals {cs : List Char} {found : List Conditional}
    (h : conditionals cs = .ok found) :
    Spans cs Conditional.start Conditional.stop Conditional.line found := by
  obtain ⟨found', hfound, hplaced⟩ := placed_conditionals cs
  cases h.symm.trans hfound
  exact spans_of_placed hplaced (source_conditionalPieces cs)
    (fun m c f hf => ⟨hf.start_eq, hf.stop_eq⟩) fun m c f hf => hf.header

theorem spans_blocks {cs : List Char} {found : List Block} (h : blocks cs = .ok found) :
    Spans cs Block.start Block.stop Block.line found := by
  obtain ⟨found', hfound, hplaced⟩ := placed_blocks cs
  cases h.symm.trans hfound
  exact spans_of_placed hplaced (source_blockPieces cs)
    (fun m b f hf => ⟨hf.start_eq, hf.stop_eq⟩) fun m b f hf => hf.header

-- ── Soundness ────────────────────────────────────────────────────────────────

/-- A token that is found by offsets is one that is read on the characters. -/
structure SameToken (cs : List Char) (t : Template.Token) (found : Token) : Prop where
  marker_eq : found.marker = t.marker
  line_eq : found.line = t.line
  cut : slice cs found.start found.stop = .ok t.source

/-- A conditional that is found by offsets is one that is gathered from the tokens, and its branches
    stand inside of it. -/
structure SameConditional (cs : List Char) (c : Template.Conditional) (found : Conditional) :
    Prop where
  name_eq : found.name = c.name
  default_eq : found.default? = c.default?
  line_eq : found.line = c.line
  cut : slice cs found.start found.stop = .ok c.source
  branch_eq : ∀ value, found.branch value = c.branch value
  whenTrue : found.whenTrue.Within cs found.start found.stop
  whenFalse : ∀ s ∈ found.whenFalse?, s.Within cs found.start found.stop

/-- A block that is found by offsets is one that is gathered from the tokens, and its body stands
    inside of it. -/
structure SameBlock (cs : List Char) (b : Template.Block) (found : Block) : Prop where
  name_eq : found.name = b.name
  line_eq : found.line = b.line
  cut : slice cs found.start found.stop = .ok b.source
  body_eq : found.body.text = b.body
  body : found.body.Within cs found.start found.stop

theorem forall₂_tokens (cs : List Char) :
    List.Forall₂ (SameToken cs) (Piece.items (tokenize cs)) (located 0 (tokenize cs)) := by
  have hat : At cs 0 (tokenSource (tokenize cs)) := (remains_tokenize cs).at_text
  refine (placed_located 0 (tokenize cs)).forall₂ hat ?_
  rintro m t f rfl hcut
  exact ⟨rfl, rfl, hcut⟩

theorem forall₂_conditionals {cs : List Char} {found : List Conditional}
    (h : conditionals cs = .ok found) :
    List.Forall₂ (SameConditional cs) (Template.conditionals cs) found := by
  obtain ⟨found', hfound, hplaced⟩ := placed_conditionals cs
  cases h.symm.trans hfound
  have hat : At cs 0 (Piece.source Conditional.source (conditionalPieces cs)) := by
    rw [source_conditionalPieces]
    exact at_zero cs
  refine hplaced.forall₂ hat fun m c f hf hcut => ?_
  rw [← hf.stop_eq, ← hf.start_eq] at hcut
  exact ⟨hf.name_eq, hf.default_eq, hf.line_eq, hcut, hf.branch_eq, hf.whenTrue, hf.whenFalse⟩

theorem forall₂_blocks {cs : List Char} {found : List Block} (h : blocks cs = .ok found) :
    List.Forall₂ (SameBlock cs) (Template.blocks cs) found := by
  obtain ⟨found', hfound, hplaced⟩ := placed_blocks cs
  cases h.symm.trans hfound
  have hat : At cs 0 (Piece.source Block.source (blockPieces cs)) := by
    rw [source_blockPieces]
    exact at_zero cs
  refine hplaced.forall₂ hat fun m b f hf hcut => ?_
  rw [← hf.stop_eq, ← hf.start_eq] at hcut
  exact ⟨hf.name_eq, hf.line_eq, hcut, hf.body_eq, hf.body⟩

end ShaderTemplates.Template.Offsets
