import ShaderTemplates.Proofs.BranchTexts
import ShaderTemplates.Proofs.Evaluation

/-!
# Conditionals read from the tokens of the whole template

The branches of a conditional are texts, and each is tokenized anew when it is read.  The same
conditionals are found by pairing the markers that the whole template was split into, between the
markers that delimit the branch (`branches_context_free`).  So the outline of a template can be
read from one tokenization (`Outline.ofTokens`), and it is decided in the same way.

Conditionals are compared by their names, defaults and branches and by the bytes between which they
stand (`Span`); the line of a header counts within the text that was tokenized.
-/

namespace ShaderTemplates.Template

open Text

-- ── Spans ────────────────────────────────────────────────────────────────────

/-- A conditional with the bytes between which it stands. -/
structure Span where
  name : String
  default? : Option Bool
  start : Nat
  stop : Nat
  whenTrue : List Char
  whenFalse : List Char
deriving DecidableEq, Repr

/-- A span in a text that stands `n` bytes further on. -/
def Span.shift (n : Nat) (s : Span) : Span := { s with start := n + s.start, stop := n + s.stop }

/-- The span of a conditional that starts at a given byte. -/
def Conditional.span (start : Nat) (c : Conditional) : Span :=
  ⟨c.name, c.default?, start, start + byteLength c.source, c.whenTrue, c.whenFalse⟩

/-- The spans of the conditionals of a text that starts at a given byte. -/
def spans (start : Nat) : List (Piece Conditional) → List Span
  | [] => []
  | .char c :: ps => spans (start + c.utf8Size) ps
  | .item c :: ps => c.span start :: spans (start + byteLength c.source) ps

/-- A site with the byte at which its header starts. -/
structure Place where
  start : Nat
  site : Site
deriving DecidableEq, Repr

/-- The sites of a text that starts at a given byte. -/
def placesFrom (start : Nat) : List (Piece Site) → List Place
  | [] => []
  | .char c :: ps => placesFrom (start + c.utf8Size) ps
  | .item s :: ps => ⟨start, s⟩ :: placesFrom (start + byteLength s.conditional.source) ps

/-- The places of the outermost conditionals of a text. -/
def places (cs : List Char) : List Place := placesFrom 0 (gatherClosings (tokenize cs))

/-- What stands in front of a branch, from the header of its conditional on. -/
def Site.lead (s : Site) (value : Bool) : List Char :=
  if value then s.header.source
  else
    s.header.source ++ tokenSource s.closing.whenTrue ++
      match s.closing.otherwise? with
      | none => []
      | some o => o.1.source

namespace Place

/-- The text of a branch. -/
def branch (p : Place) (value : Bool) : List Char := p.site.conditional.branch value

/-- The byte at which a branch starts. -/
def branchStart (p : Place) (value : Bool) : Nat := p.start + byteLength (p.site.lead value)

/-- The tokens of the text strictly between the markers that delimit a branch. -/
def region (p : Place) (value : Bool) : List (Piece Token) := p.site.region value

end Place

theorem spans_plain (start : Nat) (cs : List Char) : spans start (Piece.plain cs) = [] := by
  induction cs generalizing start with
  | nil => rfl
  | cons c cs ih => exact ih _

theorem spans_append_plain (start : Nat) (ps : List (Piece Conditional)) (cs : List Char) :
    spans start (ps ++ Piece.plain cs) = spans start ps := by
  induction ps generalizing start with
  | nil => exact spans_plain start cs
  | cons p ps ih =>
      cases p with
      | char c => exact ih _
      | item c => exact congrArg (c.span start :: ·) (ih _)

theorem spans_shift (n start : Nat) (ps : List (Piece Conditional)) :
    (spans start ps).map (Span.shift n) = spans (n + start) ps := by
  induction ps generalizing start with
  | nil => rfl
  | cons p ps ih =>
      cases p with
      | char c => rw [spans, ih, spans, Nat.add_assoc]
      | item c =>
          rw [spans, List.map_cons, ih, spans, Span.shift, Conditional.span, Conditional.span,
            Nat.add_assoc]

/-- A conditional without its line. -/
def Conditional.unplaced (c : Conditional) : Conditional := { c with line := 0 }

theorem spans_unplaced (start : Nat) (ps : List (Piece Conditional)) :
    spans start (ps.map (Piece.map Conditional.unplaced)) = spans start ps := by
  induction ps generalizing start with
  | nil => rfl
  | cons p ps ih =>
      cases p with
      | char c => exact ih _
      | item c => exact congrArg (c.span start :: ·) (ih _)

theorem spans_places (start : Nat) (ps : List (Piece Site)) :
    spans start (ps.map (Piece.map Site.conditional)) =
      (placesFrom start ps).map fun p => p.site.conditional.span p.start := by
  induction ps generalizing start with
  | nil => rfl
  | cons p ps ih =>
      cases p with
      | char c => exact ih _
      | item s => exact congrArg (s.conditional.span start :: ·) (ih _)

theorem mem_of_mem_placesFrom {start : Nat} {ps : List (Piece Site)} {p : Place}
    (h : p ∈ placesFrom start ps) :
    ∃ before after, ps = before ++ .item p.site :: after ∧
      p.start = start + byteLength (Piece.source (·.conditional.source) before) := by
  induction ps generalizing start with
  | nil => exact absurd h List.not_mem_nil
  | cons x ps ih =>
      cases x with
      | char c =>
          obtain ⟨before, after, rfl, hstart⟩ := ih h
          refine ⟨.char c :: before, after, rfl, ?_⟩
          rw [hstart, Piece.source_char, byteLength, Nat.add_assoc]
      | item s =>
          rcases List.mem_cons.mp h with rfl | h
          · exact ⟨[], ps, rfl, rfl⟩
          · obtain ⟨before, after, rfl, hstart⟩ := ih h
            refine ⟨.item s :: before, after, rfl, ?_⟩
            rw [hstart, Piece.source_item, byteLength_append, Nat.add_assoc]

-- ── Branches of a text ───────────────────────────────────────────────────────

/-- The pieces between the markers of a branch stand behind the text that leads to the branch. -/
theorem Site.region_split {s : Site} {ps : List (Piece Token)} (h : s.closing.Divides ps)
    (value : Bool) :
    ∃ before after, .item s.header :: ps = before ++ (s.region value ++ after) ∧
      tokenSource before = s.lead value := by
  obtain ⟨header, name, default?, whenTrue, otherwise?, endIf, rest⟩ := s
  obtain ⟨rfl, -, -, -⟩ := h
  cases otherwise? with
  | none =>
      cases value with
      | true => exact ⟨[.item header], .item endIf :: rest, rfl, List.append_nil _⟩
      | false => exact ⟨.item header :: whenTrue, .item endIf :: rest, rfl, by simp [Site.lead]⟩
  | some o =>
      cases value with
      | true =>
          exact ⟨[.item header], .item o.1 :: (o.2 ++ .item endIf :: rest), rfl, List.append_nil _⟩
      | false =>
          refine ⟨.item header :: (whenTrue ++ [.item o.1]), .item endIf :: rest, ?_, ?_⟩
          · simp [Closing.otherwise, Site.region]
          · simp [Site.lead]

theorem flatMap_bare_sitePiece (ps : List (Piece Site)) :
    ps.flatMap bare.sitePiece = ps.map (Piece.map bare.site) := by
  induction ps with
  | nil => rfl
  | cons p ps ih =>
      rw [List.flatMap_cons, List.map_cons, ih]
      cases p <;> rfl

theorem source_bare_closing (c : Closing) : (bare.closing c).source = c.source := by
  obtain ⟨whenTrue, otherwise?, endIf, rest⟩ := c
  cases otherwise? with
  | none =>
      show tokenSource (bare.pieces whenTrue) ++ [] ++ endIf.source = _
      rw [tokenSource_bare]
      rfl
  | some o =>
      show tokenSource (bare.pieces whenTrue) ++ (o.1.source ++ tokenSource (bare.pieces o.2)) ++
        endIf.source = _
      rw [tokenSource_bare, tokenSource_bare]
      rfl

theorem conditional_bare_site (s : Site) :
    (bare.site s).conditional = s.conditional.unplaced := by
  obtain ⟨header, name, default?, c⟩ := s
  have hsource := source_bare_closing c
  obtain ⟨whenTrue, otherwise?, endIf, rest⟩ := c
  cases otherwise? with
  | none =>
      show Conditional.mk name default? 0 (content (tokenSource (bare.pieces whenTrue))) []
        (header.source ++ (bare.closing _).source) = _
      rw [tokenSource_bare, hsource]
      rfl
  | some o =>
      show Conditional.mk name default? 0 (content (tokenSource (bare.pieces whenTrue)))
        (content (tokenSource (bare.pieces o.2))) (header.source ++ (bare.closing _).source) = _
      rw [tokenSource_bare, tokenSource_bare, hsource]
      rfl

/-- The conditionals among bare pieces are those among the pieces, without their lines. -/
theorem gatherConditionals_bare (ps : List (Piece Token)) :
    gatherConditionals (bare.pieces ps) =
      (gatherConditionals ps).map (Piece.map Conditional.unplaced) := by
  rw [gatherConditionals_eq, gatherConditionals_eq, bare.gatherClosings_pieces,
    flatMap_bare_sitePiece, List.map_map, List.map_map]
  refine congrArg (fun f => (gatherClosings ps).map f) (funext fun p => ?_)
  cases p with
  | char c => rfl
  | item s => exact congrArg Piece.item (conditional_bare_site s)

/-- A branch holds the conditionals that are found by pairing the tokens of the text between the
    markers of the branch. -/
theorem spans_region {p : Position} {cs : List Char} {s : Site}
    (h : .item s ∈ gatherClosings (piecesFrom p cs)) (value : Bool) (start : Nat) :
    spans start (gatherConditionals (s.region value)) =
      spans start (conditionalPieces (s.conditional.branch value)) := by
  obtain ⟨tail, -, hbare⟩ := bare_branch h value
  rw [← spans_unplaced, ← gatherConditionals_bare, hbare, gatherConditionals_append_plain,
    spans_append_plain, gatherConditionals_bare, spans_unplaced]
  rfl

/-- The tokens of a branch stand in the text where its place says. -/
theorem region_place {cs : List Char} {p : Place} (h : p ∈ places cs) (value : Bool) :
    ∃ before after, tokenize cs = before ++ (p.region value ++ after) ∧
      byteLength (tokenSource before) = p.branchStart value := by
  obtain ⟨sites, others, hsites, hstart⟩ := mem_of_mem_placesFrom h
  obtain ⟨front, back, hps, -, hclose, hfront⟩ := gatherClosings_split hsites
  obtain ⟨before, after, hregion, hlead⟩ :=
    p.site.region_split (divides_of_closeConditional? hclose) value
  refine ⟨front ++ before, after, ?_, ?_⟩
  · rw [hps, hregion, List.append_assoc]
    rfl
  · rw [tokenSource_append, byteLength_append, hfront, hlead, Place.branchStart, hstart,
      Nat.zero_add]

theorem source_ne_nil_of_mem_bare {cs : List Char} {t : Token}
    (h : .item t ∈ bare.pieces (tokenize cs)) : t.source ≠ [] := by
  obtain ⟨p, hp, ht⟩ := List.mem_flatMap.mp h
  cases p with
  | char c => cases List.mem_singleton.mp ht
  | item u =>
      have hu := source_ne_nil_of_mem_readPieces hp
      by_cases hinert : u.marker.Inert
      · rw [show bare.piece (.item u) = Piece.plain u.source from bareToken_inert hinert] at ht
        exact absurd ht not_mem_plain
      · rw [bare.piece_token hinert] at ht
        cases List.mem_singleton.mp ht
        exact hu

-- ── Cuts of pieces ───────────────────────────────────────────────────────────

/-- The pieces of the first `n` characters. A token that goes past them is plain text. -/
def cutPieces : Nat → List (Piece Token) → List (Piece Token)
  | 0, _ => []
  | _ + 1, [] => []
  | n + 1, .char c :: ps => .char c :: cutPieces n ps
  | n + 1, .item t :: ps =>
    if t.source.length ≤ n + 1 then .item t :: cutPieces (n + 1 - t.source.length) ps
    else Piece.plain (t.source.take (n + 1))

/-- The tokens of a branch, given those between its markers: the blanks in front of the marker that
    ends the branch are left out. -/
def branchPieces (region : List (Piece Token)) : List (Piece Token) :=
  cutPieces (content (tokenSource region)).length region

@[simp] theorem cutPieces_zero (ps : List (Piece Token)) : cutPieces 0 ps = [] := by
  cases ps <;> rfl

theorem cutPieces_plain_append (n : Nat) (s : List Char) (ps : List (Piece Token)) :
    cutPieces n (Piece.plain s ++ ps) =
      if s.length ≤ n then Piece.plain s ++ cutPieces (n - s.length) ps
      else Piece.plain (s.take n) := by
  induction s generalizing n with
  | nil => simp [Piece.plain]
  | cons c s ih =>
      cases n with
      | zero => simp [Piece.plain]
      | succ n =>
          show .char c :: cutPieces n (Piece.plain s ++ ps) = _
          rw [ih]
          by_cases hn : s.length ≤ n
          · rw [if_pos hn, if_pos (by simpa using hn), List.length_cons, Nat.add_sub_add_right]
            rfl
          · rw [if_neg hn, if_neg (by simpa using hn)]
            rfl

/-- A cut may be made before or after leaving out what does not matter to conditionals. -/
theorem bare_cutPieces (n : Nat) (ps : List (Piece Token)) :
    bare.pieces (cutPieces n ps) = cutPieces n (bare.pieces ps) := by
  induction ps generalizing n with
  | nil => cases n <;> rfl
  | cons p ps ih =>
      cases n with
      | zero => rw [cutPieces_zero, cutPieces_zero, Telling.pieces_nil]
      | succ n =>
          cases p with
          | char c =>
              show .char c :: bare.pieces (cutPieces n ps) = .char c :: cutPieces n (bare.pieces ps)
              rw [ih]
          | item t =>
              rw [cutPieces, Telling.pieces_cons]
              by_cases ht : t.marker.Inert
              · have hplain : bare.piece (.item t) = Piece.plain t.source := bareToken_inert ht
                rw [hplain, cutPieces_plain_append]
                split
                · rw [Telling.pieces_cons, hplain, ih]
                · exact bare_plain _
              · rw [bare.piece_token ht, List.singleton_append, cutPieces]
                have hsource : (bare.token t).source = t.source := rfl
                rw [hsource]
                split
                · rw [Telling.pieces_cons, bare.piece_token ht, ih]
                  rfl
                · exact bare_plain _

/-- A cut behind whole tokens leaves them as they are. -/
theorem cutPieces_append {ps : List (Piece Token)} (h : ∀ t, .item t ∈ ps → t.source ≠ []) (n : Nat)
    (qs : List (Piece Token)) :
    cutPieces ((tokenSource ps).length + n) (ps ++ qs) = ps ++ cutPieces n qs := by
  induction ps with
  | nil => exact congrArg (cutPieces · qs) (Nat.zero_add n)
  | cons p ps ih =>
      have hps := ih fun t ht => h t (List.mem_cons_of_mem _ ht)
      cases p with
      | char c =>
          rw [tokenSource_char, List.length_cons, Nat.add_right_comm]
          exact congrArg (.char c :: ·) hps
      | item t =>
          have hpos := List.length_pos_iff.mpr (h t List.mem_cons_self)
          obtain ⟨k, hk⟩ : ∃ k, (tokenSource (.item t :: ps)).length + n = k + 1 :=
            ⟨(tokenSource (.item t :: ps)).length + n - 1, by
              rw [tokenSource_item, List.length_append]
              omega⟩
          have hlen := hk
          rw [tokenSource_item, List.length_append] at hlen
          rw [hk, List.cons_append, cutPieces, if_pos (by omega),
            show k + 1 - t.source.length = (tokenSource ps).length + n by omega, hps]
          rfl

/-- What is cut out of pieces is one of their tokens. -/
theorem mem_cutPieces {n : Nat} {ps : List (Piece Token)} {t : Token}
    (h : .item t ∈ cutPieces n ps) : .item t ∈ ps := by
  induction ps generalizing n with
  | nil => cases n <;> exact absurd h List.not_mem_nil
  | cons p ps ih =>
      cases n with
      | zero =>
          rw [cutPieces_zero] at h
          exact absurd h List.not_mem_nil
      | succ n =>
          cases p with
          | char c =>
              rcases List.mem_cons.mp h with h | h
              · cases h
              · exact List.mem_cons_of_mem _ (ih h)
          | item u =>
              rw [cutPieces] at h
              split at h
              · rcases List.mem_cons.mp h with h | h
                · exact h ▸ List.mem_cons_self
                · exact List.mem_cons_of_mem _ (ih h)
              · exact absurd h not_mem_plain

-- ── The outline of tokens ────────────────────────────────────────────────────

/-- The characters and the tokens of the pieces. -/
def weight (ps : List (Piece Token)) : Nat := (tokenSource ps).length + (Piece.items ps).length

theorem weight_append (ps qs : List (Piece Token)) : weight (ps ++ qs) = weight ps + weight qs := by
  simp only [weight, tokenSource_append, Piece.items_append, List.length_append]
  omega

theorem weight_item (t : Token) (ps : List (Piece Token)) :
    weight (.item t :: ps) = t.source.length + 1 + weight ps := by
  simp only [weight, tokenSource_item, Piece.items_item, List.length_append, List.length_cons]
  omega

theorem weight_cutPieces_le (n : Nat) (ps : List (Piece Token)) :
    weight (cutPieces n ps) ≤ weight ps := by
  induction ps generalizing n with
  | nil => cases n <;> exact Nat.le_refl _
  | cons p ps ih =>
      cases n with
      | zero => exact Nat.zero_le _
      | succ n =>
          cases p with
          | char c =>
              have h := ih n
              simp only [cutPieces, weight, tokenSource_char, Piece.items_char,
                List.length_cons] at h ⊢
              omega
          | item t =>
              rw [cutPieces, weight_item]
              split
              · have h := ih (n + 1 - t.source.length)
                rw [weight_item]
                omega
              · simp only [weight, tokenSource_plain, Piece.items_plain, List.length_take,
                  List.length_nil]
                omega

theorem weight_region_lt {ps : List (Piece Token)} {s : Site} (h : .item s ∈ gatherClosings ps)
    (value : Bool) : weight (branchPieces (s.region value)) < weight ps := by
  refine Nat.lt_of_le_of_lt (weight_cutPieces_le _ _) ?_
  obtain hnil | ⟨⟨before, header, stop, after, rfl, -, -⟩, -⟩ := between_of_mem h value
  · obtain ⟨a, b, rfl⟩ := List.append_of_mem (header_mem h)
    rw [hnil, weight_append, weight_item]
    show 0 < _
    omega
  · rw [weight_append, weight_item, weight_append]
    omega

namespace Outline

/-- Puts a piece of a text in front of an outline, given how the tokens of branches are read. -/
def consSite (read : List (Piece Token) → Outline) : Piece Site → Outline → Outline
  | .char c, rest => .char c rest
  | .item s, rest =>
    .choice s.name s.default? s.header.line (read (branchPieces (s.region true)))
      (read (branchPieces (s.region false))) rest

/-- The outline of a text that has been tokenized. -/
def ofTokens (ps : List (Piece Token)) : Outline :=
  (gatherClosings ps).attach.foldr
    (fun p rest =>
      match p with
      | ⟨.char c, _⟩ => .char c rest
      | ⟨.item s, _h⟩ =>
        .choice s.name s.default? s.header.line (ofTokens (branchPieces (s.region true)))
          (ofTokens (branchPieces (s.region false))) rest)
    .done
termination_by weight ps
decreasing_by
  · exact weight_region_lt _h true
  · exact weight_region_lt _h false

/-- The outline of tokens is put together from the sites, the tokens of each branch being read by
    themselves. -/
theorem ofTokens_eq (ps : List (Piece Token)) :
    ofTokens ps = (gatherClosings ps).foldr (consSite ofTokens) .done := by
  have key : ∀ (ps : List (Piece Site)) (f : {p // p ∈ ps} → Outline → Outline),
      (∀ p rest, f p rest = consSite ofTokens p.1 rest) →
        ps.attach.foldr f .done = ps.foldr (consSite ofTokens) .done := fun ps f hf => by
    rw [show f = fun p rest => consSite ofTokens p.1 rest from funext fun p => funext (hf p)]
    exact List.foldr_attach
  rw [ofTokens]
  refine key _ _ fun p rest => ?_
  obtain ⟨p, hp⟩ := p
  cases p <;> rfl

/-- An outline without the lines of its headers. -/
def unplaced : Outline → Outline
  | .done => .done
  | .char c rest => .char c rest.unplaced
  | .choice name default? _ t u rest =>
    .choice name default? 0 t.unplaced u.unplaced rest.unplaced

/-- The lines of headers do not matter to the decision of conditionals. -/
theorem resolve_unplaced (conditions : Table Bool) (o : Outline) :
    (o.unplaced.resolve conditions).mapError Unresolved.demanded =
      (o.resolve conditions).mapError Unresolved.demanded := by
  induction o with
  | done => rfl
  | char c rest ih =>
      rw [unplaced, Outline.resolve, Outline.resolve, mapError_map, mapError_map, ih]
  | choice name default? line t u rest iht ihu ih =>
      rw [unplaced, resolve_choice, resolve_choice, ih]
      congr 1
      funext value
      cases value with
      | true => rw [if_pos rfl, if_pos rfl, iht]
      | false => rw [if_neg (by decide), if_neg (by decide), ihu]

/-- Sites that agree, as far as conditionals are concerned, have the same outline if their branches
    are read in the same way. -/
theorem foldr_consSite {as bs : List (Piece Site)} {readTokens : List (Piece Token) → Outline}
    {readText : List Char → Outline}
    (h : as.map (Piece.map bare.site) = bs.map (Piece.map bare.site))
    (hread : ∀ s, .item s ∈ bs → ∀ (value : Bool) (region : List (Piece Token)),
      bare.pieces region = bare.pieces (s.region value) →
        (readTokens (branchPieces region)).unplaced =
          (readText (s.conditional.branch value)).unplaced) :
    (as.foldr (consSite readTokens) .done).unplaced =
      ((bs.map (Piece.map Site.conditional)).foldr (consPiece readText) .done).unplaced := by
  induction as generalizing bs with
  | nil =>
      cases bs with
      | nil => rfl
      | cons b bs => cases h
  | cons a as ih =>
      cases bs with
      | nil => cases h
      | cons b bs =>
          obtain ⟨hab, htail⟩ := List.cons.inj h
          have hrest := ih htail fun s hs => hread s (List.mem_cons_of_mem _ hs)
          cases a with
          | char c =>
              cases b with
              | char c' =>
                  cases hab
                  exact congrArg (Outline.char c) hrest
              | item s => cases hab
          | item s =>
              cases b with
              | char c => cases hab
              | item s' =>
                  have hsite : bare.site s = bare.site s' := Piece.item.inj hab
                  obtain ⟨-, hname, hdefault, -⟩ := Site.mk.inj hsite
                  have hregion : ∀ value, bare.pieces (s.region value) =
                      bare.pieces (s'.region value) := by
                    intro value
                    rw [← bare.region_site, hsite, bare.region_site]
                  have hbranch := fun value =>
                    hread s' List.mem_cons_self value (s.region value) (hregion value)
                  show Outline.choice s.name s.default? 0 _ _ _ =
                    Outline.choice s'.name s'.default? 0 _ _ _
                  rw [hbranch true, hbranch false, hname, hdefault]
                  congr 1

/-- Tokens that agree with those of a text, as far as conditionals are concerned, have its
    outline. -/
theorem ofTokens_of_bare {ps : List (Piece Token)} {cs : List Char}
    (h : bare.pieces ps = bare.pieces (tokenize cs)) :
    (ofTokens ps).unplaced = (ofText cs).unplaced := by
  induction hn : cs.length using Nat.strongRecOn generalizing ps cs with
  | ind n ih =>
      subst hn
      have hsites : (gatherClosings ps).map (Piece.map bare.site) =
          (gatherClosings (tokenize cs)).map (Piece.map bare.site) := by
        rw [← flatMap_bare_sitePiece, ← bare.gatherClosings_pieces, h, bare.gatherClosings_pieces,
          flatMap_bare_sitePiece]
      rw [ofTokens_eq, ofText_eq, conditionalPieces, gatherConditionals_eq]
      refine foldr_consSite hsites ?_
      intro s hs value region hregion
      have hs' : .item s ∈ gatherClosings (piecesFrom (.lineAt 1) cs) := by
        rw [← tokenize_eq_piecesFrom]
        exact hs
      have hshort : (s.conditional.branch value).length < cs.length := by
        refine branch_length_lt ?_ value
        rw [conditionalPieces, gatherConditionals_eq]
        exact List.mem_map_of_mem (f := Piece.map Site.conditional) hs
      obtain ⟨tail, -, hbare⟩ := bare_branch hs' value
      refine ih _ hshort ?_ rfl
      -- the cut falls where the content of the region ends
      have htext : tokenSource region = tokenSource (s.region value) := by
        rw [← tokenSource_bare region, hregion, tokenSource_bare]
      have hlen : (content (tokenSource region)).length =
          (tokenSource (bare.pieces (tokenize (s.conditional.branch value)))).length := by
        rw [htext, ← s.branch_eq, tokenSource_bare, tokenSource_tokenize]
      rw [branchPieces, bare_cutPieces, hregion, hbare, hlen, ← Nat.add_zero (List.length _),
        cutPieces_append fun t ht => source_ne_nil_of_mem_bare ht, cutPieces_zero, List.append_nil]

/-- The outline of a template may be read from one tokenization of all its text. -/
theorem ofTokens_tokenize (cs : List Char) :
    (ofTokens (tokenize cs)).unplaced = (ofText cs).unplaced :=
  ofTokens_of_bare rfl

end Outline

-- ── Branches without their text ──────────────────────────────────────────────

/-- Branches are context-free. The conditionals of a branch, which is tokenized anew, are those that
    pairing finds among the tokens of the whole text between the markers of the branch, with the
    same names, defaults, bytes and branches. So the outline that reading branch after branch gives,
    and what is decided by it, is that of a single tokenization of the text. -/
theorem branches_context_free (cs : List Char) :
    spans 0 (conditionalPieces cs) =
        (places cs).map (fun p => p.site.conditional.span p.start) ∧
      (∀ p ∈ places cs, ∀ value,
        (∃ before after, tokenize cs = before ++ (p.region value ++ after) ∧
          byteLength (tokenSource before) = p.branchStart value) ∧
        p.branch value = content (tokenSource (p.region value)) ∧
        (spans 0 (conditionalPieces (p.branch value))).map (Span.shift (p.branchStart value)) =
          spans (p.branchStart value) (gatherConditionals (p.region value))) ∧
      (Outline.ofText cs).unplaced = (Outline.ofTokens (tokenize cs)).unplaced ∧
      ∀ conditions,
        ((Outline.ofText cs).resolve conditions).mapError Unresolved.demanded =
          ((Outline.ofTokens (tokenize cs)).resolve conditions).mapError Unresolved.demanded := by
  have houtline := Outline.ofTokens_tokenize cs
  refine ⟨?_, fun p hp value => ⟨region_place hp value, p.site.branch_eq value, ?_⟩,
    houtline.symm, fun conditions => ?_⟩
  · rw [conditionalPieces, gatherConditionals_eq, spans_places]
    rfl
  · obtain ⟨before, after, hps, -⟩ := mem_of_mem_placesFrom hp
    have hmem : .item p.site ∈ gatherClosings (piecesFrom (.lineAt 1) cs) := by
      rw [← tokenize_eq_piecesFrom, hps]
      exact List.mem_append_right _ List.mem_cons_self
    rw [spans_shift, Nat.add_zero]
    exact (spans_region hmem value _).symm
  · rw [← Outline.resolve_unplaced, ← houtline, Outline.resolve_unplaced]

end ShaderTemplates.Template
