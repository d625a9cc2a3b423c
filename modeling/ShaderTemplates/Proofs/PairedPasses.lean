import ShaderTemplates.Proofs.CarriageReturns
import ShaderTemplates.Proofs.Evaluation

/-!
# Passes over paired texts

Each pass finds in a text without its carriage returns what it finds in the text itself: the same
conditionals (`ofText_withoutReturns`), blocks (`blockPieces_withoutReturns`) and variables
(`variablePieces_withoutReturns`).  What it makes of the text is paired again, as long as the bodies
and the values are paired themselves, so the next pass can go on with it.
-/

namespace ShaderTemplates.Template

open Text

-- ── Pieces ───────────────────────────────────────────────────────────────────

namespace Piece

variable {α β ε : Type}

/-- A piece without carriage returns, given what becomes of its item. -/
def withoutReturns (f : α → β) : Piece α → List (Piece β)
  | .char c => plain (Template.withoutReturns [c])
  | .item a => [.item (f a)]

theorem flatMap_withoutReturns_plain (f : α → β) (cs : List Char) :
    (plain cs).flatMap (withoutReturns f) = plain (Template.withoutReturns cs) := by
  induction cs with
  | nil => rfl
  | cons c cs ih =>
      rw [← List.singleton_append, Template.withoutReturns_append, plain_append, plain_append, ← ih]
      rfl

theorem items_withoutReturns (f : α → β) (ps : List (Piece α)) :
    items (ps.flatMap (withoutReturns f)) = (items ps).map f := by
  induction ps with
  | nil => rfl
  | cons p ps ih =>
      rw [List.flatMap_cons, items_append, ih]
      cases p with
      | char c => rw [withoutReturns, items_plain, items_char, List.nil_append]
      | item a => rfl

/-- Where no replacement brings a carriage return, the items are replaced in the text without
    carriage returns as in the text itself. -/
theorem substitute_withoutReturns {replace : α → Except ε (List Char)}
    {replace' : β → Except ε (List Char)} {f : α → β} {ps : List (Piece α)}
    (hf : ∀ a, replace' (f a) = replace a)
    (hreplace : ∀ a text, .item a ∈ ps → replace a = .ok text → '\r' ∉ text) :
    substitute replace' (ps.flatMap (withoutReturns f)) =
      (substitute replace ps).map Template.withoutReturns := by
  induction ps with
  | nil => rfl
  | cons p ps ih =>
      have hrest := ih fun a text ha => hreplace a text (List.mem_cons_of_mem p ha)
      rw [List.flatMap_cons]
      cases p with
      | char c =>
          rw [withoutReturns, substitute_append, substitute_plain, ok_bind, hrest, substitute]
          cases substitute replace ps with
          | error e => rfl
          | ok after =>
              refine congrArg Except.ok ?_
              rw [← Template.withoutReturns_append, List.singleton_append]
      | item a =>
          rw [withoutReturns, List.singleton_append, substitute, hrest, hf, substitute]
          cases ha : replace a with
          | error e => rfl
          | ok text =>
              have htext := withoutReturns_of_not_mem (hreplace a text List.mem_cons_self ha)
              cases substitute replace ps with
              | error e => rfl
              | ok after =>
                  refine congrArg Except.ok ?_
                  rw [Template.withoutReturns_append, htext]

/-- Every carriage return among the pieces is followed by a line break. -/
def Paired : List (Piece α) → Prop
  | [] => True
  | .char c :: rest => (c = '\r' → ∃ after, rest = .char '\n' :: after) ∧ Paired rest
  | .item _ :: rest => Paired rest

/-- An item that starts with something else is no line break. -/
theorem paired_of_source (text : α → List Char) {ps : List (Piece α)}
    (hitems : ∀ a, .item a ∈ ps → ∃ c s, text a = c :: s ∧ c ≠ '\n')
    (h : Template.Paired (source text ps)) : Paired ps := by
  induction ps with
  | nil => trivial
  | cons p ps ih =>
      have hrest := ih fun a ha => hitems a (List.mem_cons_of_mem p ha)
      cases p with
      | item a =>
          rw [source_item] at h
          exact hrest h.suffix
      | char c =>
          rw [source_char] at h
          refine ⟨?_, hrest h.2⟩
          intro hc
          obtain ⟨after, hafter⟩ := h.1 hc
          cases ps with
          | nil => cases hafter
          | cons q qs =>
              cases q with
              | char d =>
                  obtain rfl := (List.cons.inj hafter).1
                  exact ⟨qs, rfl⟩
              | item a =>
                  obtain ⟨d, s, htext, hd⟩ := hitems a (by simp)
                  rw [source_item, htext] at hafter
                  exact absurd (List.cons.inj hafter).1 hd

theorem paired_substitute {replace : α → Except ε (List Char)} {ps : List (Piece α)}
    {out : List Char} (hps : Paired ps)
    (hreplace : ∀ a text, .item a ∈ ps → replace a = .ok text → Template.Paired text)
    (h : substitute replace ps = .ok out) : Template.Paired out := by
  induction ps generalizing out with
  | nil =>
      cases h
      trivial
  | cons p ps ih =>
      have hrest : ∀ a text, .item a ∈ ps → replace a = .ok text → Template.Paired text :=
        fun a text ha => hreplace a text (List.mem_cons_of_mem p ha)
      cases p with
      | char c =>
          obtain ⟨after, hs, rfl⟩ := map_eq_ok.mp h
          refine ⟨?_, ih hps.2 hrest hs⟩
          intro hc
          obtain ⟨qs, rfl⟩ := hps.1 hc
          obtain ⟨more, -, rfl⟩ := map_eq_ok.mp hs
          exact ⟨more, rfl⟩
      | item a =>
          obtain ⟨text, htext, h⟩ := bind_eq_ok.mp h
          obtain ⟨after, hs, h⟩ := bind_eq_ok.mp h
          cases h
          exact (hreplace a text List.mem_cons_self htext).append (ih hps hrest hs)

end Piece

-- ── Conditionals ─────────────────────────────────────────────────────────────

namespace Outline

def withoutReturns : Outline → Outline
  | .done => .done
  | .char c rest => if c = '\r' then rest.withoutReturns else .char c rest.withoutReturns
  | .choice name default? line whenTrue whenFalse rest =>
    .choice name default? line whenTrue.withoutReturns whenFalse.withoutReturns rest.withoutReturns

theorem conditions_withoutReturns (o : Outline) : o.withoutReturns.conditions = o.conditions := by
  induction o with
  | done => rfl
  | char c rest ih =>
      rw [withoutReturns]
      split
      · exact ih
      · exact ih
  | choice name default? line t u rest iht ihu ih =>
      rw [withoutReturns, conditions, conditions, iht, ihu, ih]

/-- What an outline is resolved to, without the carriage returns. -/
def dropReturns (r : List Char × Nat) : List Char × Nat := (Template.withoutReturns r.1, r.2)

theorem resolve_withoutReturns (values : Table Bool) (o : Outline) :
    o.withoutReturns.resolve values = (o.resolve values).map dropReturns := by
  induction o with
  | done => rfl
  | char c rest ih =>
      rw [withoutReturns, resolve]
      by_cases hc : c = '\r'
      · subst hc
        rw [if_pos rfl, ih]
        cases rest.resolve values with
        | error e => rfl
        | ok after => rfl
      · rw [if_neg hc, resolve, ih]
        cases rest.resolve values with
        | error e => rfl
        | ok after => exact congrArg (fun cs => Except.ok (cs, _)) (withoutReturns_cons hc _).symm
  | choice name default? line t u rest iht ihu ih =>
      have hbranch : ∀ {o : Outline}, o.withoutReturns.resolve values =
          (o.resolve values).map dropReturns →
          (do
            let branch ← o.withoutReturns.resolve values
            let after ← rest.withoutReturns.resolve values
            return (branch.1 ++ after.1, branch.2 + after.2 + 1)) =
          (do
            let branch ← o.resolve values
            let after ← rest.resolve values
            return (branch.1 ++ after.1, branch.2 + after.2 + 1)).map dropReturns := by
        intro o ho
        rw [ho, ih]
        cases o.resolve values with
        | error e => rfl
        | ok branch =>
            cases rest.resolve values with
            | error e => rfl
            | ok after =>
                exact congrArg (fun cs => Except.ok (cs, _))
                  (withoutReturns_append branch.1 after.1).symm
      rw [withoutReturns, resolve, resolve]
      cases lookUp values .condition name line with
      | error e => rfl
      | ok value =>
          cases value with
          | true => exact hbranch iht
          | false => exact hbranch ihu

end Outline

/-- A branch of a conditional in a paired text is paired. -/
theorem Paired.branch {cs : List Char} (h : Paired cs) {s : Site}
    (hs : .item s ∈ gatherClosings (tokenize cs)) (value : Bool) :
    Paired (s.conditional.branch value) := by
  rw [s.branch_eq]
  obtain hnil | ⟨⟨before, header, stop, after, hps, -, -⟩, -⟩ := between_of_mem hs value
  · rw [hnil]
    trivial
  · have hsource := congrArg tokenSource hps
    rw [tokenSource_tokenize, tokenSource_append, tokenSource_item, tokenSource_append,
      ← List.append_assoc] at hsource
    rw [hsource] at h
    exact h.suffix.content

theorem branch_withoutReturns (s : Site) (value : Bool) :
    (unreturned.site s).conditional.branch value =
      withoutReturns (s.conditional.branch value) := by
  rw [Site.branch_eq, Site.branch_eq, Telling.region_site, ← content_withoutReturns,
    Retelling.tokenSource_pieces]
  exact congrArg content (flatMap_withoutReturns _)

theorem conditionalPieces_withoutReturns {cs : List Char} (h : Paired cs) :
    conditionalPieces (withoutReturns cs) =
      ((gatherClosings (tokenize cs)).flatMap unreturned.sitePiece).map
        (Piece.map Site.conditional) := by
  rw [conditionalPieces, gatherConditionals_eq, tokenize_eq_piecesFrom,
    piecesFrom_withoutReturns _ h, Retelling.gatherClosings_pieces, tokenize_eq_piecesFrom]

/-- The conditionals of a text are those of its sites. -/
theorem mem_conditionalPieces {cs : List Char} {c : Conditional} :
    .item c ∈ conditionalPieces cs ↔
      ∃ s, .item s ∈ gatherClosings (tokenize cs) ∧ s.conditional = c := by
  rw [conditionalPieces, gatherConditionals_eq, List.mem_map]
  constructor
  · rintro ⟨p, hp, hc⟩
    cases p with
    | char d => cases hc
    | item s =>
        cases hc
        exact ⟨s, hp, rfl⟩
  · rintro ⟨s, hs, rfl⟩
    exact ⟨.item s, hs, rfl⟩

/-- A paired text has the same conditionals without its carriage returns. -/
theorem ofText_withoutReturns {cs : List Char} (h : Paired cs) :
    Outline.ofText (withoutReturns cs) = (Outline.ofText cs).withoutReturns := by
  induction hn : cs.length using Nat.strongRecOn generalizing cs with
  | ind n ih =>
      subst hn
      have hbranch : ∀ s, .item s ∈ gatherClosings (tokenize cs) → ∀ value,
          Outline.ofText (withoutReturns (s.conditional.branch value)) =
            (Outline.ofText (s.conditional.branch value)).withoutReturns := by
        intro s hs value
        have hlt := branch_length_lt (mem_conditionalPieces.mpr ⟨s, hs, rfl⟩) value
        exact ih _ hlt (h.branch hs value) rfl
      rw [Outline.ofText_eq, Outline.ofText_eq, conditionalPieces_withoutReturns h,
        conditionalPieces, gatherConditionals_eq]
      generalize gatherClosings (tokenize cs) = ps at hbranch
      induction ps with
      | nil => rfl
      | cons p ps ihps =>
          have hrest := ihps fun s hs => hbranch s (List.mem_cons_of_mem p hs)
          rw [List.flatMap_cons, List.map_append, List.foldr_append, hrest, List.map_cons,
            List.foldr_cons]
          cases p with
          | char c =>
              by_cases hc : c = '\r'
              · subst hc
                rfl
              · show ((Piece.plain (withoutReturns [c])).map _).foldr _ _ = _
                rw [withoutReturns_cons hc]
                exact (if_neg hc).symm
          | item s =>
              have ht := hbranch s List.mem_cons_self true
              have hf := hbranch s List.mem_cons_self false
              rw [← branch_withoutReturns] at ht hf
              show Outline.choice _ _ _ (Outline.ofText _) (Outline.ofText _) _ = _
              rw [ht, hf]
              rfl

/-- A text that starts with a token does not start with a line break. -/
theorem head_of_token {cs : List Char} {t : Token} (h : .item t ∈ tokenize cs) (s : List Char) :
    ∃ c r, t.source ++ s = c :: r ∧ c ≠ '\n' := by
  rw [tokenize_eq_piecesFrom] at h
  obtain ⟨c, r, hsource, hstart⟩ := head_of_mem_piecesFrom h
  refine ⟨c, r ++ s, by rw [hsource, List.cons_append], ?_⟩
  rintro rfl
  cases hstart

theorem paired_conditionalPieces {cs : List Char} (h : Paired cs) :
    Piece.Paired (conditionalPieces cs) := by
  refine Piece.paired_of_source Conditional.source ?_ ?_
  · intro c hc
    obtain ⟨s, hs, rfl⟩ := mem_conditionalPieces.mp hc
    exact head_of_token (header_mem hs) _
  · rw [source_conditionalPieces]
    exact h

/-- A paired text stays paired when its branches are chosen. -/
theorem paired_resolve {values : Table Bool} {cs : List Char} (h : Paired cs)
    {r : List Char × Nat} (hr : (Outline.ofText cs).resolve values = .ok r) : Paired r.1 := by
  induction hn : cs.length using Nat.strongRecOn generalizing cs r with
  | ind n ih =>
      subst hn
      have hbranch : ∀ c, .item c ∈ conditionalPieces cs → ∀ value r,
          (Outline.ofText (c.branch value)).resolve values = .ok r → Paired r.1 := by
        intro c hc value r hr
        obtain ⟨s, hs, rfl⟩ := mem_conditionalPieces.mp hc
        exact ih _ (branch_length_lt hc value) (h.branch hs value) hr rfl
      have hps := paired_conditionalPieces h
      rw [Outline.ofText_eq] at hr
      generalize conditionalPieces cs = ps at hbranch hps hr
      induction ps generalizing r with
      | nil =>
          cases hr
          trivial
      | cons p ps ihps =>
          have hrest := fun r => @ihps r fun c hc => hbranch c (List.mem_cons_of_mem p hc)
          cases p with
          | char c =>
              obtain ⟨after, hs, rfl⟩ := map_eq_ok.mp hr
              refine ⟨?_, hrest after hps.2 hs⟩
              intro hc
              obtain ⟨qs, rfl⟩ := hps.1 hc
              obtain ⟨more, -, rfl⟩ := map_eq_ok.mp hs
              exact ⟨more.1, rfl⟩
          | item c =>
              obtain ⟨value, branch, after, -, hb, hs, rfl⟩ := Outline.resolve_choice_eq_ok hr
              have hpaired : Paired branch.1 := by
                cases value with
                | true => exact hbranch c List.mem_cons_self true branch hb
                | false => exact hbranch c List.mem_cons_self false branch hb
              exact hpaired.append (hrest after hps hs)

-- ── Blocks ───────────────────────────────────────────────────────────────────

def Block.withoutReturns (b : Block) : Block :=
  { b with body := Template.withoutReturns b.body, source := Template.withoutReturns b.source }

theorem splitEndBlock_plain_append (cs : List Char) (ps : List (Piece Token)) :
    splitEndBlock (Piece.plain cs ++ ps) =
      (splitEndBlock ps).map fun s => (Piece.plain cs ++ s.1, s.2) := by
  induction cs with
  | nil => exact (congrFun Option.map_id (splitEndBlock ps)).symm
  | cons c cs ih =>
      show (splitEndBlock (Piece.plain cs ++ ps)).map _ = _
      rw [ih, Option.map_map]
      rfl

theorem splitEndBlock_withoutReturns (ps : List (Piece Token)) :
    splitEndBlock (unreturned.pieces ps) = (splitEndBlock ps).map unreturned.cutAt := by
  induction ps with
  | nil => rfl
  | cons p ps ih =>
      rw [Telling.pieces_cons]
      cases p with
      | char c =>
          rw [unreturned.piece_char, splitEndBlock_plain_append, ih, splitEndBlock, Option.map_map,
            Option.map_map]
          rfl
      | item t =>
          obtain ⟨m, source, line⟩ := t
          show splitEndBlock (.item ⟨m, withoutReturns source, line⟩ :: unreturned.pieces ps) = _
          cases m with
          | endBlock => rfl
          | _ =>
              rw [splitEndBlock, splitEndBlock, ih, Option.map_map, Option.map_map]
              rfl

theorem gatherBlocks_plain_append (cs : List Char) (ps : List (Piece Token)) :
    gatherBlocks (Piece.plain cs ++ ps) = Piece.plain cs ++ gatherBlocks ps := by
  induction cs with
  | nil => rfl
  | cons c cs ih =>
      show gatherBlocks (.char c :: (Piece.plain cs ++ ps)) = .char c :: (Piece.plain cs ++ _)
      rw [gatherBlocks, ih]

theorem gatherBlocks_withoutReturns (ps : List (Piece Token)) :
    gatherBlocks (unreturned.pieces ps) =
      (gatherBlocks ps).flatMap (Piece.withoutReturns Block.withoutReturns) := by
  -- a token that opens no block opens none without its carriage returns
  have hplain : ∀ {t : Token} {rest : List (Piece Token)},
      (∀ name, t.marker = .blockHeader name → splitEndBlock rest = none) →
      gatherBlocks (unreturned.pieces (.item t :: rest)) =
        (Piece.plain t.source).flatMap (Piece.withoutReturns Block.withoutReturns) ++
          gatherBlocks (unreturned.pieces rest) := by
    intro t rest hopen
    have hopen' : ∀ name, (unreturned.token t).marker = .blockHeader name →
        splitEndBlock (unreturned.pieces rest) = none := by
      intro name hm
      rw [splitEndBlock_withoutReturns, hopen name hm]
      rfl
    rw [Piece.flatMap_withoutReturns_plain]
    exact gatherBlocks_plain hopen'
  fun_induction gatherBlocks ps with
  | case1 => rw [Telling.pieces_nil, gatherBlocks]; rfl
  | case2 rest c ih =>
      rw [Telling.pieces_cons, unreturned.piece_char, gatherBlocks_plain_append, ih]
      rfl
  | case3 t rest name hm body stop after hs ih =>
      have hs' : splitEndBlock (unreturned.pieces rest) =
          some (unreturned.pieces body, unreturned.token stop, unreturned.pieces after) := by
        rw [splitEndBlock_withoutReturns, hs]
        rfl
      have hsource : tokenSource (unreturned.pieces body) = withoutReturns (tokenSource body) := by
        rw [Retelling.tokenSource_pieces]
        exact flatMap_withoutReturns _
      have hclosed := gatherBlocks_closed (t := unreturned.token t) hm hs'
      rw [hsource, content_withoutReturns, ih] at hclosed
      refine hclosed.trans ?_
      rw [List.flatMap_cons, Piece.withoutReturns, Block.withoutReturns, withoutReturns_append,
        withoutReturns_append]
      rfl
  | case4 t rest name hm hs ih =>
      rw [hplain fun name hm => hs, ih, List.flatMap_append]
  | case5 t rest hm ih =>
      rw [hplain fun name h => absurd h (hm name), ih, List.flatMap_append]

theorem blockPieces_withoutReturns {cs : List Char} (h : Paired cs) :
    blockPieces (withoutReturns cs) =
      (blockPieces cs).flatMap (Piece.withoutReturns Block.withoutReturns) := by
  rw [blockPieces, tokenize_eq_piecesFrom, piecesFrom_withoutReturns _ h,
    gatherBlocks_withoutReturns, blockPieces, tokenize_eq_piecesFrom]

/-- A block starts with its header. -/
theorem header_of_block {ps : List (Piece Token)} {b : Block} (h : .item b ∈ gatherBlocks ps) :
    ∃ t s, .item t ∈ ps ∧ t.marker = .blockHeader b.name ∧ b.source = t.source ++ s := by
  fun_induction gatherBlocks ps with
  | case1 => exact absurd h List.not_mem_nil
  | case2 rest c ih =>
      obtain h | h := List.mem_cons.mp h
      · cases h
      · obtain ⟨t, s, ht, hrest⟩ := ih h
        exact ⟨t, s, List.mem_cons_of_mem _ ht, hrest⟩
  | case3 t rest name hm body stop after hs ih =>
      obtain h | h := List.mem_cons.mp h
      · cases h
        exact ⟨t, _, List.mem_cons_self, hm, rfl⟩
      · obtain ⟨u, s, hu, hrest⟩ := ih h
        have hmem : .item u ∈ rest := by
          rw [← splitEndBlock_append hs]
          exact List.mem_append_right _ (List.mem_cons_of_mem _ hu)
        exact ⟨u, s, List.mem_cons_of_mem _ hmem, hrest⟩
  | case4 t rest name hm hs ih =>
      obtain h | h := List.mem_append.mp h
      · exact absurd h not_mem_plain
      · obtain ⟨u, s, hu, hrest⟩ := ih h
        exact ⟨u, s, List.mem_cons_of_mem _ hu, hrest⟩
  | case5 t rest hm ih =>
      obtain h | h := List.mem_append.mp h
      · exact absurd h not_mem_plain
      · obtain ⟨u, s, hu, hrest⟩ := ih h
        exact ⟨u, s, List.mem_cons_of_mem _ hu, hrest⟩

/-- The name of a block is a word. -/
theorem wordChar_of_blockHeader {b : Bool} {cs : List Char} {f : Found} {name : String}
    (h : marker? b cs = some f) (hm : f.marker = .blockHeader name) :
    ∀ c ∈ name.toList, isWordChar c = true := by
  obtain h | h | h | ⟨-, h | h | h⟩ := marker?_eq_some h
  · obtain ⟨word, alternatives, hword⟩ := marker_of_variableWord? h
    rw [hword] at hm
    cases hm
  · obtain ⟨_, _, _, _, -, h⟩ := ifHeader?_eq_some h
    rw [(endHeader_getLast? h).1] at hm
    cases hm
  · obtain ⟨word, _, _, hword, -, h⟩ := blockHeader?_eq_some h
    rw [(endHeader_getLast? h).1] at hm
    cases hm
    rw [String.toList_ofList]
    exact hword
  · obtain ⟨_, h⟩ := elseLine?_eq_some h
    rw [(endHeader_getLast? h).1] at hm
    cases hm
  · obtain ⟨_, -, rfl⟩ := Option.map_eq_some_iff.mp h
    cases hm
  · obtain ⟨_, -, rfl⟩ := Option.map_eq_some_iff.mp h
    cases hm

theorem paired_blockPieces {cs : List Char} (h : Paired cs) : Piece.Paired (blockPieces cs) := by
  refine Piece.paired_of_source Block.source ?_ ?_
  · intro b hb
    obtain ⟨t, s, ht, -, hsource⟩ := header_of_block hb
    rw [hsource]
    exact head_of_token ht s
  · rw [source_blockPieces]
    exact h

theorem return_not_mem_blockName {cs : List Char} {b : Block} (h : .item b ∈ blockPieces cs) :
    '\r' ∉ b.name.toList := by
  obtain ⟨t, s, ht, hm, -⟩ := header_of_block h
  rw [tokenize_eq_piecesFrom] at ht
  obtain ⟨before, after, hps⟩ := List.append_of_mem ht
  obtain ⟨q, hopen, -⟩ := piecesFrom_item hps
  intro hc
  exact absurd (wordChar_of_blockHeader hopen hm _ hc) (by decide)

theorem fillBlocks_withoutReturns {bodies : Table String}
    (hbodies : ∀ name body, bodies.get? name = some body → '\r' ∉ body.toList)
    {cs : List Char} (h : Paired cs) :
    fillBlocks bodies (withoutReturns cs) = (fillBlocks bodies cs).map withoutReturns := by
  rw [fillBlocks, fillBlocks, blockPieces_withoutReturns h]
  refine Piece.substitute_withoutReturns (fun _ => rfl) fun b text hb htext => ?_
  obtain ⟨body, hbody, rfl⟩ := map_eq_ok.mp htext
  rw [canonical_eq_blockText]
  exact no_return_blockText (return_not_mem_blockName hb) (hbodies _ _ (get?_of_lookUp hbody))

/-- A paired text stays paired when its blocks are filled with paired bodies. -/
theorem paired_fillBlocks {bodies : Table String}
    (hbodies : ∀ name body, bodies.get? name = some body → Paired body.toList)
    {cs out : List Char} (h : Paired cs) (hf : fillBlocks bodies cs = .ok out) : Paired out := by
  refine Piece.paired_substitute (paired_blockPieces h) (fun b text hb htext => ?_) hf
  obtain ⟨body, hbody, rfl⟩ := map_eq_ok.mp htext
  have hfront : Paired (blockLine b.name.toList ++ ['\n']) := paired_of_not_mem (by
    simp [blockLine, leader, blockKeyword, return_not_mem_blockName hb])
  have hend : Paired ('\n' :: endBlockLine) := paired_of_not_mem (by decide)
  have hblock := hfront.append ((hbodies _ _ (get?_of_lookUp hbody)).append hend)
  rw [List.append_assoc, List.singleton_append] at hblock
  rw [canonical_eq_blockText]
  exact hblock

-- ── Variables ────────────────────────────────────────────────────────────────

def Variable.withoutReturns (v : Variable) : Variable :=
  { v with source := Template.withoutReturns v.source }

theorem flatMap_variablePiece_plain (cs : List Char) :
    (Piece.plain cs).flatMap variablePiece = Piece.plain cs := by
  induction cs with
  | nil => rfl
  | cons c cs ih => exact congrArg (.char c :: ·) ih

theorem variablePiece_withoutReturns (p : Piece Token) :
    (unreturned.piece p).flatMap variablePiece =
      (variablePiece p).flatMap (Piece.withoutReturns Variable.withoutReturns) := by
  cases p with
  | char c =>
      rw [unreturned.piece_char, flatMap_variablePiece_plain]
      exact (List.append_nil _).symm
  | item t =>
      obtain ⟨m, source, line⟩ := t
      cases m with
      | «variable» name alternatives => rfl
      | _ => exact (List.append_nil _).trans (Piece.flatMap_withoutReturns_plain _ source).symm

theorem variablePieces_withoutReturns {cs : List Char} (h : Paired cs) :
    variablePieces (withoutReturns cs) =
      (variablePieces cs).flatMap (Piece.withoutReturns Variable.withoutReturns) := by
  rw [variablePieces, tokenize_eq_piecesFrom, piecesFrom_withoutReturns _ h, Telling.pieces,
    List.flatMap_assoc, variablePieces, tokenize_eq_piecesFrom, List.flatMap_assoc]
  exact congrArg (fun f => List.flatMap f _) (funext variablePiece_withoutReturns)

theorem token_of_variable {ps : List (Piece Token)} {v : Variable}
    (h : .item v ∈ ps.flatMap variablePiece) : ∃ t, .item t ∈ ps ∧ v.source = t.source := by
  obtain ⟨p, hp, hv⟩ := List.mem_flatMap.mp h
  cases p with
  | char c =>
      rw [variablePiece, List.mem_singleton] at hv
      cases hv
  | item t =>
      refine ⟨t, hp, ?_⟩
      obtain ⟨m, source, line⟩ := t
      cases m with
      | «variable» name alternatives =>
          rw [variablePiece, List.mem_singleton] at hv
          cases hv
          rfl
      | _ => exact absurd hv not_mem_plain

theorem paired_variablePieces {cs : List Char} (h : Paired cs) :
    Piece.Paired (variablePieces cs) := by
  refine Piece.paired_of_source Variable.source ?_ ?_
  · intro v hv
    obtain ⟨t, ht, hsource⟩ := token_of_variable hv
    obtain ⟨c, s, hhead, hc⟩ := head_of_token ht []
    rw [List.append_nil] at hhead
    exact ⟨c, s, hsource.trans hhead, hc⟩
  · rw [source_variablePieces]
    exact h

theorem fillVariables_withoutReturns {values : Table String}
    (hvalues : ∀ name value, values.get? name = some value → '\r' ∉ value.toList)
    {cs : List Char} (h : Paired cs) :
    fillVariables values (withoutReturns cs) = (fillVariables values cs).map withoutReturns := by
  rw [fillVariables, fillVariables, variablePieces_withoutReturns h]
  refine Piece.substitute_withoutReturns (fun _ => rfl) fun v text _ htext => ?_
  obtain ⟨value, hvalue, rfl⟩ := map_eq_ok.mp htext
  exact hvalues _ _ (get?_of_lookUp hvalue)

/-- A paired text stays paired when its variables are filled with paired values. -/
theorem paired_fillVariables {values : Table String}
    (hvalues : ∀ name value, values.get? name = some value → Paired value.toList)
    {cs out : List Char} (h : Paired cs) (hf : fillVariables values cs = .ok out) :
    Paired out := by
  refine Piece.paired_substitute (paired_variablePieces h) (fun v text _ htext => ?_) hf
  obtain ⟨value, hvalue, rfl⟩ := map_eq_ok.mp htext
  exact hvalues _ _ (get?_of_lookUp hvalue)

end ShaderTemplates.Template
