import ShaderTemplates.Proofs.BlockRegions
import ShaderTemplates.Proofs.Evaluation
import ShaderTemplates.Proofs.Pieces

/-!
# Which names converting asks for

`scan` reads the blocks and variables of a template as it stands, and `convert` those of the text
that the conditionals leave.  The two agree for some templates only.  `scan_complete_iff` says for
which: values for all reported names are enough exactly if, however the conditions are decided, the
text that is left has no block and no variable outside of its blocks that was not reported.  Bodies
need not be considered, because a reported body holds reported variables only.

A template for which they do not agree is `strayTemplate`, whose branch holds a header that takes
the end marker of a later block.
-/

namespace ShaderTemplates.Template

open Text

-- ── Substitutions that succeed ───────────────────────────────────────────────

section Substitution

variable {α ε : Type} {replace : α → Except ε (List Char)} {ps : List (Piece α)}

/-- If every item is replaced, the result is the text with the replacements. -/
theorem substitute_eq_source {text : α → List Char}
    (h : ∀ a ∈ Piece.items ps, replace a = .ok (text a)) :
    Piece.substitute replace ps = .ok (Piece.source text ps) := by
  induction ps with
  | nil => rfl
  | cons p ps ih =>
      cases p with
      | char c =>
          have hrest := ih h
          rw [Piece.substitute, hrest]
          rfl
      | item a =>
          have hrest := ih fun x hx => h x (List.mem_cons_of_mem _ hx)
          rw [Piece.substitute, h a List.mem_cons_self, hrest]
          rfl

/-- A text is replaced only if every item is. -/
theorem replaced_of_substitute {out : List Char} (h : Piece.substitute replace ps = .ok out) :
    ∀ a ∈ Piece.items ps, ∃ text, replace a = .ok text := by
  induction ps generalizing out with
  | nil => exact fun a ha => absurd ha List.not_mem_nil
  | cons p ps ih =>
      cases hrest : Piece.substitute replace ps with
      | error e =>
          cases p with
          | char c => rw [Piece.substitute, hrest] at h; cases h
          | item a =>
              rw [Piece.substitute, hrest] at h
              cases ha : replace a with
              | error e => rw [ha] at h; cases h
              | ok text => rw [ha] at h; cases h
      | ok after =>
          cases p with
          | char c => exact ih hrest
          | item a =>
              intro x hx
              rcases List.mem_cons.mp hx with rfl | hx
              · cases ha : replace x with
                | ok text => exact ⟨text, rfl⟩
                | error e => rw [Piece.substitute, ha] at h; cases h
              · exact ih hrest x hx

end Substitution

theorem lookUp_ok {α : Type} {table : Table α} {kind : Kind} {name : String} {line : Nat} {value : α}
    (h : table.get? name = some value) : lookUp table kind name line = .ok value := by
  rw [lookUp, h]

theorem isSome_of_lookUp {α : Type} {table : Table α} {kind : Kind} {name : String} {line : Nat}
    {value : α} (h : lookUp table kind name line = .ok value) : (table.get? name).isSome := by
  rw [get?_of_lookUp h]
  rfl

/-- With a value for every condition the conditionals are decided. -/
theorem Outline.resolve_covered {conditions : Table Bool} {o : Outline}
    (h : ∀ e ∈ o.conditions, (conditions.get? e.1).isSome) :
    ∃ decided, o.resolve conditions = .ok decided := by
  induction o with
  | done => exact ⟨_, rfl⟩
  | char c rest ih =>
      obtain ⟨decided, hrest⟩ := ih h
      exact ⟨_, by rw [Outline.resolve, hrest]; rfl⟩
  | choice name default? line t u rest iht ihu ih =>
      obtain ⟨value, hvalue⟩ := Option.isSome_iff_exists.mp (h _ List.mem_cons_self)
      obtain ⟨whenTrue, ht⟩ := iht fun e he =>
        h e (List.mem_cons_of_mem _ (List.mem_append_left _ he))
      obtain ⟨whenFalse, hu⟩ := ihu fun e he =>
        h e (List.mem_cons_of_mem _ (List.mem_append_right _ (List.mem_append_left _ he)))
      obtain ⟨after, hrest⟩ := ih fun e he =>
        h e (List.mem_cons_of_mem _ (List.mem_append_right _ (List.mem_append_right _ he)))
      rw [Outline.resolve, lookUp_ok hvalue, ok_bind]
      cases value with
      | true => exact ⟨_, by rw [ht, hrest]; rfl⟩
      | false => exact ⟨_, by rw [hu, hrest]; rfl⟩

-- ── Bodies ───────────────────────────────────────────────────────────────────

/-- A text with other bodies in its blocks. -/
def withBodies (body : Block → List Char) (cs : List Char) : List Char :=
  Piece.source (fun b => Block.canonical b.name.toList (body b)) (blockPieces cs)

/-- A text with its blocks emptied. -/
def outsideBodies (cs : List Char) : List Char := withBodies (fun _ => []) cs

/-- The variables of a text with other bodies are those outside of its blocks and those of the
    bodies. -/
theorem itemsFrom_withBodies (body : Block → List Char) (cs : List Char) {e : String × List String}
    (h : e ∈ itemsFrom true (withBodies body cs)) :
    e ∈ itemsFrom true (outsideBodies cs) ∨ ∃ b ∈ blocks cs, e ∈ lineItems (body b) := by
  rw [outsideBodies, withBodies, blocks] at *
  -- the text in front of a block goes on on the line of its header
  have key : ∀ (ps : List (Piece Block)) (before : List Char),
      e ∈ itemsFrom true (before ++
        Piece.source (fun b => Block.canonical b.name.toList (body b)) ps) →
      e ∈ itemsFrom true (before ++
        Piece.source (fun b => Block.canonical b.name.toList []) ps) ∨
      ∃ b ∈ Piece.items ps, e ∈ lineItems (body b) := by
    intro ps
    induction ps with
    | nil => exact fun before h => .inl h
    | cons p ps ih =>
        intro before h
        cases p with
        | char c =>
            have hshape : ∀ rest, before ++ c :: rest = (before ++ [c]) ++ rest := by simp
            rw [Piece.source_char, hshape] at h ⊢
            exact ih _ h
        | item b =>
            have hshape : ∀ content rest, before ++ (Block.canonical b.name.toList content ++ rest) =
                (before ++ blockLine b.name.toList) ++ '\n' ::
                  (content ++ '\n' :: (endBlockLine ++ rest)) := by
              intro content rest
              simp [canonical_eq_blockText, blockText]
            rw [Piece.source_item, hshape, itemsFrom_break, itemsFrom_break] at h ⊢
            rcases List.mem_append.mp h with h | h
            · exact .inl (List.mem_append_left _ h)
            · rcases List.mem_append.mp h with h | h
              · exact .inr ⟨b, List.mem_cons_self, h⟩
              · obtain h | ⟨x, hx, he⟩ := ih _ h
                · exact .inl (List.mem_append_right _ (List.mem_append_right _ h))
                · exact .inr ⟨x, List.mem_cons_of_mem _ hx, he⟩
  exact key _ [] h

theorem lineItems_of_no_open {cs : List Char} (h : '<' ∉ cs) : lineItems cs = [] := by
  refine List.eq_nil_iff_forall_not_mem.mpr ?_
  intro e he
  have hm := open_mem_of_itemsFrom he
  rcases List.mem_append.mp hm with hm | hm
  · exact h hm
  · exact absurd hm (by decide)

/-- Every body is one that is reported for its name, or holds no opening bracket. -/
def Values.BodiesFit (v : Values) (i : Inventory) : Prop :=
  ∀ name body, v.blocks.get? name = some body →
    (name, body) ∈ i.blocks.entries ∨ '<' ∉ body.toList

theorem mem_vars_entries {cs : List Char} {e : String × List String}
    (h : e ∈ itemsFrom true cs) : e.1 ∈ (inventory cs).vars.names := by
  have hvars : (vars cs).map (fun v => (v.name, v.alternatives)) = itemsFrom true cs := vars_words cs
  rw [inventory, hvars, Directives.names_ofListFirst, List.mem_eraseDups]
  exact List.mem_map_of_mem h

/-- A body that fits brings reported variables only. -/
theorem mem_vars_of_bodiesFit {v : Values} {cs : List Char} (h : v.BodiesFit (inventory cs))
    {name body : String} (hbody : v.blocks.get? name = some body) {e : String × List String}
    (he : e ∈ lineItems body.toList) : e.1 ∈ (inventory cs).vars.names := by
  obtain hreported | hplain := h name body hbody
  · obtain ⟨b, hb, heq⟩ := List.mem_map.mp (Directives.mem_ofListLast hreported)
    have hlist : b.body = body.toList := by
      have := congrArg (fun e => e.2.toList) heq
      simpa using this
    exact mem_vars_entries (lineItems_body_subset hb e (hlist ▸ he))
  · rw [lineItems_of_no_open hplain] at he
    exact absurd he List.not_mem_nil

-- ── The passes with values for everything ────────────────────────────────────

theorem fillBlocks_covered {bodies : Table String} {cs : List Char}
    (h : ∀ b ∈ blocks cs, (bodies.get? b.name).isSome) :
    fillBlocks bodies cs =
      .ok (withBodies (fun b => ((bodies.get? b.name).getD "").toList) cs) := by
  refine substitute_eq_source ?_
  intro b hb
  obtain ⟨body, hbody⟩ := Option.isSome_iff_exists.mp (h b hb)
  show _ = Except.ok (Block.canonical b.name.toList ((bodies.get? b.name).getD "").toList)
  rw [lookUp_ok hbody, hbody]
  rfl

theorem fillVariables_covered {values : Table String} {cs : List Char}
    (h : ∀ e ∈ itemsFrom true cs, (values.get? e.1).isSome) :
    fillVariables values cs =
      .ok (Piece.source (fun v => ((values.get? v.name).getD "").toList) (variablePieces cs)) := by
  refine substitute_eq_source ?_
  intro v hv
  have hmem : v.entry ∈ itemsFrom true cs := by
    rw [itemsFrom, ← vars_words]
    exact List.mem_map_of_mem hv
  obtain ⟨value, hvalue⟩ := Option.isSome_iff_exists.mp (h _ hmem)
  have hvalue' : values.get? v.name = some value := hvalue
  show _ = Except.ok ((values.get? v.name).getD "").toList
  rw [lookUp_ok hvalue', hvalue']
  rfl

/-- Every block that was filled has a body. -/
theorem isSome_of_fillBlocks {bodies : Table String} {cs out : List Char}
    (h : fillBlocks bodies cs = .ok out) : ∀ b ∈ blocks cs, (bodies.get? b.name).isSome := by
  intro b hb
  obtain ⟨text, htext⟩ := replaced_of_substitute h b hb
  cases hl : lookUp bodies .block b.name b.line with
  | error e =>
      rw [hl] at htext
      cases htext
  | ok body => exact isSome_of_lookUp hl

/-- Every variable that was filled has a value. -/
theorem isSome_of_fillVariables {values : Table String} {cs out : List Char}
    (h : fillVariables values cs = .ok out) : ∀ x ∈ vars cs, (values.get? x.name).isSome := by
  intro x hx
  obtain ⟨text, htext⟩ := replaced_of_substitute h x hx
  cases hl : lookUp values .variable x.name x.line with
  | error e =>
      rw [hl] at htext
      cases htext
  | ok value => exact isSome_of_lookUp hl

/-- An empty value for each of some names. -/
def blanks (names : List String) : Table String :=
  .ofList (names.map fun name => (name, ""))

theorem get?_blanks (names : List String) (name : String) :
    (blanks names).get? name = if name ∈ names then some "" else none := by
  have key : ∀ (ns : List String) (m : Table String),
      ((ns.map fun n => (n, "")).foldl (fun acc e => acc.insert e.1 e.2) m).get? name =
        if name ∈ ns then some "" else m.get? name := by
    intro ns
    induction ns with
    | nil => exact fun m => rfl
    | cons n ns ih =>
        intro m
        rw [List.map_cons, List.foldl_cons, ih, SortedMap.get?_insert]
        by_cases hns : name ∈ ns
        · rw [if_pos hns, if_pos (List.mem_cons_of_mem _ hns)]
        · by_cases hn : name = n
          · rw [if_neg hns, if_pos hn, if_pos (hn ▸ List.mem_cons_self)]
          · have hcons : name ∉ n :: ns := by simp [hn, hns]
            rw [if_neg hns, if_neg hn, if_neg hcons]
  exact key names ∅

theorem isSome_get?_blanks {names : List String} {name : String} :
    ((blanks names).get? name).isSome ↔ name ∈ names := by
  rw [get?_blanks]
  by_cases h : name ∈ names <;> simp [h]

/-- Empty values for the blocks and variables that are reported. -/
def blankValues (conditions : Table Bool) (i : Inventory) : Values :=
  ⟨conditions, blanks i.blocks.names, blanks i.vars.names⟩

theorem covers_blankValues {conditions : Table Bool} {i : Inventory}
    (h : ∀ name ∈ i.conditions.names, (conditions.get? name).isSome) :
    (blankValues conditions i).Covers i := by
  refine ⟨h, ?_, ?_⟩
  · intro name hname
    exact isSome_get?_blanks.mpr hname
  · intro name hname
    exact isSome_get?_blanks.mpr hname

theorem bodiesFit_blankValues (conditions : Table Bool) (i : Inventory) :
    (blankValues conditions i).BodiesFit i := by
  intro name body hbody
  change (blanks i.blocks.names).get? name = some body at hbody
  rw [get?_blanks] at hbody
  split at hbody
  · cases hbody
    exact .inr (by decide)
  · cases hbody

/-- Empty bodies leave what is outside of the blocks. -/
theorem fillBlocks_blanks {names : List String} {cs : List Char}
    (h : ∀ b ∈ blocks cs, b.name ∈ names) : fillBlocks (blanks names) cs = .ok (outsideBodies cs) := by
  rw [fillBlocks_covered fun b hb => isSome_get?_blanks.mpr (h b hb), outsideBodies]
  congr 2
  funext b
  rw [get?_blanks]
  split <;> rfl

/-- With bodies that fit, the variables are reported ones if those outside of the blocks are. -/
theorem vars_of_bodiesFit {v : Values} {cs decided : List Char} (hfit : v.BodiesFit (inventory cs))
    (hblocks : ∀ b ∈ blocks decided, (v.blocks.get? b.name).isSome)
    (hvars : ∀ x ∈ vars (outsideBodies decided), x.name ∈ (inventory cs).vars.names) :
    ∀ e ∈ itemsFrom true
      (withBodies (fun b => ((v.blocks.get? b.name).getD "").toList) decided),
      e.1 ∈ (inventory cs).vars.names := by
  intro e he
  obtain he | ⟨b, hb, he⟩ := itemsFrom_withBodies _ _ he
  · rw [itemsFrom, ← vars_words] at he
    obtain ⟨x, hx, rfl⟩ := List.mem_map.mp he
    exact hvars x hx
  · obtain ⟨body, hbody⟩ := Option.isSome_iff_exists.mp (hblocks b hb)
    rw [hbody] at he
    exact mem_vars_of_bodiesFit hfit hbody he

-- ── When scanning is complete ────────────────────────────────────────────────

/-- Values for all names that `scan` reports are enough exactly if no decision of the conditions
    leaves a block that was not reported, or a variable outside of blocks that was not. -/
theorem scan_complete_iff (template : String) :
    (∀ v : Values, v.Covers (scan template) → v.BodiesFit (scan template) →
        ∃ c, convert template v = .ok c) ↔
      ∀ (conditions : Table Bool),
        (∀ name ∈ (scan template).conditions.names, (conditions.get? name).isSome) →
        ∀ decided, (Outline.ofText template.toList).resolve conditions = .ok decided →
          (∀ b ∈ blocks decided.1, b.name ∈ (scan template).blocks.names) ∧
          ∀ x ∈ vars (outsideBodies decided.1), x.name ∈ (scan template).vars.names := by
  constructor
  · intro hcomplete conditions hconditions decided hresolve
    -- empty bodies and values are asked for just the names that are not reported
    obtain ⟨c, hc⟩ := hcomplete (blankValues conditions (scan template))
      (covers_blankValues hconditions) (bodiesFit_blankValues _ _)
    have hdecided : (Outline.ofText template.toList).resolve
        (blankValues conditions (scan template)).conditions = .ok decided := hresolve
    rw [convert, hdecided, ok_bind, blankValues] at hc
    cases hfill : fillBlocks (blanks (scan template).blocks.names) decided.1 with
    | error e =>
        rw [hfill] at hc
        cases hc
    | ok withBlocks =>
        have hblocks : ∀ b ∈ blocks decided.1, b.name ∈ (scan template).blocks.names := by
          intro b hb
          exact isSome_get?_blanks.mp (isSome_of_fillBlocks hfill b hb)
        rw [fillBlocks_blanks hblocks, ok_bind] at hc
        cases hvars : fillVariables (blanks (scan template).vars.names)
            (outsideBodies decided.1) with
        | error e =>
            rw [hvars] at hc
            cases hc
        | ok filled =>
            refine ⟨hblocks, ?_⟩
            intro x hx
            exact isSome_get?_blanks.mp (isSome_of_fillVariables hvars x hx)
  · intro hreported v hcover hfit
    obtain ⟨decided, hresolve⟩ := Outline.resolve_covered (o := Outline.ofText template.toList)
      (hcover.condition rfl)
    obtain ⟨hblocks, hvars⟩ := hreported v.conditions hcover.conditions decided hresolve
    have hbodies : ∀ b ∈ blocks decided.1, (v.blocks.get? b.name).isSome := by
      intro b hb
      exact hcover.blocks b.name (hblocks b hb)
    have hfill := fillVariables_covered fun e he =>
      hcover.vars e.1 (vars_of_bodiesFit hfit hbodies hvars e he)
    rw [convert, hresolve, ok_bind, fillBlocks_covered hbodies, ok_bind, hfill]
    exact ⟨_, rfl⟩

/-- A template whose branch holds a header that takes the end marker of a later block. -/
def strayTemplate : String := "@if A\n@block X\n@endif\n@block Y\nb\n@endblock"

/-- What is reported for the template. -/
def strayInventory : Inventory :=
  ⟨⟨[("A", false)], by decide⟩, ⟨[("X", "@endif\n@block Y\nb")], by decide⟩, ∅⟩

/-- Values for all names that are reported are not enough for every template. -/
theorem scan_incomplete :
    ¬ ∀ (template : String) (v : Values), v.Covers (scan template) →
      v.BodiesFit (scan template) → ∃ c, convert template v = .ok c := by
  intro h
  have hscan : scan strayTemplate = strayInventory := by decide +kernel
  have hconvert : convert strayTemplate strayInventory.defaults = .error ⟨.block, "Y", 2⟩ := by
    decide +kernel
  have hcovers : strayInventory.defaults.Covers strayInventory :=
    ⟨by decide, by decide, by decide⟩
  have hfits : strayInventory.defaults.BodiesFit strayInventory := by
    intro name body hbody
    by_cases hname : name = "X"
    · subst hname
      cases hbody
      exact .inl List.mem_cons_self
    · have hnone : strayInventory.defaults.blocks.get? name = none :=
        (∅ : Table String).get?_insert_of_ne hname _
      rw [hnone] at hbody
      cases hbody
  obtain ⟨c, hc⟩ := h strayTemplate strayInventory.defaults (hscan ▸ hcovers) (hscan ▸ hfits)
  rw [hconvert] at hc
  cases hc

end ShaderTemplates.Template
