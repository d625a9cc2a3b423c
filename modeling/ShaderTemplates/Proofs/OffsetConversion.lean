import ShaderTemplates.Proofs.OffsetRegions
import ShaderTemplates.Proofs.VisitedConditionals

/-!
# Scanning and converting by offsets

Scanning and converting a template by offsets gives what scanning and converting it by its
characters gives (`scan_eq`, `convert_eq`).  In particular no pass is ever `OutOfRange`: an error of
a conversion is a directive that has no value.

Each pass over offsets puts texts in the places of the items it found, and these are the items of
the pieces, each where it stands (`Placed`).
-/

namespace ShaderTemplates.Template.Offsets

open Text

-- ── What is found in a text ──────────────────────────────────────────────────

theorem remains_tokenize (cs : List Char) :
    Remains cs (located 0 (tokenize cs)) 0 0 (tokenize cs) where
  tokens_eq := List.drop_zero
  at_text := by
    rw [tokenSource_tokenize]
    exact at_zero cs

/-- The conditionals of a text are found, each where it stands. -/
theorem placed_conditionals (cs : List Char) :
    ∃ found, conditionals cs = .ok found ∧
      Placed Conditional.source (FindsConditional cs (located 0 (tokenize cs))) 0
        (conditionalPieces cs) found := by
  obtain ⟨found, hfound, hplaced⟩ := placed_conditionalsFrom _ _ _ (remains_tokenize cs)
  refine ⟨found, ?_, hplaced⟩
  rw [conditionals, tokens_eq, ok_bind, hfound]

/-- The blocks of a text are found, each where it stands. -/
theorem placed_blocks (cs : List Char) :
    ∃ found, blocks cs = .ok found ∧
      Placed Block.source (FindsBlock cs (located 0 (tokenize cs))) 0 (blockPieces cs) found := by
  obtain ⟨found, hfound, hplaced⟩ := placed_blocksFrom _ _ _ (remains_tokenize cs)
  refine ⟨found, ?_, hplaced⟩
  rw [blocks, tokens_eq, ok_bind, hfound]

/-- A pass that puts texts in the places of the items of a text replaces these items. -/
theorem splice_eq {α : Type} {text : α → List Char}
    {replace : α → Except Unresolved (List Char × Nat)} {cs : List Char} {ps : List (Piece α)}
    {rs : List Replacement} (h : Placed text (Replaces text replace) 0 ps rs)
    (hsource : Piece.source text ps = cs) :
    splice cs 0 rs = (replaceItems replace ps).mapError .unresolved := by
  have hat : At cs 0 ([] ++ Piece.source text ps) := by
    rw [List.nil_append, hsource]
    exact at_zero cs
  rw [h.splice_eq hat rfl]
  cases replaceItems replace ps <;> rfl

-- ── Conditionals ─────────────────────────────────────────────────────────────

/-- The chosen branch of a conditional, in which the conditionals are replaced, too. -/
def chosenBranch (conditions : Table Bool) (c : Template.Conditional) :
    Except Unresolved (List Char × Nat) := do
  let value ← lookUp conditions .condition c.name c.line
  let branch ← (Outline.ofText (c.branch value)).resolve conditions
  return (branch.1, branch.2 + 1)

theorem resolve_consPiece (conditions : Table Bool) (c : Template.Conditional) (rest : Outline) :
    (Outline.consPiece Outline.ofText (.item c) rest).resolve conditions = do
      let text ← chosenBranch conditions c
      let after ← rest.resolve conditions
      return (text.1 ++ after.1, text.2 + after.2) := by
  have hchoice : ∀ branch : Except Unresolved (List Char × Nat), (do
      let b ← branch
      let after ← rest.resolve conditions
      return (b.1 ++ after.1, b.2 + after.2 + 1)) = (do
      let text ← (do
        let b ← branch
        return (b.1, b.2 + 1))
      let after ← rest.resolve conditions
      return (text.1 ++ after.1, text.2 + after.2)) := by
    intro branch
    cases branch with
    | error u => rfl
    | ok b =>
        cases rest.resolve conditions with
        | error u => rfl
        | ok after =>
            refine congrArg (fun n => Except.ok (b.1 ++ after.1, n)) ?_
            exact Nat.add_right_comm _ _ _
  rw [chosenBranch, Outline.consPiece, Outline.resolve]
  cases lookUp conditions .condition c.name c.line with
  | error u => rfl
  | ok value =>
      cases value with
      | true => exact hchoice _
      | false => exact hchoice _

theorem resolve_foldr (conditions : Table Bool) (ps : List (Piece Template.Conditional)) :
    (ps.foldr (Outline.consPiece Outline.ofText) .done).resolve conditions =
      replaceItems (chosenBranch conditions) ps := by
  induction ps with
  | nil => rfl
  | cons p ps ih =>
      cases p with
      | char c =>
          rw [replaceItems, ← ih]
          rfl
      | item c => rw [replaceItems, ← ih, List.foldr_cons, resolve_consPiece]

/-- The replacement of a conditional. -/
def conditionalReplacement (conditions : Table Bool) (c : Conditional) : Replacement where
  start := c.start
  stop := c.stop
  text := do
    let value ← (lookUp conditions .condition c.name c.line).mapError .unresolved
    let branch ← resolveConditionals conditions (c.branch value)
    return (branch.1, branch.2 + 1)

theorem resolveConditionals_eq (conditions : Table Bool) (cs : List Char) :
    resolveConditionals conditions cs =
      ((Outline.ofText cs).resolve conditions).mapError .unresolved := by
  induction cs using branch_induction with
  | step cs ih =>
      obtain ⟨found, hfound, hplaced⟩ := placed_conditionals cs
      rw [resolveConditionals]
      split
      · next e he => cases hfound.symm.trans he
      · next found' hfound' =>
          cases hfound.symm.trans hfound'
          rw [List.map_subtype (g := conditionalReplacement conditions) fun _ _ => rfl,
            List.unattach_attach, Outline.ofText_eq, resolve_foldr]
          refine splice_eq (hplaced.map fun n c f hc hf => ?_) (source_conditionalPieces cs)
          rw [Replaces, conditionalReplacement, hf.start_eq, hf.stop_eq, hf.name_eq, hf.line_eq,
            chosenBranch, mapError_bind]
          refine congrArg (Replacement.mk _ _) (bind_congr_ok fun value _ => ?_)
          rw [hf.branch_eq, ih c hc value, mapError_bind]
          rfl

-- ── Blocks and variables ─────────────────────────────────────────────────────

theorem fillBlocks_eq (bodies : Table String) (cs : List Char) :
    fillBlocks bodies cs =
      ((Template.fillBlocks bodies cs).map fun text =>
        (text, (Template.blocks cs).length)).mapError .unresolved := by
  obtain ⟨found, hfound, hplaced⟩ := placed_blocks cs
  rw [fillBlocks, hfound, mapError_ok, ok_bind, Template.fillBlocks, Template.blocks,
    ← replaceItems_one]
  refine splice_eq (hplaced.map fun n b f _ hf => ?_) (source_blockPieces cs)
  rw [Replaces, hf.start_eq, hf.stop_eq, hf.name_eq, hf.line_eq]
  cases lookUp bodies .block b.name b.line <;> rfl

/-- The variables among the tokens are those among the pieces. -/
theorem placed_variables (values : Table String) (n : Nat) (ps : List (Piece Template.Token)) :
    Placed Variable.source
      (Replaces Variable.source fun v =>
        ((lookUp values .variable v.name v.line).map String.toList).map fun text => (text, 1))
      n (ps.flatMap variablePiece) ((located n ps).filterMap (variableReplacement? values)) := by
  induction ps generalizing n with
  | nil => exact .nil n
  | cons p ps ih =>
      cases p with
      | char c => exact .char (ih _)
      | item t =>
          rw [List.flatMap_cons, located, List.filterMap_cons]
          obtain ⟨m, source, line⟩ := t
          cases m with
          | «variable» name alternatives =>
              refine .item ?_ (ih _)
              rw [Replaces]
              refine congrArg (Replacement.mk _ _) ?_
              cases lookUp values .variable name line <;> rfl
          | _ => exact (ih _).plain_append

theorem fillVariables_eq (values : Table String) (cs : List Char) :
    fillVariables values cs =
      ((Template.fillVariables values cs).map fun text =>
        (text, (vars cs).length)).mapError .unresolved := by
  rw [fillVariables, tokens_eq, mapError_ok, ok_bind, Template.fillVariables, vars,
    ← replaceItems_one]
  exact splice_eq (placed_variables values 0 (tokenize cs)) (source_variablePieces cs)

/-- Converting by offsets is converting, and never out of range. -/
theorem convert_eq (template : String) (values : Values) :
    convert template values = (Template.convert template values).mapError .unresolved := by
  rw [convert, Template.convert, resolveConditionals_eq, mapError_bind]
  refine bind_congr_ok fun structured _ => ?_
  rw [fillBlocks_eq, mapError_bind]
  cases Template.fillBlocks values.blocks structured.1 with
  | error u => rfl
  | ok withBlocks =>
      show (do let filled ← fillVariables values.vars withBlocks; _) =
        (do let filled ← Template.fillVariables values.vars withBlocks; _).mapError _
      rw [fillVariables_eq]
      cases Template.fillVariables values.vars withBlocks with
      | error u => rfl
      | ok filled => rfl

-- ── Scanning ─────────────────────────────────────────────────────────────────

/-- What is listed for conditionals: their conditions with their defaults. -/
def conditionEntries (cs : List Template.Conditional) : List (String × Bool) :=
  cs.map fun c => (c.name, c.default?.getD false)

/-- What is listed for a conditional and for those in its branches. -/
def entriesOf (c : Conditional) : List (String × Bool) :=
  (c.name, c.default?.getD false) ::
    (conditionEntries (visited (c.branch true)) ++ conditionEntries (visited (c.branch false)))

theorem conditionsOf_eq (cs : List Char) :
    conditionsOf cs = .ok (conditionEntries (visited cs)) := by
  induction cs using branch_induction with
  | step cs ih =>
      obtain ⟨found, hfound, hplaced⟩ := placed_conditionals cs
      have hbranch : ∀ f ∈ found, ∀ value,
          conditionsOf (f.branch value) = .ok (conditionEntries (visited (f.branch value))) := by
        intro f hf value
        obtain ⟨before, c, after, hpieces, hfinds⟩ := hplaced.split hf
        rw [hfinds.branch_eq]
        refine ih c ?_ value
        rw [Template.conditionals, hpieces, Piece.items_append]
        exact List.mem_append_right _ List.mem_cons_self
      have hparts : (found.map entriesOf).flatten = conditionEntries (visited cs) := by
        have hentries : ∀ m c f, c ∈ Template.conditionals cs →
            FindsConditional cs (located 0 (tokenize cs)) m c f →
            entriesOf f = conditionEntries c.visited := by
          intro m c f _ hf
          rw [entriesOf, hf.name_eq, hf.default_eq, hf.branch_eq, hf.branch_eq, conditionEntries,
            conditionEntries, ← List.map_append]
          rfl
        rw [hplaced.map_eq hentries, ← List.flatMap_def, visited_eq, conditionEntries,
          List.map_flatMap]
        rfl
      rw [conditionsOf]
      split
      · next e he => cases hfound.symm.trans he
      · next found' hfound' =>
          cases hfound.symm.trans hfound'
          rw [List.mapM_subtype (g := fun c => pure (entriesOf c)), List.unattach_attach,
            List.mapM_pure]
          · exact congrArg Except.ok hparts
          · intro c hc
            rw [hbranch c hc, hbranch c hc]
            rfl

/-- The variables that are listed are those of the pieces. -/
theorem filterMap_variableOf? (n : Nat) (ps : List (Piece Template.Token)) :
    (located n ps).filterMap variableOf? =
      (Piece.items (ps.flatMap variablePiece)).map fun v => (v.name, v.alternatives) := by
  induction ps generalizing n with
  | nil => rfl
  | cons p ps ih =>
      cases p with
      | char c => exact ih _
      | item t =>
          rw [located, List.filterMap_cons, List.flatMap_cons, Piece.items_append]
          obtain ⟨m, source, line⟩ := t
          cases m with
          | «variable» name alternatives => exact congrArg ((name, alternatives) :: ·) (ih _)
          | _ =>
              show List.filterMap variableOf? (located _ ps) = _
              rw [ih]
              exact congrArg (fun items => List.map _ (items ++ _)) (Piece.items_plain source).symm

/-- Scanning by offsets is scanning, and never out of range. -/
theorem scan_eq (template : String) : scan template = .ok (Template.scan template) := by
  obtain ⟨found, hfound, hplaced⟩ := placed_blocks template.toList
  have hblocks : (found.map fun b => (b.name, String.ofList b.body.text)) =
      (Template.blocks template.toList).map fun b => (b.name, String.ofList b.body) := by
    refine hplaced.map_eq fun m b f _ hf => ?_
    rw [hf.name_eq, hf.body_eq]
  have hconditions : conditionEntries (visited template.toList) =
      (Outline.ofText template.toList).conditions := by
    rw [Outline.conditions_eq, headers_ofText, List.map_map]
    rfl
  rw [scan, conditionsOf_eq, ok_bind, hfound, ok_bind, tokens_eq, ok_bind, hblocks, hconditions,
    filterMap_variableOf?]
  rfl

end ShaderTemplates.Template.Offsets
