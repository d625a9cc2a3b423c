import ShaderTemplates.Proofs.AddedValues
import ShaderTemplates.Proofs.Forests
import ShaderTemplates.Proofs.ScanCompleteness

/-!
# The conditionals that are visited

Conditionals are read branch by branch, each branch being a text of its own.  A branch is shorter
than the text that it comes from, whatever the markers in that text belong to, so there is no
endless chain of branches (`wellFounded_isBranch`).

Scanning visits every conditional of every branch (`visited`), converting those of the branches
that are taken (`reached`).  The first are what `scan` lists (`conditions_scan`), the second are
what `convert` counts (`count_of_resolve`).  Each conditional that is visited has a header of its
own among the tokens of the whole template (`headers_visited`): reading a branch anew finds no
header that was not one before, because the outline of the template can be read from one
tokenization of it.
-/

namespace ShaderTemplates.Template

open Text

-- ── Branches ─────────────────────────────────────────────────────────────────

theorem branch_length_lt_of_mem {cs : List Char} {c : Conditional} (h : c ∈ conditionals cs)
    (value : Bool) : (c.branch value).length < cs.length :=
  branch_length_lt (Piece.item_of_mem_items h) value

/-- The text is a branch of a conditional in the other text. -/
def IsBranch (branch cs : List Char) : Prop :=
  ∃ c ∈ conditionals cs, ∃ value, branch = c.branch value

/-- Reading the branches of branches comes to an end. -/
theorem wellFounded_isBranch : WellFounded IsBranch := by
  refine Subrelation.wf ?_ (InvImage.wf List.length Nat.lt_wfRel.wf)
  rintro _ cs ⟨c, hc, value, rfl⟩
  exact branch_length_lt_of_mem hc value

/-- What holds of a text whenever it holds of its branches holds of every text. -/
theorem branch_induction {motive : List Char → Prop}
    (step : ∀ cs, (∀ c ∈ conditionals cs, ∀ value, motive (c.branch value)) → motive cs)
    (cs : List Char) : motive cs := by
  induction cs using wellFounded_isBranch.induction with
  | h cs ih => exact step cs fun c hc value => ih _ ⟨c, hc, value, rfl⟩

-- ── Visiting ─────────────────────────────────────────────────────────────────

/-- The conditionals of a text and those of all their branches: a conditional comes before the ones
    in its branches. -/
def visited (cs : List Char) : List Conditional :=
  (conditionals cs).attach.flatMap fun ⟨c, _h⟩ =>
    c :: (visited (c.branch true) ++ visited (c.branch false))
termination_by cs.length
decreasing_by
  · exact branch_length_lt_of_mem _h true
  · exact branch_length_lt_of_mem _h false

/-- The conditionals of a text and those of the branches that the values choose. -/
def reached (conditions : Table Bool) (cs : List Char) : List Conditional :=
  (conditionals cs).attach.flatMap fun ⟨c, _h⟩ =>
    c :: match conditions.get? c.name with
      | some value => reached conditions (c.branch value)
      | none => []
termination_by cs.length
decreasing_by
  · exact branch_length_lt_of_mem _h value

/-- A conditional with those of all its branches. -/
def Conditional.visited (c : Conditional) : List Conditional :=
  c :: (Template.visited (c.branch true) ++ Template.visited (c.branch false))

/-- A conditional with those of the branch that its value chooses. -/
def Conditional.reached (conditions : Table Bool) (c : Conditional) : List Conditional :=
  c :: match conditions.get? c.name with
    | some value => Template.reached conditions (c.branch value)
    | none => []

theorem visited_eq (cs : List Char) :
    visited cs = (conditionals cs).flatMap Conditional.visited := by
  rw [visited, List.flatMap_subtype fun _ _ => rfl, List.unattach_attach]
  rfl

theorem reached_eq (conditions : Table Bool) (cs : List Char) :
    reached conditions cs = (conditionals cs).flatMap (Conditional.reached conditions) := by
  rw [reached, List.flatMap_subtype fun _ _ => rfl, List.unattach_attach]
  rfl

theorem flatMap_sublist {α β : Type} {f g : α → List β} {l : List α}
    (h : ∀ a ∈ l, (f a).Sublist (g a)) :
    (l.flatMap f).Sublist (l.flatMap g) := by
  induction l with
  | nil => exact .slnil
  | cons a l ih =>
      rw [List.flatMap_cons, List.flatMap_cons]
      exact (h a List.mem_cons_self).append (ih fun b hb => h b (List.mem_cons_of_mem a hb))

/-- Only visited conditionals are reached. -/
theorem reached_sublist (conditions : Table Bool) (cs : List Char) :
    (reached conditions cs).Sublist (visited cs) := by
  induction cs using branch_induction with
  | step cs ih =>
      rw [reached_eq, visited_eq]
      refine flatMap_sublist fun c hc => .cons_cons c ?_
      cases conditions.get? c.name with
      | none => exact List.nil_sublist _
      | some value =>
          cases value with
          | true => exact (ih c hc true).trans (List.sublist_append_left _ _)
          | false => exact (ih c hc false).trans (List.sublist_append_right _ _)

-- ── What is scanned and what is counted ──────────────────────────────────────

/-- The name and the default in the header of a conditional. -/
def Conditional.entry (c : Conditional) : String × Option Bool := (c.name, c.default?)

/-- The headers of an outline in the order in which they stand in its text. -/
def Outline.headers : Outline → List (String × Option Bool)
  | .done => []
  | .char _ rest => rest.headers
  | .choice name default? _ whenTrue whenFalse rest =>
    (name, default?) :: (whenTrue.headers ++ (whenFalse.headers ++ rest.headers))

theorem Outline.conditions_eq (o : Outline) :
    o.conditions = o.headers.map fun e => (e.1, e.2.getD false) := by
  induction o with
  | done => rfl
  | char c rest ih => exact ih
  | choice name default? line t u rest iht ihu ih =>
      rw [conditions, iht, ihu, ih, ← List.map_append, ← List.map_append]
      rfl

theorem Outline.headers_unplaced (o : Outline) : o.unplaced.headers = o.headers := by
  induction o with
  | done => rfl
  | char c rest ih => exact ih
  | choice name default? line t u rest iht ihu ih =>
      rw [unplaced, headers, iht, ihu, ih]
      rfl

theorem headers_foldr {ps : List (Piece Conditional)}
    (h : ∀ c ∈ Piece.items ps, ∀ value,
      (Outline.ofText (c.branch value)).headers =
        (visited (c.branch value)).map Conditional.entry) :
    (ps.foldr (Outline.consPiece Outline.ofText) .done).headers =
      ((Piece.items ps).flatMap Conditional.visited).map Conditional.entry := by
  induction ps with
  | nil => rfl
  | cons p ps ih =>
      cases p with
      | char c => exact ih h
      | item c =>
          have hbranch := h c List.mem_cons_self
          have hrest := ih fun d hd => h d (List.mem_cons_of_mem _ hd)
          show c.entry :: ((Outline.ofText (c.branch true)).headers ++
            ((Outline.ofText (c.branch false)).headers ++
              (ps.foldr (Outline.consPiece Outline.ofText) .done).headers)) = _
          rw [hbranch true, hbranch false, hrest]
          simp [Conditional.visited]

/-- The outline of a text has the headers of the visited conditionals. -/
theorem headers_ofText (cs : List Char) :
    (Outline.ofText cs).headers = (visited cs).map Conditional.entry := by
  induction cs using branch_induction with
  | step cs ih =>
      rw [Outline.ofText_eq, visited_eq]
      exact headers_foldr ih

/-- `scan` lists the conditions of the visited conditionals. -/
theorem conditions_scan (template : String) :
    (scan template).conditions =
      .ofListFirst ((visited template.toList).map fun c => (c.name, c.default?.getD false)) := by
  rw [scan, inventory, Outline.conditions_eq, headers_ofText, List.map_map]
  rfl

theorem count_foldr {conditions : Table Bool} {ps : List (Piece Conditional)}
    (h : ∀ c ∈ Piece.items ps, ∀ value text,
      (Outline.ofText (c.branch value)).resolve conditions = .ok text →
        text.2 = (reached conditions (c.branch value)).length)
    {text : List Char × Nat}
    (hresolve : (ps.foldr (Outline.consPiece Outline.ofText) .done).resolve conditions = .ok text) :
    text.2 = ((Piece.items ps).flatMap (Conditional.reached conditions)).length := by
  induction ps generalizing text with
  | nil =>
      cases hresolve
      rfl
  | cons p ps ih =>
      cases p with
      | char c =>
          obtain ⟨after, hafter, rfl⟩ := map_eq_ok.mp hresolve
          show after.2 = _
          exact ih h hafter
      | item c =>
          obtain ⟨value, branch, after, hvalue, hbranch, hafter, rfl⟩ :=
            Outline.resolve_choice_eq_ok hresolve
          have hchosen : (Outline.ofText (c.branch value)).resolve conditions = .ok branch := by
            cases value with
            | true => exact hbranch
            | false => exact hbranch
          have hcount := h c List.mem_cons_self value branch hchosen
          have hrest := ih (fun d hd => h d (List.mem_cons_of_mem _ hd)) hafter
          rw [Piece.items_item, List.flatMap_cons, List.length_append, ← hrest,
            Conditional.reached, hvalue]
          show branch.2 + after.2 + 1 = (reached conditions (c.branch value)).length + 1 + after.2
          rw [← hcount]
          omega

/-- The first pass counts the conditionals that it reaches. -/
theorem count_of_resolve {conditions : Table Bool} (cs : List Char) :
    ∀ text, (Outline.ofText cs).resolve conditions = .ok text →
      text.2 = (reached conditions cs).length := by
  induction cs using branch_induction with
  | step cs ih =>
      intro text h
      rw [Outline.ofText_eq] at h
      rw [reached_eq]
      exact count_foldr ih h

-- ── Headers among the tokens ─────────────────────────────────────────────────

/-- The headers of conditionals among the pieces. -/
def headers (ps : List (Piece Token)) : List (String × Option Bool) :=
  (Piece.items ps).filterMap fun t =>
    match t.marker with
    | .ifHeader name default? => some (name, default?)
    | _ => none

theorem headers_append (ps qs : List (Piece Token)) :
    headers (ps ++ qs) = headers ps ++ headers qs := by
  rw [headers, Piece.items_append, List.filterMap_append]
  rfl

theorem headers_header {t : Token} {name : String} {default? : Option Bool}
    (h : t.marker = .ifHeader name default?) (ps : List (Piece Token)) :
    headers (.item t :: ps) = (name, default?) :: headers ps := by
  rw [headers, Piece.items_item, List.filterMap_cons, h]
  rfl

/-- More pieces have more headers. -/
theorem headers_cons_sublist (p : Piece Token) (ps : List (Piece Token)) :
    (headers ps).Sublist (headers (p :: ps)) := by
  rw [← List.singleton_append, headers_append]
  exact List.sublist_append_right _ _

/-- A cut leaves no header that was none before. -/
theorem headers_cutPieces (n : Nat) (ps : List (Piece Token)) :
    (headers (cutPieces n ps)).Sublist (headers ps) := by
  induction ps generalizing n with
  | nil => cases n <;> exact .slnil
  | cons p ps ih =>
      cases n with
      | zero => exact List.nil_sublist _
      | succ n =>
          cases p with
          | char c => exact ih n
          | item t =>
              rw [cutPieces]
              split
              · rw [← List.singleton_append, ← List.singleton_append (l := ps), headers_append,
                  headers_append]
                exact (List.Sublist.refl _).append (ih _)
              · rw [headers, Piece.items_plain]
                exact List.nil_sublist _

/-- The headers between the markers of a conditional, one branch after the other. -/
theorem headers_regions {ps : List (Piece Token)} {s : Site} (h : s.closing.Divides ps) :
    (headers (s.region true) ++ (headers (s.region false) ++ headers s.closing.rest)).Sublist
      (headers ps) := by
  rw [h.pieces, headers_append, headers_append]
  refine (List.Sublist.refl _).append (.append ?_ (headers_cons_sublist _ _))
  rw [Site.region, Closing.otherwise, if_neg Bool.false_ne_true]
  cases s.closing.otherwise? with
  | none => exact .slnil
  | some o => exact headers_cons_sublist _ _

/-- If the outline of each branch has only headers of the branch, then the outline of the sites has
    only headers of the pieces. -/
theorem headers_foldr_consSite {ps : List (Piece Token)} {read : List (Piece Token) → Outline}
    (h : ∀ s, .item s ∈ gatherClosings ps → ∀ value,
      (read (branchPieces (s.region value))).headers.Sublist (headers (s.region value))) :
    ((gatherClosings ps).foldr (Outline.consSite read) .done).headers.Sublist (headers ps) := by
  induction ps using gathering_induction with
  | nil =>
      rw [gatherClosings_nil]
      exact .slnil
  | char c ps ih =>
      rw [gatherClosings_char] at h ⊢
      exact ih fun s hs => h s (List.mem_cons_of_mem _ hs)
  | closed t name default? c ps hm hc ih =>
      rw [gatherClosings_closed hm hc] at h ⊢
      rw [headers_header hm]
      have hbranch := h _ List.mem_cons_self
      have hrest := ih fun s hs => h s (List.mem_cons_of_mem _ hs)
      refine .cons_cons _ (((hbranch true).append ((hbranch false).append hrest)).trans ?_)
      exact headers_regions (s := ⟨t, name, default?, c⟩) (divides_of_closeConditional? hc)
  | plain t ps hplain ih =>
      rw [gatherClosings_plain hplain] at h ⊢
      have hskip : ∀ cs : List Char,
          ((Piece.plain cs ++ gatherClosings ps).foldr (Outline.consSite read) .done).headers =
            ((gatherClosings ps).foldr (Outline.consSite read) .done).headers := by
        intro cs
        induction cs with
        | nil => rfl
        | cons c cs ih => exact ih
      rw [hskip]
      refine (ih fun s hs => h s ?_).trans (headers_cons_sublist _ _)
      exact List.mem_append_right _ hs

/-- The outline of tokens has only headers that are among the tokens. -/
theorem headers_ofTokens (ps : List (Piece Token)) :
    (Outline.ofTokens ps).headers.Sublist (headers ps) := by
  induction hn : weight ps using Nat.strongRecOn generalizing ps with
  | ind n ih =>
      subst hn
      rw [Outline.ofTokens_eq]
      refine headers_foldr_consSite fun s hs value => ?_
      exact (ih _ (weight_region_lt hs value) _ rfl).trans (headers_cutPieces _ _)

/-- The visited conditionals have headers of their own among the tokens of the text. -/
theorem headers_visited (cs : List Char) :
    ((visited cs).map Conditional.entry).Sublist (headers (tokenize cs)) := by
  rw [← headers_ofText, ← Outline.headers_unplaced, ← Outline.ofTokens_tokenize,
    Outline.headers_unplaced]
  exact headers_ofTokens _

-- ── The conditional pass ─────────────────────────────────────────────────────

/-- With a value for every condition that `scan` lists, no condition is asked for in vain. -/
theorem kind_ne_condition {template : String} {v : Values} {u : Unresolved}
    (hcovers : ∀ name ∈ (scan template).conditions.names, (v.conditions.get? name).isSome)
    (h : convert template v = .error u) : u.kind ≠ .condition := by
  obtain ⟨kind, hfails⟩ := failsIn_of_convert h
  rw [hfails.reported.1]
  cases hfails with
  | condition h =>
      have hasked : ∀ e ∈ (Outline.ofText template.toList).conditions,
          (v.conditions.get? e.1).isSome := by
        intro e he
        refine hcovers e.1 ?_
        rw [scan, inventory, Directives.names_ofListFirst, List.mem_eraseDups]
        exact List.mem_map_of_mem he
      obtain ⟨text, htext⟩ := Outline.resolve_covered hasked
      cases htext.symm.trans h
  | block htext h => decide
  | «variable» htext h => decide

/-- Values for the conditions that `scan` lists are enough for the conditionals.  Branches get
    shorter, so reading them ends for every text.  A conversion counts the conditionals that it
    reaches, which are among those that scanning visits, and each of these has a header of its own
    among the tokens of the template. -/
theorem conditional_pass (template : String) :
    (∀ v, (∀ name ∈ (scan template).conditions.names, (v.conditions.get? name).isSome) →
      ∀ u, convert template v = .error u → u.kind ≠ .condition) ∧
    (∀ cs, ∀ c ∈ conditionals cs, ∀ value, (c.branch value).length < cs.length) ∧
    WellFounded IsBranch ∧
    (∀ v conversion, convert template v = .ok conversion →
      conversion.stats.conditionals = (reached v.conditions template.toList).length ∧
      (reached v.conditions template.toList).length ≤ (visited template.toList).length) ∧
    (visited template.toList).length ≤ (headers (tokenize template.toList)).length ∧
    ((visited template.toList).map Conditional.entry).Sublist
      (headers (tokenize template.toList)) ∧
    (scan template).conditions =
      .ofListFirst ((visited template.toList).map fun c => (c.name, c.default?.getD false)) := by
  have hheaders := headers_visited template.toList
  refine ⟨?_, ?_, wellFounded_isBranch, ?_, ?_, hheaders, conditions_scan template⟩
  · intro v hcovers u h
    exact kind_ne_condition hcovers h
  · intro cs c hc value
    exact branch_length_lt_of_mem hc value
  · intro v conversion h
    refine ⟨?_, (reached_sublist v.conditions _).length_le⟩
    obtain ⟨text, htext, h⟩ := bind_eq_ok.mp h
    obtain ⟨cs, -, h⟩ := bind_eq_ok.mp h
    obtain ⟨filled, -, h⟩ := bind_eq_ok.mp h
    cases h
    exact count_of_resolve template.toList text htext
  · have hlength := hheaders.length_le
    rwa [List.length_map] at hlength

/-- A conditional inside another one, and a header that nothing closes. -/
def hiddenTemplate : String := "@if A\n@if B\nx\n@endif\n@endif\n@if C\n"

/-- With `A` turned off one conditional is reached of the two that are visited, of three headers. -/
theorem conditional_pass_sample :
    ∃ conversion, convert hiddenTemplate ((∅ : Values).setCondition "A" false) = .ok conversion ∧
      conversion.stats.conditionals = 1 ∧
      (reached ((∅ : Values).setCondition "A" false).conditions hiddenTemplate.toList).length = 1 ∧
      (visited hiddenTemplate.toList).length = 2 ∧
      headers (tokenize hiddenTemplate.toList) = [("A", none), ("B", none), ("C", none)] := by
  have hconvert : convert hiddenTemplate ((∅ : Values).setCondition "A" false) =
      .ok ⟨"\n@if C\n", ⟨1, 0, 0⟩⟩ := by
    decide +kernel
  exact ⟨_, hconvert, rfl, ((conditional_pass hiddenTemplate).2.2.2.1 _ _ hconvert).1.symm,
    by decide +kernel, by decide +kernel⟩

end ShaderTemplates.Template
