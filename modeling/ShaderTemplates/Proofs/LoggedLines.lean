import ShaderTemplates.Proofs.AddedValues
import ShaderTemplates.Proofs.Forests
import ShaderTemplates.Proofs.OffsetSpans
import ShaderTemplates.Proofs.PairedPasses

/-!
# The lines of directives without a value

A conversion that fails says on which line it does so.  It counts the lines of the text that the
failing pass reads: for a condition the branch around it, for a block what the conditionals leave of
the template, for a variable what the blocks make of that (`StopsAt`).

Nothing maps these lines back to the template.  `StopsAt` also says where in the template the
directive stands, and `Logged` when the line that is logged is the one on which it stands there.
A conditional takes at least the line break of its header with it, so the lines in front of a place
stay as many exactly if no conditional stands in front of it (`Left.lineBreaks_eq_iff`).
-/

namespace ShaderTemplates.Template

open Text

-- ── Places in a text that was replaced ───────────────────────────────────────

namespace Piece

variable {α ε : Type} {replace : α → Except ε (List Char)} {ps : List (Piece α)}

/-- A place in a text whose items were replaced, by what stands in front of it: what stands there
    stood there before, or it stands in what took the place of an item. -/
inductive PlaceIn (replace : α → Except ε (List Char)) (ps : List (Piece α)) (x : List Char) :
    Prop where
  | kept {front back : List (Piece α)} {c : Char} (split : ps = front ++ .char c :: back)
      (replaced : substitute replace front = .ok x)
  | within {front back : List (Piece α)} {a : α} {new x' y : List Char} {c : Char}
      (split : ps = front ++ .item a :: back) (replaced : substitute replace front = .ok new)
      (item : replace a = .ok (x' ++ c :: y)) (place : x = new ++ x')

theorem PlaceIn.behind {x text : List Char} {p : Piece α} (h : PlaceIn replace ps x)
    (hp : substitute replace [p] = .ok text) : PlaceIn replace (p :: ps) (text ++ x) := by
  have hnext : ∀ {front new}, substitute replace front = .ok new →
      substitute replace (p :: front) = .ok (text ++ new) := by
    intro front new hnew
    rw [← List.singleton_append, substitute_append, hp, hnew]
    rfl
  cases h with
  | kept split replaced =>
      rw [split, ← List.cons_append]
      exact .kept rfl (hnext replaced)
  | within split replaced item place =>
      rw [split, ← List.cons_append, place, ← List.append_assoc]
      exact .within rfl (hnext replaced) item rfl

/-- Every place of a text that was replaced is of one of the two kinds. -/
theorem placeIn_of_substitute {x y : List Char} {d : Char}
    (h : substitute replace ps = .ok (x ++ d :: y)) : PlaceIn replace ps x := by
  induction ps generalizing x with
  | nil =>
      cases x with
      | nil => cases h
      | cons c x => cases h
  | cons p ps ih =>
      cases p with
      | char c =>
          obtain ⟨after, hafter, htext⟩ := map_eq_ok.mp h
          cases x with
          | nil => exact .kept (List.nil_append _).symm rfl
          | cons e x =>
              obtain ⟨rfl, rfl⟩ := List.cons.inj htext
              have hone : substitute replace [.char c] = .ok [c] := rfl
              exact (ih hafter).behind hone
      | item b =>
          obtain ⟨text, hb, h⟩ := bind_eq_ok.mp h
          obtain ⟨after, hafter, h⟩ := bind_eq_ok.mp h
          have htext : text ++ after = x ++ d :: y := Except.ok.inj h
          have hone : substitute replace [.item b] = .ok text := by
            rw [substitute, hb]
            exact congrArg Except.ok (List.append_nil text)
          rcases List.append_eq_append_iff.mp htext with ⟨k, rfl, rfl⟩ | ⟨k, rfl, hy⟩
          · exact (ih hafter).behind hone
          · cases k with
            | nil =>
                have hend := (ih (x := []) (hy ▸ hafter)).behind hone
                rwa [List.append_nil, List.append_nil] at hend
            | cons e k =>
                exact .within (List.nil_append _).symm rfl hb (List.nil_append _).symm

end Piece

-- ── Conditionals where they stand ────────────────────────────────────────────

/-- A text with its conditionals where they stand. -/
def sites (cs : List Char) : List (Piece Site) := gatherClosings (tokenize cs)

namespace Site

def source (s : Site) : List Char := s.conditional.source

/-- A branch stands in its conditional behind what leads to it. -/
theorem source_eq (s : Site) (value : Bool) :
    ∃ rest, s.source = s.lead value ++ (s.conditional.branch value ++ rest) := by
  obtain ⟨rest, hrest⟩ := content_prefix (tokenSource (s.region value))
  rw [← s.branch_eq] at hrest
  obtain ⟨header, name, default?, whenTrue, otherwise?, endIf, after⟩ := s
  cases value with
  | true =>
      refine ⟨rest ++ (Closing.otherwise ⟨whenTrue, otherwise?, endIf, after⟩ |> tokenSource) ++
        endIf.source, ?_⟩
      show header.source ++ Closing.source _ = _
      rw [Closing.source_eq]
      simp only [lead, if_true, List.append_assoc]
      rw [← List.append_assoc (Conditional.branch _ _), hrest]
      rfl
  | false =>
      cases otherwise? with
      | none => exact ⟨endIf.source, by simp [source, conditional, Closing.toConditional, lead,
          Closing.source, Conditional.branch]⟩
      | some o =>
          refine ⟨rest ++ endIf.source, ?_⟩
          show header.source ++ Closing.source _ = _
          rw [← List.append_assoc (Conditional.branch _ _), hrest]
          simp [Closing.source, lead, region]

end Site

theorem sites_conditional (cs : List Char) :
    (sites cs).map (Piece.map Site.conditional) = conditionalPieces cs :=
  (gatherConditionals_eq (tokenize cs)).symm

theorem source_sites (cs : List Char) : Piece.source Site.source (sites cs) = cs := by
  have hsource := source_conditionalPieces cs
  rwa [← sites_conditional, Piece.source_map] at hsource

section

variable {cs : List Char} {ps qs : List (Piece Site)} {s : Site}

theorem conditional_mem (h : s ∈ Piece.items (sites cs)) : s.conditional ∈ conditionals cs := by
  rw [conditionals, ← sites_conditional, Piece.items_map]
  exact List.mem_map_of_mem h

/-- A header of a conditional is on the line that the line breaks in front of it make. -/
theorem line_of_site (h : sites cs = ps ++ .item s :: qs) :
    s.header.line = 1 + lineBreaks (Piece.source Site.source ps) := by
  obtain ⟨front, back, hfront, -, -, hsource⟩ := gatherClosings_split h
  rw [tokenize_eq_piecesFrom] at hfront
  rw [Offsets.line_of_piecesFrom hfront, hsource]
  rfl

/-- The header of a conditional takes the line break behind it. -/
theorem lineBreaks_lead (h : s ∈ Piece.items (sites cs)) (value : Bool) :
    0 < lineBreaks (s.lead value) := by
  obtain ⟨before, after, hsplit⟩ := List.append_of_mem (Piece.item_of_mem_items h)
  obtain ⟨front, back, hfront, hmarker, -⟩ := gatherClosings_split hsplit
  rw [tokenize_eq_piecesFrom] at hfront
  obtain ⟨q, hm, -⟩ := piecesFrom_item hfront
  have hlast : s.header.source.getLast? = some '\n' := by
    have hwhy := marker?_explained hm
    rwa [Found.Explained, hmarker] at hwhy
  have hheader : s.header.source.Sublist (s.lead value) := by
    cases value with
    | true => exact List.Sublist.refl _
    | false => exact (List.sublist_append_left _ _).trans (List.sublist_append_left _ _)
  exact Nat.lt_of_lt_of_le (List.count_pos_iff.mpr (List.mem_of_getLast? hlast))
    (hheader.count_le _)

/-- A branch has fewer line breaks than its conditional. -/
theorem lineBreaks_branch (h : s ∈ Piece.items (sites cs)) (value : Bool) :
    lineBreaks (s.conditional.branch value) < lineBreaks s.source := by
  have hbreak := lineBreaks_lead h value
  obtain ⟨rest, hrest⟩ := s.source_eq value
  rw [hrest, lineBreaks_append, lineBreaks_append]
  omega

theorem mem_items_front {p : Piece Site} (h : sites cs = ps ++ p :: qs)
    (hs : s ∈ Piece.items ps) : s ∈ Piece.items (sites cs) := by
  rw [h, Piece.items_append]
  exact List.mem_append_left _ hs

/-- What stands in front of a place in a branch stands in front of it in the text. -/
theorem prefix_of_branch (h : sites cs = ps ++ .item s :: qs) {value : Bool} {before : List Char}
    (hbefore : before <+: s.conditional.branch value) :
    Piece.source Site.source ps ++ (s.lead value ++ before) <+: cs := by
  obtain ⟨rest, hrest⟩ := s.source_eq value
  obtain ⟨more, hmore⟩ := hbefore
  rw [← source_sites cs, h, Piece.source_append, Piece.source_item, hrest, ← hmore]
  refine ⟨more ++ (rest ++ Piece.source Site.source qs), ?_⟩
  simp only [List.append_assoc]

theorem prefix_of_piece {p : Piece Site} (h : sites cs = ps ++ p :: qs) :
    Piece.source Site.source ps <+: cs := by
  rw [← source_sites cs, h, Piece.source_append]
  exact List.prefix_append _ _

end

-- ── What the conditionals leave ──────────────────────────────────────────────

/-- What takes the place of a conditional. -/
def chosenText (conditions : Table Bool) (s : Site) : Except Unresolved (List Char) :=
  (Offsets.chosenBranch conditions s.conditional).map (·.1)

section

variable {conditions : Table Bool} {s : Site} {u : Unresolved}

theorem chosenText_eq_ok {text : List Char} (h : chosenText conditions s = .ok text) :
    ∃ value count, conditions.get? s.name = some value ∧
      (Outline.ofText (s.conditional.branch value)).resolve conditions = .ok (text, count) := by
  obtain ⟨chosen, hchosen, rfl⟩ := map_eq_ok.mp h
  obtain ⟨value, hvalue, hchosen⟩ := bind_eq_ok.mp hchosen
  obtain ⟨branch, hbranch, hchosen⟩ := bind_eq_ok.mp hchosen
  cases hchosen
  exact ⟨value, branch.2, get?_of_lookUp hvalue, hbranch⟩

theorem chosenText_eq_error (h : chosenText conditions s = .error u) :
    (u = ⟨.condition, s.name, s.header.line⟩ ∧ conditions.contains s.name = false) ∨
      ∃ value, conditions.get? s.name = some value ∧
        (Outline.ofText (s.conditional.branch value)).resolve conditions = .error u := by
  rcases bind_eq_error.mp (map_eq_error.mp h) with hlook | ⟨value, hvalue, h⟩
  · exact .inl (lookUp_eq_error hlook)
  · exact .inr ⟨value, get?_of_lookUp hvalue, bind_pure_eq_error.mp h⟩

theorem replaceItems_fst {α ε : Type} (replace : α → Except ε (List Char × Nat))
    (ps : List (Piece α)) :
    (Offsets.replaceItems replace ps).map (·.1) =
      Piece.substitute (fun a => (replace a).map (·.1)) ps := by
  induction ps with
  | nil => rfl
  | cons p ps ih =>
      cases p with
      | char c =>
          rw [Offsets.replaceItems, Piece.substitute, ← ih]
          cases Offsets.replaceItems replace ps <;> rfl
      | item a =>
          rw [Offsets.replaceItems, Piece.substitute, ← ih]
          cases replace a with
          | error e => rfl
          | ok text => cases Offsets.replaceItems replace ps <;> rfl

/-- The first pass puts the chosen branches in the places of the conditionals. -/
theorem resolve_sites (conditions : Table Bool) (cs : List Char) :
    ((Outline.ofText cs).resolve conditions).map (·.1) =
      Piece.substitute (chosenText conditions) (sites cs) := by
  rw [Outline.ofText_eq, Offsets.resolve_foldr, replaceItems_fst, ← sites_conditional,
    Piece.substitute_map]
  rfl

end

/-- The chosen branches have fewer line breaks than the conditionals they take the places of. -/
theorem lineBreaks_of_substitute {conditions : Table Bool} {ps : List (Piece Site)}
    {front : List Char}
    (hchosen : ∀ s ∈ Piece.items ps, ∀ text, chosenText conditions s = .ok text →
      lineBreaks text < lineBreaks s.source)
    (h : Piece.substitute (chosenText conditions) ps = .ok front) :
    lineBreaks front + (Piece.items ps).length ≤ lineBreaks (Piece.source Site.source ps) := by
  induction ps generalizing front with
  | nil =>
      cases h
      exact Nat.le_refl 0
  | cons p ps ih =>
      cases p with
      | char c =>
          obtain ⟨after, hafter, rfl⟩ := map_eq_ok.mp h
          have hle := ih hchosen hafter
          have hcons : ∀ cs, lineBreaks (c :: cs) = lineBreaks [c] + lineBreaks cs :=
            lineBreaks_append [c]
          rw [Piece.source_char, Piece.items_char, hcons, hcons (Piece.source _ _)]
          omega
      | item s =>
          obtain ⟨text, htext, h⟩ := bind_eq_ok.mp h
          obtain ⟨after, hafter, h⟩ := bind_eq_ok.mp h
          cases h
          have hlt := hchosen s List.mem_cons_self text htext
          have hle := ih (fun s' hs' => hchosen s' (List.mem_cons_of_mem _ hs')) hafter
          rw [Piece.source_item, lineBreaks_append, lineBreaks_append, Piece.items_item,
            List.length_cons]
          omega

/-- What the conditionals leave has no more line breaks than the text. -/
theorem lineBreaks_of_resolve {conditions : Table Bool} {cs text : List Char} {count : Nat}
    (h : (Outline.ofText cs).resolve conditions = .ok (text, count)) :
    lineBreaks text ≤ lineBreaks cs := by
  induction cs using branch_induction generalizing text count with
  | step cs ih =>
      have htext : Piece.substitute (chosenText conditions) (sites cs) = .ok text := by
        rw [← resolve_sites, h]
        rfl
      have hle := lineBreaks_of_substitute (fun s hs own hown => by
        obtain ⟨value, _, -, hbranch⟩ := chosenText_eq_ok hown
        exact Nat.lt_of_le_of_lt (ih _ (conditional_mem hs) value hbranch)
          (lineBreaks_branch hs value)) htext
      rw [source_sites] at hle
      exact Nat.le_trans (Nat.le_add_right _ _) hle

/-- The conditionals in front of a place take a line break each with them, at least. -/
theorem lineBreaks_of_front {conditions : Table Bool} {cs front : List Char}
    {ps qs : List (Piece Site)} {p : Piece Site} (h : sites cs = ps ++ p :: qs)
    (hfront : Piece.substitute (chosenText conditions) ps = .ok front) :
    lineBreaks front + (Piece.items ps).length ≤ lineBreaks (Piece.source Site.source ps) := by
  refine lineBreaks_of_substitute (fun s hs text htext => ?_) hfront
  obtain ⟨value, _, -, hbranch⟩ := chosenText_eq_ok htext
  exact Nat.lt_of_le_of_lt (lineBreaks_of_resolve hbranch)
    (lineBreaks_branch (mem_items_front h hs) value)

/-- A place of a text that is left when the conditionals are replaced: in how many branches it is,
    and what stands in front of it in the text, and in what the text becomes. -/
inductive Left (conditions : Table Bool) :
    (cs : List Char) → (depth : Nat) → (before front : List Char) → Prop where
  | outside {cs front : List Char} {ps qs : List (Piece Site)} {c : Char}
      (place : sites cs = ps ++ .char c :: qs)
      (replaced : Piece.substitute (chosenText conditions) ps = .ok front) :
      Left conditions cs 0 (Piece.source Site.source ps) front
  | inside {cs new before front : List Char} {ps qs : List (Piece Site)} {s : Site} {value : Bool}
      {depth : Nat} (place : sites cs = ps ++ .item s :: qs)
      (replaced : Piece.substitute (chosenText conditions) ps = .ok new)
      (chosen : conditions.get? s.name = some value)
      (left : Left conditions (s.conditional.branch value) depth before front) :
      Left conditions cs (depth + 1) (Piece.source Site.source ps ++ (s.lead value ++ before))
        (new ++ front)

/-- Every place of what the conditionals leave is a place of the text. -/
theorem left_of_resolve {conditions : Table Bool} {cs x y : List Char} {c : Char} {n : Nat}
    (h : (Outline.ofText cs).resolve conditions = .ok (x ++ c :: y, n)) :
    ∃ depth before, Left conditions cs depth before x := by
  induction cs using branch_induction generalizing x y c n with
  | step cs ih =>
      have htext : Piece.substitute (chosenText conditions) (sites cs) = .ok (x ++ c :: y) := by
        rw [← resolve_sites, h]
        rfl
      cases Piece.placeIn_of_substitute htext with
      | kept split replaced => exact ⟨_, _, .outside split replaced⟩
      | within split replaced item place =>
          obtain ⟨value, _, hvalue, hbranch⟩ := chosenText_eq_ok item
          obtain ⟨depth, before, hleft⟩ :=
            ih _ (conditional_mem (Piece.mem_items_of_split split)) value hbranch
          rw [place]
          exact ⟨_, _, .inside split replaced hvalue hleft⟩

namespace Piece

variable {α : Type} {text : α → List Char} {ps rest : List (Piece α)}

/-- Items that are no empty texts do not stand where there are plain characters. -/
theorem plain_of_prefix {x : List Char} (hne : ∀ a ∈ items ps, text a ≠ [])
    (h : plain (source text ps ++ x) <+: ps ++ rest) :
    ps = plain (source text ps) ∧ plain x <+: rest := by
  induction ps with
  | nil => exact ⟨rfl, h⟩
  | cons p ps ih =>
      cases p with
      | char c =>
          obtain ⟨-, htail⟩ := List.cons_prefix_cons.mp h
          obtain ⟨hps, hx⟩ := ih hne htail
          exact ⟨congrArg (.char c :: ·) hps, hx⟩
      | item a =>
          obtain ⟨c, own, hown⟩ := List.exists_cons_of_ne_nil (hne a List.mem_cons_self)
          rw [source_item, hown] at h
          cases (List.cons_prefix_cons.mp h).1

theorem plain_of_items_nil (text : α → List Char) (h : items ps = []) :
    ps = plain (source text ps) := by
  induction ps with
  | nil => rfl
  | cons p ps ih =>
      cases p with
      | char c => exact congrArg (.char c :: ·) (ih h)
      | item a => cases h

end Piece

namespace Left

variable {conditions : Table Bool} {cs before front : List Char} {depth : Nat}

theorem isPrefix (h : Left conditions cs depth before front) : before <+: cs := by
  induction h with
  | outside place replaced => exact prefix_of_piece place
  | inside place replaced chosen left ih => exact prefix_of_branch place ih

theorem lineBreaks_le (h : Left conditions cs depth before front) :
    lineBreaks front ≤ lineBreaks before := by
  induction h with
  | outside place replaced =>
      exact Nat.le_trans (Nat.le_add_right _ _) (lineBreaks_of_front place replaced)
  | inside place replaced chosen left ih =>
      have hle := lineBreaks_of_front place replaced
      rw [lineBreaks_append, lineBreaks_append, lineBreaks_append]
      omega

/-- Nothing changes in front of a place if there is no conditional. -/
theorem eq_of_plain (h : Left conditions cs depth before front)
    (hplain : Piece.plain before <+: sites cs) : front = before := by
  have hne : ∀ s ∈ Piece.items (sites cs), s.source ≠ [] := by
    intro s hs hnil
    have hlt := lineBreaks_branch hs true
    rw [hnil] at hlt
    exact Nat.not_lt_zero _ hlt
  cases h with
  | @outside _ _ ps qs c place replaced =>
      rw [place, ← List.append_nil (Piece.source Site.source ps)] at hplain
      have hps := (Piece.plain_of_prefix (fun s hs => hne s (mem_items_front place hs)) hplain).1
      rw [hps, Piece.substitute_plain, Except.ok.injEq] at replaced
      exact replaced.symm
  | @inside _ new before front ps qs s value depth place replaced chosen left =>
      have hbreak := lineBreaks_lead (Piece.mem_items_of_split place) value
      rw [place] at hplain
      have hs := (Piece.plain_of_prefix (fun s hs => hne s (mem_items_front place hs)) hplain).2
      obtain ⟨c, own, hown⟩ := List.exists_cons_of_ne_nil (l := s.lead value) (by
        intro hnil
        rw [hnil] at hbreak
        exact Nat.lt_irrefl 0 hbreak)
      rw [hown] at hs
      cases (List.cons_prefix_cons.mp hs).1

/-- The lines in front of a place stay as many exactly if there is no conditional. -/
theorem lineBreaks_eq_iff (h : Left conditions cs depth before front) :
    lineBreaks front = lineBreaks before ↔ Piece.plain before <+: sites cs := by
  constructor
  · intro hlines
    cases h with
    | @outside _ _ ps qs c place replaced =>
        have hle := lineBreaks_of_front place replaced
        have hitems : Piece.items ps = [] := List.eq_nil_of_length_eq_zero (by omega)
        rw [place, ← Piece.plain_of_items_nil Site.source hitems]
        exact List.prefix_append _ _
    | @inside _ new before front ps qs s value depth place replaced chosen left =>
        have hfront := lineBreaks_of_front place replaced
        have hbreak := lineBreaks_lead (Piece.mem_items_of_split place) value
        have hle := left.lineBreaks_le
        rw [lineBreaks_append, lineBreaks_append, lineBreaks_append] at hlines
        omega
  · intro hplain
    rw [h.eq_of_plain hplain]

end Left

-- ── Where a conversion stops ─────────────────────────────────────────────────

/-- The conditionals stop at a condition without a value that stands in a number of branches: what
    stands in front of it in the text, and in the innermost branch around it. The conditionals in
    front of it have been replaced. -/
inductive StopsIn (conditions : Table Bool) :
    (cs : List Char) → (depth : Nat) → (before own : List Char) → (name : String) → Prop where
  | here {cs new : List Char} {ps qs : List (Piece Site)} {s : Site}
      (place : sites cs = ps ++ .item s :: qs)
      (replaced : Piece.substitute (chosenText conditions) ps = .ok new)
      (missing : conditions.contains s.name = false) :
      StopsIn conditions cs 0 (Piece.source Site.source ps) (Piece.source Site.source ps) s.name
  | inside {cs new before own : List Char} {ps qs : List (Piece Site)} {s : Site} {value : Bool}
      {depth : Nat} {name : String} (place : sites cs = ps ++ .item s :: qs)
      (replaced : Piece.substitute (chosenText conditions) ps = .ok new)
      (chosen : conditions.get? s.name = some value)
      (stops : StopsIn conditions (s.conditional.branch value) depth before own name) :
      StopsIn conditions cs (depth + 1)
        (Piece.source Site.source ps ++ (s.lead value ++ before)) own name

theorem stopsIn_of_resolve {conditions : Table Bool} {cs : List Char} {u : Unresolved}
    (h : (Outline.ofText cs).resolve conditions = .error u) :
    ∃ depth before own name, StopsIn conditions cs depth before own name ∧
      u = ⟨.condition, name, 1 + lineBreaks own⟩ := by
  induction cs using branch_induction generalizing u with
  | step cs ih =>
      have hstop : Piece.substitute (chosenText conditions) (sites cs) = .error u := by
        rw [← resolve_sites, h]
        rfl
      obtain ⟨ps, s, qs, new, place, replaced, hrefused⟩ := Piece.substitute_eq_error hstop
      rcases chosenText_eq_error hrefused with ⟨rfl, hmissing⟩ | ⟨value, hvalue, hbranch⟩
      · refine ⟨0, _, _, _, .here place replaced hmissing, ?_⟩
        rw [line_of_site place]
      · obtain ⟨depth, before, own, name, hstops, rfl⟩ :=
          ih _ (conditional_mem (Piece.mem_items_of_split place)) value hbranch
        exact ⟨depth + 1, _, own, name, .inside place replaced hvalue hstops, rfl⟩

namespace StopsIn

variable {conditions : Table Bool} {cs before own : List Char} {depth : Nat} {name : String}

theorem isPrefix (h : StopsIn conditions cs depth before own name) : before <+: cs := by
  induction h with
  | here place replaced missing => exact prefix_of_piece place
  | inside place replaced chosen stops ih => exact prefix_of_branch place ih

/-- What stands in front of a condition in its branch ends what stands in front of it in the text,
    and outside of all branches both are the same. -/
theorem isSuffix (h : StopsIn conditions cs depth before own name) :
    own <:+ before ∧ (depth = 0 → own = before) ∧
      (0 < depth → lineBreaks own < lineBreaks before) := by
  induction h with
  | here place replaced missing =>
      exact ⟨List.suffix_refl _, fun _ => rfl, fun hdepth => absurd hdepth (Nat.lt_irrefl 0)⟩
  | @inside cs new before own ps qs s value depth name place replaced chosen stops ih =>
      have hbreak := lineBreaks_lead (Piece.mem_items_of_split place) value
      obtain ⟨more, hmore⟩ := ih.1
      refine ⟨⟨Piece.source Site.source ps ++ (s.lead value ++ more), ?_⟩,
        fun hdepth => absurd hdepth (Nat.succ_ne_zero depth), fun _ => ?_⟩
      · rw [← hmore]
        simp only [List.append_assoc]
      · rw [← hmore]
        simp only [lineBreaks_append]
        omega

/-- A condition is logged with its line in the text exactly if it stands in no branch. -/
theorem line_iff (h : StopsIn conditions cs depth before own name) :
    1 + lineBreaks own = 1 + lineBreaks before ↔ depth = 0 := by
  obtain ⟨-, hzero, hpos⟩ := h.isSuffix
  constructor
  · intro hline
    exact Decidable.byContradiction fun hdepth =>
      absurd (hpos (Nat.pos_of_ne_zero hdepth)) (by omega)
  · intro hdepth
    rw [hzero hdepth]

end StopsIn

-- ── Blocks and variables ─────────────────────────────────────────────────────

/-- What takes the place of a block. -/
def bodyInPlace (bodies : Table String) (b : Block) : Except Unresolved (List Char) :=
  (lookUp bodies .block b.name b.line).map fun body => Block.canonical b.name.toList body.toList

/-- What takes the place of a variable. -/
def valueInPlace (values : Table String) (v : Variable) : Except Unresolved (List Char) :=
  (lookUp values .variable v.name v.line).map String.toList

/-- A block is on the line that the line breaks in front of it make. -/
theorem line_of_block {cs : List Char} {ps qs : List (Piece Block)} {b : Block}
    (h : blockPieces cs = ps ++ .item b :: qs) :
    b.line = 1 + lineBreaks (Piece.source Block.source ps) := by
  obtain ⟨found, hfound, hplaced⟩ := Offsets.placed_blocks cs
  have hspans := Offsets.spans_blocks hfound
  have hsource := source_blockPieces cs
  rw [h] at hplaced hsource
  obtain ⟨f, hf, hfinds⟩ := hplaced.find
  have hline := hspans.line f hf
  rw [hfinds.start_eq, hfinds.line_eq, Nat.zero_add, ← hsource, Piece.source_append] at hline
  exact Offsets.lineOf_append.mp hline

theorem source_ne_nil_of_block {cs : List Char} {b : Block} (h : .item b ∈ blockPieces cs) :
    b.source ≠ [] := by
  obtain ⟨t, s, ht, -, hsource⟩ := header_of_block h
  rw [hsource]
  exact List.append_ne_nil_of_left_ne_nil (source_ne_nil_of_mem_readPieces ht) s

/-- A variable is the token that stands in its place. -/
theorem variablePieces_split {ts : List (Piece Token)} {ps qs : List (Piece Variable)}
    {v : Variable} (h : ts.flatMap variablePiece = ps ++ .item v :: qs) :
    ∃ front t back, ts = front ++ .item t :: back ∧ t.line = v.line ∧ t.source = v.source ∧
      tokenSource front = Piece.source Variable.source ps := by
  induction ts generalizing ps with
  | nil => exact absurd (h ▸ List.mem_append_right ps List.mem_cons_self) List.not_mem_nil
  | cons p ts ih =>
      rw [List.flatMap_cons] at h
      cases p with
      | char c =>
          cases ps with
          | nil => cases h
          | cons x ps =>
              obtain ⟨rfl, hrest⟩ := List.cons.inj h
              obtain ⟨front, t, back, rfl, hline, hsource, hfront⟩ := ih hrest
              exact ⟨.char c :: front, t, back, rfl, hline, hsource, congrArg (c :: ·) hfront⟩
      | item t =>
          by_cases hm : ∃ name alternatives, t.marker = .variable name alternatives
          · obtain ⟨name, alternatives, hm⟩ := hm
            have hpiece : variablePiece (.item t) =
                [.item ⟨name, alternatives, t.line, t.source⟩] := by
              rw [variablePiece, hm]
            rw [hpiece] at h
            cases ps with
            | nil =>
                cases h
                exact ⟨[], t, ts, rfl, rfl, rfl, rfl⟩
            | cons x ps =>
                obtain ⟨rfl, hrest⟩ := List.cons.inj h
                obtain ⟨front, t', back, rfl, hline, hsource, hfront⟩ := ih hrest
                refine ⟨.item t :: front, t', back, rfl, hline, hsource, ?_⟩
                rw [tokenSource_item, hfront]
                rfl
          · have hpiece : variablePiece (.item t) = Piece.plain t.source := by
              obtain ⟨marker, source, line⟩ := t
              cases marker with
              | «variable» name alternatives => exact absurd ⟨name, alternatives, rfl⟩ hm
              | _ => rfl
            rw [hpiece] at h
            obtain ⟨ps, rfl, hrest⟩ := Piece.split_of_plain_append h
            obtain ⟨front, t', back, rfl, hline, hsource, hfront⟩ := ih hrest
            refine ⟨.item t :: front, t', back, rfl, hline, hsource, ?_⟩
            rw [tokenSource_item, hfront, Piece.source_append, Piece.source_plain]

/-- A variable is on the line that the line breaks in front of it make. -/
theorem line_of_variable {cs : List Char} {ps qs : List (Piece Variable)} {v : Variable}
    (h : variablePieces cs = ps ++ .item v :: qs) :
    v.line = 1 + lineBreaks (Piece.source Variable.source ps) := by
  obtain ⟨front, t, back, hfront, hline, -, hsource⟩ := variablePieces_split h
  rw [tokenize_eq_piecesFrom] at hfront
  rw [← hline, Offsets.line_of_piecesFrom hfront, hsource]
  rfl

theorem source_ne_nil_of_variable {cs : List Char} {v : Variable}
    (h : .item v ∈ variablePieces cs) : v.source ≠ [] := by
  obtain ⟨t, ht, hsource⟩ := token_of_variable h
  rw [hsource]
  exact source_ne_nil_of_mem_readPieces ht

/-- Where a directive stands in the template: in how many branches, and what is in front of it. -/
structure Spot where
  depth : Nat
  before : List Char

/-- The line of the template on which a directive stands. -/
def Spot.line (s : Spot) : Nat := 1 + lineBreaks s.before

/-- A conversion stops at the first directive without a value in one of its passes, and logs the
    line on which it stands in what the pass reads. A directive of the template has a spot in it. A
    variable may also stand in the canonical form of a block, where the given body is. -/
inductive StopsAt (template : String) (values : Values) : Unresolved → Option Spot → Prop where
  | condition {depth : Nat} {before own : List Char} {name : String}
      (stops : StopsIn values.conditions template.toList depth before own name) :
      StopsAt template values ⟨.condition, name, 1 + lineBreaks own⟩ (some ⟨depth, before⟩)
  | block {text : List Char × Nat} {ps qs : List (Piece Block)} {b : Block} {new before : List Char}
      {depth : Nat} (reads : structured template values = .ok text)
      (place : blockPieces text.1 = ps ++ .item b :: qs)
      (replaced : Piece.substitute (bodyInPlace values.blocks) ps = .ok new)
      (missing : values.blocks.contains b.name = false)
      (left : Left values.conditions template.toList depth before (Piece.source Block.source ps)) :
      StopsAt template values ⟨.block, b.name, 1 + lineBreaks (Piece.source Block.source ps)⟩
        (some ⟨depth, before⟩)
  | kept {text : List Char × Nat} {ps qs : List (Piece Block)} {c : Char} {cs new : List Char}
      {vs ws : List (Piece Variable)} {v : Variable} {before : List Char} {depth : Nat}
      (reads : structured template values = .ok text)
      (fills : fillBlocks values.blocks text.1 = .ok cs)
      (place : variablePieces cs = vs ++ .item v :: ws)
      (replaced : Piece.substitute (valueInPlace values.vars) vs = .ok new)
      (missing : values.vars.contains v.name = false)
      (outside : blockPieces text.1 = ps ++ .char c :: qs)
      (filled : Piece.substitute (bodyInPlace values.blocks) ps =
        .ok (Piece.source Variable.source vs))
      (left : Left values.conditions template.toList depth before (Piece.source Block.source ps)) :
      StopsAt template values ⟨.variable, v.name, 1 + lineBreaks (Piece.source Variable.source vs)⟩
        (some ⟨depth, before⟩)
  | inserted {text : List Char × Nat} {ps qs : List (Piece Block)} {b : Block} {body : String}
      {c : Char} {cs new front x y : List Char} {vs ws : List (Piece Variable)} {v : Variable}
      (reads : structured template values = .ok text)
      (fills : fillBlocks values.blocks text.1 = .ok cs)
      (place : variablePieces cs = vs ++ .item v :: ws)
      (replaced : Piece.substitute (valueInPlace values.vars) vs = .ok new)
      (missing : values.vars.contains v.name = false)
      (inside : blockPieces text.1 = ps ++ .item b :: qs)
      (filled : Piece.substitute (bodyInPlace values.blocks) ps = .ok front)
      (given : values.blocks.get? b.name = some body)
      (canonical : Block.canonical b.name.toList body.toList = x ++ c :: y)
      (within : Piece.source Variable.source vs = front ++ x) :
      StopsAt template values ⟨.variable, v.name, 1 + lineBreaks (Piece.source Variable.source vs)⟩
        none

/-- The line that is logged for a directive, compared with that on which it stands in the template.
    They are the same for a condition that stands in no branch, for a block that no conditional
    stands in front of or around, and for a variable with neither a conditional nor a block in front
    of it; a condition or a block is never logged too far down. -/
structure Logged (template : String) (values : Values) (u : Unresolved) (s : Spot) : Prop where
  isPrefix : s.before <+: template.toList
  condition_line : u.kind = .condition → (u.line = s.line ↔ s.depth = 0)
  block_line : u.kind = .block →
    (u.line = s.line ↔ Piece.plain s.before <+: sites template.toList)
  variable_line : u.kind = .variable → Piece.plain s.before <+: sites template.toList →
    (∀ text, structured template values = .ok text →
      Piece.plain s.before <+: blockPieces text.1) → u.line = s.line
  line_le : u.kind ≠ .variable → u.line ≤ s.line

section

variable {template : String} {values : Values} {u : Unresolved}

/-- A conversion that fails stops at a directive without a value. -/
theorem stopsAt_of_convert (h : convert template values = .error u) :
    ∃ spot?, StopsAt template values u spot? := by
  obtain ⟨_, hfails⟩ := failsIn_of_convert h
  cases hfails with
  | condition hstop =>
      obtain ⟨depth, before, own, name, hstops, rfl⟩ := stopsIn_of_resolve hstop
      exact ⟨_, .condition hstops⟩
  | @block text htext hstop =>
      obtain ⟨ps, b, qs, new, hplace, hreplaced, hrefused⟩ := Piece.substitute_eq_error hstop
      obtain ⟨rfl, hmissing⟩ := lookUp_eq_error (map_eq_error.mp hrefused)
      have hmem : .item b ∈ blockPieces text.1 :=
        hplace ▸ List.mem_append_right ps List.mem_cons_self
      obtain ⟨c, own, hown⟩ := List.exists_cons_of_ne_nil (source_ne_nil_of_block hmem)
      have hsource := source_blockPieces text.1
      rw [hplace, Piece.source_append, Piece.source_item, hown] at hsource
      obtain ⟨depth, before, hleft⟩ := left_of_resolve (n := text.2) (by
        rw [List.cons_append] at hsource
        rw [hsource]
        exact htext)
      rw [line_of_block hplace]
      exact ⟨_, .block htext hplace hreplaced hmissing hleft⟩
  | @«variable» cs hcs hstop =>
      obtain ⟨text, htext, hfills⟩ := bind_eq_ok.mp hcs
      obtain ⟨vs, v, ws, new, hplace, hreplaced, hrefused⟩ := Piece.substitute_eq_error hstop
      obtain ⟨rfl, hmissing⟩ := lookUp_eq_error (map_eq_error.mp hrefused)
      have hmem : .item v ∈ variablePieces cs :=
        hplace ▸ List.mem_append_right vs List.mem_cons_self
      obtain ⟨d, own, hown⟩ := List.exists_cons_of_ne_nil (source_ne_nil_of_variable hmem)
      have hsource := source_variablePieces cs
      rw [hplace, Piece.source_append, Piece.source_item, hown, List.cons_append] at hsource
      rw [line_of_variable hplace]
      have hfilled : Piece.substitute (bodyInPlace values.blocks) (blockPieces text.1) = .ok cs :=
        hfills
      rw [← hsource] at hfilled
      cases Piece.placeIn_of_substitute hfilled with
      | @kept ps qs c split replaced =>
          have hleftSource := source_blockPieces text.1
          rw [split, Piece.source_append, Piece.source_char] at hleftSource
          obtain ⟨depth, before, hleft⟩ := left_of_resolve (n := text.2) (by
            rw [hleftSource]
            exact htext)
          exact ⟨_, .kept htext hfills hplace hreplaced hmissing split replaced hleft⟩
      | within split replaced item place =>
          obtain ⟨body, hbody, hcanonical⟩ := map_eq_ok.mp item
          exact ⟨_, .inserted htext hfills hplace hreplaced hmissing split replaced
            (get?_of_lookUp hbody) hcanonical place⟩

theorem StopsAt.logged {s : Spot} (h : StopsAt template values u (some s)) :
    Logged template values u s := by
  cases h with
  | condition stops =>
      refine ⟨stops.isPrefix, fun _ => stops.line_iff, nofun, nofun, fun _ => ?_⟩
      exact Nat.add_le_add_left (stops.isSuffix.1.sublist.count_le _) 1
  | block reads place replaced missing left =>
      refine ⟨left.isPrefix, nofun, fun _ => ?_, nofun, fun _ => ?_⟩
      · rw [← left.lineBreaks_eq_iff]
        exact Nat.add_left_cancel_iff
      · exact Nat.add_le_add_left left.lineBreaks_le 1
  | @kept text ps qs c cs new vs ws v before depth reads fills place replaced missing outside
      filled left =>
      refine ⟨left.isPrefix, nofun, nofun, fun _ hsites hblocks => ?_, fun h => absurd rfl h⟩
      have hfront := left.eq_of_plain hsites
      have hplain := hblocks text reads
      rw [outside, ← hfront, ← List.append_nil (Piece.source Block.source ps)] at hplain
      have hsource : ∀ b ∈ Piece.items ps, b.source ≠ [] := by
        intro b hb
        have hmem : .item b ∈ blockPieces text.1 := by
          rw [outside]
          exact List.mem_append_left _ (Piece.item_of_mem_items hb)
        exact source_ne_nil_of_block hmem
      have hps := (Piece.plain_of_prefix hsource hplain).1
      rw [hps, Piece.substitute_plain, Except.ok.injEq, hfront] at filled
      show 1 + lineBreaks (Piece.source Variable.source vs) = 1 + lineBreaks before
      rw [filled]

end

-- ── Soundness ────────────────────────────────────────────────────────────────

namespace Offsets

/-- Offsets are sound. The tokens, the conditionals and the blocks of every text are found without
    an access that is out of range; they stand on stretches of the text that follow each other, on
    the lines on which these start, and branches and bodies are cut out inside of them. Scanning and
    converting by offsets gives what scanning and converting gives, so there no access is out of
    range either. A conversion that fails stops at a directive without a value, and the line that is
    logged for it (`Unresolved.logMessage`) is that of the text which the failing pass reads;
    `Logged` says when it is the line of the template. -/
theorem offsets_sound (template : String) :
    (∃ ts, tokens template.toList = .ok ts ∧
      Spans template.toList Token.start Token.stop Token.line ts ∧
      List.Forall₂ (SameToken template.toList) (Piece.items (tokenize template.toList)) ts) ∧
    (∃ found, conditionals template.toList = .ok found ∧
      Spans template.toList Conditional.start Conditional.stop Conditional.line found ∧
      List.Forall₂ (SameConditional template.toList) (Template.conditionals template.toList)
        found) ∧
    (∃ found, blocks template.toList = .ok found ∧
      Spans template.toList Block.start Block.stop Block.line found ∧
      List.Forall₂ (SameBlock template.toList) (Template.blocks template.toList) found) ∧
    scan template = .ok (Template.scan template) ∧
    ∀ values, convert template values = (Template.convert template values).mapError .unresolved ∧
      ∀ u, Template.convert template values = .error u →
        ∃ spot?, StopsAt template values u spot? ∧ ∀ s ∈ spot?, Logged template values u s := by
  obtain ⟨conditionals, hconditionals, -⟩ := placed_conditionals template.toList
  obtain ⟨blocks, hblocks, -⟩ := placed_blocks template.toList
  refine ⟨⟨_, tokens_eq _, spans_tokens _, forall₂_tokens _⟩,
    ⟨_, hconditionals, spans_conditionals hconditionals, forall₂_conditionals hconditionals⟩,
    ⟨_, hblocks, spans_blocks hblocks, forall₂_blocks hblocks⟩, scan_eq template,
    fun values => ⟨convert_eq template values, fun u hu => ?_⟩⟩
  obtain ⟨spot?, hstops⟩ := stopsAt_of_convert hu
  refine ⟨spot?, hstops, ?_⟩
  rintro s rfl
  exact hstops.logged

/-- A block behind a line with a letter of two bytes, and a variable in a branch. -/
def accentedTemplate : String := "é\n  // // @block B\nü\n// @endblock\n@if A\n\n→ <V>\n@endif"

/-- Values for all but the variable; the body of the block has a line more than the template. -/
def accentedValues : Values := ((∅ : Values).setCondition "A" true).setBlock "B" "a\nb"

/-- The variable stands on line seven of the template, and on line six of the text in which the
    conditional and the block have been replaced. -/
theorem offsets_sound_sample :
    tokens accentedTemplate.toList = .ok
      [⟨.blockHeader "B", 5, 20, 2⟩, ⟨.endBlock, 23, 35, 4⟩, ⟨.ifHeader "A" none, 36, 43, 5⟩,
        ⟨.variable "V" [], 47, 50, 7⟩, ⟨.endIf, 51, 57, 8⟩] ∧
      Template.convert accentedTemplate accentedValues = .error ⟨.variable, "V", 6⟩ ∧
      ∃ spot?, StopsAt accentedTemplate accentedValues ⟨.variable, "V", 6⟩ spot? ∧
        ∀ s ∈ spot?, Logged accentedTemplate accentedValues ⟨.variable, "V", 6⟩ s := by
  have htokens : located 0 (tokenize accentedTemplate.toList) =
      [⟨.blockHeader "B", 5, 20, 2⟩, ⟨.endBlock, 23, 35, 4⟩, ⟨.ifHeader "A" none, 36, 43, 5⟩,
        ⟨.variable "V" [], 47, 50, 7⟩, ⟨.endIf, 51, 57, 8⟩] := by
    decide +kernel
  have hconvert : Template.convert accentedTemplate accentedValues =
      .error ⟨.variable, "V", 6⟩ := by
    decide +kernel
  exact ⟨by rw [tokens_eq, htokens], hconvert,
    ((offsets_sound accentedTemplate).2.2.2.2 accentedValues).2 _ hconvert⟩

/-- The condition of a header is not always logged with the line on which a header of that name
    stands in the template: `B` is on line two, and its branch starts on line two, too. -/
theorem condition_logged_in_branch :
    ¬ ∀ template values u, Template.convert template values = .error u → u.kind = .condition →
      ∃ t ∈ located 0 (tokenize template.toList),
        (∃ default?, t.marker = .ifHeader u.name default?) ∧ t.line = u.line := by
  intro h
  have hconvert : Template.convert "@if A\n@if B\nx\n@endif\n@endif\n"
      ((∅ : Values).setCondition "A" true) = .error ⟨.condition, "B", 1⟩ := by
    decide +kernel
  have htokens : located 0 (tokenize "@if A\n@if B\nx\n@endif\n@endif\n".toList) =
      [⟨.ifHeader "A" none, 0, 6, 1⟩, ⟨.ifHeader "B" none, 6, 12, 2⟩, ⟨.endIf, 14, 20, 4⟩,
        ⟨.endIf, 21, 27, 5⟩] := by
    decide +kernel
  obtain ⟨t, ht, ⟨default?, hmarker⟩, hline⟩ := h _ _ _ hconvert rfl
  rw [htokens] at ht
  simp only [List.mem_cons, List.not_mem_nil, or_false] at ht
  rcases ht with rfl | rfl | rfl | rfl
  · simp at hmarker
  · cases hline
  · cases hmarker
  · cases hmarker

end Offsets

end ShaderTemplates.Template
