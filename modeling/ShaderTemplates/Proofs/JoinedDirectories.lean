import ShaderTemplates.Proofs.Confinement

/-!
# Directories joined below a directory

A relative path is refused if its text starts with a slash or if one of its components goes up;
any other one puts its names after the directory that it is joined to (`joinBelow_eq_ok`).  The
text of a path may be cut at a slash: the two sides together have the steps of the whole
(`steps_slash`), so joining them one after the other is joining the whole (`joinBelow_contained`).
-/

namespace ShaderTemplates.Path

-- ── Texts of two paths ───────────────────────────────────────────────────────

theorem splitSlashes_slash (a b : List Char) :
    splitSlashes (a ++ '/' :: b) =
      ((splitSlashes a).1, (splitSlashes a).2 ++ (splitSlashes b).1 :: (splitSlashes b).2) := by
  induction a with
  | nil => rfl
  | cons c a ih =>
      rw [List.cons_append, splitSlashes, splitSlashes, ih]
      split
      · rfl
      · rfl

theorem ofString_slash (r s : String) :
    ofString (r ++ "/" ++ s) =
      ⟨(ofString r).head, (ofString r).tail ++ (ofString s).head :: (ofString s).tail⟩ := by
  have htext : (r ++ "/" ++ s).toList = r.toList ++ '/' :: s.toList := by
    simp [String.toList_append]
  rw [ofString, htext, splitSlashes_slash]
  dsimp only [ofString]
  rw [List.map_append, List.map_cons]

/-- The first segment is empty only if the text is empty or starts with a slash. -/
theorem isRooted_ofString (r : String) :
    (ofString r).isRooted = true ↔ r.toList.head? = some '/' := by
  rw [ofString, isRooted]
  cases hr : r.toList with
  | nil => simp [splitSlashes]
  | cons c cs =>
      rw [splitSlashes]
      by_cases hc : c = '/'
      · rw [if_pos hc]
        simp [hc]
      · rw [if_neg hc]
        simp [hc]

-- ── Steps ────────────────────────────────────────────────────────────────────

/-- The steps of a path that does not start at the root, where a `.` at the start is none. -/
def steps (p : Path) : List Component := (p.head :: p.tail).filterMap stepOf?

theorem current_not_mem_filterMap (segments : List String) :
    Component.current ∉ segments.filterMap stepOf? := by
  intro hmem
  obtain ⟨segment, -, hstep⟩ := List.mem_filterMap.mp hmem
  rw [stepOf?] at hstep
  split at hstep
  · cases hstep
  · split at hstep
    · cases hstep
    · cases hstep

/-- The components are the steps, with the `.` in front of them if there is one. -/
theorem components_eq_steps {p : Path} (h : p.isRooted = false) :
    p.components = (if p.head = "." then [.current] else []) ++ p.steps := by
  rw [components, headSteps, if_neg (by rw [h]; exact Bool.false_ne_true), steps]
  by_cases hhere : p.head = "."
  · have hsilent : stepOf? "." = none := by decide
    rw [if_pos hhere, if_pos hhere, hhere, List.filterMap_cons, hsilent]
  · rw [if_neg hhere, if_neg hhere, List.nil_append]
    cases hstep : stepOf? p.head with
    | none => rw [List.filterMap_cons_none hstep]; rfl
    | some step => rw [List.filterMap_cons_some hstep]; rfl

theorem filter_components {p : Path} (h : p.isRooted = false) :
    p.components.filter (· ≠ .current) = p.steps := by
  have hsteps : p.steps.filter (· ≠ .current) = p.steps :=
    List.filter_eq_self.mpr fun step hstep => decide_eq_true fun heq =>
      current_not_mem_filterMap _ (heq ▸ hstep)
  rw [components_eq_steps h, List.filter_append, hsteps]
  split
  · rfl
  · rfl

theorem parent_mem_components_iff {p : Path} (h : p.isRooted = false) :
    .parent ∈ p.components ↔ .parent ∈ p.steps := by
  rw [← filter_components h, List.mem_filter]
  simp

theorem names_eq_steps {p : Path} (h : p.isRooted = false) :
    p.names = p.steps.filterMap Component.name? := by
  rw [names, components_eq_steps h, List.filterMap_append]
  split
  · rfl
  · rfl

/-- A path that does not start at the root and does not go up is made of names. -/
theorem steps_eq_names {p : Path} (h : p.isRooted = false) (hup : .parent ∉ p.components) :
    p.steps = p.names.map .name := by
  rw [parent_mem_components_iff h, steps] at hup
  have hsegments : ".." ∉ p.head :: p.tail := fun hmem =>
    hup (List.mem_filterMap.mpr ⟨"..", hmem, by decide⟩)
  have hname : Component.name? ∘ Component.name = some := rfl
  rw [names_eq_steps h, steps, filterMap_stepOf? hsegments, List.filterMap_map, hname,
    List.filterMap_some]

/-- The text of two paths with a slash between them has the steps of both. -/
theorem steps_slash (r s : String) :
    (ofString (r ++ "/" ++ s)).steps = (ofString r).steps ++ (ofString s).steps := by
  rw [ofString_slash, steps, ← List.cons_append, List.filterMap_append]
  rfl

-- ── Joining ──────────────────────────────────────────────────────────────────

/-- Whether a text is that of a path that may lead out of the directory it is joined to. -/
def LeadsOut (r : String) : Prop :=
  r.toList.head? = some '/' ∨ .parent ∈ (ofString r).components

instance (r : String) : Decidable (LeadsOut r) := inferInstanceAs (Decidable (_ ∨ _))

theorem not_leadsOut_iff {r : String} :
    ¬ LeadsOut r ↔ (ofString r).isRooted = false ∧ .parent ∉ (ofString r).components := by
  rw [LeadsOut, not_or, ← isRooted_ofString, Bool.not_eq_true]

/-- Cutting a text at a slash makes no difference to whether it leads out. -/
theorem leadsOut_slash {r s : String} (hr : r ≠ "") (hs : s.toList.head? ≠ some '/') :
    LeadsOut (r ++ "/" ++ s) ↔ LeadsOut r ∨ LeadsOut s := by
  have hhead : (r ++ "/" ++ s).toList.head? = r.toList.head? := by
    cases hchars : r.toList with
    | nil => exact absurd (String.toList_inj.mp hchars) hr
    | cons c cs => simp [String.toList_append, hchars]
  by_cases hroot : r.toList.head? = some '/'
  · exact iff_of_true (Or.inl (hhead.trans hroot)) (Or.inl (Or.inl hroot))
  · have hunrooted : ∀ {x : String}, x.toList.head? ≠ some '/' →
        (ofString x).isRooted = false := by
      intro x hx
      rw [← Bool.not_eq_true, isRooted_ofString]
      exact hx
    have hparent : ∀ {x : String}, x.toList.head? ≠ some '/' →
        (LeadsOut x ↔ .parent ∈ (ofString x).steps) := by
      intro x hx
      rw [LeadsOut, or_iff_right hx, parent_mem_components_iff (hunrooted hx)]
    rw [hparent (hhead ▸ hroot), hparent hroot, hparent hs, steps_slash, List.mem_append]

theorem joinBelow_eq_ok {base p : Path} {r : String} :
    base.joinBelow (ofString r) = .ok p ↔
      ¬ LeadsOut r ∧ p = (ofString r).names.foldl child base := by
  rw [not_leadsOut_iff, joinBelow]
  split
  next hout =>
    simp only [Bool.or_eq_true, List.contains_iff_mem] at hout
    constructor
    · intro h
      cases h
    · rintro ⟨⟨hroot, hup⟩, -⟩
      rcases hout with h | h
      · rw [hroot] at h
        cases h
      · exact absurd h hup
  next hin =>
    simp only [Bool.or_eq_true, List.contains_iff_mem, not_or, Bool.not_eq_true] at hin
    constructor
    · intro h
      exact ⟨hin, (Except.ok.inj h).symm⟩
    · intro h
      rw [h.2]

theorem joinBelow_eq_error (base : Path) (r : String) :
    base.joinBelow (ofString r) = .error (.pathEscape (ofString r)) ↔ LeadsOut r := by
  constructor
  · intro h
    refine Decidable.byContradiction fun hin => ?_
    rw [joinBelow_eq_ok.mpr ⟨hin, rfl⟩] at h
    cases h
  · intro hout
    rw [joinBelow, if_pos]
    rw [Bool.or_eq_true, List.contains_iff_mem, isRooted_ofString]
    exact hout

/-- A path is joined to a directory unless it leads out of it; its names come after the components
    of the directory, and joining both sides of a slash in turn is joining the whole. -/
theorem joinBelow_contained (base : Path) (r : String) :
    (base.joinBelow (ofString r) = .error (.pathEscape (ofString r)) ↔
      r.toList.head? = some '/' ∨ .parent ∈ (ofString r).components) ∧
    (¬ (r.toList.head? = some '/' ∨ .parent ∈ (ofString r).components) →
      ∃ p, base.joinBelow (ofString r) = .ok p ∧
        p.components = base.components ++ (ofString r).components.filter (· ≠ .current) ∧
        base.ExtendsByNames p) ∧
    ∀ s : String, r ≠ "" → s.toList.head? ≠ some '/' → ∀ p,
      base.joinBelow (ofString (r ++ "/" ++ s)) = .ok p ↔
        ∃ q, base.joinBelow (ofString r) = .ok q ∧ q.joinBelow (ofString s) = .ok p := by
  refine ⟨joinBelow_eq_error base r, ?_, ?_⟩
  · intro hin
    obtain ⟨hroot, hup⟩ := not_leadsOut_iff.mp hin
    have hcomponents : ((ofString r).names.foldl child base).components =
        base.components ++ (ofString r).names.map .name :=
      components_children (fun name hname => isStep_of_mem_names hname) base
    refine ⟨_, joinBelow_eq_ok.mpr ⟨hin, rfl⟩, ?_, (ofString r).names, hcomponents⟩
    rw [filter_components hroot, steps_eq_names hroot hup]
    exact hcomponents
  · intro s hr hs p
    have hcut := leadsOut_slash hr hs
    -- the names of the whole are those of the two sides when neither of them leads out
    have hnames : ¬ LeadsOut r → ¬ LeadsOut s →
        (ofString (r ++ "/" ++ s)).names = (ofString r).names ++ (ofString s).names := by
      intro hrin hsin
      have hin := not_leadsOut_iff.mp fun h => (hcut.mp h).elim hrin hsin
      rw [names_eq_steps hin.1, steps_slash, List.filterMap_append,
        names_eq_steps (not_leadsOut_iff.mp hrin).1, names_eq_steps (not_leadsOut_iff.mp hsin).1]
    constructor
    · intro h
      obtain ⟨hin, hp⟩ := joinBelow_eq_ok.mp h
      obtain ⟨hrin, hsin⟩ := not_or.mp (mt hcut.mpr hin)
      refine ⟨_, joinBelow_eq_ok.mpr ⟨hrin, rfl⟩, joinBelow_eq_ok.mpr ⟨hsin, ?_⟩⟩
      rw [hp, hnames hrin hsin, List.foldl_append]
    · rintro ⟨q, hq, hp⟩
      obtain ⟨hrin, hq⟩ := joinBelow_eq_ok.mp hq
      obtain ⟨hsin, hp⟩ := joinBelow_eq_ok.mp hp
      refine joinBelow_eq_ok.mpr ⟨fun h => (hcut.mp h).elim hrin hsin, ?_⟩
      rw [hp, hq, hnames hrin hsin, List.foldl_append]

/-- A path with silent segments, the same one with a second path behind a slash, and one that goes
    up behind a name. -/
theorem joinBelow_contained_sample :
    (∃ p, joinBelow here (ofString "./a//") = .ok p ∧
      p.components = [.current, .name "a"] ∧ here.ExtendsByNames p) ∧
    (∃ q, joinBelow ⟨"root", [""]⟩ (ofString "./a//") = .ok q ∧
      q.joinBelow (ofString "b/./c\\") = .ok ⟨"root", ["a", "b", "c\\"]⟩) ∧
    joinBelow here (ofString "a/../b") = .error (.pathEscape (ofString "a/../b")) := by
  obtain ⟨p, hp, hcomponents, hbelow⟩ := (joinBelow_contained here "./a//").2.1 (by decide)
  have hsteps : here.components ++ (ofString "./a//").components.filter (· ≠ .current) =
      [.current, .name "a"] := by decide
  have hcut := (joinBelow_contained ⟨"root", [""]⟩ "./a//").2.2 "b/./c\\" (by decide) (by decide)
    ⟨"root", ["a", "b", "c\\"]⟩
  exact ⟨⟨p, hp, hcomponents.trans hsteps, hbelow⟩, hcut.mp (by decide),
    (joinBelow_contained here "a/../b").1.mpr (by decide)⟩

end ShaderTemplates.Path
