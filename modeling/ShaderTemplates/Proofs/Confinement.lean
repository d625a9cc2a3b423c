import ShaderTemplates.Config
import ShaderTemplates.Proofs.Computations
import ShaderTemplates.Proofs.OutputPaths

/-!
# Outputs stay in the directory of their document

A path that is joined to a directory has the components of the directory and its own after them
(`components_join`), and the path above it has all components but the last
(`components_of_parent?`).  The last output that a document records is always a file directly
inside its output directory.  The present output need not be: it is one if and only if every
segment that follows a slash in the extension is silent, and it stays below the document if and
only if none of them goes up (`outputs_confined`).  The check of configurations asks for neither
(`outputPath_leaves`).
-/

namespace ShaderTemplates

namespace Path

-- ── Components of joined paths ───────────────────────────────────────────────

theorem stepOf?_eq_none {segment : String} : stepOf? segment = none ↔ isSilent segment = true := by
  rw [stepOf?]
  constructor
  · intro h
    split at h
    next hsilent => exact hsilent
    next =>
      split at h
      · cases h
      · cases h
  · intro h
    rw [if_pos h]

theorem stepOf?_of_isStep {segment : String} (h : IsStep segment) :
    stepOf? segment = some (.name segment) := by
  rw [stepOf?, if_neg (by rw [h.1]; exact Bool.false_ne_true), if_neg h.2]

theorem isRooted_of_isStep {segment : String} (h : IsStep segment) (rest : List String) :
    Path.isRooted ⟨segment, rest⟩ = false := by
  cases hempty : segment.isEmpty with
  | false => rw [isRooted, hempty, Bool.false_and]
  | true =>
      rw [String.isEmpty_iff.mp hempty] at h
      exact absurd h.1 (by decide)

/-- A path that starts with a name goes on from where the directory ends. -/
theorem components_join (base : Path) {segment : String} (h : IsStep segment)
    (rest : List String) :
    (base.join ⟨segment, rest⟩).components =
      base.components ++ .name segment :: rest.filterMap stepOf? := by
  have hstep := stepOf?_of_isStep h
  have hhere : segment ≠ "." := by
    rintro rfl
    exact absurd h.1 (by decide)
  obtain ⟨head, tail⟩ := base
  rw [join, isRooted_of_isStep h, if_neg Bool.false_ne_true]
  split
  next hempty =>
    cases hempty
    rw [components, headSteps, isRooted_of_isStep h, if_neg Bool.false_ne_true, if_neg hhere, hstep]
    rfl
  next hne =>
    have hroot : ∀ front : List String,
        headSteps ⟨head, front ++ segment :: rest⟩ = headSteps ⟨head, tail⟩ := by
      intro front
      have hrooted : isRooted ⟨head, front ++ segment :: rest⟩ = isRooted ⟨head, tail⟩ := by
        cases hhead : head.isEmpty with
        | false => rw [isRooted, isRooted, hhead, Bool.false_and, Bool.false_and]
        | true =>
            have htail : tail.isEmpty = false := by
              cases tail with
              | nil => exact absurd (by rw [String.isEmpty_iff.mp hhead]; rfl) hne
              | cons _ _ => rfl
            simp [isRooted, htail]
      rw [headSteps, headSteps, hrooted]
    have hsteps : (segment :: rest).filterMap stepOf? =
        .name segment :: rest.filterMap stepOf? := by
      rw [List.filterMap_cons, hstep]
    split
    next hslash =>
      obtain ⟨front, rfl⟩ := List.getLast?_eq_some_iff.mp hslash
      have hnone : [""].filterMap stepOf? = [] := by decide
      rw [List.dropLast_concat]
      rw [components, components, hroot, List.filterMap_append, List.filterMap_append, hsteps,
        hnone, List.append_nil, List.append_assoc]
    next =>
      rw [components, components, hroot, List.filterMap_append, hsteps, List.append_assoc]

theorem components_child (p : Path) {name : String} (h : IsStep name) :
    (p.child name).components = p.components ++ [.name name] := components_join p h []

theorem components_children {names : List String} (h : ∀ name ∈ names, IsStep name) (p : Path) :
    (names.foldl child p).components = p.components ++ names.map .name := by
  induction names generalizing p with
  | nil => rw [List.foldl_nil, List.map_nil, List.append_nil]
  | cons name names ih =>
      rw [List.foldl_cons, ih fun n hn => h n (List.mem_cons_of_mem _ hn),
        components_child p (h name List.mem_cons_self), List.append_assoc]
      rfl

-- ── Components of the path above ─────────────────────────────────────────────

theorem tailsAbove_eq (segments : List String) :
    tailsAbove segments = match segments.dropWhile isSilent with
      | [] => []
      | _ :: rest => rest.dropWhile isSilent :: tailsAbove rest := by
  induction segments with
  | nil => rfl
  | cons segment segments ih =>
      rw [tailsAbove]
      cases hsilent : isSilent segment with
      | true => rw [if_pos rfl, ih, List.dropWhile_cons_of_pos hsilent]
      | false =>
          rw [if_neg Bool.false_ne_true,
            List.dropWhile_cons_of_neg (by rw [hsilent]; exact Bool.false_ne_true)]

theorem filterMap_dropWhile_isSilent (segments : List String) :
    (segments.dropWhile isSilent).filterMap stepOf? = segments.filterMap stepOf? := by
  induction segments with
  | nil => rfl
  | cons segment segments ih =>
      cases hsilent : isSilent segment with
      | true =>
          rw [List.dropWhile_cons_of_pos hsilent, List.filterMap_cons,
            stepOf?_eq_none.mpr hsilent, ih]
      | false => rw [List.dropWhile_cons_of_neg (by rw [hsilent]; exact Bool.false_ne_true)]

theorem length_headSteps_le (p : Path) : p.headSteps.length ≤ 1 := by
  rw [headSteps]
  split
  · exact Nat.le_refl 1
  · split
    · exact Nat.le_refl 1
    · cases stepOf? p.head with
      | none => exact Nat.zero_le 1
      | some _ => exact Nat.le_refl 1

/-- The steps of a tail are those before the silent segments at its end. -/
theorem steps_eq_reverse (tail : List String) :
    tail.filterMap stepOf? =
      ((tail.reverse.dropWhile isSilent).filterMap stepOf?).reverse := by
  rw [filterMap_dropWhile_isSilent, List.filterMap_reverse, List.reverse_reverse]

theorem components_withTail {p : Path} (hp : p.tail ≠ []) (tail : List String) :
    (p.withTail tail).components = p.headSteps ++ tail.filterMap stepOf? := by
  unfold withTail
  split
  next hroot =>
    rw [Bool.and_eq_true, List.isEmpty_iff] at hroot
    rw [hroot.2, headSteps, if_pos hroot.1]
    rfl
  next hroot =>
    have hrooted : isRooted ⟨p.head, tail⟩ = p.isRooted := by
      cases hhead : p.head.isEmpty with
      | false => rw [isRooted, isRooted, hhead, Bool.false_and, Bool.false_and]
      | true =>
          have hthis : p.isRooted = true := by
            rw [isRooted, hhead, List.isEmpty_eq_false_iff.mpr hp]
            rfl
          rw [hthis, Bool.true_and, Bool.not_eq_true] at hroot
          rw [hthis, isRooted, hhead, hroot]
          rfl
    rw [components, headSteps, headSteps, hrooted]

/-- The path above ends one component earlier. -/
theorem components_of_parent? {p parent : Path} (h : p.parent? = some parent) :
    parent.components = p.components.dropLast := by
  rw [parent?, parents, tailsAbove_eq] at h
  rw [components.eq_def p, steps_eq_reverse p.tail]
  cases hdrop : p.tail.reverse.dropWhile isSilent with
  | nil =>
      -- the whole tail is silent, so there is at most the step of the head
      rw [hdrop] at h
      have hshort : p.headSteps.dropLast = [] :=
        List.length_eq_zero_iff.mp (by
          have hle := length_headSteps_le p
          rw [List.length_dropLast]
          omega)
      rw [List.filterMap_nil, List.reverse_nil, List.append_nil, hshort]
      cases hhead : p.head.isEmpty with
      | true =>
          rw [hhead] at h
          cases h
      | false =>
          rw [hhead] at h
          cases h
          rfl
  | cons last rest =>
      rw [hdrop] at h
      cases h
      have hlast : isSilent last = false := by
        have hno := List.head?_dropWhile_not isSilent p.tail.reverse
        rw [hdrop] at hno
        simpa using hno
      obtain ⟨step, hstep⟩ := Option.ne_none_iff_exists'.mp fun hnone => by
        rw [stepOf?_eq_none.mp hnone] at hlast
        cases hlast
      have hne : p.tail ≠ [] := by
        intro hnil
        rw [hnil] at hdrop
        cases hdrop
      rw [components_withTail hne, List.filterMap_cons, hstep]
      dsimp only
      rw [List.reverse_cons, ← List.append_assoc, List.dropLast_concat, List.filterMap_reverse,
        filterMap_dropWhile_isSilent]

/-- There is a path above a path that ends with a name. -/
theorem exists_parent? {p : Path} {front : List Component} {name : String}
    (h : p.components = front ++ [.name name]) : ∃ parent, p.parent? = some parent := by
  rw [parent?, parents, tailsAbove_eq]
  cases hdrop : p.tail.reverse.dropWhile isSilent with
  | cons last rest => exact ⟨_, rfl⟩
  | nil =>
      -- the name is the head
      rw [components, steps_eq_reverse, hdrop, List.filterMap_nil, List.reverse_nil,
        List.append_nil, headSteps] at h
      cases hempty : p.head.isEmpty with
      | false => exact ⟨_, rfl⟩
      | true =>
          have hlast := congrArg List.getLast? h
          rw [String.isEmpty_iff.mp hempty, List.getLast?_concat] at hlast
          split at hlast
          next => cases hlast
          next =>
            have hnone : (if "" = "." then [Component.current] else (stepOf? "").toList) = [] := by
              decide
            rw [hnone] at hlast
            cases hlast

-- ── Inside of directories ────────────────────────────────────────────────────

/-- The path is the directory with names after it. -/
def ExtendsByNames (dir p : Path) : Prop :=
  ∃ names : List String, p.components = dir.components ++ names.map .name

/-- The path above is the directory. -/
def IsInside (base p : Path) : Prop := ∃ parent, p.parent? = some parent ∧ parent.SamePlace base

theorem isInside_iff {base p : Path} {front : List Component} {name : String}
    (h : p.components = front ++ [.name name]) : base.IsInside p ↔ front = base.components := by
  obtain ⟨parent, hparent⟩ := exists_parent? h
  have habove := components_of_parent? hparent
  rw [h, List.dropLast_concat] at habove
  constructor
  · rintro ⟨_, hparent', hplace⟩
    rw [hparent] at hparent'
    cases hparent'
    exact habove.symm.trans hplace
  · intro hfront
    exact ⟨parent, hparent, habove.trans hfront⟩

/-- What is after a directory that is below another is below that one if it is all names. -/
theorem extendsByNames_iff {dir base p : Path} {steps : List Component}
    (hbase : dir.ExtendsByNames base) (h : p.components = base.components ++ steps) :
    dir.ExtendsByNames p ↔ ∃ names : List String, steps = names.map .name := by
  obtain ⟨above, habove⟩ := hbase
  rw [habove, List.append_assoc] at h
  constructor
  · rintro ⟨names, hnames⟩
    rw [h] at hnames
    obtain ⟨_, below, -, -, hbelow⟩ :=
      List.map_eq_append_iff.mp (List.append_cancel_left hnames).symm
    exact ⟨below, hbelow.symm⟩
  · rintro ⟨names, rfl⟩
    exact ⟨above ++ names, by rw [h, List.map_append]⟩

/-- Segments are names or silent if none of them goes up. -/
theorem filterMap_stepOf? {segments : List String} (h : ".." ∉ segments) :
    segments.filterMap stepOf? = (segments.filter (!isSilent ·)).map .name := by
  induction segments with
  | nil => rfl
  | cons segment segments ih =>
      have hrest := ih fun hmem => h (List.mem_cons_of_mem _ hmem)
      cases hsilent : isSilent segment with
      | true =>
          rw [List.filterMap_cons, stepOf?_eq_none.mpr hsilent,
            List.filter_cons_of_neg (by rw [hsilent]; decide)]
          exact hrest
      | false =>
          have hstep : IsStep segment := ⟨hsilent, fun heq => h (heq ▸ List.mem_cons_self)⟩
          rw [List.filterMap_cons, stepOf?_of_isStep hstep,
            List.filter_cons_of_pos (by rw [hsilent]; decide), List.map_cons, ← hrest]

theorem extendsByNames_join {dir base : Path} (hbase : dir.ExtendsByNames base) {segment : String}
    (h : IsStep segment) (rest : List String) :
    dir.ExtendsByNames (base.join ⟨segment, rest⟩) ↔ ".." ∉ rest := by
  rw [extendsByNames_iff hbase (components_join base h rest)]
  constructor
  · rintro ⟨names, hnames⟩ hup
    have hparent : Component.parent ∈ Component.name segment :: rest.filterMap stepOf? :=
      List.mem_cons_of_mem _ (List.mem_filterMap.mpr ⟨"..", hup, by decide⟩)
    rw [hnames] at hparent
    obtain ⟨_, -, hname⟩ := List.mem_map.mp hparent
    cases hname
  · intro hup
    exact ⟨segment :: rest.filter (!isSilent ·), by rw [filterMap_stepOf? hup, List.map_cons]⟩

/-- A joined path that does not go up is directly inside the directory if nothing but silent
    segments follows its first one. -/
theorem isInside_join (base : Path) {segment : String} (h : IsStep segment) {rest : List String}
    (hup : ".." ∉ rest) :
    base.IsInside (base.join ⟨segment, rest⟩) ↔ ∀ s ∈ rest, isSilent s = true := by
  have hcomponents := components_join base h rest
  rw [filterMap_stepOf? hup] at hcomponents
  have hsilent : (∀ s ∈ rest, isSilent s = true) ↔ rest.filter (!isSilent ·) = [] := by
    simp [List.filter_eq_nil_iff]
  rw [hsilent]
  rcases List.eq_nil_or_concat (rest.filter (!isSilent ·)) with hnil | ⟨front, last, hlast⟩
  · rw [hnil] at hcomponents ⊢
    rw [isInside_iff hcomponents]
    exact iff_of_true rfl rfl
  · rw [List.concat_eq_append] at hlast
    rw [hlast] at hcomponents ⊢
    rw [List.map_append, ← List.cons_append, ← List.append_assoc] at hcomponents
    rw [isInside_iff hcomponents]
    refine iff_of_false ?_ (by simp)
    intro heq
    simpa using congrArg List.length heq

/-- Only the empty path has no components. -/
theorem eq_empty_of_components {p : Path} (h : p.components = []) : p = .empty := by
  obtain ⟨head, tail⟩ := p
  obtain ⟨hhead, -⟩ := List.append_eq_nil_iff.mp h
  rw [headSteps] at hhead
  split at hhead
  next => cases hhead
  next hroot =>
    split at hhead
    next => cases hhead
    next hhere =>
      have hsilent := stepOf?_eq_none.mp (Option.toList_eq_nil_iff.mp hhead)
      simp only [isSilent, Bool.or_eq_true, beq_iff_eq] at hsilent
      obtain rfl := hsilent.resolve_right hhere
      cases tail with
      | nil => rfl
      | cons s tail => exact absurd rfl hroot

/-- The directory part of the path of a file in a directory is the directory. -/
theorem samePlace_directory_child {base : Path} (hbase : base ≠ .empty) {name : String}
    (hname : IsStep name) : base.SamePlace (base.child name).directory := by
  obtain ⟨parent, hparent, hplace⟩ :=
    (isInside_join base hname List.not_mem_nil).mpr fun _ hmem => absurd hmem List.not_mem_nil
  have hne : parent ≠ .empty := by
    rintro rfl
    exact hbase (eq_empty_of_components hplace.symm)
  rw [directory]
  have hparent' : (base.child name).parent? = some parent := hparent
  rw [hparent']
  dsimp only
  rw [if_neg hne]
  exact hplace.symm

end Path

open ShaderTemplates.Path

-- ── Outputs ──────────────────────────────────────────────────────────────────

theorem splitSlashes_append {cs : List Char} (h : '/' ∉ cs) (rest : List Char) :
    splitSlashes (cs ++ rest) = (cs ++ (splitSlashes rest).1, (splitSlashes rest).2) := by
  induction cs with
  | nil => rfl
  | cons c cs ih =>
      have hc : c ≠ '/' := fun heq => h (heq ▸ List.mem_cons_self)
      rw [List.cons_append, splitSlashes, ih fun hmem => h (List.mem_cons_of_mem _ hmem), if_neg hc]
      rfl

theorem ofString_append {s : String} (h : '/' ∉ s.toList) (rest : String) :
    Path.ofString (s ++ rest) = ⟨s ++ (Path.ofString rest).head, (Path.ofString rest).tail⟩ := by
  rw [Path.ofString, String.toList_append, splitSlashes_append h]
  dsimp only [Path.ofString]
  rw [String.ofList_append, String.ofList_toList]

namespace Generator

variable {g : Generator} {dir : Path}

/-- The output is joined to the output directory; the extension may have slashes in it. -/
theorem outputPath_eq_join {extension : String} {output : Path}
    (h : g.outputPath dir extension = .ok output) :
    ∃ base, g.outputDirectory dir = .ok base ∧
      IsStep (g.name ++ "." ++ (Path.ofString extension).head) ∧
      output = base.join ⟨g.name ++ "." ++ (Path.ofString extension).head,
        (Path.ofString extension).tail⟩ := by
  rw [outputPath] at h
  obtain ⟨_, hname, h⟩ := bind_eq_ok.mp h
  obtain ⟨base, hbase, h⟩ := bind_eq_ok.mp h
  cases h
  refine ⟨base, hbase, isStep_extension hname _, ?_⟩
  have hslash : '/' ∉ (g.name ++ ".").toList := by
    have hno := (checkFileName_eq_ok.mp hname).2.1.1
    simp [String.toList_append, hno]
  rw [ofString_append hslash]

/-- The output directory is that of the document with names after it. -/
theorem extendsByNames_outputDirectory {base : Path} (h : g.outputDirectory dir = .ok base) :
    dir.ExtendsByNames base := by
  obtain ⟨names, hnames, rfl⟩ := outputDirectory_eq_ok h
  exact ⟨names, components_children hnames dir⟩

/-- The last output is a file directly inside the output directory.  So is the present output if
    and only if each segment after a slash in the extension is silent, and it is below the
    directory of the document if and only if none of these segments goes up. -/
theorem outputs_confined (g : Generator) (dir : Path) (extension : String) :
    (∀ last, g.exportedPath dir = .ok (some last) → ∃ base, g.outputDirectory dir = .ok base ∧
      dir.ExtendsByNames last ∧ base.IsInside last) ∧
    ∀ output, g.outputPath dir extension = .ok output → ∃ base, g.outputDirectory dir = .ok base ∧
      (dir.ExtendsByNames output ↔ ".." ∉ (Path.ofString extension).tail) ∧
      (dir.ExtendsByNames output ∧ base.IsInside output ↔
        ∀ segment ∈ (Path.ofString extension).tail, isSilent segment = true) := by
  constructor
  · intro last hlast
    obtain ⟨fileName, base, -, hname, hbase, rfl⟩ := exportedPath_eq_ok hlast
    have hstep := isStep_of_checkFileName hname
    have hbelow := extendsByNames_outputDirectory hbase
    exact ⟨base, hbase, (extendsByNames_join hbelow hstep []).mpr List.not_mem_nil,
      (isInside_join base hstep List.not_mem_nil).mpr fun _ hmem => absurd hmem List.not_mem_nil⟩
  · intro output houtput
    obtain ⟨base, hbase, hstep, rfl⟩ := outputPath_eq_join houtput
    have hjoin := extendsByNames_join (extendsByNames_outputDirectory hbase) hstep
      (Path.ofString extension).tail
    refine ⟨base, hbase, hjoin, ?_⟩
    constructor
    · rintro ⟨hbelow, hinside⟩
      exact (isInside_join base hstep (hjoin.mp hbelow)).mp hinside
    · intro hsilent
      have hup : ".." ∉ (Path.ofString extension).tail := fun hmem =>
        absurd (hsilent ".." hmem) (by decide)
      exact ⟨hjoin.mpr hup, (isInside_join base hstep hup).mpr hsilent⟩

/-- An output with the usual extension, one whose extension has a directory in it, and one whose
    extension goes up. -/
theorem outputs_confined_sample :
    (Path.mk "sub" []).IsInside ⟨"sub", ["A.shader"]⟩ ∧
      ¬ (Path.mk "sub" []).IsInside ⟨"sub", ["A.x", "y"]⟩ ∧
      ¬ (Path.mk "sub" []).ExtendsByNames ⟨"sub", ["A.x", "..", "..", "B"]⟩ := by
  have hlast := (outputs_confined { name := "A", template := "", exported := some "A.shader" }
    ⟨"sub", []⟩ "shader").1 ⟨"sub", ["A.shader"]⟩ (by decide)
  have hinner := (outputs_confined { name := "A", template := "" } ⟨"sub", []⟩ "x/y").2
    ⟨"sub", ["A.x", "y"]⟩ (by decide)
  have hup := (outputs_confined { name := "A", template := "" } ⟨"sub", []⟩ "x/../../B").2
    ⟨"sub", ["A.x", "..", "..", "B"]⟩ (by decide)
  refine ⟨?_, ?_, ?_⟩
  · obtain ⟨base, hbase, -, hinside⟩ := hlast
    cases hbase
    exact hinside
  · obtain ⟨base, hbase, hbelow, hinside⟩ := hinner
    cases hbase
    intro hno
    exact absurd (hinside.mp ⟨hbelow.mpr (by decide), hno⟩) (by decide)
  · obtain ⟨base, -, hbelow, -⟩ := hup
    rw [hbelow]
    decide

/-- A configuration whose outputs leave the directory of their documents. -/
def leavingConfig : String := "[project]\nname = \"p\"\n[output]\nextension = \"x/../../B\"\n"

/-- Configurations are read with extensions that lead out of the directory of a document. -/
theorem outputPath_leaves :
    ¬ ∀ (text : String) (c : Config) (g : Generator) (dir output : Path),
      Config.parse text = .ok c → g.outputPath dir c.outputExtension = .ok output →
      ∃ base, g.outputDirectory dir = .ok base ∧ dir.ExtendsByNames output ∧
        base.IsInside output := by
  intro h
  have hconfig : Config.parse leavingConfig =
      .ok { name := "p", outputExtension := "x/../../B" } := by
    decide +kernel
  obtain ⟨base, -, ⟨names, hnames⟩, -⟩ := h leavingConfig _ { name := "A", template := "" }
    ⟨"sub", []⟩ ⟨"sub", ["A.x", "..", "..", "B"]⟩ hconfig (by decide)
  have hparent : Component.parent ∈
      Path.components ⟨"sub", ["A.x", "..", "..", "B"]⟩ := by decide
  rw [hnames] at hparent
  have hsub : (Path.mk "sub" []).components = [.name "sub"] := by decide
  rw [hsub] at hparent
  simp at hparent

end Generator

end ShaderTemplates
