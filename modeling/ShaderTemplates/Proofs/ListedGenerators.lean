import ShaderTemplates.Project
import ShaderTemplates.Proofs.JoinedDirectories
import ShaderTemplates.Proofs.Listings

/-!
# Which generators a project lists

The generators of a project are the documents that a walk from its root comes to, if the walk leaves
out hidden directories and the directory of the templates (`mem_generatorsBelow`).  Their paths are
listed in ascending order, component by component, and each of them once.  If a directory in which
generators are looked for cannot be opened, or its path is too long to be opened by, they cannot be
listed (`generators_listed`).
-/

namespace ShaderTemplates

namespace Path

-- ── The order of paths ───────────────────────────────────────────────────────

/-- The kinds of components in ascending order. -/
def Component.rank : Component → Nat
  | .root => 0
  | .current => 1
  | .parent => 2
  | .name _ => 3

/-- Components are in the order of their kinds, and names in alphabetical order. -/
inductive Component.Before : Component → Component → Prop where
  | kind {a b : Component} (h : a.rank < b.rank) : Before a b
  | name {s s' : String} (h : s < s') : Before (.name s) (.name s')

instance : LT Component := ⟨Component.Before⟩

/-- Paths below a directory are in the order of the names that lead there. -/
theorem components_lt (base : List Component) {names others : List String} (h : names < others) :
    base ++ names.map .name < base ++ others.map .name := by
  refine List.append_left_lt ?_
  induction h with
  | nil => exact List.Lex.nil
  | cons _ ih => exact List.Lex.cons ih
  | rel h => exact List.Lex.rel (Component.Before.name h)

-- ── Names of documents ───────────────────────────────────────────────────────

theorem fileName?_single {name : String} (h : IsStep name) :
    Path.fileName? ⟨name, []⟩ = some name := by
  have hhere : name ≠ "." := by
    rintro rfl
    exact absurd h.1 (by decide)
  rw [fileName?, components, headSteps, isRooted_of_isStep h, if_neg Bool.false_ne_true,
    if_neg hhere, stepOf?_of_isStep h]
  rfl

/-- A document has a name in front of the ending of documents. -/
theorem isGeneratorFile_single {name : String} (h : IsStep name) :
    isGeneratorFile ⟨name, []⟩ = true ↔ ∃ stem, stem ≠ "" ∧ name = stem ++ generatorSuffix := by
  rw [isGeneratorFile, fileName?_single h]
  dsimp only
  rw [Bool.and_eq_true, decide_eq_true_eq, List.isSuffixOf_iff_suffix]
  constructor
  · rintro ⟨⟨stem, hstem⟩, hlength⟩
    refine ⟨String.ofList stem, ?_, ?_⟩
    · intro hempty
      obtain rfl := String.ofList_eq_empty_iff.mp hempty
      rw [List.nil_append] at hstem
      rw [String.toList_inj.mp hstem] at hlength
      exact Nat.lt_irrefl _ hlength
    · rw [← String.toList_inj, String.toList_append, String.toList_ofList, hstem]
  · rintro ⟨stem, hne, rfl⟩
    have hlength : 0 < stem.length := by
      rw [← String.length_toList, List.length_pos_iff]
      exact fun hnil => hne (String.toList_eq_nil_iff.mp hnil)
    rw [String.toList_append, String.length_append]
    exact ⟨List.suffix_append _ _, by omega⟩

end Path

open FileTree ShaderTemplates.Path

namespace Project

variable {p : Project} {t : FileTree} {templates : Path} {root : Location} {names : List String}
  {name : String}

-- ── Directories that are left out ────────────────────────────────────────────

/-- A hidden directory below the root, or the directory of the templates. -/
def IsLeftOut (p : Project) (templates : Path) (names : List String) : Prop :=
  (∃ name, names.getLast? = some name ∧ name.toList.head? = some '.') ∨
    (p.pathBelow names).SamePlace templates

theorem components_pathBelow (h : ∀ name ∈ names, IsStep name) :
    (p.pathBelow names).components = p.root.components ++ names.map .name :=
  components_children h p.root

/-- Other names below the root lead to other places. -/
theorem samePlace_pathBelow {others : List String} (h : ∀ name ∈ names, IsStep name)
    (hothers : ∀ name ∈ others, IsStep name) :
    (p.pathBelow names).SamePlace (p.pathBelow others) ↔ names = others := by
  rw [SamePlace, components_pathBelow h, components_pathBelow hothers]
  constructor
  · intro heq
    exact List.map_inj_right (fun _ _ hname => Component.name.inj hname) |>.mp
      (List.append_cancel_left heq)
  · rintro rfl
    rfl

theorem templatesDirectory_eq (h : p.templatesDirectory = .ok templates) :
    templates = p.pathBelow (Path.ofString p.config.templatesDir).names :=
  (joinBelow_eq_ok.mp h).2

theorem isSkipped_iff (h : p.templatesDirectory = .ok templates)
    (hsteps : ∀ name ∈ names, IsStep name) :
    isSkipped (Path.ofString p.config.templatesDir).names names = true ↔
      p.IsLeftOut templates names := by
  rw [IsLeftOut, templatesDirectory_eq h,
    samePlace_pathBelow hsteps fun _ hname => isStep_of_mem_names hname, isSkipped, Bool.or_eq_true,
    decide_eq_true_eq, Option.any_eq_true, or_comm]
  simp only [decide_eq_true_eq]

/-- Names pass no skipped directory if the directories on their way are all open. -/
theorem isReached_concat (skipped : List String) :
    isReached skipped (names ++ [name]) = true ↔
      IsOpen (fun front => isSkipped skipped front = true) names := by
  rw [isReached, List.all_eq_true]
  simp only [List.mem_range, List.length_append, List.length_singleton, Bool.or_eq_true,
    decide_eq_true_eq, Bool.not_eq_true']
  constructor
  · rintro h front hne ⟨rest, rfl⟩ hskipped
    have hlength : front.length < (front ++ rest).length + 1 := by
      rw [List.length_append]
      omega
    rcases h front.length hlength with hzero | hopen
    · exact hne (List.length_eq_zero_iff.mp hzero)
    · rw [List.append_assoc, List.take_left, hskipped] at hopen
      cases hopen
  · intro h n hn
    rw [List.take_append_of_le_length (by omega)]
    by_cases hzero : n = 0
    · exact .inl hzero
    · refine .inr (Bool.eq_false_iff.mpr (h _ ?_ (List.take_prefix n names)))
      intro hnil
      have := congrArg List.length hnil
      rw [List.length_take, List.length_nil] at this
      omega

-- ── The walk ─────────────────────────────────────────────────────────────────

/-- Names pass no skipped directory if the walk comes to what they lead to. -/
theorem isReached_iff (h : p.templatesDirectory = .ok templates) (hnames : t.NamesBelow root)
    {e : Entry} (hget : t.get? (root ++ names) = some e) (hne : names ≠ []) :
    isReached (Path.ofString p.config.templatesDir).names names = true ↔
      t.Visits root (p.IsLeftOut templates) names e := by
  obtain ⟨front, name, rfl⟩ := (List.eq_nil_or_concat names).resolve_left hne
  rw [List.concat_eq_append] at hget ⊢
  rw [isReached_concat, visits_iff, and_iff_right hget]
  have hsteps : ∀ name ∈ front, IsStep name := fun n hn =>
    (hnames.isEntryName hget n (List.mem_append_left _ hn)).1
  -- What is skipped is told by names and what is left out by places: for entries it is the same.
  have hskip : ∀ {part : List String}, part <+: front →
      (isSkipped (Path.ofString p.config.templatesDir).names part = true ↔
        p.IsLeftOut templates part) :=
    fun hpart => isSkipped_iff h fun n hn => hsteps n (hpart.subset hn)
  exact ⟨fun hopen part hpart hfront => mt (hskip hfront).mpr (hopen part hpart hfront),
    fun hopen part hpart hfront => mt (hskip hfront).mp (hopen part hpart hfront)⟩

/-- The generators are the documents that the walk comes to. -/
theorem mem_generatorsBelow (h : p.templatesDirectory = .ok templates)
    (hnames : t.NamesBelow root) :
    names ∈ generatorsBelow t root (Path.ofString p.config.templatesDir).names ↔
      ∃ front stem content, stem ≠ "" ∧ names = front ++ [stem ++ generatorSuffix] ∧
        t.Visits root (p.IsLeftOut templates) names (.file content) := by
  rw [generatorsBelow, List.mem_filterMap]
  constructor
  · rintro ⟨⟨names', e⟩, hmem, hlisted⟩
    obtain ⟨hne, hget⟩ := mem_descendants_iff.mp hmem
    cases e with
    | directory => cases hlisted
    | file content =>
        dsimp only at hlisted
        split at hlisted
        next hleads =>
          cases hlisted
          rw [leadsToGenerator, Bool.and_eq_true] at hleads
          obtain ⟨hdocument, hreached⟩ := hleads
          have hvisits := (isReached_iff h hnames hget hne).mp hreached
          obtain ⟨front, last, rfl⟩ := (List.eq_nil_or_concat names).resolve_left hne
          rw [List.concat_eq_append] at hget hdocument hvisits ⊢
          rw [List.getLast?_concat] at hdocument
          have hstep := (hnames.isEntryName hget last (by simp)).1
          obtain ⟨stem, hstem, rfl⟩ := (isGeneratorFile_single hstep).mp hdocument
          exact ⟨front, stem, content, hstem, rfl, hvisits⟩
        next => cases hlisted
  · rintro ⟨front, stem, content, hstem, rfl, hvisits⟩
    obtain ⟨hne, hget⟩ := hvisits.get?
    refine ⟨(_, .file content), mem_descendants_iff.mpr ⟨hne, hget⟩, ?_⟩
    have hstep := (hnames.isEntryName hget (stem ++ generatorSuffix) (by simp)).1
    dsimp only
    rw [if_pos]
    rw [leadsToGenerator, List.getLast?_concat, Bool.and_eq_true]
    exact ⟨(isGeneratorFile_single hstep).mpr ⟨stem, hstem, rfl⟩,
      (isReached_iff h hnames hget hne).mpr hvisits⟩

theorem isStep_of_generatorsBelow (h : p.templatesDirectory = .ok templates)
    (hnames : t.NamesBelow root)
    (hfound : names ∈ generatorsBelow t root (Path.ofString p.config.templatesDir).names) :
    ∀ name ∈ names, IsStep name := by
  obtain ⟨_, _, _, -, -, hvisits⟩ := (mem_generatorsBelow h hnames).mp hfound
  exact fun name hname => (hnames.isEntryName hvisits.get?.2 name hname).1

/-- The names that lead to generators are found in ascending order. -/
theorem pairwise_generatorsBelow (t : FileTree) (root : Location) (skipped : List String) :
    (generatorsBelow t root skipped).Pairwise (· < ·) := by
  refine (pairwise_descendants t root).filterMap _ ?_
  rintro ⟨front, first⟩ ⟨back, second⟩ hlt names hnames others hothers
  cases first with
  | directory => cases hnames
  | file _ =>
      cases second with
      | directory => cases hothers
      | file _ =>
          obtain ⟨-, hfront⟩ := Option.ite_none_right_eq_some.mp hnames
          obtain ⟨-, hback⟩ := Option.ite_none_right_eq_some.mp hothers
          rw [← Option.some.inj hfront, ← Option.some.inj hback]
          exact hlt

/-- The names lead from the root to a directory in which generators are looked for. -/
def IsSearched (p : Project) (t : FileTree) (templates : Path) (root : Location)
    (names : List String) : Prop :=
  t.get? (root ++ names) = some .directory ∧ IsOpen (p.IsLeftOut templates) names

theorem isSearched_iff (h : p.templatesDirectory = .ok templates) (hnames : t.NamesBelow root)
    (hne : names ≠ []) (hget : t.get? (root ++ names) = some .directory) :
    p.IsSearched t templates root names ↔
      isReached (Path.ofString p.config.templatesDir).names names = true ∧
        isSkipped (Path.ofString p.config.templatesDir).names names = false := by
  rw [IsSearched, isReached_iff h hnames hget hne, and_iff_right hget, ← Bool.not_eq_true,
    isSkipped_iff h fun n hn => (hnames.isEntryName hget n hn).1]
  obtain ⟨front, name, rfl⟩ := (List.eq_nil_or_concat names).resolve_left hne
  rw [List.concat_eq_append] at hget ⊢
  rw [isOpen_concat, visits_iff, and_iff_right hget]

theorem isListable_iff : p.isListable t root names = true ↔
    isLongPath (p.pathBelow names) = false ∧ root ++ names ∉ t.process.unopened := by
  rw [isListable, Bool.and_eq_true, Bool.not_eq_true', Bool.not_eq_true', List.contains_eq_mem,
    decide_eq_false_iff_not]

/-- All of the directories can be listed in which generators are looked for, the root among them. -/
theorem allListable_iff (htemplates : p.templatesDirectory = .ok templates)
    (hdir : t.get? root = some .directory) (hnames : t.NamesBelow root) :
    p.allListable t root (Path.ofString p.config.templatesDir).names = true ↔
      ∀ names, p.IsSearched t templates root names → p.isListable t root names = true := by
  rw [allListable, Bool.and_eq_true, List.all_eq_true]
  constructor
  · rintro ⟨hroot, hbelow⟩ names hin
    by_cases hne : names = []
    · rw [hne]
      exact hroot
    · have hall := hbelow _ (mem_descendants_iff.mpr ⟨hne, hin.1⟩)
      obtain ⟨hreached, hskipped⟩ := (isSearched_iff htemplates hnames hne hin.1).mp hin
      simpa [hreached, hskipped] using hall
  · intro hall
    refine ⟨hall [] ⟨(List.append_nil root).symm ▸ hdir, isOpen_nil _⟩, ?_⟩
    rintro ⟨names, e⟩ hmem
    obtain ⟨hne, hget⟩ := mem_descendants_iff.mp hmem
    cases e with
    | file content => simp
    | directory =>
        have hin := isSearched_iff htemplates hnames hne hget
        cases hreached : isReached (Path.ofString p.config.templatesDir).names names with
        | false => simp
        | true =>
            cases hskipped : isSkipped (Path.ofString p.config.templatesDir).names names with
            | true => simp
            | false => simp [hall names (hin.mpr ⟨hreached, hskipped⟩)]

theorem generators_of_directory (h : p.templatesDirectory = .ok templates)
    (hroot : t.locate p.root = .ok root) (hdir : t.get? root = some .directory) :
    p.generators t =
      if p.allListable t root (Path.ofString p.config.templatesDir).names then
        .ok ((generatorsBelow t root (Path.ofString p.config.templatesDir).names).map p.pathBelow)
      else .error .io := by
  have hfind : t.find? p.root = some .directory := find?_eq_some.mpr ⟨root, hroot, hdir⟩
  rw [generators, h, hfind, hroot]
  cases hall : p.allListable t root (Path.ofString p.config.templatesDir).names with
  | true => simp only [ok_bind, hall]; rfl
  | false => simp only [ok_bind, hall]; rfl

/-- Generators are listed unless one of the directories in which they are looked for has a path that
    is too long or cannot be opened.  Listed are the documents with no left out directory between
    the root and them, in the order of their components; if the root is the directory of the
    templates, only hidden directories are left out. -/
theorem generators_listed (htemplates : p.templatesDirectory = .ok templates)
    (hroot : t.locate p.root = .ok root) (hdir : t.get? root = some .directory)
    (hnames : t.NamesBelow root) :
    ((∃ names, p.IsSearched t templates root names ∧
        (isLongPath (p.pathBelow names) = true ∨ root ++ names ∈ t.process.unopened)) →
      p.generators t = .error .io) ∧
    ((∀ names, p.IsSearched t templates root names →
        isLongPath (p.pathBelow names) = false ∧ root ++ names ∉ t.process.unopened) →
      ∃ paths, p.generators t = .ok paths ∧ paths.Nodup ∧
        paths.Pairwise (fun a b => a.components < b.components) ∧
        ∀ path, path ∈ paths ↔ ∃ names stem content, stem ≠ "" ∧
          path = p.pathBelow (names ++ [stem ++ generatorSuffix]) ∧
          t.get? (root ++ (names ++ [stem ++ generatorSuffix])) = some (.file content) ∧
          IsOpen (p.IsLeftOut templates) names) ∧
    (templates.SamePlace p.root → ∀ names, names ≠ [] → (∀ name ∈ names, IsStep name) →
      ¬ (p.pathBelow names).SamePlace templates) := by
  rw [generators_of_directory htemplates hroot hdir]
  refine ⟨?_, ?_, ?_⟩
  · rintro ⟨names, hin, hfault⟩
    rw [if_neg]
    rw [allListable_iff htemplates hdir hnames]
    intro hall
    obtain ⟨hshort, hopened⟩ := isListable_iff.mp (hall names hin)
    rcases hfault with hlong | hfault
    · rw [hlong] at hshort
      cases hshort
    · exact hopened hfault
  · intro hlistable
    rw [if_pos]
    · have hsteps : ∀ found ∈ generatorsBelow t root (Path.ofString p.config.templatesDir).names,
          ∀ name ∈ found, IsStep name :=
        fun _ => isStep_of_generatorsBelow htemplates hnames
      refine ⟨_, rfl, ?_, ?_, ?_⟩
      -- The names ascend, so no two are the same, and the paths are in the order of the names.
      · rw [List.Nodup, List.pairwise_map]
        refine (pairwise_generatorsBelow t root _).imp_of_mem fun {a b} ha hb hlt heq => ?_
        have hsame : (p.pathBelow a).SamePlace (p.pathBelow b) := congrArg components heq
        rw [(samePlace_pathBelow (hsteps _ ha) (hsteps _ hb)).mp hsame] at hlt
        exact List.lt_irrefl b hlt
      · rw [List.pairwise_map]
        refine (pairwise_generatorsBelow t root _).imp_of_mem fun ha hb hlt => ?_
        rw [components_pathBelow (hsteps _ ha), components_pathBelow (hsteps _ hb)]
        exact components_lt p.root.components hlt
      · intro path
        rw [List.mem_map]
        constructor
        · rintro ⟨found, hfound, rfl⟩
          obtain ⟨names, stem, content, hstem, rfl, hvisits⟩ :=
            (mem_generatorsBelow htemplates hnames).mp hfound
          obtain ⟨hget, hopen⟩ := visits_iff.mp hvisits
          exact ⟨names, stem, content, hstem, rfl, hget, hopen⟩
        · rintro ⟨names, stem, content, hstem, rfl, hget, hopen⟩
          exact ⟨_, (mem_generatorsBelow htemplates hnames).mpr
            ⟨names, stem, content, hstem, rfl, visits_iff.mpr ⟨hget, hopen⟩⟩, rfl⟩
    · rw [allListable_iff htemplates hdir hnames]
      exact fun names hin => isListable_iff.mpr (hlistable names hin)
  · intro hplace names hne hsteps hsame
    have hroot : p.root = p.pathBelow [] := rfl
    rw [SamePlace, ← hsame, hroot] at hplace
    exact hne ((samePlace_pathBelow hsteps fun _ h => absurd h List.not_mem_nil).mp hplace)

/-- A project in the working directory. -/
def spreadProject : Project := ⟨.here, { name := "p" }⟩

/-- Documents in several directories. -/
def spreadFiles : FileTree :=
  [Path.mk "sub" ["templates", "A.gen.toml"], ⟨"sub-2", ["A.gen.toml"]⟩,
    ⟨"sub", [".hidden", "A.gen.toml"]⟩, ⟨"templates", ["A.gen.toml"]⟩,
    ⟨".a.gen.toml", []⟩].foldl (fun t path => (t.replaceFile path "").1) ∅

/-- The directory of the templates and a hidden one are left out; the others are not. -/
theorem generators_listed_sample :
    spreadProject.generators spreadFiles = .ok [⟨".", [".a.gen.toml"]⟩,
        ⟨".", ["sub", "templates", "A.gen.toml"]⟩, ⟨".", ["sub-2", "A.gen.toml"]⟩] ∧
      ∃ paths, spreadProject.generators spreadFiles = .ok paths ∧ paths.Nodup ∧
        paths.Pairwise (fun a b => a.components < b.components) ∧
        ∀ path, path ∈ paths ↔ ∃ names stem content, stem ≠ "" ∧
          path = spreadProject.pathBelow (names ++ [stem ++ generatorSuffix]) ∧
          spreadFiles.get? ([] ++ (names ++ [stem ++ generatorSuffix])) = some (.file content) ∧
          IsOpen (spreadProject.IsLeftOut ⟨".", ["templates"]⟩) names := by
  have htemplates : spreadProject.templatesDirectory = .ok ⟨".", ["templates"]⟩ := by
    show Path.here.joinBelow (Path.ofString "templates") = _
    decide
  have hroot : spreadFiles.locate spreadProject.root = .ok [] := by decide +kernel
  have hnames : spreadFiles.NamesBelow [] := by decide +kernel
  refine ⟨by decide +kernel, ?_⟩
  refine (generators_listed htemplates hroot rfl hnames).2.1 ?_
  have hall := (allListable_iff htemplates rfl hnames).mp (by decide +kernel)
  exact fun names hin => isListable_iff.mp (hall names hin)

/-- A root whose path is nearly as long as a path can be, and which is the working directory. -/
def windingRoot : Path := ⟨".", List.replicate 2032 "."⟩

/-- A document in the root, and a directory beside it. -/
def wideFiles : FileTree :=
  let t := ((∅ : FileTree).makeDirectories ⟨"generators-of-the-first-rendering-pass", []⟩).1
  (t.replaceFile ⟨"A.gen.toml", []⟩ "").1

/-- Below a root that is there the generators may still not be listed, even if the project has a
    single one right in its root. -/
theorem generators_too_deep :
    ¬ ∀ (p : Project) (t : FileTree) (templates : Path) (root : Location),
      p.templatesDirectory = .ok templates → t.locate p.root = .ok root →
      t.get? root = some .directory → t.NamesBelow root →
      ∃ paths, p.generators t = .ok paths := by
  intro h
  let p : Project := ⟨windingRoot, { name := "p" }⟩
  have htemplates : p.templatesDirectory = .ok (windingRoot.child "templates") := by
    decide +kernel
  have hroot : wideFiles.locate windingRoot = .ok [] := by
    have hlong : isLongPath windingRoot = false := by
      rw [← Bool.not_eq_true, isLongPath_iff]
      decide +kernel
    rw [locate, if_neg (by decide +kernel), hlong]
    decide +kernel
  have hnames : wideFiles.NamesBelow [] := by decide +kernel
  obtain ⟨paths, hpaths⟩ := h p wideFiles _ [] htemplates hroot rfl hnames
  have hin : p.IsSearched wideFiles (windingRoot.child "templates") []
      ["generators-of-the-first-rendering-pass"] := by
    rw [isSearched_iff htemplates hnames (List.cons_ne_nil _ _) (by decide +kernel)]
    decide +kernel
  have hdeep : ¬ p.allListable wideFiles [] (Path.ofString p.config.templatesDir).names = true := by
    rw [allListable_iff htemplates rfl hnames]
    intro hall
    have hshort := (isListable_iff.mp (hall _ hin)).1
    rw [← Bool.not_eq_true, isLongPath_iff] at hshort
    exact hshort (by decide +kernel)
  rw [generators_of_directory htemplates hroot rfl, if_neg hdeep] at hpaths
  cases hpaths

end Project

end ShaderTemplates
