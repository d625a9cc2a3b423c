import ShaderTemplates.Generator
import ShaderTemplates.Proofs.Computations
import ShaderTemplates.Proofs.Walks

/-!
# Where outputs are found

The output of a generator and the last output that it records are both children of its output
directory (`outputPath_eq_ok`, `exportedPath_eq_ok`), and this directory is that of the document or
below it (`outputDirectory_eq_ok`).  So what is above the document is above the output as well
(`OutputsIn`).  If the extension of outputs has no separator in it, the file name of an output leads
back to the output (`exportedPath_output`).
-/

namespace ShaderTemplates

open ShaderTemplates.Path

-- ── File names ───────────────────────────────────────────────────────────────

/-- A text without a character that separates names. -/
def HasNoSeparator (s : String) : Prop := '/' ∉ s.toList ∧ '\\' ∉ s.toList

instance (s : String) : Decidable (HasNoSeparator s) := inferInstanceAs (Decidable (_ ∧ _))

theorem checkFileName_eq_ok {name : String} :
    checkFileName name = .ok () ↔ Text.isBlankText name = false ∧ HasNoSeparator name ∧
      name ≠ "." ∧ name ≠ ".." := by
  rw [checkFileName]
  cases hblank : Text.isBlankText name with
  | true =>
      constructor
      · intro h
        cases h
      · intro h
        cases h.1
  | false =>
      rw [if_neg Bool.false_ne_true]
      split
      next hbad =>
        refine ⟨fun h => (by cases h), fun h => ?_⟩
        obtain ⟨-, ⟨hslash, hback⟩, hhere, hup⟩ := h
        simp only [Bool.or_eq_true, List.any_eq_true, decide_eq_true_eq] at hbad
        rcases hbad with (⟨c, hc, rfl | rfl⟩ | rfl) | rfl
        · exact absurd hc hslash
        · exact absurd hc hback
        · exact absurd rfl hhere
        · exact absurd rfl hup
      next hgood =>
        refine ⟨fun _ => ⟨rfl, ?_, ?_, ?_⟩, fun _ => rfl⟩
        · constructor
          · intro hslash
            have hany : (name.toList.any fun c => c = '/' || c = '\\') = true :=
              List.any_eq_true.mpr ⟨'/', hslash, rfl⟩
            exact hgood (by rw [hany]; rfl)
          · intro hback
            have hany : (name.toList.any fun c => c = '/' || c = '\\') = true :=
              List.any_eq_true.mpr ⟨'\\', hback, rfl⟩
            exact hgood (by rw [hany]; rfl)
        · rintro rfl
          exact hgood (by decide)
        · rintro rfl
          exact hgood (by decide)

theorem isStep_of_checkFileName {name : String} (h : checkFileName name = .ok ()) :
    IsStep name := by
  obtain ⟨hblank, -, hhere, hup⟩ := checkFileName_eq_ok.mp h
  refine ⟨?_, hup⟩
  have hempty : name ≠ "" := by
    rintro rfl
    exact absurd hblank (by decide)
  rw [isSilent, beq_false_of_ne hempty, beq_false_of_ne hhere]
  rfl

/-- A file name with an extension leads down. -/
theorem isStep_extension {name : String} (h : checkFileName name = .ok ()) (extension : String) :
    IsStep (name ++ "." ++ extension) := by
  obtain ⟨hblank, -, hhere, -⟩ := checkFileName_eq_ok.mp h
  have htext : (name ++ "." ++ extension).toList = name.toList ++ '.' :: extension.toList := by
    simp [String.toList_append]
  match hchars : name.toList with
  | [] =>
      rw [Text.isBlankText, hchars] at hblank
      cases hblank
  | c :: cs =>
      rw [hchars] at htext
      have hlong : ∀ s : String, s.toList.length < 2 → name ++ "." ++ extension ≠ s := by
        rintro s hs rfl
        rw [htext, List.length_append, List.length_cons, List.length_cons] at hs
        omega
      refine ⟨?_, ?_⟩
      · rw [isSilent, beq_false_of_ne (hlong "" (by decide)),
          beq_false_of_ne (hlong "." (by decide))]
        rfl
      · intro heq
        rw [heq] at htext
        cases cs with
        | nil =>
            obtain rfl : '.' = c := (List.cons.inj htext).1
            exact hhere (String.toList_inj.mp hchars)
        | cons d cs => simpa using congrArg List.length htext

/-- A name with an extension is a file name if the name is one. -/
theorem checkFileName_extension {name extension : String} (h : checkFileName name = .ok ())
    (hextension : HasNoSeparator extension) :
    checkFileName (name ++ "." ++ extension) = .ok () := by
  obtain ⟨hblank, ⟨hslash, hback⟩, -, -⟩ := checkFileName_eq_ok.mp h
  have htext : (name ++ "." ++ extension).toList = name.toList ++ '.' :: extension.toList := by
    simp [String.toList_append]
  have hstep := isStep_extension h extension
  refine checkFileName_eq_ok.mpr ⟨?_, ⟨?_, ?_⟩, ?_, hstep.2⟩
  · rw [Text.isBlankText, htext, List.all_append, ← Text.isBlankText, hblank, Bool.false_and]
  · rw [htext]
    simp [hslash, hextension.1]
  · rw [htext]
    simp [hback, hextension.2]
  · intro heq
    rw [heq] at hstep
    exact absurd hstep.1 (by decide)

theorem splitSlashes_of_noSlash {cs : List Char} (h : '/' ∉ cs) : splitSlashes cs = (cs, []) := by
  induction cs with
  | nil => rfl
  | cons c cs ih =>
      have hc : c ≠ '/' := fun heq => h (heq ▸ List.mem_cons_self)
      rw [splitSlashes, ih fun hmem => h (List.mem_cons_of_mem _ hmem), if_neg hc]

theorem ofString_of_noSlash {s : String} (h : '/' ∉ s.toList) : Path.ofString s = ⟨s, []⟩ := by
  rw [Path.ofString, splitSlashes_of_noSlash h]
  dsimp only
  rw [String.ofList_toList, List.map_nil]

-- ── Directories below a directory ────────────────────────────────────────────

theorem Path.child_ne_empty (p : Path) {name : String} (hname : IsStep name) :
    p.child name ≠ .empty := by
  by_cases hp : p = .empty
  · subst hp
    rw [Path.child, Path.join, if_neg (by simp [Path.isRooted]), if_pos rfl]
    rintro heq
    cases heq
    exact absurd hname.1 (by decide)
  · obtain ⟨head, tail⟩ := p
    obtain ⟨front, silent, -, -, hchild⟩ := FileTree.child_eq name hp
    rw [hchild]
    intro heq
    have htail : front ++ [name] = [] := (Path.mk.inj heq).2
    simp at htail

theorem Path.fileName?_child {p : Path} (hp : p ≠ .empty) {name : String} (hname : IsStep name) :
    (p.child name).fileName? = some name := by
  obtain ⟨head, tail⟩ := p
  obtain ⟨front, silent, -, -, hchild⟩ := FileTree.child_eq name hp
  have hstep : stepOf? name = some (.name name) := by
    rw [stepOf?, if_neg (by rw [hname.1]; exact Bool.false_ne_true), if_neg hname.2]
  rw [hchild, Path.fileName?, Path.components, List.filterMap_append, ← List.append_assoc]
  have hlast : [name].filterMap stepOf? = [.name name] := by
    rw [List.filterMap_cons, hstep]
    rfl
  rw [hlast, List.getLast?_concat]
  rfl

theorem isStep_of_mem_names {p : Path} {name : String} (h : name ∈ p.names) : IsStep name := by
  have hstepOf : ∀ segment, stepOf? segment = some (.name name) → IsStep name := by
    intro segment hstep
    rw [stepOf?] at hstep
    split at hstep
    next => cases hstep
    next hsilent =>
      split at hstep
      next => cases hstep
      next hup =>
        cases hstep
        exact ⟨Bool.eq_false_iff.mpr hsilent, hup⟩
  obtain ⟨component, hmem, hname⟩ := List.mem_filterMap.mp h
  obtain rfl : component = .name name := by
    cases component with
    | name s =>
        cases hname
        rfl
    | root => cases hname
    | current => cases hname
    | parent => cases hname
  rcases List.mem_append.mp hmem with hhead | htail
  · rw [Path.headSteps] at hhead
    split at hhead
    next => simp at hhead
    next =>
      split at hhead
      next => simp at hhead
      next => exact hstepOf p.head (Option.mem_toList.mp hhead)
  · obtain ⟨segment, -, hstep⟩ := List.mem_filterMap.mp htail
    exact hstepOf segment hstep

theorem Path.directory_ne_empty (p : Path) : p.directory ≠ .empty := by
  rw [Path.directory]
  split
  next parent _ =>
    split
    next => decide
    next h => exact h
  next => decide

namespace FileTree

variable {t : FileTree}

/-- A path made longer by names leads to or below where it led before. -/
theorem locate_children {names : List String} (hnames : ∀ name ∈ names, IsStep name) {dir : Path}
    (hdir : dir ≠ .empty) :
    names.foldl Path.child dir ≠ .empty ∧
      ∀ {l : Location}, t.locate (names.foldl Path.child dir) = .ok l →
        ∃ m, t.locate dir = .ok m ∧ m <+: l := by
  induction names generalizing dir with
  | nil => exact ⟨hdir, fun h => ⟨_, h, List.prefix_rfl⟩⟩
  | cons name names ih =>
      have hname := hnames name List.mem_cons_self
      have ⟨hne, hbelow⟩ := ih (fun n hn => hnames n (List.mem_cons_of_mem _ hn))
        (dir.child_ne_empty hname)
      refine ⟨hne, fun {l} hl => ?_⟩
      obtain ⟨k, hk, hkl⟩ := hbelow hl
      obtain ⟨m, hm, -, rfl⟩ := locate_child hdir hname hk
      exact ⟨m, hm, (List.prefix_append m [name]).trans hkl⟩

end FileTree

-- ── Outputs ──────────────────────────────────────────────────────────────────

namespace Generator

variable {g : Generator} {dir output : Path}

/-- The output directory is the directory of the document or below it. -/
theorem outputDirectory_eq_ok {base : Path} (h : g.outputDirectory dir = .ok base) :
    ∃ names : List String, (∀ name ∈ names, IsStep name) ∧ base = names.foldl Path.child dir := by
  rw [outputDirectory] at h
  split at h
  next relative _ =>
    rw [Path.joinBelow] at h
    split at h
    next => cases h
    next =>
      cases h
      exact ⟨_, fun name hname => isStep_of_mem_names hname, rfl⟩
  next =>
    cases h
    exact ⟨[], fun name hname => absurd hname List.not_mem_nil, rfl⟩

theorem join_file {base : Path} {fileName : String} (h : HasNoSeparator fileName) :
    base.join (Path.ofString fileName) = base.child fileName := by
  rw [ofString_of_noSlash h.1]
  rfl

theorem outputPath_eq_ok {extension : String} (hextension : HasNoSeparator extension)
    (h : g.outputPath dir extension = .ok output) :
    ∃ base, checkFileName (g.name ++ "." ++ extension) = .ok () ∧
      g.outputDirectory dir = .ok base ∧ output = base.child (g.name ++ "." ++ extension) := by
  rw [outputPath] at h
  cases hname : checkFileName g.name with
  | error e =>
      rw [hname] at h
      cases h
  | ok =>
      have hfile := checkFileName_extension hname hextension
      cases hbase : g.outputDirectory dir with
      | error e =>
          rw [hname, hbase] at h
          cases h
      | ok base =>
          rw [hname, hbase] at h
          cases h
          exact ⟨base, hfile, rfl, join_file (checkFileName_eq_ok.mp hfile).2.1⟩

theorem exportedPath_eq_ok {previous : Path} (h : g.exportedPath dir = .ok (some previous)) :
    ∃ fileName base, g.exported = some fileName ∧ checkFileName fileName = .ok () ∧
      g.outputDirectory dir = .ok base ∧ previous = base.child fileName := by
  rw [exportedPath] at h
  split at h
  next fileName hexported =>
    cases hname : checkFileName fileName with
    | error e =>
        rw [hname] at h
        cases h
    | ok =>
        cases hbase : g.outputDirectory dir with
        | error e =>
            rw [hname, hbase] at h
            cases h
        | ok base =>
            rw [hname, hbase] at h
            cases h
            exact ⟨fileName, base, hexported, hname, rfl,
              join_file (checkFileName_eq_ok.mp hname).2.1⟩
  next => cases h

/-- What is in the output directory is below the directory of the document. -/
theorem outputDirectory_child {base : Path} {name : String}
    (hbase : g.outputDirectory dir = .ok base) (hname : Path.IsStep name) :
    ∃ names : List String, (∀ n ∈ names ++ [name], Path.IsStep n) ∧
      base.child name = (names ++ [name]).foldl Path.child dir := by
  obtain ⟨names, hnames, rfl⟩ := outputDirectory_eq_ok hbase
  refine ⟨names, fun n hn => ?_, ?_⟩
  · rcases List.mem_append.mp hn with hn | hn
    · exact hnames n hn
    · exact List.mem_singleton.mp hn ▸ hname
  · rw [List.foldl_append]
    rfl

theorem outputPath_children {extension : String} {output : Path}
    (hslash : '/' ∉ extension.toList) (h : g.outputPath dir extension = .ok output) :
    ∃ (names : List String) (name : String), (∀ n ∈ names ++ [name], Path.IsStep n) ∧
      output = (names ++ [name]).foldl Path.child dir := by
  rw [outputPath] at h
  obtain ⟨_, hname, h⟩ := bind_eq_ok.mp h
  obtain ⟨base, hbase, h⟩ := bind_eq_ok.mp h
  cases h
  have hfile : '/' ∉ (g.name ++ "." ++ extension).toList := by
    have hnoSlash := (checkFileName_eq_ok.mp hname).2.1.1
    simp [String.toList_append, hnoSlash, hslash]
  obtain ⟨names, hsteps, hfold⟩ := outputDirectory_child hbase (isStep_extension hname extension)
  refine ⟨names, _, hsteps, ?_⟩
  rw [← hfold, ofString_of_noSlash hfile]
  rfl

theorem exportedPath_children {last : Path} (h : g.exportedPath dir = .ok (some last)) :
    ∃ (names : List String) (name : String), (∀ n ∈ names ++ [name], Path.IsStep n) ∧
      last = (names ++ [name]).foldl Path.child dir := by
  obtain ⟨fileName, base, -, hfile, hbase, rfl⟩ := exportedPath_eq_ok h
  obtain ⟨names, hsteps, hfold⟩ := outputDirectory_child hbase (isStep_of_checkFileName hfile)
  exact ⟨names, _, hsteps, hfold⟩

/-- A file name that is recorded leads to the file of this name in the output directory. -/
theorem exportedPath_eq {fileName : String} {base : Path} (hexported : g.exported = some fileName)
    (hname : checkFileName fileName = .ok ()) (hbase : g.outputDirectory dir = .ok base) :
    g.exportedPath dir = .ok (some (base.child fileName)) := by
  rw [exportedPath]
  rw [hexported]
  dsimp only
  rw [hname, hbase]
  show Except.ok (some (base.join (Path.ofString fileName))) = _
  rw [join_file (checkFileName_eq_ok.mp hname).2.1]

theorem outputDirectory_ne_empty {base : Path} (hdir : dir ≠ .empty)
    (hbase : g.outputDirectory dir = .ok base) : base ≠ .empty := by
  obtain ⟨names, hnames, rfl⟩ := outputDirectory_eq_ok hbase
  exact (FileTree.locate_children hnames hdir (t := ∅)).1

/-- The file name of an output leads back to the output. -/
theorem exportedPath_output {extension : String} (hextension : HasNoSeparator extension)
    (hdir : dir ≠ .empty) (h : g.outputPath dir extension = .ok output) :
    { g with exported := output.fileName? }.exportedPath dir = .ok (some output) := by
  obtain ⟨base, hfile, hbase, rfl⟩ := outputPath_eq_ok hextension h
  rw [Path.fileName?_child (outputDirectory_ne_empty hdir hbase) (isStep_of_checkFileName hfile)]
  exact exportedPath_eq rfl hfile hbase

end Generator

-- ── Where outputs are seen from the document ─────────────────────────────────

open FileTree

/-- The output and the last output are files of one directory, which is at or below that of the
    document. -/
structure OutputsIn (base document output : Path) (previous? : Option Path) : Prop where
  below : ∃ names : List String, (∀ name ∈ names, Path.IsStep name) ∧
    base = names.foldl Path.child document.directory
  output : ∃ name, Path.IsStep name ∧ output = base.child name
  previous : ∀ previous ∈ previous?, ∃ name, Path.IsStep name ∧ previous = base.child name

namespace OutputsIn

variable {t t' : FileTree} {base document output : Path} {previous? : Option Path}

theorem base_ne_empty (h : OutputsIn base document output previous?) : base ≠ .empty := by
  obtain ⟨names, hnames, rfl⟩ := h.below
  exact (locate_children hnames document.directory_ne_empty (t := ∅)).1

/-- A last output at the place of the output is the output. -/
theorem eq_of_locate (h : OutputsIn base document output previous?) {previous : Path}
    (hmem : previous ∈ previous?) {l : Location} (hprevious : t.locate previous = .ok l)
    (houtput : t'.locate output = .ok l) : previous = output := by
  obtain ⟨name, hname, rfl⟩ := h.output
  obtain ⟨name', hname', rfl⟩ := h.previous previous hmem
  obtain ⟨m, -, -, hl⟩ := locate_child h.base_ne_empty hname houtput
  obtain ⟨m', -, -, hl'⟩ := locate_child h.base_ne_empty hname' hprevious
  rw [(List.cons.inj (List.append_inj' (hl'.symm.trans hl) rfl).2).1]

/-- What is above the document is above the output. -/
theorem prefix_of_document (h : OutputsIn base document output previous?) {o d k : Location}
    (houtput : t.locate output = .ok o) (hdocument : t.locate document = .ok d)
    (hfile : t.get? d ≠ some .directory) (hk : k <+: d) (hne : k ≠ d) : k <+: o := by
  obtain ⟨name, hname, rfl⟩ := h.output
  obtain ⟨b, hb, -, rfl⟩ := locate_child h.base_ne_empty hname houtput
  obtain ⟨m, s, -, rfl, hm, -⟩ := locate_directory hdocument hfile
  obtain ⟨names, hnames, rfl⟩ := h.below
  obtain ⟨m', hm', hbelow⟩ := (locate_children hnames document.directory_ne_empty).2 hb
  rw [hm] at hm'
  cases hm'
  exact (((List.prefix_concat_iff.mp hk).resolve_left hne).trans hbelow).trans
    (List.prefix_append b [name])

/-- What is above the last output is above the output. -/
theorem prefix_of_previous (h : OutputsIn base document output previous?) {o l k : Location}
    (houtput : t.locate output = .ok o) {previous : Path} (hmem : previous ∈ previous?)
    (hprevious : t.locate previous = .ok l) (hk : k <+: l) (hne : k ≠ l) : k <+: o := by
  obtain ⟨name, hname, rfl⟩ := h.output
  obtain ⟨b, hb, -, rfl⟩ := locate_child h.base_ne_empty hname houtput
  obtain ⟨name', hname', rfl⟩ := h.previous previous hmem
  obtain ⟨m, hm, -, rfl⟩ := locate_child h.base_ne_empty hname' hprevious
  rw [hb] at hm
  cases hm
  exact ((List.prefix_concat_iff.mp hk).resolve_left hne).trans (List.prefix_append b [name])

end OutputsIn

end ShaderTemplates
