import ShaderTemplates.Project
import ShaderTemplates.Proofs.Confinement
import ShaderTemplates.Proofs.StoppedExports

/-!
# Files of others

An export changes no file but its document, the last output that the document records and, if no
last output is there, the file that its output path leads to (`MayReplace`).  If there is a last
output and something else is where the output would go, then the export is refused.  So a file of
somebody else stays as it is through every run of creations, edits and exports, as long as no event
of the run is one that may change it (`foreign_files_kept`).

A first export is not refused: it takes the place of whatever its output path leads to.  Nor is one
refused whose extension has a directory in it that is not there yet (`foreign_file_replaced`).
-/

namespace ShaderTemplates

open Template FileTree Operation

-- ── Where paths led before ───────────────────────────────────────────────────

namespace FileTree

open ShaderTemplates.Path

variable {t t' : FileTree}

/-- What is above an entry is a directory. -/
theorem directory_above_entry {l k : Location} (h : l <+: k) (hne : l ≠ k) (hk : t.get? k ≠ none) :
    t.get? l = some .directory := by
  obtain ⟨rest, rfl⟩ := h
  rcases List.eq_nil_or_concat rest with rfl | ⟨front, name, rfl⟩
  · exact absurd (List.append_nil l).symm hne
  · rw [List.concat_eq_append, ← List.append_assoc] at hk
    obtain ⟨e, he⟩ := Option.ne_none_iff_exists'.mp hk
    exact directory_of_append (directory_of_entry he)

/-- A step down led to the same place before, if the directory was there. -/
theorem walk_step_before {m l : Location} {name : String} (hname : IsStep name)
    (hm : t.get? m = some .directory) (h : t'.walk m [name] = .ok l) : t.walk m [name] = .ok l := by
  obtain ⟨-, ⟨hno, -⟩ | ⟨-, hlong, rfl⟩⟩ := walk_single h
  · exact absurd hname hno
  · rw [walk, hm]
    dsimp only
    rw [if_neg (by rw [hname.1]; exact Bool.false_ne_true), if_neg hname.2,
      if_neg (by rw [hlong]; exact Bool.false_ne_true)]
    rfl

/-- The directory is there, or it is the working directory. -/
def Reaches (t : FileTree) (dir : Path) : Prop := dir = .empty ∨ ∃ m, t.locate dir = .ok m

/-- The path of what was in a directory already led to it before. -/
theorem locate_child_before (hkeep : t.Keeps t') {dir : Path} (hdir : t.Reaches dir)
    {name : String} (hname : IsStep name) {l : Location} (h : t'.locate (dir.child name) = .ok l)
    (hl : t.get? l ≠ none) : t.locate (dir.child name) = .ok l := by
  obtain ⟨e, he⟩ := Option.ne_none_iff_exists'.mp hl
  obtain ⟨hne, hlong, hzero, hwalk⟩ := locate_eq_ok.mp h
  refine locate_eq_ok.mpr ⟨hne, hlong, hzero, ?_⟩
  rw [hkeep.startOf] at hwalk
  by_cases hempty : dir = .empty
  · have hchild : dir.child name = ⟨name, []⟩ := by
      rw [hempty, child, join, if_neg (by simp [isRooted]), if_pos rfl]
    rw [hchild] at hwalk ⊢
    obtain ⟨-, ⟨hno, -⟩ | ⟨-, -, rfl⟩⟩ := walk_single hwalk
    · exact absurd hname hno
    · exact walk_step_before hname (directory_of_entry he) hwalk
  · obtain ⟨m, hm⟩ := hdir.resolve_left hempty
    obtain ⟨m', hm', -, rfl⟩ := locate_child hempty hname h
    cases (hkeep.locate hm).symm.trans hm'
    obtain ⟨head, tail⟩ := dir
    obtain ⟨front, silent, rfl, hsilent, hchild⟩ := child_eq name hempty
    have hbefore := (locate_eq_ok.mp hm).2.2.2
    rw [startOf_child hempty, ← List.cons_append, walk_append_eq_ok] at hbefore
    obtain ⟨k, hfront, hslash⟩ := hbefore
    obtain rfl : m = k := eq_of_walk_silent (isSilent_of_slash hsilent) hslash
    rw [hchild, ← List.cons_append, walk_append_eq_ok] at hwalk ⊢
    obtain ⟨k', hfront', hlast⟩ := hwalk
    cases (hkeep.walk hfront).symm.trans hfront'
    exact ⟨m, hfront, walk_step_before hname (directory_of_entry he) hlast⟩

theorem locate_children_before (hkeep : t.Keeps t') {names : List String}
    (hnames : ∀ name ∈ names, IsStep name) {dir : Path} (hdir : t.Reaches dir) {l : Location}
    (h : t'.locate (names.foldl child dir) = .ok l) (hl : t.get? l ≠ none) :
    t.locate (names.foldl child dir) = .ok l := by
  induction names generalizing dir with
  | nil =>
      rcases hdir with rfl | ⟨m, hm⟩
      · exact absurd rfl (locate_eq_ok.mp h).1
      · cases (hkeep.locate hm).symm.trans h
        exact hm
  | cons name names ih =>
      have hname := hnames name List.mem_cons_self
      have hrest := fun n hn => hnames n (List.mem_cons_of_mem _ hn)
      obtain ⟨k, hk, hkl⟩ := (locate_children hrest (dir.child_ne_empty hname)).2 h
      have hentry : t.get? k ≠ none := by
        by_cases hkl' : k = l
        · rwa [hkl']
        · rw [directory_above_entry hkl hkl' hl]
          exact Option.some_ne_none _
      exact ih hrest (.inr ⟨k, locate_child_before hkeep hdir hname hk hentry⟩) h

end FileTree

/-- An output path led to what was there already. -/
theorem Generator.locate_output_before {t t' : FileTree} {g : Generator} {dir output : Path}
    {extension : String} (hextension : HasNoSeparator extension)
    (houtput : g.outputPath dir extension = .ok output) (hkeep : t.Keeps t')
    (hdir : t.Reaches dir) {l : Location} (h : t'.locate output = .ok l) (hl : t.get? l ≠ none) :
    t.locate output = .ok l := by
  obtain ⟨names, name, hsteps, rfl⟩ := outputPath_children hextension.1 houtput
  exact locate_children_before hkeep hsteps hdir h hl

-- ── Exports ──────────────────────────────────────────────────────────────────

/-- Wherever an export stops, it changed its output, its document and its last output at most. -/
theorem ExportPlan.file?_of_stoppedAfter {plan : ExportPlan} {t t' : FileTree} {n : Nat}
    (h : StoppedAfter n t plan.operations t') : t.Keeps t' ∧ ∀ l,
      t'.locate plan.output ≠ .ok l → t'.locate plan.document ≠ .ok l →
      (∀ previous ∈ plan.renamedFrom, t'.locate previous ≠ .ok l) → t'.file? l = t.file? l := by
  match n with
  | 0 =>
      have hmade := stoppedAfter_zero.mp h
      exact ⟨hmade.toKeeps, fun l _ _ _ => hmade.files l⟩
  | 1 =>
      obtain ⟨o, hout, hkeep, hfiles⟩ := plan.stoppedAfter_one h
      refine ⟨hkeep, fun l houtput _ _ => hfiles l ?_⟩
      rintro rfl
      exact houtput hout.located
  | n + 2 =>
      obtain ⟨t₂, o, d, hsaved, hkeep, hfiles⟩ := plan.stoppedAfter_saved (by omega) h
      refine ⟨hsaved.keeps.trans hkeep, fun l houtput hdocument hprevious => ?_⟩
      rw [hfiles l fun previous hmem hl => hprevious previous hmem (hkeep.locate hl)]
      refine hsaved.others l ?_ ?_
      · rintro rfl
        exact houtput (hkeep.locate hsaved.located)
      · rintro rfl
        exact hdocument (hkeep.locate hsaved.document.located)

theorem OutputsIn.eq_of_samePlace {base document output : Path} {previous? : Option Path}
    (h : OutputsIn base document output previous?) {previous : Path} (hmem : previous ∈ previous?)
    (hplace : previous.SamePlace output) : previous = output := by
  obtain ⟨name, hname, rfl⟩ := h.output
  obtain ⟨name', hname', rfl⟩ := h.previous previous hmem
  rw [Path.SamePlace, Path.components_child base hname, Path.components_child base hname'] at hplace
  cases List.append_cancel_left hplace
  rfl

/-- A last output that is there is in the place of the output exactly if both paths say so. -/
theorem OutputsIn.samePlace_iff {t : FileTree} {base document output : Path}
    {previous? : Option Path} (h : OutputsIn base document output previous?) {previous : Path}
    (hmem : previous ∈ previous?) {l : Location} (hl : t.locate previous = .ok l) :
    previous.SamePlace output ↔ t.SameFile previous output := by
  constructor
  · intro hplace
    rw [← h.eq_of_samePlace hmem hplace]
    exact ⟨l, hl, hl⟩
  · rintro ⟨k, hk, hk'⟩
    rw [h.eq_of_locate hmem hk hk']
    rfl

/-- Operations fail only where they write. -/
theorem Operation.runAll_eq_error {t : FileTree} {operations : List Operation} {e : Error}
    (h : (runAll t operations).2 = .error e) : ∃ path, e = .writeFailed path := by
  induction operations generalizing t with
  | nil => cases h
  | cons operation rest ih =>
      rw [runAll_cons] at h
      split at h
      next => exact ih h
      next hrun =>
        cases h
        cases operation with
        | write path text => exact ⟨path, (run_write_eq_error hrun).1⟩
        | remove path =>
            rw [run_remove_eq] at hrun
            exact absurd hrun perform_remove_ne_error

namespace Project

variable {p : Project} {t : FileTree} {path : Path} {l : Location}

/-- The files that an export may change: its document, the last output that the document records,
    and the file in the place of its output if no last output is there. -/
inductive MayReplace (p : Project) (t : FileTree) (path : Path) (l : Location) : Prop where
  | document (h : t.locate path = .ok l)
  | last {g : Generator} {last : Path} (hload : Generator.load t path = .ok g)
      (hlast : g.exportedPath path.directory = .ok (some last)) (h : t.locate last = .ok l)
  | output {g : Generator} {output : Path} (hload : Generator.load t path = .ok g)
      (hnone : ∀ last, g.exportedPath path.directory = .ok (some last) → t.isFile last = false)
      (houtput : g.outputPath path.directory p.config.outputExtension = .ok output)
      (h : t.locate output = .ok l)

/-- What stands in the place of an output can be replaced. -/
theorem mayReplace_of_output (hextension : HasNoSeparator p.config.outputExtension)
    {source : ExportSource} {plan : ExportPlan} (hread : p.readForExport t path = .ok source)
    (hplan : source.plan p.config t = .ok plan) (h : t.locate plan.output = .ok l)
    (hl : t.get? l ≠ none) : p.MayReplace t path l := by
  obtain ⟨g, _, template, _, exported, previous?, hload, -, -, -, hexported, hlast, rfl⟩ :=
    readForExport_eq_ok.mp hread
  obtain ⟨base, houtputs⟩ := outputsIn_of_plan hextension hplan hexported
  obtain ⟨values, conversion, output, -, -, houtput, hplace, rfl⟩ :=
    ExportSource.plan_eq_ok.mp hplan
  rw [ExportSource.recorded_outputPath] at houtput
  cases previous? with
  | none =>
      refine .output hload (fun last hrecorded => ?_) houtput h
      cases hexported.symm.trans hrecorded
      exact lastOutput_eq_none hlast last rfl
  | some previous =>
      obtain ⟨rfl, -⟩ := lastOutput_eq_some hlast
      have hholds : t.holds output = true := holds_iff.mpr ⟨l, h, hl⟩
      rcases hplace previous rfl with hsame | hnothing
      · rw [← houtputs.eq_of_samePlace rfl hsame] at h
        exact .last hload hexported h
      · cases hholds.symm.trans hnothing

/-- What the generator in the document has to do with a plan. -/
theorem paths_of_plan {source : ExportSource} {plan : ExportPlan}
    (hread : p.readForExport t path = .ok source) (hplan : source.plan p.config t = .ok plan) :
    plan.document = path ∧ ∃ g, Generator.load t path = .ok g ∧
      g.outputPath path.directory p.config.outputExtension = .ok plan.output ∧
      ∀ previous ∈ plan.renamedFrom, g.exportedPath path.directory = .ok (some previous) ∧
        t.isFile previous = true := by
  obtain ⟨g, _, template, _, exported, previous?, hload, -, -, -, hexported, hlast, rfl⟩ :=
    readForExport_eq_ok.mp hread
  obtain ⟨values, conversion, output, -, -, houtput, -, rfl⟩ := ExportSource.plan_eq_ok.mp hplan
  rw [ExportSource.recorded_outputPath] at houtput
  refine ⟨rfl, g, hload, houtput, fun previous hmem => ?_⟩
  obtain ⟨last, hprevious, rfl⟩ := Option.map_eq_some_iff.mp (Option.filter_eq_some_iff.mp hmem).1
  cases hprevious
  obtain ⟨rfl, htext⟩ := lastOutput_eq_some hlast
  exact ⟨hexported, isFile_of_readText htext⟩

/-- An export changes no file but those that it may change. -/
theorem file?_of_exportGenerator (hextension : HasNoSeparator p.config.outputExtension)
    (hl : t.get? l ≠ none) (hno : ¬ p.MayReplace t path l) :
    (p.exportGenerator t path).files.file? l = t.file? l := by
  rcases p.files_of_exportGenerator t path with hsame | ⟨source, plan, hread, hplan, hfiles⟩
  · rw [hsame]
  obtain ⟨n, hstop⟩ := exists_stoppedAfter t plan.operations
  rw [← hfiles] at hstop
  obtain ⟨hkeep, hothers⟩ := plan.file?_of_stoppedAfter hstop
  obtain ⟨hpath, g, hload, houtput, hrenamed⟩ := paths_of_plan hread hplan
  obtain ⟨d, s, hd, hs, -⟩ := Generator.load_iff.mp hload
  refine hothers l (fun h => ?_) (fun h => ?_) fun previous hmem h => ?_
  · obtain ⟨m, -, -, -, hm, -⟩ := locate_directory hd (not_directory_of_file? hs)
    exact hno (mayReplace_of_output hextension hread hplan
      (Generator.locate_output_before hextension houtput hkeep (.inr ⟨m, hm⟩) h hl) hl)
  · rw [hpath] at h
    cases (hkeep.locate hd).symm.trans h
    exact hno (.document hd)
  · obtain ⟨hlast, hfile⟩ := hrenamed previous hmem
    obtain ⟨k, -, hk, -⟩ := isFile_iff.mp hfile
    cases (hkeep.locate hk).symm.trans h
    exact hno (.last hload hlast hk)

/-- An export is refused exactly if there is no plan for this reason. -/
theorem result_eq_conflict_iff {source : ExportSource} (hread : p.readForExport t path = .ok source)
    {previous output : Path} :
    (p.exportGenerator t path).result = .error (.outputConflict previous output) ↔
      source.plan p.config t = .error (.outputConflict previous output) := by
  cases hplan : source.plan p.config t with
  | error e =>
      rw [exportGenerator, hread]
      dsimp only
      rw [hplan]
      constructor
      · intro h
        cases h
        rfl
      · intro h
        cases h
        rfl
  | ok plan =>
      rw [(exportGenerator_of hread hplan).2]
      constructor
      · intro h
        cases hrun : (runAll t plan.operations).2 with
        | ok =>
            rw [hrun] at h
            cases h
        | error e =>
            obtain ⟨path, rfl⟩ := runAll_eq_error hrun
            rw [hrun] at h
            cases h
      · intro h
        cases h

/-- An export that is refused changes nothing. -/
theorem files_of_conflict {previous output : Path}
    (h : (p.exportGenerator t path).result = .error (.outputConflict previous output)) :
    (p.exportGenerator t path).files = t := by
  rcases p.files_of_exportGenerator t path with hsame | ⟨source, plan, hread, hplan, -⟩
  · exact hsame
  · cases hplan.symm.trans ((result_eq_conflict_iff hread).mp h)

/-- An export that gets as far as its output is refused exactly if there is a last output and
    something else is where the output would go. -/
theorem conflict_iff (hextension : HasNoSeparator p.config.outputExtension)
    {source : ExportSource} {values : Values} {conversion : Conversion} {output previous : Path}
    (hread : p.readForExport t path = .ok source)
    (hvalues : source.synced.resolve (scan source.templateText) p.config.constants = .ok values)
    (hconversion : convert source.templateText values = .ok conversion)
    (houtput : source.generator.outputPath path.directory p.config.outputExtension = .ok output) :
    (p.exportGenerator t path).result = .error (.outputConflict previous output) ↔
      (∃ text, source.previous = some (previous, text)) ∧ t.holds output = true ∧
        ¬ t.SameFile previous output := by
  obtain ⟨g, _, template, _, exported, previous?, -, -, -, -, hexported, hlast, hsource⟩ :=
    readForExport_eq_ok.mp hread
  have hpath : source.document = path := by rw [hsource]
  have hlast' : lastOutput t exported = .ok source.previous := by rw [hlast, hsource]
  have hexported' : source.generator.exportedPath path.directory = .ok exported := by
    rw [hsource]
    exact hexported
  obtain ⟨base, houtputs⟩ := outputsIn_of_outputPath hextension houtput hexported'
  have hplace : ∀ {text}, source.previous = some (previous, text) →
      (previous.SamePlace output ↔ t.SameFile previous output) := by
    intro text hprevious
    rw [hprevious] at hlast'
    obtain ⟨hmem, htext⟩ := lastOutput_eq_some hlast'
    obtain ⟨l, hl, -⟩ := readText_eq_ok.mp htext
    exact houtputs.samePlace_iff hmem hl
  rw [result_eq_conflict_iff hread, source.plan_eq, hvalues, ok_bind,
    mapError_eq_ok.mpr hconversion, ok_bind, source.recorded_outputPath, hpath, houtput, ok_bind,
    ExportSource.settle_eq_error]
  constructor
  · rintro ⟨⟨_, text⟩, hprevious, hother, hholds, ⟨⟩⟩
    exact ⟨⟨text, hprevious⟩, hholds, fun hsame => hother ((hplace hprevious).mpr hsame)⟩
  · rintro ⟨⟨text, hprevious⟩, hholds, hother⟩
    exact ⟨(previous, text), hprevious, fun hsame => hother ((hplace hprevious).mp hsame), hholds,
      rfl⟩

-- ── Creations ────────────────────────────────────────────────────────────────

theorem planCreation_eq_ok {dir document : Path} {name requested : String} {g : Generator}
    (h : p.planCreation t dir name requested = .ok (document, g)) :
    checkFileName name = .ok () ∧ document = generatorPath dir name ∧ t.holds document = false ∧
      p.newGenerator t name requested = .ok g := by
  rw [planCreation] at h
  obtain ⟨_, hname, h⟩ := bind_eq_ok.mp h
  cases hholds : t.holds (generatorPath dir name) with
  | true =>
      dsimp only at h
      rw [hholds, if_pos rfl] at h
      cases h
  | false =>
      dsimp only at h
      rw [hholds, if_neg Bool.false_ne_true] at h
      obtain ⟨_, hnew, h⟩ := bind_eq_ok.mp h
      cases h
      exact ⟨hname, rfl, hholds, hnew⟩

/-- The file name of a document leads down. -/
theorem isStep_document {name : String} (hname : checkFileName name = .ok ()) :
    Path.IsStep (name ++ Path.generatorSuffix) := by
  have hsuffix : name ++ Path.generatorSuffix = name ++ "." ++ "gen.toml" := by
    rw [String.append_assoc]
    rfl
  rw [hsuffix]
  exact isStep_extension hname "gen.toml"

/-- Writing a new document changes no file that is there, unless the document took its place. -/
theorem file?_of_replaceFile {dir : Path} {name text : String} {t' : FileTree}
    (hname : checkFileName name = .ok ()) (hholds : t.holds (generatorPath dir name) = false)
    (hreplace : t.replaceFile (generatorPath dir name) text = (t', .ok ())) (hl : t.get? l ≠ none)
    (hno : t.Reaches dir ∨ t'.locate (generatorPath dir name) ≠ .ok l) :
    t'.file? l = t.file? l := by
  obtain ⟨o, hdocument, hkeep, hfiles⟩ := stands_of_replaceFile hreplace
  refine hfiles l ?_
  rintro rfl
  rcases hno with hdir | hno
  · have hbefore := locate_child_before hkeep hdir (isStep_document hname) hdocument.located hl
    cases (holds_iff.mpr ⟨l, hbefore, hl⟩).symm.trans hholds
  · exact hno hdocument.located

/-- Creating a generator changes no file that is there, as long as its directory is there. -/
theorem file?_of_create {dir : Path} {name requested : String} (hl : t.get? l ≠ none)
    (hno : t.Reaches dir ∨ (p.create t dir name requested).files.locate (generatorPath dir name) ≠
      .ok l) :
    (p.create t dir name requested).files.file? l = t.file? l := by
  rw [create] at hno ⊢
  cases hplan : p.planCreation t dir name requested with
  | error e => rfl
  | ok created =>
      obtain ⟨document, g⟩ := created
      obtain ⟨hname, rfl, hholds, -⟩ := planCreation_eq_ok hplan
      rw [hplan] at hno
      dsimp only at hno ⊢
      split
      next hrun =>
        rw [hrun] at hno
        rcases (run_write_eq_error hrun).2 with hadds | ⟨hreplace, -⟩
        · exact hadds.addsDirectories.files l
        · exact file?_of_replaceFile hname hholds hreplace hl hno
      next hrun =>
        rw [hrun] at hno
        exact file?_of_replaceFile hname hholds (run_write_eq_ok.mp hrun).1 hl hno

-- ── Runs ─────────────────────────────────────────────────────────────────────

/-- What happens to a project: a generator is created, somebody edits or removes a file, or a
    document is exported. -/
inductive Event where
  | created (dir : Path) (name template : String)
  | edited (file : Path) (text : String)
  | removed (file : Path)
  | exported (document : Path)

/-- The files after an event; what fails leaves them as it does. -/
def Event.apply (p : Project) (t : FileTree) : Event → FileTree
  | created dir name template => (p.create t dir name template).files
  | edited file text => (t.writeFile file (.text text)).toOption.getD t
  | removed file => (Operation.run t (.remove file)).1
  | exported document => (p.exportGenerator t document).files

/-- Whether an event may change the file at a location.  A creation does so only if it has to make
    the directory of the document first. -/
def Event.MayChange (p : Project) (t : FileTree) (l : Location) : Event → Prop
  | created dir name template => ¬ t.Reaches dir ∧
      (p.create t dir name template).files.locate (generatorPath dir name) = .ok l
  | edited file _ => t.locate file = .ok l
  | removed file => t.locate file = .ok l
  | exported document => p.MayReplace t document l

/-- None of the events of a run may change the file at a location. -/
def Spares (p : Project) (l : Location) (t : FileTree) : List Event → Prop
  | [] => True
  | event :: rest => ¬ event.MayChange p t l ∧ p.Spares l (event.apply p t) rest

theorem file?_of_event (hextension : HasNoSeparator p.config.outputExtension) {event : Event}
    (hl : t.get? l ≠ none) (hno : ¬ event.MayChange p t l) :
    (event.apply p t).file? l = t.file? l := by
  cases event with
  | created dir name template =>
      exact file?_of_create hl (Classical.or_iff_not_imp_left.mpr fun hdir h => hno ⟨hdir, h⟩)
  | edited file text =>
      show ((t.writeFile file (.text text)).toOption.getD t).file? l = _
      cases hwrite : t.writeFile file (.text text) with
      | error e => rfl
      | ok t' =>
          obtain ⟨k, hk, -, -, hfiles⟩ := writeFile_eq_ok hwrite
          refine (hfiles l).trans (if_neg ?_)
          rintro rfl
          exact hno hk
  | removed file => exact (run_remove t file).2.2 l hno
  | exported document => exact file?_of_exportGenerator hextension hl hno

/-- A file that no event of a run may change is there at the end as it was at the start. -/
theorem file?_of_run (hextension : HasNoSeparator p.config.outputExtension) {content : Content}
    {events : List Event} (hfile : t.file? l = some content) (hspares : p.Spares l t events) :
    (events.foldl (Event.apply p) t).file? l = some content := by
  induction events generalizing t with
  | nil => exact hfile
  | cons event events ih =>
      obtain ⟨hno, hrest⟩ := hspares
      exact ih ((file?_of_event hextension (get?_ne_none_of_file? hfile) hno).trans hfile) hrest

/-- An export is refused exactly if there is a last output and something else is where the output
    would go, and an export that is refused changes nothing.  So a file stays as it is through every
    run in which it is not edited, is neither the document of an export nor its last output, and no
    document without a last output is exported onto it. -/
theorem foreign_files_kept (hextension : HasNoSeparator p.config.outputExtension) :
    (∀ (t : FileTree) (path : Path) (source : ExportSource) (values : Values)
        (conversion : Conversion) (output previous : Path),
      p.readForExport t path = .ok source →
      source.synced.resolve (scan source.templateText) p.config.constants = .ok values →
      convert source.templateText values = .ok conversion →
      source.generator.outputPath path.directory p.config.outputExtension = .ok output →
      ((p.exportGenerator t path).result = .error (.outputConflict previous output) ↔
        (∃ text, source.previous = some (previous, text)) ∧ t.holds output = true ∧
          ¬ t.SameFile previous output)) ∧
    (∀ (t : FileTree) (path output previous : Path),
      (p.exportGenerator t path).result = .error (.outputConflict previous output) →
      (p.exportGenerator t path).files = t) ∧
    ∀ (t : FileTree) (l : Location) (content : Content) (events : List Event),
      t.file? l = some content → p.Spares l t events →
      (events.foldl (Event.apply p) t).file? l = some content := by
  refine ⟨?_, ?_, ?_⟩
  · intro t path source values conversion output previous hread hvalues hconversion houtput
    exact conflict_iff hextension hread hvalues hconversion houtput
  · intro t path output previous hresult
    exact files_of_conflict hresult
  · intro t l content events hfile hspares
    exact file?_of_run hextension hfile hspares

/-- The path of the file of somebody else. -/
def guestPath : Path := ⟨".", ["Z.shader"]⟩

/-- The sample files with an output and with the file of somebody else. -/
def guestFiles (g : Generator) : FileTree :=
  (((sampleFiles "x" g).replaceFile sampleOutput "x").1.replaceFile guestPath "mine").1

/-- The generator after its first export, with the name that the file of somebody else has. -/
def guestNamed : Generator := { sampleExported "A.shader" ∅ with name := "Z" }

/-- An export that would move the last output onto the file of somebody else is refused, and a run
    with a first export beside this file leaves it alone. -/
theorem foreign_files_kept_sample :
    ((sampleProject "shader").exportGenerator (guestFiles guestNamed) sampleDocument).result =
        .error (.outputConflict sampleOutput guestPath) ∧
      ((sampleProject "shader").exportGenerator (guestFiles guestNamed) sampleDocument).files =
        guestFiles guestNamed ∧
      ([.created .here "B" "T", .exported sampleDocument].foldl
        (Event.apply (sampleProject "shader")) (guestFiles sampleGenerator)).file? ["Z.shader"] =
          some (.text "mine") := by
  obtain ⟨hrefused, hsame, hkept⟩ := foreign_files_kept (p := sampleProject "shader") (by decide)
  have hread : (sampleProject "shader").readForExport (guestFiles guestNamed) sampleDocument =
      .ok ⟨sampleDocument, guestNamed, "x", some (sampleOutput, "x")⟩ := by
    decide +kernel
  have hresult := (hrefused _ _ _ ∅ ⟨"x", ⟨0, 0, 0⟩⟩ guestPath sampleOutput hread
    (by decide +kernel) (by decide +kernel) (by decide +kernel)).mpr
      ⟨⟨"x", rfl⟩, by decide +kernel, by decide +kernel⟩
  refine ⟨hresult, hsame _ _ _ _ hresult, ?_⟩
  refine hkept _ _ _ _ (by decide +kernel) ⟨?_, ?_, trivial⟩
  · rintro ⟨hnew, -⟩
    exact hnew (.inr ⟨[], by decide +kernel⟩)
  · have hload : Generator.load (Event.apply (sampleProject "shader") (guestFiles sampleGenerator)
        (.created .here "B" "T")) sampleDocument = .ok sampleGenerator := by
      decide +kernel
    rintro (hdocument | ⟨hload', hlast, -⟩ | ⟨hload', -, houtput, h⟩)
    · exact absurd hdocument (by decide +kernel)
    · cases hload.symm.trans hload'
      cases hlast
    · cases hload.symm.trans hload'
      have hpath : sampleGenerator.outputPath sampleDocument.directory
          (sampleProject "shader").config.outputExtension = .ok sampleOutput := by
        decide +kernel
      cases hpath.symm.trans houtput
      exact absurd h (by decide +kernel)

/-- A first export takes the place of the file of somebody else, and so does one with a last output
    if its extension goes through a directory that is not there yet. -/
theorem foreign_file_replaced :
    (¬ ∀ (p : Project) (t : FileTree) (path output : Path) (g : Generator),
      HasNoSeparator p.config.outputExtension → Generator.load t path = .ok g →
      g.outputPath path.directory p.config.outputExtension = .ok output → t.isFile output = true →
      (∀ last, g.exportedPath path.directory = .ok (some last) → ¬ t.SameFile last output) →
      (p.exportGenerator t path).files = t) ∧
    ¬ ∀ (p : Project) (t : FileTree) (path last : Path) (g : Generator) (report : ExportReport)
        (l : Location) (content : Content),
      Generator.load t path = .ok g → g.exportedPath path.directory = .ok (some last) →
      t.isFile last = true → (p.exportGenerator t path).result = .ok report →
      (p.exportGenerator t path).files.locate report.output = .ok l → t.file? l = some content →
      t.locate last ≠ .ok l → (p.exportGenerator t path).files.file? l = some content := by
  constructor
  · intro h
    have hfiles := h (sampleProject "shader")
      ((sampleFiles "x" sampleGenerator).replaceFile sampleOutput "mine").1 sampleDocument
      sampleOutput sampleGenerator (by decide) (by decide +kernel) (by decide +kernel)
      (by decide +kernel) (fun last hlast => by cases hlast)
    have hafter : ((sampleProject "shader").exportGenerator
        ((sampleFiles "x" sampleGenerator).replaceFile sampleOutput "mine").1
          sampleDocument).files.readText sampleOutput = .ok "x" := by
      decide +kernel
    rw [hfiles] at hafter
    exact absurd hafter (by decide +kernel)
  · intro h
    have hkept := h (sampleProject "x/../Z.shader") (guestFiles (sampleExported "A.shader" ∅))
      sampleDocument sampleOutput (sampleExported "A.shader" ∅)
      ⟨sampleDocument, ⟨".", ["A.x", "..", "Z.shader"]⟩, "T", [], ⟨[], [], []⟩, some sampleOutput,
        ⟨0, 0, 0⟩⟩ ["Z.shader"] (.text "mine") (by decide +kernel) (by decide +kernel)
      (by decide +kernel) (by decide +kernel) (by decide +kernel) (by decide +kernel)
      (by decide +kernel)
    exact absurd hkept (by decide +kernel)

end Project

end ShaderTemplates
