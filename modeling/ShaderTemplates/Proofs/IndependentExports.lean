import ShaderTemplates.Proofs.FailedExports
import ShaderTemplates.Proofs.SameChanges

/-!
# Independent exports

An export looks at no more than its document, its last output, its output and the templates, and
changes no more than the first three and directories above them.  So an export has the same outcome
in every tree in which these are the same (`sameExport`), and exports of documents whose paths are
apart can be done in either order (`exports_commute`).

An extension with a slash in it can lead through a directory that is not there yet.  What becomes of
the export then depends on whether another one made this directory before (`exports_depend`).
-/

namespace ShaderTemplates

open FileTree Operation

namespace FileTree

open ShaderTemplates.Path

variable {t t' : FileTree} {p : Path}

-- ── What paths are about ─────────────────────────────────────────────────────

/-- One step of a path, whatever is there. -/
def stepTo (l : Location) (segment : String) : Location :=
  if isSilent segment then l else if segment = ".." then l.dropLast else l ++ [segment]

/-- The location that a path is about, whether or not it leads there yet. -/
def target (t : FileTree) (p : Path) : Location := (p.head :: p.tail).foldl stepTo (t.startOf p)

theorem target_of_walk {l k : Location} {segments : List String} (h : t.walk l segments = .ok k) :
    segments.foldl stepTo l = k := by
  induction segments generalizing l with
  | nil =>
      cases h
      rfl
  | cons s segments ih =>
      rw [walk] at h
      rw [List.foldl_cons, stepTo]
      split at h
      next => cases h
      next => cases h
      next =>
        split at h
        next hsilent =>
          rw [if_pos hsilent]
          exact ih h
        next hsilent =>
          rw [if_neg hsilent]
          split at h
          next hup =>
            rw [if_pos hup]
            exact ih h
          next hup =>
            rw [if_neg hup]
            split at h
            next => cases h
            next => exact ih h

theorem target_of_locate {l : Location} (h : t.locate p = .ok l) : t.target p = l :=
  target_of_walk (locate_eq_ok.mp h).2.2.2

theorem Keeps.target (h : t.Keeps t') (p : Path) : t'.target p = t.target p := by
  rw [FileTree.target, FileTree.target, h.startOf]

theorem foldl_stepTo_silent {segments : List String} (h : ∀ s ∈ segments, isSilent s = true)
    (l : Location) : segments.foldl stepTo l = l := by
  induction segments with
  | nil => rfl
  | cons s segments ih =>
      rw [List.foldl_cons, stepTo, if_pos (h s List.mem_cons_self)]
      exact ih fun s' hs' => h s' (List.mem_cons_of_mem _ hs')

theorem target_child (hp : p ≠ .empty) {name : String} (hname : IsStep name) :
    t.target (p.child name) = t.target p ++ [name] := by
  obtain ⟨head, tail⟩ := p
  obtain ⟨front, silent, rfl, hsilent, hchild⟩ := child_eq name hp
  rw [hchild, target, target, @startOf_child _ _ name _ _ hp]
  dsimp only
  rw [← List.cons_append, ← List.cons_append, List.foldl_append, List.foldl_append,
    foldl_stepTo_silent (isSilent_of_slash hsilent), List.foldl_cons, List.foldl_nil, stepTo,
    if_neg (by rw [hname.1]; exact Bool.false_ne_true), if_neg hname.2]

theorem target_children {names : List String} (hnames : ∀ name ∈ names, IsStep name)
    (hp : p ≠ .empty) : t.target (names.foldl child p) = t.target p ++ names := by
  induction names generalizing p with
  | nil => rw [List.foldl_nil, List.append_nil]
  | cons name names ih =>
      have hname := hnames name List.mem_cons_self
      rw [List.foldl_cons, ih (fun n hn => hnames n (List.mem_cons_of_mem _ hn))
        (p.child_ne_empty hname), target_child hp hname, List.append_assoc]
      rfl

-- ── What is seen along a path ────────────────────────────────────────────────

/-- A path below a directory is seen to lead to the same in a tree with more directories, if what it
    is about is the same. -/
theorem find?_children {names : List String} {dir : Path} (hkeep : t.Keeps t')
    (hnames : ∀ name ∈ names, IsStep name) (hdir : t.Reaches dir)
    (hsame : t'.get? (t.target (names.foldl child dir)) =
      t.get? (t.target (names.foldl child dir))) :
    t'.find? (names.foldl child dir) = t.find? (names.foldl child dir) := by
  rw [find?, find?]
  cases hlocate' : t'.locate (names.foldl child dir) with
  | error fault' =>
      cases hlocate : t.locate (names.foldl child dir) with
      | error fault => rfl
      | ok l => cases hlocate'.symm.trans (hkeep.locate hlocate)
  | ok l =>
      have hl : t.target (names.foldl child dir) = l := by
        rw [← hkeep.target, target_of_locate hlocate']
      rw [hl] at hsame
      cases hget : t.get? l with
      | none =>
          cases hlocate : t.locate (names.foldl child dir) with
          | error fault => exact hsame.trans hget
          | ok k =>
              cases hlocate'.symm.trans (hkeep.locate hlocate)
              exact hsame
      | some e =>
          rw [locate_children_before hkeep hnames hdir hlocate' (by rw [hget]; rintro ⟨⟩)]
          exact hsame

theorem isFile_congr (h : t'.find? p = t.find? p) : t'.isFile p = t.isFile p := by
  rw [isFile, isFile, h]

theorem holds_congr (h : t'.find? p = t.find? p) : t'.holds p = t.holds p := by
  rw [holds, holds, h]

theorem readText_iff_find? {text : String} :
    t.readText p = .ok text ↔ t.find? p = some (.file (.text text)) := by
  simp only [readText_eq_ok, find?_eq_some, file?_eq_some]

/-- What is seen as the same reads the same, or cannot be read in either tree. -/
theorem readText_congr (h : t'.find? p = t.find? p) :
    (∃ text, t.readText p = .ok text ∧ t'.readText p = .ok text) ∨
      ∃ fault fault', t.readText p = .error fault ∧ t'.readText p = .error fault' := by
  cases hread : t.readText p with
  | ok text =>
      rw [readText_iff_find?, ← h, ← readText_iff_find?] at hread
      exact .inl ⟨text, rfl, hread⟩
  | error fault =>
      cases hread' : t'.readText p with
      | error fault' => exact .inr ⟨fault, fault', rfl, rfl⟩
      | ok text =>
          rw [readText_iff_find?, h, ← readText_iff_find?] at hread'
          cases hread.symm.trans hread'

theorem lastOutput_congr {exported : Option Path}
    (h : ∀ last ∈ exported, t'.find? last = t.find? last) :
    lastOutput t' exported = lastOutput t exported := by
  cases exported with
  | none => rfl
  | some last =>
      have hsame := h last rfl
      rw [lastOutput, lastOutput, Option.filter_some, Option.filter_some, isFile_congr hsame]
      cases t.isFile last with
      | false => rfl
      | true =>
          rw [if_pos rfl]
          dsimp only
          rcases readText_congr hsame with ⟨text, hread, hread'⟩ | ⟨fault, fault', hread, hread'⟩
          · rw [hread, hread']
          · rw [hread, hread']

end FileTree

theorem Generator.load_congr {t t' : FileTree} {path : Path} (h : t'.find? path = t.find? path) :
    Generator.load t' path = Generator.load t path := by
  rw [load, load, isFile_congr h]
  rcases readText_congr h with ⟨text, hread, hread'⟩ | ⟨fault, fault', hread, hread'⟩
  · rw [hread, hread']
  · rw [hread, hread']

namespace Catalog

variable {t t' : FileTree} {dir : Path} {extension : String} {m : Location}

/-- A file directly inside of the directory can be read in both trees, or in neither. -/
theorem readText_child (hlocate : t.locate dir = .ok m) (hkeep : t.Keeps t')
    (hfiles : t.SameFilesBelow t' m) (fileName text : String) :
    t'.readText (dir.child fileName) = .ok text ↔ t.readText (dir.child fileName) = .ok text := by
  have hdir : dir ≠ .empty := (locate_eq_ok.mp hlocate).1
  have hplace : ∀ {w : FileTree} {l : Location}, w.locate dir = .ok m →
      w.locate (dir.child fileName) = .ok l → w.file? l = some (.text text) →
      Path.IsStep fileName ∧ l = m ++ [fileName] := by
    intro w l hw hl hfile
    have hstep := isStep_of_locate_child hdir hl (not_directory_of_file? hfile)
    obtain ⟨k, hk, -, rfl⟩ := locate_child hdir hstep hl
    cases hw.symm.trans hk
    exact ⟨hstep, rfl⟩
  rw [readText_eq_ok, readText_eq_ok]
  constructor
  · rintro ⟨l, hl, hfile⟩
    obtain ⟨hstep, rfl⟩ := hplace (hkeep.locate hlocate) hl hfile
    rw [hfiles _ (List.prefix_append m _)] at hfile
    exact ⟨_, locate_child_before hkeep (.inr ⟨m, hlocate⟩) hstep hl (get?_ne_none_of_file? hfile),
      hfile⟩
  · rintro ⟨l, hl, hfile⟩
    obtain ⟨-, rfl⟩ := hplace hlocate hl hfile
    rw [← hfiles _ (List.prefix_append m _)] at hfile
    exact ⟨_, hkeep.locate hl, hfile⟩

/-- A template reads the same in two trees with the same files in the directory of the templates. -/
theorem read_congr {t₀ : FileTree} {c : Catalog} (hload : load t₀ dir extension = .ok c)
    (hlocate : t.locate dir = .ok m) (hkeep : t.Keeps t') (hfiles : t.SameFilesBelow t' m)
    (name : String) : c.read t' name = c.read t name := by
  rw [read, read]
  cases hget : c.templates.get? name with
  | none => rfl
  | some path =>
      obtain ⟨-, rfl⟩ := path_of_load hload hget
      dsimp only
      have hread := readText_child hlocate hkeep hfiles (name ++ "." ++ extension)
      cases hbefore : t.readText (dir.child (name ++ "." ++ extension)) with
      | ok text => rw [(hread text).mpr hbefore]
      | error fault =>
          cases hafter : t'.readText (dir.child (name ++ "." ++ extension)) with
          | ok text => cases hbefore.symm.trans ((hread text).mp hafter)
          | error fault' => rfl

end Catalog

-- ── Places ───────────────────────────────────────────────────────────────────

namespace Project

/-- What the paths of a document are about: the document, the last output that it records, and its
    output. -/
def places (p : Project) (t : FileTree) (path : Path) : List Location :=
  t.target path ::
    match Generator.load t path with
    | .error _ => []
    | .ok g =>
      ((g.exportedPath path.directory).toOption.join.toList ++
        (g.outputPath path.directory p.config.outputExtension).toOption.toList).map t.target

/-- The paths of two documents are apart, and they are about nothing in the directory of the
    templates. -/
structure Independent (p : Project) (t : FileTree) (path other : Path) : Prop where
  apart : Apart (p.places t path) (p.places t other)
  outside : ∀ dir, p.templatesDirectory = .ok dir →
    ∀ l ∈ p.places t path ++ p.places t other, t.target dir <+: l → l = t.target dir

variable {p : Project} {t t' : FileTree} {path other : Path} {g : Generator}

theorem Independent.symm (h : p.Independent t path other) : p.Independent t other path := by
  refine ⟨h.apart.symm, ?_⟩
  intro dir hdir l hl
  exact h.outside dir hdir l (List.mem_append.mpr (List.mem_append.mp hl).symm)

theorem document_mem_places (p : Project) (t : FileTree) (path : Path) :
    t.target path ∈ p.places t path := List.mem_cons_self

theorem output_mem_places (hload : Generator.load t path = .ok g) {output : Path}
    (h : g.outputPath path.directory p.config.outputExtension = .ok output) :
    t.target output ∈ p.places t path := by
  rw [places, hload]
  dsimp only
  rw [h]
  exact List.mem_cons_of_mem _
    (List.mem_map_of_mem (List.mem_append_right _ (List.mem_singleton_self _)))

theorem last_mem_places (hload : Generator.load t path = .ok g) {last : Path}
    (h : g.exportedPath path.directory = .ok (some last)) : t.target last ∈ p.places t path := by
  rw [places, hload]
  dsimp only
  rw [h]
  exact List.mem_cons_of_mem _
    (List.mem_map_of_mem (List.mem_append_left _ (List.mem_singleton_self _)))

-- ── The same view ────────────────────────────────────────────────────────────

/-- An export of a document with these places finds the same in both trees. -/
structure SameView (p : Project) (t t' : FileTree) (places : List Location) : Prop where
  keeps : t.Keeps t'
  alike : t.Alike t' places
  catalog : p.selectableCatalog t' = p.selectableCatalog t
  template : ∀ catalog name, p.selectableCatalog t = .ok catalog →
    catalog.read t' name = catalog.read t name

theorem SameView.refl (p : Project) (t : FileTree) (places : List Location) :
    p.SameView t t places := ⟨.refl t, .refl t places, rfl, fun _ _ _ => rfl⟩

theorem locate_document (h : t.isFile path = true) :
    ∃ m name content, t.locate path = .ok (m ++ [name]) ∧ t.file? (m ++ [name]) = some content ∧
      t.locate path.directory = .ok m ∧ t.get? m = some .directory := by
  obtain ⟨l, content, hl, hcontent⟩ := isFile_iff.mp h
  obtain ⟨m, name, -, rfl, hm, hdir⟩ := locate_directory hl (not_directory_of_file? hcontent)
  exact ⟨m, name, content, hl, hcontent, hm, hdir⟩

namespace SameView

theorem find?_document (h : p.SameView t t' (p.places t path)) (hfile : t.isFile path = true) :
    t'.find? path = t.find? path := by
  obtain ⟨m, name, content, hl, -⟩ := locate_document hfile
  have hmem := p.document_mem_places t path
  rw [target_of_locate hl] at hmem
  rw [FileTree.find?, FileTree.find?, hl, h.keeps.locate hl]
  exact h.alike.entries _ hmem

theorem find?_last (h : p.SameView t t' (p.places t path)) (hfile : t.isFile path = true)
    (hload : Generator.load t path = .ok g) {last : Path}
    (hlast : g.exportedPath path.directory = .ok (some last)) : t'.find? last = t.find? last := by
  obtain ⟨m, -, -, -, -, hm, -⟩ := locate_document hfile
  have hsame := h.alike.entries _ (last_mem_places hload hlast)
  obtain ⟨names, name, hsteps, rfl⟩ := Generator.exportedPath_children hlast
  exact find?_children h.keeps hsteps (.inr ⟨m, hm⟩) hsame

theorem find?_output (hslash : '/' ∉ p.config.outputExtension.toList)
    (h : p.SameView t t' (p.places t path)) (hfile : t.isFile path = true)
    (hload : Generator.load t path = .ok g) {output : Path}
    (houtput : g.outputPath path.directory p.config.outputExtension = .ok output) :
    t'.find? output = t.find? output := by
  obtain ⟨m, -, -, -, -, hm, -⟩ := locate_document hfile
  have hsame := h.alike.entries _ (output_mem_places hload houtput)
  obtain ⟨names, name, hsteps, rfl⟩ := Generator.outputPath_children hslash houtput
  exact find?_children h.keeps hsteps (.inr ⟨m, hm⟩) hsame

/-- An export reads the same in both trees. -/
theorem readForExport (h : p.SameView t t' (p.places t path)) (hfile : t.isFile path = true) :
    p.readForExport t' path = p.readForExport t path := by
  rw [readForExport_eq, readForExport_eq, Generator.load_congr (h.find?_document hfile), h.catalog]
  refine bind_congr_ok ?_
  intro g hload
  refine bind_congr_ok ?_
  intro catalog hcatalog
  refine bind_congr_ok ?_
  intro template _
  rw [h.template catalog template hcatalog]
  refine bind_congr_ok ?_
  intro templateText _
  refine bind_congr_ok ?_
  intro exported hexported
  rw [lastOutput_congr fun last hlast => h.find?_last hfile hload (hlast ▸ hexported)]

/-- An export comes to the same plan in both trees. -/
theorem plan (hslash : '/' ∉ p.config.outputExtension.toList)
    (h : p.SameView t t' (p.places t path)) (hfile : t.isFile path = true)
    {source : ExportSource} (hread : p.readForExport t path = .ok source) :
    source.plan p.config t' = source.plan p.config t := by
  obtain ⟨g, _, template, _, exported, previous?, hload, -, -, -, -, -, rfl⟩ :=
    readForExport_eq_ok.mp hread
  rw [ExportSource.plan_eq, ExportSource.plan_eq]
  refine bind_congr_ok ?_
  intro values _
  refine bind_congr_ok ?_
  intro conversion _
  refine bind_congr_ok ?_
  intro output houtput
  rw [ExportSource.recorded_outputPath] at houtput
  rw [ExportSource.settle, ExportSource.settle,
    holds_congr (h.find?_output hslash hfile hload houtput)]

end SameView

-- ── The same export ──────────────────────────────────────────────────────────

/-- Two outcomes are the same but for what else is in the trees. -/
structure SameExport (t t' : FileTree) (places : List Location)
    (outcome outcome' : Outcome ExportReport) : Prop where
  result : outcome'.result = outcome.result
  warnings : outcome'.warnings = outcome.warnings
  change : t.SameChange outcome.files t' outcome'.files places

/-- A document is still a file after its output was written. -/
theorem file?_of_written {u : FileTree} {output : Path} {text : String} {l : Location}
    {content : Content} (hrun : run t (.write output text) = (u, .ok ()))
    (hl : t.file? l = some content) : ∃ content', u.file? l = some content' := by
  obtain ⟨o, hstands, -, hfiles⟩ := stands_of_replaceFile (run_write_eq_ok.mp hrun).1
  by_cases ho : l = o
  · exact ⟨_, ho ▸ hstands.content⟩
  · exact ⟨content, (hfiles l ho).trans hl⟩

/-- What a plan does is the same in both trees. -/
theorem sameRun_plan (hslash : '/' ∉ p.config.outputExtension.toList)
    (h : p.SameView t t' (p.places t path)) (hfile : t.isFile path = true)
    {source : ExportSource} {plan : ExportPlan} (hread : p.readForExport t path = .ok source)
    (hplan : source.plan p.config t = .ok plan) :
    SameRun t t' (p.places t path) (runAll t plan.operations) (runAll t' plan.operations) := by
  obtain ⟨rfl, g, hload, houtput, hrenamed⟩ := paths_of_plan hread hplan
  obtain ⟨m, s, content, hdocument, hcontent, hm, hdir⟩ := locate_document hfile
  have hmem := p.document_mem_places t plan.document
  rw [target_of_locate hdocument] at hmem
  obtain ⟨names, name, hsteps, hchildren⟩ := Generator.outputPath_children hslash houtput
  have hmemOutput : m ++ names ++ [name] ∈ p.places t plan.document := by
    have htarget := output_mem_places hload houtput
    rwa [hchildren, target_children hsteps plan.document.directory_ne_empty, target_of_locate hm,
      ← List.append_assoc] at htarget
  -- the output
  have hwrite : SameRun t t' (p.places t plan.document)
      (run t (.write plan.output plan.conversion.text))
      (run t' (.write plan.output plan.conversion.text)) := by
    rw [hchildren]
    exact sameRun_write_children h.alike h.keeps hm hdir hsteps hmemOutput
  refine .runAll_cons hwrite ?_
  intro u u' hrun hwritten
  have halike := hwritten.alike h.alike
  obtain ⟨saved, hsaved⟩ := file?_of_written hrun hcontent
  -- the document
  refine .runAll_cons (sameRun_write_file halike hmem (hwritten.keeps.locate hdocument)
    (hwritten.keeps'.locate (h.keeps.locate hdocument)) hsaved) ?_
  intro v v' _ hchange
  -- the last output
  cases hprevious : plan.renamedFrom with
  | none => exact .unchanged _
  | some previous =>
      obtain ⟨hlast, hisFile⟩ := hrenamed previous hprevious
      obtain ⟨l, -, hl, -⟩ := isFile_iff.mp hisFile
      have hmemLast : l ∈ p.places t plan.document :=
        target_of_locate hl ▸ last_mem_places hload hlast
      have hall := hwritten.trans hchange
      exact .runAll_cons (sameRun_remove (hchange.alike halike) hmemLast (hall.keeps.locate hl)
        (hall.keeps'.locate (h.keeps.locate hl))) fun w w' _ _ => .unchanged _

/-- Where an export finds the same, it has the same outcome. -/
theorem sameExport (hslash : '/' ∉ p.config.outputExtension.toList)
    (h : p.SameView t t' (p.places t path)) (hfile : t.isFile path = true) :
    SameExport t t' (p.places t path) (p.exportGenerator t path) (p.exportGenerator t' path) := by
  have hread' := h.readForExport hfile
  cases hread : p.readForExport t path with
  | error e =>
      rw [hread] at hread'
      rw [exportGenerator, exportGenerator, hread, hread']
      exact ⟨rfl, rfl, .refl t t' _⟩
  | ok source =>
      rw [hread] at hread'
      have hplan' := h.plan hslash hfile hread
      cases hplan : source.plan p.config t with
      | error e =>
          rw [hplan] at hplan'
          rw [exportGenerator, exportGenerator, hread, hread']
          dsimp only
          rw [hplan, hplan']
          exact ⟨rfl, rfl, .refl t t' _⟩
      | ok plan =>
          rw [hplan] at hplan'
          obtain ⟨hresult, hchange⟩ := sameRun_plan hslash h hfile hread hplan
          rw [exportGenerator_eq hread hplan, exportGenerator_eq hread' hplan']
          exact ⟨by rw [hresult], rfl, hchange⟩

-- ── Independent exports ──────────────────────────────────────────────────────

/-- An export that changes something found the directory of the templates. -/
theorem templates_of_changed (h : (p.exportGenerator t path).files ≠ t) :
    ∃ dir m, p.templatesDirectory = .ok dir ∧ t.locate dir = .ok m ∧
      t.get? m = some .directory := by
  rcases p.files_of_exportGenerator t path with hsame | ⟨source, plan, hread, -, -⟩
  · exact absurd hsame h
  obtain ⟨g, catalog, template, text, -, -, -, hcatalog, -⟩ := readForExport_eq_ok.mp hread
  obtain ⟨dir, hdir, hload, hsome⟩ := selectableCatalog_eq_ok.mp hcatalog
  obtain ⟨m, hm, hdirectory, -⟩ := Catalog.load_of_not_isEmpty hload hsome
  exact ⟨dir, m, hdir, hm, hdirectory⟩

/-- A change outside of the directory of the templates leaves the templates as they are. -/
theorem sameFilesBelow_of_change {u : FileTree} {places : List Location} {m : Location}
    (h : t.SameChange u t u places) (hm : t.get? m = some .directory)
    (houtside : ∀ l ∈ places, m <+: l → l = m) : t.SameFilesBelow u m := by
  intro k hk
  by_cases hkm : k = m
  · subst hkm
    rw [file?_of_directory hm, file?_of_directory (h.keeps.directory k hm)]
  · refine file?_congr (h.entries_of_apart fun l hl hkl => hkm ?_)
    have hlm := houtside l hl (hk.trans hkl)
    exact (hlm ▸ hkl).eq_of_length_le hk.length_le

/-- After an export, an independent one finds what it would have found before. -/
theorem Independent.sameView (hslash : '/' ∉ p.config.outputExtension.toList)
    (h : p.Independent t path other) (hfile : t.isFile other = true) :
    p.SameView t (p.exportGenerator t other).files (p.places t path) := by
  by_cases hsame : (p.exportGenerator t other).files = t
  · rw [hsame]
    exact .refl p t _
  obtain ⟨dir, m, hdir, hm, hdirectory⟩ := templates_of_changed hsame
  have hchange := (sameExport hslash (.refl p t _) hfile).change
  have hfiles := sameFilesBelow_of_change hchange hdirectory fun l hl hml => by
    rw [← target_of_locate hm] at hml ⊢
    exact h.outside dir hdir l (List.mem_append_right _ hl) hml
  have hkeep := hchange.keeps
  have hload := Catalog.load_congr hm (hkeep.locate hm) hkeep.process
    (iff_of_true (hkeep.directory m hdirectory) hdirectory)
    (fun k hk => congrArg Option.isSome (hfiles k hk)) p.config.templatesExtension
  refine ⟨hkeep, hchange.alike_of_apart h.apart.symm, ?_, ?_⟩
  · simp only [selectableCatalog, catalog, hdir, ok_bind, hload]
  · intro catalog name hcatalog
    obtain ⟨dir', hdir', hlist, -⟩ := selectableCatalog_eq_ok.mp hcatalog
    cases hdir.symm.trans hdir'
    exact Catalog.read_congr hlist hm hkeep hfiles name

/-- Two exports of independent documents can be done in either order: each has the outcome that it
    has alone, and the files are the same in the end. -/
theorem exports_commute (hslash : '/' ∉ p.config.outputExtension.toList)
    (hpath : t.isFile path = true) (hother : t.isFile other = true)
    (h : p.Independent t path other) :
    (p.exportGenerator (p.exportGenerator t path).files other).result =
        (p.exportGenerator t other).result ∧
      (p.exportGenerator (p.exportGenerator t path).files other).warnings =
        (p.exportGenerator t other).warnings ∧
      (p.exportGenerator (p.exportGenerator t other).files path).result =
        (p.exportGenerator t path).result ∧
      (p.exportGenerator (p.exportGenerator t other).files path).warnings =
        (p.exportGenerator t path).warnings ∧
      (p.exportGenerator (p.exportGenerator t path).files other).files =
        (p.exportGenerator (p.exportGenerator t other).files path).files := by
  have hfirst := sameExport hslash (h.sameView hslash hother) hpath
  have hsecond := sameExport hslash (h.symm.sameView hslash hpath) hother
  exact ⟨hsecond.result, hsecond.warnings, hfirst.result, hfirst.warnings,
    hfirst.change.commute hsecond.change h.apart⟩

/-- The path of a document for a second generator. -/
def secondDocument : Path := ⟨"C.gen.toml", []⟩

/-- The sample files with a second generator, of which the last output has another name. -/
def movingFiles (first : Generator) (last : String) : FileTree :=
  let t := ((sampleFiles "x" first).replaceFile secondDocument
    { sampleGenerator with name := "C", exported := some last }.write).1
  (t.replaceFile ⟨".", [last]⟩ "x").1

/-- Files for an export that makes a directory and one that renames its output. -/
def independentFiles : FileTree := movingFiles directedGenerator "Old.shader"

/-- Both exports can be done first; in the end the last output of the second one is gone. -/
theorem exports_commute_sample :
    ((sampleProject "shader").exportGenerator ((sampleProject "shader").exportGenerator
        independentFiles sampleDocument).files secondDocument).result =
      ((sampleProject "shader").exportGenerator independentFiles secondDocument).result ∧
    ((sampleProject "shader").exportGenerator ((sampleProject "shader").exportGenerator
        independentFiles sampleDocument).files secondDocument).files =
      ((sampleProject "shader").exportGenerator ((sampleProject "shader").exportGenerator
        independentFiles secondDocument).files sampleDocument).files ∧
    ((sampleProject "shader").exportGenerator ((sampleProject "shader").exportGenerator
        independentFiles sampleDocument).files secondDocument).files.get? ["Old.shader"] =
      none := by
  have hindependent : (sampleProject "shader").Independent independentFiles sampleDocument
      secondDocument := by
    refine ⟨by decide +kernel, ?_⟩
    intro dir hdir
    cases (sampleProject_templatesDirectory "shader").symm.trans hdir
    decide +kernel
  obtain ⟨hsecond, -, -, -, hfiles⟩ :=
    exports_commute (by decide) (by decide +kernel) (by decide +kernel) hindependent
  exact ⟨hsecond, hfiles, by decide +kernel⟩

/-- With an extension that leads through a directory, a file of somebody else is in the way of the
    second export if the first one made this directory, and is replaced if it did not. -/
theorem exports_depend :
    ¬ ∀ (p : Project) (t : FileTree) (path other : Path), t.isFile path = true →
      t.isFile other = true → p.Independent t path other →
      (p.exportGenerator (p.exportGenerator t path).files other).result =
          (p.exportGenerator t other).result ∧
        (p.exportGenerator (p.exportGenerator t other).files path).result =
          (p.exportGenerator t path).result ∧
        (p.exportGenerator (p.exportGenerator t path).files other).files =
          (p.exportGenerator (p.exportGenerator t other).files path).files := by
  intro h
  obtain ⟨hresult, -⟩ := h (sampleProject "x/../B")
    ((movingFiles { sampleGenerator with outputDir := some "C.x" } "Old").replaceFile
      ⟨"B", []⟩ "mine").1
    sampleDocument secondDocument (by decide +kernel) (by decide +kernel) (by
      refine ⟨by decide +kernel, ?_⟩
      intro dir hdir
      cases (sampleProject_templatesDirectory "x/../B").symm.trans hdir
      decide +kernel)
  exact absurd hresult (by decide +kernel)

end Project

end ShaderTemplates
