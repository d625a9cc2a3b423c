import ShaderTemplates.Proofs.Exports
import ShaderTemplates.Proofs.GeneratorDocuments

/-!
# Documents that were saved

What is written to a file is what is read from it afterwards.  A generator is read back whatever
its texts hold.  A configuration is read back if its extensions pass the check: writing does not
check them, and reading does (`Config.parse_write`).
-/

namespace ShaderTemplates

open Toml FileTree

namespace Config

/-- The sections of a configuration file. -/
def sections (c : Config) : List WrittenSection :=
  [⟨"project", [("name", .text c.name)]⟩,
    ⟨"templates", [("dir", .text c.templatesDir), ("extension", .text c.templatesExtension)]⟩,
    ⟨"output", [("extension", .text c.outputExtension)]⟩,
    ⟨"constants", textEntries c.constants⟩]

theorem parse?_sections (c : Config) :
    Toml.parse? c.write = some (c.sections.map WrittenSection.table) := by
  refine parse?_writeDocument c.sections ?_ (by simp [sections]) ?_
  · intro s hs
    simp only [sections, List.mem_cons, List.not_mem_nil, or_false] at hs
    rcases hs with rfl | rfl | rfl | rfl
    · exact (by decide : IsBareName "project")
    · exact (by decide : IsBareName "templates")
    · exact (by decide : IsBareName "output")
    · exact (by decide : IsBareName "constants")
  · intro s hs
    simp only [sections, List.mem_cons, List.not_mem_nil, or_false] at hs
    rcases hs with rfl | rfl | rfl | rfl
    · simp
    · simp
    · simp
    · rw [textEntries, List.map_map]
      exact c.constants.nodup_keys

theorem ofEntries?_sections (c : Config) :
    ofEntries? (c.sections.map WrittenSection.table) = some c := by
  have htext : ∀ s : String, Value.text? (.string s) = some s := fun _ => rfl
  have hconstants : textTable? (c.sections.map WrittenSection.table) "constants" =
      some c.constants :=
    tableOf?_written htext (by
      rw [← map_value_textEntries]
      rfl)
  rw [ofEntries?]
  rw [hconstants]
  rfl

/-- Reading a configuration that was written comes down to the check of its extensions. -/
theorem parse_write (c : Config) : parse c.write = c.validate := by
  rw [parse, parse?_sections, Option.bind_some, ofEntries?_sections]

theorem validate_eq_ok {c : Config} (htemplates : isExtension c.templatesExtension = true)
    (houtput : isExtension c.outputExtension = true) : c.validate = .ok c := by
  rw [validate, htemplates, houtput]
  rfl

end Config

/-- A text that was written is read from the same path. -/
theorem FileTree.readText_of_writeFile {t t' : FileTree} {path : Path} {text : String}
    (h : t.writeFile path (.text text) = .ok t') : t'.readText path = .ok text := by
  obtain ⟨l, hlocate, -, hkeep, hfiles⟩ := writeFile_eq_ok h
  exact readText_eq_ok.mpr ⟨l, hkeep.locate hlocate, by rw [hfiles, if_pos rfl]⟩

/-- A generator that was saved is loaded again as it was, whatever texts it holds and wherever it
    was saved.  So is the project of a configuration that was written, provided that neither
    extension is empty or starts with a dot. -/
theorem saved_documents_load :
    (∀ (t t' : FileTree) (path : Path) (g : Generator),
      (Operation.write path g.write).run t = (t', .ok ()) → Generator.load t' path = .ok g) ∧
    ∀ (t t' : FileTree) (p : Project), Config.isExtension p.config.templatesExtension = true →
      Config.isExtension p.config.outputExtension = true →
      t.writeFile p.configPath (.text p.config.write) = .ok t' →
      Project.load t' p.root = .ok p := by
  constructor
  · intro t t' path g hsave
    obtain ⟨l, hstands, -⟩ := stands_of_replaceFile (Operation.run_write_eq_ok.mp hsave).1
    exact Generator.load_of_stands hstands (Generator.parse?_write g)
  · intro t t' p htemplates houtput hwrite
    have hread : t'.readText (Project.configPathIn p.root) = .ok p.config.write :=
      readText_of_writeFile hwrite
    rw [Project.load, hread, mapError_ok, ok_bind, Config.parse_write,
      Config.validate_eq_ok htemplates houtput, ok_bind]
    rfl

/-- Texts that no short form of a quoted text can show: both kinds of quotes three times in a row,
    a backslash, line breaks of both kinds and control characters. -/
def quotedText : String := "\n'''\"\"\"\\\r\n\t\x00\x7f"

/-- A generator that holds such texts as its names, its paths, its keys and its values. -/
def quotedGenerator : Generator where
  name := quotedText
  template := ""
  outputDir := some "\r"
  exported := some quotedText
  values := (((∅ : Template.Values).setCondition quotedText true).setBlock "" quotedText).setVariable
    "a.b" "\n"

/-- The path that it is saved at; the directory is missing. -/
def quotedDocument : Path := .ofString "dir/A.gen.toml"

/-- A project whose configuration holds such texts. -/
def quotedProject : Project where
  root := .ofString "."
  config := {
    name := quotedText
    templatesExtension := "\n."
    outputExtension := quotedText
    constants := (∅ : Table String).insert quotedText "" }

theorem saved_documents_load_sample :
    Generator.load ((Operation.write quotedDocument quotedGenerator.write).run ∅).1
        quotedDocument = .ok quotedGenerator ∧
      ∃ t', FileTree.writeFile ∅ quotedProject.configPath (.text quotedProject.config.write) =
          .ok t' ∧ Project.load t' quotedProject.root = .ok quotedProject := by
  obtain ⟨hgenerators, hprojects⟩ := saved_documents_load
  refine ⟨hgenerators ∅ _ quotedDocument quotedGenerator (Prod.ext rfl ?_), ?_⟩
  · decide +kernel
  · have hwritten : ∃ t', FileTree.writeFile ∅ quotedProject.configPath
        (.text quotedProject.config.write) = .ok t' := ⟨_, rfl⟩
    obtain ⟨t', ht'⟩ := hwritten
    exact ⟨t', ht', hprojects ∅ t' quotedProject (by decide) (by decide) ht'⟩

end ShaderTemplates
