import ShaderTemplates.Generator
import ShaderTemplates.Proofs.WrittenDocuments

/-!
# Generators in documents

A generator is read from its document as it was written (`parse?_write`): its names and paths are
fields of the first section, and each table of values is one of the sections after it.
-/

namespace ShaderTemplates

open Toml

namespace Toml

/-- A table is read back if each of its values is. -/
theorem tableOf?_written {α : Type} {read? : Value → Option α} {written : α → Value}
    (hread : ∀ a, read? (written a) = some a) {document : Entries} {name : String}
    {table : Table α}
    (hlookup : document.lookup name =
      some (.table .header (table.entries.map fun e => (e.1, written e.2)))) :
    tableOf? read? document name = some table := by
  have hentries : ∀ entries : List (String × α),
      (entries.map fun e => (e.1, written e.2)).mapM
        (fun e => (read? e.2).map fun a => (e.1, a)) = some entries := by
    intro entries
    induction entries with
    | nil => rfl
    | cons e entries ih =>
        rw [List.map_cons, List.mapM_cons, hread, ih]
        rfl
  rw [tableOf?, hlookup]
  show Option.bind (List.mapM _ _) _ = _
  rw [hentries]
  show some (SortedMap.ofList table.entries) = _
  rw [SortedMap.ofList_entries]

theorem map_value_flagEntries (table : Table Bool) :
    (flagEntries table).map (fun e => (e.1, e.2.value)) =
      table.entries.map fun e => (e.1, Value.boolean e.2) := by
  rw [flagEntries, List.map_map]
  rfl

theorem map_value_textEntries (table : Table String) :
    (textEntries table).map (fun e => (e.1, e.2.value)) =
      table.entries.map fun e => (e.1, Value.string e.2) := by
  rw [textEntries, List.map_map]
  rfl

end Toml

namespace Generator

/-- The sections of a generator document. -/
def sections (g : Generator) : List WrittenSection :=
  [⟨"shader",
      [("name", .text g.name), ("template", .text g.template)] ++
        optionalEntry "output_dir" g.outputDir ++ optionalEntry "exported" g.exported⟩,
    ⟨"conditions", flagEntries g.values.conditions⟩,
    ⟨"variables", textEntries g.values.vars⟩,
    ⟨"blocks", textEntries g.values.blocks⟩]

theorem parse?_sections (g : Generator) :
    Toml.parse? g.write = some (g.sections.map WrittenSection.table) := by
  refine parse?_writeDocument g.sections ?_ (by simp [sections]) ?_
  · intro s hs
    simp only [sections, List.mem_cons, List.not_mem_nil, or_false] at hs
    rcases hs with rfl | rfl | rfl | rfl
    · exact (by decide : IsBareName "shader")
    · exact (by decide : IsBareName "conditions")
    · exact (by decide : IsBareName "variables")
    · exact (by decide : IsBareName "blocks")
  · intro s hs
    simp only [sections, List.mem_cons, List.not_mem_nil, or_false] at hs
    rcases hs with rfl | rfl | rfl | rfl
    · cases g.outputDir <;> cases g.exported <;> simp [optionalEntry]
    · rw [flagEntries, List.map_map]
      exact g.values.conditions.nodup_keys
    · rw [textEntries, List.map_map]
      exact g.values.vars.nodup_keys
    · rw [textEntries, List.map_map]
      exact g.values.blocks.nodup_keys

/-- A generator document gives the generator that it was written for. -/
theorem parse?_write (g : Generator) : parse? g.write = some g := by
  have htext : ∀ s : String, Value.text? (.string s) = some s := fun _ => rfl
  have hflag : ∀ b : Bool, Value.flag? (.boolean b) = some b := fun _ => rfl
  have hvalues : Template.Values.ofEntries? (g.sections.map WrittenSection.table) =
      some g.values := by
    have hconditions : flagTable? (g.sections.map WrittenSection.table) "conditions" =
        some g.values.conditions :=
      tableOf?_written hflag (by
        rw [← map_value_flagEntries]
        rfl)
    have hblocks : textTable? (g.sections.map WrittenSection.table) "blocks" =
        some g.values.blocks :=
      tableOf?_written htext (by
        rw [← map_value_textEntries]
        rfl)
    have hvars : textTable? (g.sections.map WrittenSection.table) "variables" =
        some g.values.vars :=
      tableOf?_written htext (by
        rw [← map_value_textEntries]
        rfl)
    rw [Template.Values.ofEntries?, hconditions, hblocks, hvars]
    rfl
  rw [parse?, parse?_sections]
  show ofEntries? _ = _
  rw [ofEntries?]
  rw [hvalues]
  obtain ⟨name, template, outputDir, exported, values⟩ := g
  cases outputDir <;> cases exported <;> rfl

end Generator

end ShaderTemplates
