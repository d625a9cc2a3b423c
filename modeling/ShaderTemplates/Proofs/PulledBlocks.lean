import ShaderTemplates.Proofs.Directives
import ShaderTemplates.Proofs.Exports
import ShaderTemplates.Proofs.SettledGenerators

/-!
# Bodies that are pulled

The blocks that a text shows have distinct names, so each body that is edited in an output is the
one that pulling stores (`get?_pull`), and pulling gives each stored block the body that the output
shows for it (`get?_blocks_pull`).  Then nothing is left to pull (`editedBlocks_pull`).  Neither
syncing the generator nor recording the fixed values changes a pulled body any more, so an export
saves each body that it pulled (`get?_recorded`).
-/

namespace ShaderTemplates

open Template FileTree

namespace Generator

theorem nodup_editedBlocks (g : Generator) (output : String) :
    ((g.editedBlocks output).map (·.1)).Nodup :=
  (scan output).blocks.nodup.sublist (List.filter_sublist.map _)

/-- An edited body is stored by pulling it. -/
theorem get?_pull {g : Generator} {output : String} {e : String × String}
    (h : e ∈ g.editedBlocks output) : (g.pull output).values.blocks.get? e.1 = some e.2 := by
  show ((SortedMap.ofList (g.editedBlocks output)).orElse g.values.blocks).get? e.1 = _
  rw [SortedMap.get?_orElse, SortedMap.get?_ofList_of_mem (g.nodup_editedBlocks output) h,
    Option.some_or]

/-- Pulling gives each stored block the body that the output shows for it, if it shows one. -/
theorem get?_blocks_pull (g : Generator) (output name : String) :
    (g.pull output).values.blocks.get? name = (g.values.blocks.get? name).map fun stored =>
      ((scan output).blocks.get? name).getD stored := by
  cases hedited : (SortedMap.ofList (g.editedBlocks output)).get? name with
  | some body =>
      have hmem := SortedMap.mem_of_get?_ofList hedited
      obtain ⟨hshown, stored, hstored, -⟩ := mem_editedBlocks.mp hmem
      have hbody : (scan output).blocks.get? name = some body :=
        SortedMap.lookup_of_mem (scan output).blocks.nodup hshown
      rw [get?_pull hmem, hstored, Option.map_some, hbody, Option.getD_some]
  | none =>
      have hkept : (g.pull output).values.blocks.get? name = g.values.blocks.get? name := by
        show ((SortedMap.ofList (g.editedBlocks output)).orElse g.values.blocks).get? name = _
        rw [SortedMap.get?_orElse, hedited, Option.none_or]
      rw [hkept]
      cases hstored : g.values.blocks.get? name with
      | none => rfl
      | some stored =>
          cases hshown : (scan output).blocks.get? name with
          | none => rfl
          | some body =>
              -- a shown body that differs would be edited
              rw [Option.map_some, Option.getD_some]
              refine congrArg some (Classical.not_not.mp fun hne => ?_)
              have hpulled := SortedMap.get?_ofList_of_mem (g.nodup_editedBlocks output)
                (mem_editedBlocks.mpr ⟨SortedMap.mem_of_lookup hshown, stored, hstored, hne⟩)
              cases hedited.symm.trans hpulled

/-- Nothing is left to pull after the bodies were pulled. -/
theorem editedBlocks_pull (g : Generator) (output : String) :
    (g.pull output).editedBlocks output = [] := by
  refine editedBlocks_eq_nil.mpr fun e he stored hstored => ?_
  have hbody : (scan output).blocks.get? e.1 = some e.2 :=
    SortedMap.lookup_of_mem (scan output).blocks.nodup he
  rw [get?_blocks_pull, hbody] at hstored
  obtain ⟨_, -, rfl⟩ := Option.map_eq_some_iff.mp hstored
  rfl

theorem pullWarnings_pull (g : Generator) (output : String) :
    (g.pull output).pullWarnings output = g.pullWarnings output := by
  cases hempty : (scan output).blocks.isEmpty with
  | true =>
      have hnone : g.editedBlocks output = [] := by
        rw [editedBlocks, List.isEmpty_iff.mp hempty, List.filter_nil]
      rw [pull_of_not_edited hnone]
  | false => rw [pullWarnings, pullWarnings, hempty, Bool.false_and]; rfl

end Generator

/-- A body that an export pulls is in the generator that it saves. -/
theorem ExportSource.get?_recorded {s : ExportSource} {config : Config} {previous : Path × String}
    (hprevious : s.previous = some previous) {e : String × String}
    (h : e ∈ s.generator.editedBlocks previous.2) :
    (s.recorded config).values.blocks.get? e.1 = some e.2 := by
  have hpulled : s.pulled = s.generator.pull previous.2 := by
    rw [pulled, hprevious]
    rfl
  show (Generator.addMissing id s.pulled.values.blocks (scan s.templateText).blocks).get? e.1 = _
  rw [Generator.get?_addMissing, hpulled, Generator.get?_pull h, Option.some_or]

end ShaderTemplates
