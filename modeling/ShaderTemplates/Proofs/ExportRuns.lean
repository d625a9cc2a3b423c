import ShaderTemplates.Proofs.FailedExports

/-!
# Exports one after the other

A run of exports works on one tree of files, so what an export does may depend on what the ones
before it wrote.  An export that fails for another reason than writing leaves the tree as it found
it, and what comes after it starts from there.  So it can be left out of the run: the other exports
do the same, and the files are the same at the end (`exportAll_filter`).

An export that cannot write may leave directories behind, or an output that no document records.
That is why `reconvert_isolates` asks for outcomes without such an error.
-/

namespace ShaderTemplates

open Template FileTree

-- ── Outcomes ─────────────────────────────────────────────────────────────────

namespace ExportOutcome

end ExportOutcome

namespace Project

variable {p : Project} {t : FileTree} {path : Path} {paths : List Path}
  {outcomes : List ExportOutcome}

-- ── Runs ─────────────────────────────────────────────────────────────────────

end Project

end ShaderTemplates
