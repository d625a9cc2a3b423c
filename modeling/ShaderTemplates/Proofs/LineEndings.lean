import ShaderTemplates.Proofs.Directives
import ShaderTemplates.Proofs.PairedPasses
import ShaderTemplates.Proofs.Tables

/-!
# Line endings

A template reads the same whether its lines end with a line feed or with a carriage return and a
line feed.  Converting writes line feeds in the end, so its result does not depend on the line
endings of the template; scanning lists the same directives, and the bodies of blocks have the line
endings of the template (`line_endings_agree`).
-/

namespace ShaderTemplates.Template

open Text

-- ── Line breaks of two characters ────────────────────────────────────────────

/-- Every line feed with a carriage return in front of it. -/
def returnedBreaks (cs : List Char) : List Char :=
  cs.flatMap fun c => if c = '\n' then ['\r', '\n'] else [c]

/-- A text whose lines end with a carriage return and a line feed. -/
def crlf (s : String) : String := String.ofList (returnedBreaks s.toList)

@[simp] theorem returnedBreaks_break (cs : List Char) :
    returnedBreaks ('\n' :: cs) = '\r' :: '\n' :: returnedBreaks cs := rfl

theorem returnedBreaks_append (a b : List Char) :
    returnedBreaks (a ++ b) = returnedBreaks a ++ returnedBreaks b :=
  List.flatMap_append

theorem returnedBreaks_cons {c : Char} (h : c ≠ '\n') (cs : List Char) :
    returnedBreaks (c :: cs) = c :: returnedBreaks cs := by
  rw [returnedBreaks, List.flatMap_cons, if_neg h]
  rfl

theorem paired_returnedBreaks {cs : List Char} (h : '\r' ∉ cs) : Paired (returnedBreaks cs) := by
  induction cs with
  | nil => trivial
  | cons c cs ih =>
      have hrest := ih fun hm => h (List.mem_cons_of_mem c hm)
      by_cases hbreak : c = '\n'
      · subst hbreak
        exact ⟨fun _ => ⟨_, rfl⟩, fun hc => absurd hc (by decide), hrest⟩
      · rw [returnedBreaks_cons hbreak]
        refine ⟨?_, hrest⟩
        rintro rfl
        exact absurd List.mem_cons_self h

theorem withoutReturns_returnedBreaks {cs : List Char} (h : '\r' ∉ cs) :
    withoutReturns (returnedBreaks cs) = cs := by
  induction cs with
  | nil => rfl
  | cons c cs ih =>
      have hrest := ih fun hm => h (List.mem_cons_of_mem c hm)
      by_cases hbreak : c = '\n'
      · subst hbreak
        rw [returnedBreaks_break, withoutReturns_return, withoutReturns_break, hrest]
      · have hreturn : c ≠ '\r' := by
          rintro rfl
          exact h List.mem_cons_self
        rw [returnedBreaks_cons hbreak, withoutReturns_cons hreturn, hrest]

/-- A cut that is not behind a carriage return is a cut of the text without the carriage returns. -/
theorem returnedBreaks_cut {cs a b : List Char} (h : returnedBreaks cs = a ++ b)
    (hlast : a.getLast? ≠ some '\r') :
    ∃ x y, cs = x ++ y ∧ a = returnedBreaks x ∧ b = returnedBreaks y := by
  induction cs generalizing a with
  | nil =>
      obtain ⟨rfl, rfl⟩ := List.append_eq_nil_iff.mp h.symm
      exact ⟨[], [], rfl, rfl, rfl⟩
  | cons c cs ih =>
      have hpast : ∀ {s a' : List Char}, returnedBreaks [c] = s → a = s ++ a' →
          returnedBreaks cs = a' ++ b →
          ∃ x y, c :: cs = x ++ y ∧ a = returnedBreaks x ∧ b = returnedBreaks y := by
        intro s a' hs ha hrest
        have hlast' : a'.getLast? ≠ some '\r' := by
          intro hl
          rw [ha, List.getLast?_append, hl] at hlast
          exact hlast rfl
        obtain ⟨x, y, rfl, rfl, rfl⟩ := ih hrest hlast'
        refine ⟨c :: x, y, rfl, ?_, rfl⟩
        rw [ha, ← hs, ← returnedBreaks_append, List.singleton_append]
      cases a with
      | nil => exact ⟨[], c :: cs, rfl, rfl, h.symm⟩
      | cons d a =>
          by_cases hbreak : c = '\n'
          · subst hbreak
            rw [returnedBreaks_break] at h
            obtain ⟨rfl, htail⟩ := List.cons.inj h
            cases a with
            | nil => exact absurd rfl hlast
            | cons e a =>
                obtain ⟨rfl, hrest⟩ := List.cons.inj htail
                exact hpast rfl rfl hrest
          · have hs := returnedBreaks_cons hbreak []
            rw [returnedBreaks_cons hbreak] at h
            obtain ⟨rfl, htail⟩ := List.cons.inj h
            exact hpast hs rfl htail

-- ── Conversion ───────────────────────────────────────────────────────────────

theorem blocks_withoutReturns {cs : List Char} (h : Paired cs) :
    blocks (withoutReturns cs) = (blocks cs).map Block.withoutReturns := by
  rw [blocks, blockPieces_withoutReturns h, Piece.items_withoutReturns, blocks]

theorem vars_withoutReturns {cs : List Char} (h : Paired cs) :
    vars (withoutReturns cs) = (vars cs).map Variable.withoutReturns := by
  rw [vars, variablePieces_withoutReturns h, Piece.items_withoutReturns, vars]

/-- The carriage returns of a paired text do not matter to its conversion. -/
theorem convert_withoutReturns {cs : List Char} (h : Paired cs) {values : Values}
    (hbodies : ∀ name body, values.blocks.get? name = some body → '\r' ∉ body.toList)
    (hvalues : ∀ name value, values.vars.get? name = some value → '\r' ∉ value.toList) :
    convert (String.ofList (withoutReturns cs)) values = convert (String.ofList cs) values := by
  rw [convert, convert, String.toList_ofList, String.toList_ofList, ofText_withoutReturns h,
    Outline.resolve_withoutReturns]
  cases hr : (Outline.ofText cs).resolve values.conditions with
  | error e => rfl
  | ok structured =>
      have hstructured := paired_resolve h hr
      show (fillBlocks values.blocks (withoutReturns structured.1) >>= _) =
        (fillBlocks values.blocks structured.1 >>= _)
      rw [fillBlocks_withoutReturns hbodies hstructured]
      cases hf : fillBlocks values.blocks structured.1 with
      | error e => rfl
      | ok withBlocks =>
          have hfilled := paired_fillBlocks
            (fun name body hbody => paired_of_not_mem (hbodies name body hbody)) hstructured hf
          show (fillVariables values.vars (withoutReturns withBlocks) >>= _) =
            (fillVariables values.vars withBlocks >>= _)
          rw [fillVariables_withoutReturns hvalues hfilled]
          cases hv : fillVariables values.vars withBlocks with
          | error e => rfl
          | ok filled =>
              have hpaired := paired_fillVariables
                (fun name value hvalue => paired_of_not_mem (hvalues name value hvalue)) hfilled hv
              have htext : unixBreaks (withoutReturns filled) = unixBreaks filled := by
                rw [unixBreaks_of_no_return (return_not_mem_withoutReturns filled),
                  unixBreaks_of_paired hpaired]
              show Except.ok (Conversion.mk (String.ofList (unixBreaks (withoutReturns filled)))
                ⟨structured.2, (blocks (withoutReturns structured.1)).length,
                  (vars (withoutReturns withBlocks)).length⟩) = Except.ok _
              rw [htext, blocks_withoutReturns hstructured, vars_withoutReturns hfilled,
                List.length_map, List.length_map]

-- ── Scanning ─────────────────────────────────────────────────────────────────

/-- The body of a block has the line endings of the text. -/
theorem body_returnedBreaks {cs : List Char} (h : '\r' ∉ cs) {b : Block}
    (hb : b ∈ blocks (returnedBreaks cs)) :
    returnedBreaks (withoutReturns b.body) = b.body := by
  obtain ⟨region, hbody, ⟨before, after, hplace⟩, -⟩ := mem_blocks_region hb
  have hpaired := paired_returnedBreaks h
  have hplace' : returnedBreaks cs = (before ++ ['\n']) ++ (region ++ after) := by
    rw [hplace, List.append_assoc, List.singleton_append]
  rw [hplace'] at hpaired
  have hlast := hpaired.suffix.getLast?_content
  rw [← hbody] at hlast
  obtain ⟨x, y, rfl, -, hy⟩ := returnedBreaks_cut hplace' (by simp)
  obtain ⟨rest, hrest⟩ := content_prefix region
  rw [← hrest, ← hbody, List.append_assoc] at hy
  obtain ⟨z, w, rfl, hz, -⟩ := returnedBreaks_cut hy.symm hlast
  have hreturn : '\r' ∉ z := by
    intro hm
    exact h (List.mem_append_right x (List.mem_append_left w hm))
  rw [hz, withoutReturns_returnedBreaks hreturn]

theorem blockBodies_returnedBreaks {cs : List Char} (h : '\r' ∉ cs) :
    ((blocks (returnedBreaks cs)).map fun b => (b.name, String.ofList b.body)) =
      ((blocks cs).map fun b => (b.name, String.ofList b.body)).map fun e => (e.1, crlf e.2) := by
  have hblocks := blocks_withoutReturns (paired_returnedBreaks h)
  rw [withoutReturns_returnedBreaks h] at hblocks
  rw [hblocks, List.map_map, List.map_map]
  refine List.map_congr_left fun b hb => ?_
  show _ = (b.name, crlf (String.ofList (withoutReturns b.body)))
  rw [crlf, String.toList_ofList, body_returnedBreaks h hb]

/-- A template is converted alike with either line endings, and scanned alike but for the line
    endings of the bodies. -/
theorem line_endings_agree {template : String} (ht : '\r' ∉ template.toList) :
    (∀ values : Values,
      (∀ name body, values.blocks.get? name = some body → '\r' ∉ body.toList) →
      (∀ name value, values.vars.get? name = some value → '\r' ∉ value.toList) →
      convert (crlf template) values = convert template values) ∧
    (scan (crlf template)).conditions = (scan template).conditions ∧
    (scan (crlf template)).vars = (scan template).vars ∧
    (scan (crlf template)).blocks.entries =
      (scan template).blocks.entries.map fun e => (e.1, crlf e.2) := by
  have hpaired := paired_returnedBreaks ht
  have hdrop := withoutReturns_returnedBreaks ht
  refine ⟨?_, ?_, ?_, ?_⟩
  · intro values hbodies hvalues
    have hconvert := convert_withoutReturns hpaired hbodies hvalues
    rw [hdrop, String.ofList_toList] at hconvert
    exact hconvert.symm
  · have houtline := ofText_withoutReturns hpaired
    rw [hdrop] at houtline
    rw [scan, scan, inventory, inventory, crlf, String.toList_ofList, houtline,
      Outline.conditions_withoutReturns]
  · have hvars := vars_withoutReturns hpaired
    rw [hdrop] at hvars
    rw [scan, scan, inventory, inventory, crlf, String.toList_ofList, hvars, List.map_map]
    rfl
  · rw [scan, scan, inventory, inventory, crlf, String.toList_ofList]
    show (Directives.ofListLast _).entries = (Directives.ofListLast _).entries.map _
    rw [blockBodies_returnedBreaks ht, Directives.entries_ofListLast_map]

/-- A conditional, a block of two lines and a variable. -/
def sampleTemplate : String := "@if F\n  x\n@endif\n// @block B\n  y\n  z\n// @endblock\n<n>\n"

theorem line_endings_agree_sample :
    crlf sampleTemplate =
        "@if F\r\n  x\r\n@endif\r\n// @block B\r\n  y\r\n  z\r\n// @endblock\r\n<n>\r\n" ∧
      convert (crlf sampleTemplate) sampleValues = convert sampleTemplate sampleValues ∧
      (scan (crlf sampleTemplate)).blocks.entries =
        (scan sampleTemplate).blocks.entries.map fun e => (e.1, crlf e.2) := by
  have hreturn : '\r' ∉ sampleTemplate.toList := by decide
  have hagree := line_endings_agree hreturn
  refine ⟨by decide, hagree.1 sampleValues ?_ ?_, hagree.2.2.2⟩
  · intro name body h
    have hmem : (name, body) ∈ [("B", "<n>;")] := SortedMap.mem_of_lookup h
    cases List.mem_singleton.mp hmem
    decide
  · intro name value h
    have hmem : (name, value) ∈ [("n", "1")] := SortedMap.mem_of_lookup h
    cases List.mem_singleton.mp hmem
    decide

end ShaderTemplates.Template
