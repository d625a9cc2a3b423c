import ShaderTemplates.Proofs.AddedValues
import ShaderTemplates.Proofs.PairedPasses
import ShaderTemplates.Proofs.Tables

/-!
# Line breaks of converted texts

A conversion writes its line breaks once, when the text has been put together.  This takes one
carriage return away in front of each line feed, so a break of two characters is left exactly where
two carriage returns stood in front of a line feed (`crlf_infix_unixBreaks`), and writing the breaks
again changes the text exactly if there is one (`unixBreaks_eq_self_iff`).

Two carriage returns can stand in the template, or come together where something was inserted or
left out.  If every carriage return of the template, of the bodies and of the values belongs to a
line break, then so does every one in the text that is put together, and the result has none
(`line_feeds_of_convert`).
-/

namespace ShaderTemplates.Template

open Text

-- ── Writing line breaks once ─────────────────────────────────────────────────

theorem crlf_infix_cons {c : Char} {cs : List Char} :
    ['\r', '\n'] <:+: c :: cs ↔ (c = '\r' ∧ cs.head? = some '\n') ∨ ['\r', '\n'] <:+: cs := by
  rw [List.infix_cons_iff, List.cons_prefix_cons]
  refine or_congr_left (and_congr eq_comm ?_)
  cases cs with
  | nil => simp
  | cons d cs => simp [eq_comm]

theorem crcrlf_infix_cons {c : Char} {cs : List Char} :
    ['\r', '\r', '\n'] <:+: c :: cs ↔
      (c = '\r' ∧ ['\r', '\n'] <+: cs) ∨ ['\r', '\r', '\n'] <:+: cs := by
  rw [List.infix_cons_iff, List.cons_prefix_cons]
  exact or_congr_left (and_congr_left fun _ => eq_comm)

/-- What is written starts with a line feed if there is a line break of either form. -/
theorem head?_unixBreaks {cs : List Char} :
    (unixBreaks cs).head? = some '\n' ↔ cs.head? = some '\n' ∨ ['\r', '\n'] <+: cs := by
  fun_cases unixBreaks cs with
  | case1 => simp
  | case2 rest => simp
  | case3 c rest hpair =>
      rw [List.head?_cons, List.head?_cons]
      refine (or_iff_left ?_).symm
      rintro ⟨after, hafter⟩
      obtain ⟨rfl, hrest⟩ := List.cons.inj hafter
      exact hpair after rfl hrest.symm

/-- A break of two characters is left where there were two carriage returns in front of it. -/
theorem crlf_infix_unixBreaks (cs : List Char) :
    ['\r', '\n'] <:+: unixBreaks cs ↔ ['\r', '\r', '\n'] <:+: cs := by
  fun_induction unixBreaks cs with
  | case1 => simp
  | case2 rest ih =>
      rw [crlf_infix_cons, crcrlf_infix_cons, crcrlf_infix_cons, ih]
      simp
  | case3 c rest hpair ih =>
      rw [crlf_infix_cons, crcrlf_infix_cons, ih, head?_unixBreaks]
      refine or_congr_left (and_congr_right ?_)
      rintro rfl
      refine or_iff_right ?_
      intro hbreak
      obtain ⟨after, rfl⟩ := List.head?_eq_some_iff.mp hbreak
      exact hpair after rfl rfl

/-- Writing the line breaks changes a text exactly if it has one of two characters. -/
theorem unixBreaks_eq_self_iff (cs : List Char) :
    unixBreaks cs = cs ↔ ¬ ['\r', '\n'] <:+: cs := by
  constructor
  · intro h hcrlf
    have hlength : ∀ cs : List Char, (unixBreaks cs).length ≤ cs.length ∧
        (['\r', '\n'] <:+: cs → (unixBreaks cs).length < cs.length) := by
      intro cs
      fun_induction unixBreaks cs with
      | case1 => simp
      | case2 rest ih =>
          simp only [List.length_cons]
          omega
      | case3 c rest hpair ih =>
          simp only [List.length_cons, crlf_infix_cons]
          refine ⟨by omega, ?_⟩
          rintro (⟨rfl, hbreak⟩ | hrest)
          · obtain ⟨after, rfl⟩ := List.head?_eq_some_iff.mp hbreak
            exact absurd rfl (hpair after rfl)
          · have := ih.2 hrest
            omega
    have := (hlength cs).2 hcrlf
    rw [h] at this
    exact Nat.lt_irrefl _ this
  · intro h
    fun_induction unixBreaks cs with
    | case1 => rfl
    | case2 rest ih => exact absurd (crlf_infix_cons.mpr (.inl ⟨rfl, rfl⟩)) h
    | case3 c rest hpair ih =>
        rw [ih fun hrest => h (crlf_infix_cons.mpr (.inr hrest))]

-- ── Conversions ──────────────────────────────────────────────────────────────

/-- The text that the passes of a conversion put together. -/
def assembled (template : String) (values : Values) : Except Unresolved (List Char) := do
  fillVariables values.vars (← withBlocks template values)

/-- A text that is converted is put together first, and its line breaks are written then. -/
theorem text_of_convert {template : String} {values : Values} {c : Conversion}
    (h : convert template values = .ok c) :
    ∃ text, assembled template values = .ok text ∧ c.text = String.ofList (unixBreaks text) := by
  obtain ⟨structured, hstructured, h⟩ := bind_eq_ok.mp h
  obtain ⟨withBlocks, hblocks, h⟩ := bind_eq_ok.mp h
  obtain ⟨text, htext, h⟩ := bind_eq_ok.mp h
  cases h
  exact ⟨text, bind_eq_ok.mpr ⟨withBlocks, bind_eq_ok.mpr ⟨structured, hstructured, hblocks⟩,
    htext⟩, rfl⟩

/-- What is put together of paired texts is paired. -/
theorem paired_assembled {template : String} {values : Values} {text : List Char}
    (ht : Paired template.toList)
    (hbodies : ∀ name body, values.blocks.get? name = some body → Paired body.toList)
    (hvalues : ∀ name value, values.vars.get? name = some value → Paired value.toList)
    (h : assembled template values = .ok text) : Paired text := by
  obtain ⟨withBlocks, h, hfilled⟩ := bind_eq_ok.mp h
  obtain ⟨structured, hstructured, hblocks⟩ := bind_eq_ok.mp h
  exact paired_fillVariables hvalues
    (paired_fillBlocks hbodies (paired_resolve ht hstructured) hblocks) hfilled

/-- A converted text has a break of two characters exactly where two carriage returns came together
    in front of a line feed, and it has no carriage return at all if each one that was put in
    belongs to a line break.  Writing its breaks again changes nothing exactly if they are all line
    feeds. -/
theorem line_feeds_of_convert {template : String} {values : Values} {c : Conversion}
    (h : convert template values = .ok c) :
    (∃ text, assembled template values = .ok text ∧
      (['\r', '\n'] <:+: c.text.toList ↔ ['\r', '\r', '\n'] <:+: text)) ∧
    (unixBreaks c.text.toList = c.text.toList ↔ ¬ ['\r', '\n'] <:+: c.text.toList) ∧
    (Paired template.toList →
      (∀ name body, values.blocks.get? name = some body → Paired body.toList) →
      (∀ name value, values.vars.get? name = some value → Paired value.toList) →
      '\r' ∉ c.text.toList ∧ unixBreaks c.text.toList = c.text.toList) := by
  obtain ⟨text, htext, hc⟩ := text_of_convert h
  rw [hc, String.toList_ofList]
  refine ⟨⟨text, htext, crlf_infix_unixBreaks text⟩, unixBreaks_eq_self_iff _, ?_⟩
  intro ht hbodies hvalues
  have hreturn : '\r' ∉ unixBreaks text := by
    rw [unixBreaks_of_paired (paired_assembled ht hbodies hvalues htext)]
    exact return_not_mem_withoutReturns text
  exact ⟨hreturn, unixBreaks_of_no_return hreturn⟩

/-- Two carriage returns come together where a conditional is left out. -/
example : convert "a\r@if F\nx\n@endif\r\nb" ⟨SortedMap.insert ∅ "F" false, ∅, ∅⟩ =
    .ok ⟨"a\r\nb", ⟨1, 0, 0⟩⟩ := by
  decide +kernel

/-- Line breaks of both kinds in the template, and one of two characters in the value. -/
theorem line_feeds_of_convert_sample :
    convert "<n>\r\n\n" ⟨∅, ∅, SortedMap.insert ∅ "n" "1\r\n2"⟩ = .ok ⟨"1\n2\n\n", ⟨0, 0, 1⟩⟩ ∧
      '\r' ∉ "1\n2\n\n".toList := by
  have hconvert : convert "<n>\r\n\n" ⟨∅, ∅, SortedMap.insert ∅ "n" "1\r\n2"⟩ =
      .ok ⟨"1\n2\n\n", ⟨0, 0, 1⟩⟩ := by
    decide +kernel
  have hpaired : Paired "<n>\r\n\n".toList := by
    simp [Paired]
  refine ⟨hconvert, ((line_feeds_of_convert hconvert).2.2 hpaired ?_ ?_).1⟩
  · intro name body h
    cases h
  · intro name value h
    have hmem : (name, value) ∈ [("n", "1\r\n2")] := SortedMap.mem_of_lookup h
    cases List.mem_singleton.mp hmem
    simp [Paired]

/-- Two carriage returns in front of a line feed leave one of them. -/
theorem convert_keeps_return :
    ¬ ∀ (template : String) (values : Values) (c : Conversion), convert template values = .ok c →
      ¬ ['\r', '\n'] <:+: c.text.toList := by
  intro h
  have hconvert : convert "a\r\r\nb" {} = .ok ⟨"a\r\nb", ⟨0, 0, 0⟩⟩ := by decide +kernel
  exact h _ _ _ hconvert (by decide)

end ShaderTemplates.Template
