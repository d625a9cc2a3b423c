import ShaderTemplates.Proofs.Tables
import ShaderTemplates.Proofs.WrittenLines
import ShaderTemplates.Toml.Section

/-!
# Written documents

Reading a written document gives one table for each section, with the entries of the section in
their order (`parse?_writeDocument`).  No carriage return is ever written, so the line breaks of
the document are those of its lines, and each section is opened once and filled before the next
one starts.
-/

namespace ShaderTemplates.Toml

-- ── No carriage return ───────────────────────────────────────────────────────

theorem return_not_mem_escapeChar (c : Char) : '\r' ∉ escapeChar c := by
  have hshape := escaped_escapeChar c
  generalize escapeChar c = shape at hshape
  cases hshape with
  | short h =>
      unfold unescape? at h
      split at h <;> cases h <;> decide
  | code h =>
      have hcodes : ∀ n < 128,
          '\r' ∉ ['\\', 'u', '0', '0', hexDigit (n / 16), hexDigit (n % 16)] := by decide
      refine hcodes c.toNat ?_
      simp only [isControl, Bool.or_eq_true, Bool.and_eq_true, decide_eq_true_eq] at h
      omega
  | plain _ _ h =>
      intro hmem
      rw [← List.mem_singleton.mp hmem] at h
      exact absurd h (by decide)

theorem return_not_mem_escapeLines (cs : List Char) (run : Nat) : '\r' ∉ escapeLines run cs := by
  induction cs generalizing run with
  | nil => simp [escapeLines]
  | cons c cs ih =>
      rw [escapeLines]
      split
      · split
        · simp [ih]
        · simp [ih]
      · split
        · simp [ih]
        · simp [ih, return_not_mem_escapeChar]

theorem return_not_mem_quoteBasic (cs : List Char) : '\r' ∉ quoteBasic cs := by
  simp [quoteBasic, return_not_mem_escapeChar]

theorem return_not_mem_openingBreak (cs : List Char) : '\r' ∉ openingBreak cs := by
  rw [openingBreak]
  split <;> decide

theorem return_not_mem_quoteChars (cs : List Char) : '\r' ∉ quoteChars cs := by
  have hlines : '\r' ∉ quoteBasicLines cs := by
    simp [quoteBasicLines, return_not_mem_openingBreak, return_not_mem_escapeLines]
  have hplain : (!cs.any fun c => isControl c && c ≠ '\n') = true → '\r' ∉ cs := by
    intro hcontrol hmem
    rw [Bool.not_eq_true', List.any_eq_false] at hcontrol
    exact hcontrol '\r' hmem (by decide)
  unfold quoteChars
  dsimp only
  split
  next => exact return_not_mem_quoteBasic cs
  split
  next h =>
    simp only [Bool.and_eq_true] at h
    simp [quoteLiteral, hplain h.1.1]
  split
  next => exact hlines
  split
  next h =>
    simp only [Bool.and_eq_true] at h
    simp [quoteLiteralLines, return_not_mem_openingBreak, hplain h.1]
  split
  next => exact hlines
  next => exact return_not_mem_quoteBasic cs

theorem return_not_mem_quoteKeyChars (cs : List Char) : '\r' ∉ quoteKeyChars cs := by
  unfold quoteKeyChars
  dsimp only
  split
  next h =>
    simp only [Bool.and_eq_true, List.all_eq_true] at h
    intro hmem
    exact absurd (h.2 '\r' hmem) (by decide)
  split
  next => exact return_not_mem_quoteBasic cs
  split
  next h =>
    simp only [Bool.and_eq_true, Bool.not_eq_true', List.any_eq_false] at h
    have hmem : '\r' ∉ cs := fun hmem => h.1 '\r' hmem (by decide)
    simp [quoteLiteral, hmem]
  next => exact return_not_mem_quoteBasic cs

theorem return_not_mem_writeEntry (e : String × Scalar) : '\r' ∉ (writeEntry e).toList := by
  have hvalue : '\r' ∉ e.2.write.toList := by
    match e.2 with
    | .text s =>
        show '\r' ∉ (String.ofList (quoteChars s.toList)).toList
        rw [String.toList_ofList]
        exact return_not_mem_quoteChars _
    | .flag true => decide
    | .flag false => decide
  simp [writeEntry, quoteKey, String.toList_append, String.toList_ofList, hvalue,
    return_not_mem_quoteKeyChars]

theorem return_not_mem_writeDocument {sections : List WrittenSection}
    (hnames : ∀ s ∈ sections, IsBareName s.name) :
    '\r' ∉ (writeDocument sections).toList := by
  have hsection : ∀ s ∈ sections, '\r' ∉ s.write.toList := by
    intro s hs
    have hname : '\r' ∉ s.name.toList := by
      intro hmem
      exact absurd ((hnames s hs).2 '\r' hmem) (by decide)
    simp [s.toList_write, hname, return_not_mem_writeEntry]
  clear hnames
  induction sections with
  | nil => decide
  | cons s sections ih =>
      have hs := hsection s List.mem_cons_self
      have hrest := ih fun s' hs' => hsection s' (List.mem_cons_of_mem _ hs')
      cases sections with
      | nil => simpa [writeDocument] using hs
      | cons s' sections =>
          rw [toList_writeDocument_cons]
          simp [hs, hrest]

-- ── Tables ───────────────────────────────────────────────────────────────────

/-- The table that a section is read as. -/
def WrittenSection.table (s : WrittenSection) : String × Value :=
  (s.name, .table .header (s.entries.map fun e => (e.1, e.2.value)))

/-- The name of an entry that is there is not the name of a new one. -/
theorem lookup_eq_none {entries : Entries} {name : String}
    (h : name ∉ entries.map (·.1)) : entries.lookup name = none := by
  rw [List.lookup_eq_none_iff]
  intro e he
  have hne : name ≠ e.1 := fun heq => h (heq ▸ List.mem_map_of_mem he)
  simpa using hne

/-- Looking up the last entry, whose name no other entry has. -/
theorem lookup_concat {entries : Entries} {name : String} (h : name ∉ entries.map (·.1))
    (value : Value) : (entries ++ [(name, value)]).lookup name = some value := by
  rw [List.lookup_append, lookup_eq_none h]
  simp

theorem replaceEntry_concat {entries : Entries} {name : String}
    (h : name ∉ entries.map (·.1)) (value value' : Value) :
    replaceEntry name value' (entries ++ [(name, value)]) = entries ++ [(name, value')] := by
  have hkeep : ∀ e ∈ entries, (if e.1 = name then (name, value') else e) = e := by
    intro e he
    refine if_neg ?_
    rintro rfl
    exact h (List.mem_map_of_mem he)
  rw [replaceEntry, List.map_append, List.map_congr_left hkeep, List.map_id']
  simp

/-- An entry goes to the table that was opened last. -/
theorem apply_entryStatement {entries inner : Entries} {name : String}
    (hname : name ∉ entries.map (·.1)) {e : String × Scalar} (he : e.1 ∉ inner.map (·.1)) :
    Statement.apply? ⟨[name], entries ++ [(name, .table .header inner)]⟩ (entryStatement e) =
      some ⟨[name], entries ++ [(name, .table .header (inner ++ [(e.1, e.2.value)]))]⟩ := by
  have hinsert : insertNew? e.1 e.2.value inner = some (inner ++ [(e.1, e.2.value)]) := by
    rw [insertNew?, lookup_eq_none he]
    rfl
  have hassign : assign? [] e.1 e.2.value .header inner =
      some (inner ++ [(e.1, e.2.value)]) := hinsert
  show (changeAt? false (fun origin entries => assign? [] e.1 e.2.value origin entries)
    [name] .header _).map _ = _
  rw [changeAt?, lookup_concat hname]
  show ((changeAt? false _ [] .header inner).map _).map _ = _
  rw [changeAt?, hassign]
  show some (Draft.mk [name] (replaceEntry name _ _)) = _
  rw [replaceEntry_concat hname]

/-- The entries of a section are put into its table in their order. -/
theorem foldlM_entryStatements {entries : Entries} {name : String}
    (hname : name ∉ entries.map (·.1)) {written : List (String × Scalar)} {inner : Entries}
    (hdistinct : (inner.map (·.1) ++ written.map (·.1)).Nodup) :
    (written.map entryStatement).foldlM Statement.apply?
        ⟨[name], entries ++ [(name, .table .header inner)]⟩ =
      some ⟨[name],
        entries ++ [(name, .table .header (inner ++ written.map fun e => (e.1, e.2.value)))]⟩ := by
  induction written generalizing inner with
  | nil => rw [List.map_nil, List.map_nil, List.append_nil]; rfl
  | cons e written ih =>
      have hsplit : inner.map (·.1) ++ (e :: written).map (·.1) =
          (inner ++ [(e.1, e.2.value)]).map (·.1) ++ written.map (·.1) := by simp
      have he : e.1 ∉ inner.map (·.1) := by
        intro hmem
        rw [List.map_cons, List.nodup_append] at hdistinct
        exact hdistinct.2.2 e.1 hmem e.1 List.mem_cons_self rfl
      rw [hsplit] at hdistinct
      rw [List.map_cons, List.foldlM_cons, apply_entryStatement hname he]
      show List.foldlM _ _ _ = _
      rw [ih hdistinct]
      simp

/-- A section adds its table to the document. -/
theorem foldlM_statements {draft : Draft} {s : WrittenSection}
    (hname : s.name ∉ draft.entries.map (·.1)) (hdistinct : (s.entries.map (·.1)).Nodup) :
    s.statements.foldlM Statement.apply? draft =
      some ⟨[s.name], draft.entries ++ [s.table]⟩ := by
  have hopen : Statement.apply? draft (.tableHeader ⟨[], s.name⟩) =
      some ⟨[s.name], draft.entries ++ [(s.name, .table .header [])]⟩ := by
    show (openTable? [] s.name draft.entries).map _ = _
    have hnew : openTable? [] s.name draft.entries =
        some (draft.entries ++ [(s.name, .table .header [])]) := by
      rw [openTable?, changeAt?, lookup_eq_none hname]
    rw [hnew]
    rfl
  rw [WrittenSection.statements, List.foldlM_cons, hopen]
  exact foldlM_entryStatements hname (by simpa using hdistinct)

theorem foldlM_sections {sections : List WrittenSection} (draft : Draft)
    (hnames : (draft.entries.map (·.1) ++ sections.map (·.name)).Nodup)
    (hdistinct : ∀ s ∈ sections, (s.entries.map (·.1)).Nodup) :
    ∃ current, (sections.flatMap WrittenSection.statements).foldlM Statement.apply? draft =
      some ⟨current, draft.entries ++ sections.map WrittenSection.table⟩ := by
  induction sections generalizing draft with
  | nil => exact ⟨draft.current, by rw [List.map_nil, List.append_nil]; rfl⟩
  | cons s sections ih =>
      have hname : s.name ∉ draft.entries.map (·.1) := by
        intro hmem
        rw [List.map_cons, List.nodup_append] at hnames
        exact hnames.2.2 s.name hmem s.name List.mem_cons_self rfl
      have hsplit : draft.entries.map (·.1) ++ (s :: sections).map (·.name) =
          (draft.entries ++ [s.table]).map (·.1) ++ sections.map (·.name) := by
        simp [WrittenSection.table]
      rw [hsplit] at hnames
      obtain ⟨current, hrest⟩ := @ih ⟨[s.name], draft.entries ++ [s.table]⟩ hnames
        fun s' hs' => hdistinct s' (List.mem_cons_of_mem _ hs')
      refine ⟨current, ?_⟩
      rw [List.flatMap_cons, List.foldlM_append,
        foldlM_statements hname (hdistinct s List.mem_cons_self)]
      show List.foldlM _ _ _ = _
      rw [hrest]
      simp

/-- Reading a written document gives a table for each section. -/
theorem parse?_writeDocument (sections : List WrittenSection)
    (hbare : ∀ s ∈ sections, IsBareName s.name) (hnames : (sections.map (·.name)).Nodup)
    (hdistinct : ∀ s ∈ sections, (s.entries.map (·.1)).Nodup) :
    parse? (writeDocument sections) = some (sections.map WrittenSection.table) := by
  have hstatements : statements? (writeDocument sections).toList =
      some (sections.flatMap WrittenSection.statements) := by
    have hmark : ∀ rest, (writeDocument sections).toList ≠ '\uFEFF' :: rest := by
      intro rest
      cases sections with
      | nil => exact fun h => by cases h
      | cons s sections =>
          cases sections with
          | nil => simp [writeDocument, s.toList_write]
          | cons s' sections => simp [toList_writeDocument_cons, s.toList_write]
    have hbreaks := Text.unixBreaks_of_no_return (return_not_mem_writeDocument hbare)
    have hreads := reads_writeDocument hbare
    generalize (writeDocument sections).toList = cs at hmark hbreaks hreads
    unfold statements?
    split
    next => exact absurd rfl (hmark _)
    next =>
      show readStatements? (Text.unixBreaks cs).length (Text.unixBreaks cs) = _
      rw [hbreaks]
      exact hreads cs.length (Nat.le_refl _)
  obtain ⟨current, hbuild⟩ := foldlM_sections ⟨[], []⟩ (by simpa using hnames) hdistinct
  rw [parse?, hstatements]
  show Option.map _ (List.foldlM _ _ _) = _
  rw [hbuild]
  rfl

end ShaderTemplates.Toml
