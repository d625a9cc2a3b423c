import ShaderTemplates.Proofs.QuotedTexts
import ShaderTemplates.Toml.Reader
import ShaderTemplates.Toml.Writer

/-!
# Reading written documents

A written document is a list of sections, and each of its lines is read as the statement that it
was written for: the header of a section, one of its entries, or nothing for the empty line in
front of the next section.  So the statements of the document are those of its sections one after
the other (`reads_writeDocument`).
-/

namespace ShaderTemplates.Toml

-- ── Lines ────────────────────────────────────────────────────────────────────

/-- Characters that keys and values start with. -/
def startsKey (c : Char) : Bool := isBare c || c = '"' || c = '\''

/-- The value that a written value is read as. -/
def Scalar.value : Scalar → Value
  | text s => .string s
  | flag b => .boolean b

/-- The statement that an entry is read as. -/
def entryStatement (e : String × Scalar) : Statement := .assignment ⟨[], e.1⟩ e.2.value

/-- The statements that a section is read as. -/
def WrittenSection.statements (s : WrittenSection) : List Statement :=
  .tableHeader ⟨[], s.name⟩ :: s.entries.map entryStatement

/-- A name that can stand in a header as it is. -/
def IsBareName (name : String) : Prop := name ≠ "" ∧ ∀ c ∈ name.toList, isBare c = true

instance (name : String) : Decidable (IsBareName name) :=
  decidable_of_iff (name ≠ "" ∧ name.toList.all isBare = true)
    (and_congr_right fun _ => List.all_eq_true)

theorem skipSpace_of_startsKey {c : Char} (h : startsKey c = true) (rest : List Char) :
    skipSpace (c :: rest) = c :: rest := by
  refine List.dropWhile_cons_of_neg ?_
  intro hblank
  simp only [Bool.or_eq_true, decide_eq_true_eq] at hblank
  rcases hblank with rfl | rfl <;> exact absurd h (by decide)

/-- A written key starts a statement. -/
theorem quoteKeyChars_starts (cs : List Char) :
    ∃ c rest, quoteKeyChars cs = c :: rest ∧ startsKey c = true := by
  unfold quoteKeyChars
  dsimp only
  split
  next h =>
    simp only [Bool.and_eq_true, Bool.not_eq_true', List.all_eq_true] at h
    cases cs with
    | nil => cases h.1
    | cons c cs =>
        have hc := h.2 c List.mem_cons_self
        exact ⟨c, cs, rfl, by rw [startsKey, hc]; rfl⟩
  split
  next => exact ⟨'"', _, rfl, by decide⟩
  split
  next => exact ⟨'\'', _, rfl, by decide⟩
  next => exact ⟨'"', _, rfl, by decide⟩

/-- A single key is read up to the character after it. -/
theorem readDotted?_single {c : Char} {cs key rest : List Char} (hstart : startsKey c = true)
    (hkey : readKey? (c :: cs) = some (key, rest)) (hdot : (skipSpace rest).head? ≠ some '.') :
    readDotted? (c :: cs) = some (⟨[], String.ofList key⟩, skipSpace rest) := by
  have hparts : readParts? depthLimit (c :: cs) =
      some ([String.ofList key], skipSpace rest) := by
    show readParts? (78 + 1) (c :: cs) = _
    rw [readParts?, skipSpace_of_startsKey hstart, hkey, Option.bind_eq_bind, Option.bind_some]
    dsimp only
    generalize skipSpace rest = after at hdot
    split
    next => exact absurd rfl hdot
    next => rfl
  rw [readDotted?, hparts]
  rfl

-- ── Entries ──────────────────────────────────────────────────────────────────

theorem Scalar.write_starts (value : Scalar) :
    ∃ c rest, value.write.toList = c :: rest ∧ startsKey c = true := by
  cases value with
  | text s =>
      have hshape : ∃ c rest, quoteChars s.toList = c :: rest ∧ startsKey c = true := by
        unfold quoteChars
        dsimp only
        split
        next => exact ⟨'"', _, rfl, by decide⟩
        split
        next => exact ⟨'\'', _, rfl, by decide⟩
        split
        next => exact ⟨'"', _, rfl, by decide⟩
        split
        next => exact ⟨'\'', _, rfl, by decide⟩
        split
        next => exact ⟨'"', _, rfl, by decide⟩
        next => exact ⟨'"', _, rfl, by decide⟩
      show ∃ c rest, (String.ofList (quoteChars s.toList)).toList = c :: rest ∧ _
      rwa [String.toList_ofList]
  | flag b =>
      cases b with
      | true => exact ⟨'t', ['r', 'u', 'e'], rfl, by decide⟩
      | false => exact ⟨'f', ['a', 'l', 's', 'e'], rfl, by decide⟩

/-- A written value is read up to the end of its line. -/
theorem readValue?_write (value : Scalar) (budget depth : Nat) (rest : List Char) :
    readValue? (budget + 1) depth (value.write.toList ++ '\n' :: rest) =
      some (value.value, '\n' :: rest) := by
  cases value with
  | text s =>
      have hread : readText? (quoteChars s.toList ++ '\n' :: rest) =
          some (s.toList, '\n' :: rest) :=
        readText?_quoteChars s.toList (by simp) (by simp)
      show readValue? _ _ ((String.ofList (quoteChars s.toList)).toList ++ '\n' :: rest) = _
      rw [String.toList_ofList]
      generalize quoteChars s.toList ++ '\n' :: rest = text at hread
      match text with
      | [] => cases hread
      | c :: text =>
          have hc : (c = '"' || c = '\'') = true := by
            unfold readText? at hread
            split at hread <;> simp_all
          rw [readValue?.eq_def]
          show (if (c = '"' || c = '\'') = true then _ else _) = _
          rw [if_pos hc, hread]
          show some (Value.string (String.ofList s.toList), _) = _
          rw [String.ofList_toList]
          rfl
  | flag b => cases b <;> rfl

/-- What starts with a key is read as an assignment. -/
theorem readStatement?_assignment {c : Char} {cs after rest : List Char} {key : Key}
    {value : Value} (hstart : startsKey c = true)
    (hkey : readDotted? (c :: cs) = some (key, '=' :: after))
    (hvalue : readValue? (2 * after.length + 1) depthLimit (skipSpace after) =
      some (value, '\n' :: rest)) :
    readStatement? (c :: cs) = some (some (.assignment key value), rest) := by
  rw [readStatement?]
  rw [skipSpace_of_startsKey hstart]
  split
  next h => cases h
  next h =>
    cases h
    exact absurd hstart (by decide)
  next h =>
    cases h
    exact absurd hstart (by decide)
  next h =>
    cases h
    exact absurd hstart (by decide)
  next h =>
    cases h
    exact absurd hstart (by decide)
  next =>
    rw [hkey]
    show (readValue? (2 * after.length + 1) depthLimit (skipSpace after)).bind _ = _
    rw [hvalue]
    rfl

theorem readStatement?_entry (e : String × Scalar) (rest : List Char) :
    readStatement? ((writeEntry e).toList ++ rest) = some (some (entryStatement e), rest) := by
  have hline : (writeEntry e).toList ++ rest =
      quoteKeyChars e.1.toList ++ ' ' :: '=' :: ' ' :: (e.2.write.toList ++ '\n' :: rest) := by
    simp [writeEntry, quoteKey, String.toList_append, String.toList_ofList]
  have hkey := readKey?_quoteKeyChars e.1.toList
    (' ' :: '=' :: ' ' :: (e.2.write.toList ++ '\n' :: rest)) (by
      rintro c hc
      cases hc
      decide)
  obtain ⟨c, key, hshape, hstart⟩ := quoteKeyChars_starts e.1.toList
  rw [hline]
  rw [hshape, List.cons_append] at hkey ⊢
  have hdotted := readDotted?_single hstart hkey (by
    show some '=' ≠ some '.'
    decide)
  rw [String.ofList_toList] at hdotted
  refine readStatement?_assignment hstart hdotted ?_
  have hblank : skipSpace (' ' :: (e.2.write.toList ++ '\n' :: rest)) =
      e.2.write.toList ++ '\n' :: rest := by
    obtain ⟨d, text, htext, hd⟩ := e.2.write_starts
    rw [htext]
    exact skipSpace_of_startsKey hd _
  rw [hblank]
  exact readValue?_write e.2 _ _ rest

-- ── Headers ──────────────────────────────────────────────────────────────────

theorem readStatement?_header {name : String} (h : IsBareName name) (rest : List Char) :
    readStatement? ('[' :: (name.toList ++ ']' :: '\n' :: rest)) =
      some (some (.tableHeader ⟨[], name⟩), rest) := by
  obtain ⟨hne, hbare⟩ := h
  have hwritten : quoteKeyChars name.toList = name.toList := by
    unfold quoteKeyChars
    dsimp only
    rw [if_pos]
    simpa [hne] using hbare
  have hkey := readKey?_quoteKeyChars name.toList (']' :: '\n' :: rest) (by
    rintro c hc
    cases hc
    decide)
  obtain ⟨c, cs, hshape, hstart⟩ := quoteKeyChars_starts name.toList
  rw [hwritten] at hshape hkey
  have hc : isBare c = true := hbare c (hshape ▸ List.mem_cons_self)
  rw [hshape, List.cons_append] at hkey ⊢
  have hdotted := readDotted?_single hstart hkey (by
    show some ']' ≠ some '.'
    decide)
  rw [← hshape, String.ofList_toList] at hdotted
  rw [readStatement?]
  have hskip : skipSpace ('[' :: (c :: (cs ++ ']' :: '\n' :: rest))) =
      '[' :: (c :: (cs ++ ']' :: '\n' :: rest)) := rfl
  rw [hskip]
  split
  next heq => cases heq
  next heq => cases heq
  next heq => cases heq
  next heq =>
    cases heq
    exact absurd hc (by decide)
  next heq =>
    cases heq
    rw [hdotted]
    rfl
  next hno => exact absurd rfl (hno _)

theorem readStatement?_break (rest : List Char) :
    readStatement? ('\n' :: rest) = some (none, rest) := rfl

-- ── Documents ────────────────────────────────────────────────────────────────

/-- The text is read as the statements, whatever larger budget there is. -/
def Reads (cs : List Char) (statements : List Statement) : Prop :=
  ∀ budget, cs.length ≤ budget → readStatements? budget cs = some statements

theorem reads_nil : Reads [] [] := by
  intro budget _
  cases budget <;> rfl

theorem reads_statement {cs rest : List Char} {statement : Option Statement}
    {statements : List Statement} (hread : readStatement? cs = some (statement, rest))
    (hshorter : rest.length < cs.length) (h : Reads rest statements) :
    Reads cs (statement.toList ++ statements) := by
  intro budget hbudget
  match cs, budget with
  | [], _ => cases hshorter
  | c :: cs, 0 => cases hbudget
  | c :: cs, budget + 1 =>
      have hrest := h budget (by simp only [List.length_cons] at hshorter hbudget; omega)
      rw [readStatements?, hread]
      · show (readStatements? budget rest).bind _ = _
        rw [hrest]
        rfl
      · intro hnil
        cases hnil

theorem reads_entries (entries : List (String × Scalar)) {rest : List Char}
    {statements : List Statement} (h : Reads rest statements) :
    Reads (entries.flatMap (fun e => (writeEntry e).toList) ++ rest)
      (entries.map entryStatement ++ statements) := by
  induction entries with
  | nil => exact h
  | cons e entries ih =>
      rw [List.flatMap_cons, List.append_assoc]
      refine reads_statement (readStatement?_entry e _) ?_ ih
      have hpos : (writeEntry e).toList.length ≠ 0 := by
        simp [writeEntry, String.toList_append, -List.length_eq_zero_iff]
      simp only [List.length_append]
      omega

theorem WrittenSection.toList_write (s : WrittenSection) :
    s.write.toList = '[' :: (s.name.toList ++ ']' :: '\n' ::
      s.entries.flatMap (fun e => (writeEntry e).toList)) := by
  simp [WrittenSection.write, String.toList_append, String.toList_join, List.flatMap_map]

theorem toList_writeDocument_cons (s s' : WrittenSection) (sections : List WrittenSection) :
    (writeDocument (s :: s' :: sections)).toList =
      s.write.toList ++ '\n' :: (writeDocument (s' :: sections)).toList := by
  simp [writeDocument, String.intercalate_cons_cons, String.toList_append]

theorem reads_section {s : WrittenSection} (hname : IsBareName s.name) {rest : List Char}
    {statements : List Statement} (h : Reads rest statements) :
    Reads (s.write.toList ++ rest) (s.statements ++ statements) := by
  have htext : s.write.toList ++ rest = '[' :: (s.name.toList ++ ']' :: '\n' ::
      (s.entries.flatMap (fun e => (writeEntry e).toList) ++ rest)) := by
    simp [s.toList_write]
  rw [htext]
  refine reads_statement (readStatement?_header hname _) ?_ (reads_entries s.entries h)
  simp only [List.length_cons, List.length_append]
  omega

theorem reads_writeDocument {sections : List WrittenSection}
    (hnames : ∀ s ∈ sections, IsBareName s.name) :
    Reads (writeDocument sections).toList (sections.flatMap WrittenSection.statements) := by
  induction sections with
  | nil => exact reads_nil
  | cons s sections ih =>
      have hs := hnames s List.mem_cons_self
      have hrest := ih fun s' hs' => hnames s' (List.mem_cons_of_mem _ hs')
      rw [List.flatMap_cons]
      cases sections with
      | nil =>
          have hread := reads_section hs reads_nil
          rw [List.append_nil] at hread
          exact hread
      | cons s' sections =>
          rw [toList_writeDocument_cons]
          exact reads_section hs (reads_statement (readStatement?_break _) (by simp) hrest)

end ShaderTemplates.Toml
