import ShaderTemplates.Proofs.Markers

/-!
# Marker lines

How the markers are read in the forms in which templates are usually written: each alone on its
line, with one blank between its words.  A header takes the blank lines behind it; directly before
a line with content (`Opens`) there are none.

* `marker?_ifLine`, `marker?_elseLine`, `marker?_endIf`: conditionals;
* `marker?_blockLine`, `marker?_endBlockLine`: blocks, behind a comment leader;
* `variableWord?_text`: variables.
-/

namespace ShaderTemplates.Template

open Text

-- ── Headers ──────────────────────────────────────────────────────────────────

/-- A text whose first line with anything on it is its first line. -/
def Opens (cs : List Char) : Prop :=
  ∃ a c b, cs = a ++ c :: b ∧ '\n' ∉ a ∧ isAsciiBlank c = false

theorem Opens.append {cs : List Char} (h : Opens cs) (rest : List Char) : Opens (cs ++ rest) := by
  obtain ⟨a, c, b, rfl, ha, hc⟩ := h
  exact ⟨a, c, b ++ rest, by simp, ha, hc⟩

theorem headerEnd?_of_opens {cs : List Char} (h : Opens cs) : headerEnd? cs = none := by
  obtain ⟨a, c, b, rfl, ha, hc⟩ := h
  induction a with
  | nil => simp [headerEnd?, hc]
  | cons x a ih =>
      have hx : x ≠ '\n' := fun hx => ha (hx ▸ List.mem_cons_self)
      rw [List.cons_append, headerEnd?, ih fun hm => ha (List.mem_cons_of_mem _ hm)]
      simp [hx]

/-- Behind the blank lines that a header takes there are no more of them. -/
theorem headerEnd?_drop {cs : List Char} {n : Nat} (h : headerEnd? cs = some n) :
    headerEnd? (cs.drop n) = none := by
  induction cs generalizing n with
  | nil => cases h
  | cons c cs ih =>
      rw [headerEnd?] at h
      split at h
      · cases hrest : headerEnd? cs with
        | some m =>
            rw [hrest] at h
            cases h
            exact ih hrest
        | none =>
            rw [hrest] at h
            dsimp only at h
            split at h
            · cases h
              exact hrest
            · cases h
      · cases h

/-- The blank lines at the start of a text. -/
def blankLines (cs : List Char) : List Char := cs.take ((headerEnd? cs).getD 0)

/-- The text behind the blank lines at its start. -/
def afterBlankLines (cs : List Char) : List Char := cs.drop ((headerEnd? cs).getD 0)

theorem blankLines_append (cs : List Char) : blankLines cs ++ afterBlankLines cs = cs :=
  List.take_append_drop _ _

theorem blankLines_of_opens {cs : List Char} (h : Opens cs) : blankLines cs = [] := by
  rw [blankLines, headerEnd?_of_opens h]
  rfl

theorem afterBlankLines_of_opens {cs : List Char} (h : Opens cs) : afterBlankLines cs = cs := by
  rw [afterBlankLines, headerEnd?_of_opens h]
  rfl

/-- A header ends with its line and the blank lines behind it. -/
theorem endHeader_break (marker : Marker) (taken rest : List Char) :
    endHeader marker taken ('\n' :: rest) =
      some ⟨marker, taken ++ '\n' :: blankLines rest, afterBlankLines rest⟩ := by
  rw [endHeader, headerEnd?, blankLines, afterBlankLines]
  cases headerEnd? rest with
  | none => rfl
  | some n => rfl

theorem afterKeyword?_prefix (keyword rest : List Char) :
    afterKeyword? keyword (keyword ++ rest) = some rest := by
  simp [afterKeyword?]

/-- The comment leader in front of the markers of blocks. -/
def leader : List Char := ['/', '/', ' ']

theorem afterLeaders_at (colon : Bool) (rest : List Char) :
    afterLeaders colon ('@' :: rest) = '@' :: rest := by
  rw [afterLeaders] <;> simp

theorem afterLeaders_leader (colon : Bool) (rest : List Char) :
    afterLeaders colon (leader ++ '@' :: rest) = '@' :: rest := by
  show afterLeaders colon ('/' :: '/' :: ' ' :: '@' :: rest) = _
  rw [afterLeaders]
  exact afterLeaders_at colon rest

theorem leaders_leader (colon : Bool) (rest : List Char) :
    leaders colon (leader ++ '@' :: rest) = leader := by
  have happ := leaders_append colon (leader ++ '@' :: rest)
  rw [afterLeaders_leader] at happ
  exact List.append_cancel_right happ

theorem not_inlineBlank_of_wordChar {c : Char} (h : isWordChar c = true) :
    isInlineBlank c = false := by
  cases hi : isInlineBlank c with
  | false => rfl
  | true => rw [isWordChar, isAsciiBlank_of_isInlineBlank hi] at h; cases h

/-- A blank in front of a word is a gap of its own. -/
theorem gap_before_word {name : List Char} (hne : name ≠ [])
    (hname : ∀ c ∈ name, isWordChar c = true) (rest : List Char) :
    (' ' :: (name ++ rest)).takeWhile isInlineBlank = [' '] ∧
      (' ' :: (name ++ rest)).dropWhile isInlineBlank = name ++ rest := by
  obtain ⟨c, name, rfl⟩ := List.exists_cons_of_ne_nil hne
  have hc := not_inlineBlank_of_wordChar (hname c List.mem_cons_self)
  rw [List.takeWhile_cons_of_pos rfl, List.dropWhile_cons_of_pos rfl, List.cons_append,
    List.takeWhile_cons_of_neg (by simp [hc]), List.dropWhile_cons_of_neg (by simp [hc])]
  exact ⟨rfl, rfl⟩

-- ── Blocks ───────────────────────────────────────────────────────────────────

/-- The line that opens a block. -/
def blockLine (name : List Char) : List Char := leader ++ (blockKeyword ++ ' ' :: name)

theorem blockHeader?_line {name rest : List Char} (hne : name ≠ [])
    (hname : ∀ c ∈ name, isWordChar c = true) :
    blockHeader? (blockLine name ++ '\n' :: rest) =
      some ⟨.blockHeader (String.ofList name), blockLine name ++ '\n' :: blankLines rest,
        afterBlankLines rest⟩ := by
  have htext : blockLine name ++ '\n' :: rest =
      leader ++ '@' :: (['b', 'l', 'o', 'c', 'k', ' '] ++ (name ++ '\n' :: rest)) := by
    simp [blockLine, blockKeyword]
  have hkey : afterKeyword? blockKeyword
      ('@' :: (['b', 'l', 'o', 'c', 'k', ' '] ++ (name ++ '\n' :: rest))) =
        some (' ' :: (name ++ '\n' :: rest)) := afterKeyword?_prefix blockKeyword _
  obtain ⟨hgap, hafter⟩ := gap_before_word hne hname ('\n' :: rest)
  have hne' : name.isEmpty = false := by simpa using hne
  rw [blockHeader?, htext, afterLeaders_leader, leaders_leader, hkey]
  show (if _ then _ else _) = _
  rw [hgap, hafter, takeWhile_run hname rfl, dropWhile_run hname rfl, hne', if_neg (by simp),
    endHeader_break]
  simp [blockLine]

/-- The line that opens a block. -/
theorem marker?_blockLine (b : Bool) {name : List Char} (hne : name ≠ [])
    (hname : ∀ c ∈ name, isWordChar c = true) (rest : List Char) :
    marker? b (blockLine name ++ '\n' :: rest) =
      some ⟨.blockHeader (String.ofList name), blockLine name ++ '\n' :: blankLines rest,
        afterBlankLines rest⟩ := by
  have hvar : variableWord? (blockLine name ++ '\n' :: rest) = none := rfl
  have hif : ifHeader? (blockLine name ++ '\n' :: rest) = none := rfl
  rw [marker?_eq_anyMarker?, anyMarker?, hvar, hif, blockHeader?_line hne hname]
  rfl

/-- The line that closes a block. -/
def endBlockLine : List Char := leader ++ endBlockKeyword

theorem marker?_endBlockLine (rest : List Char) :
    marker? true (endBlockLine ++ rest) = some ⟨.endBlock, endBlockLine, rest⟩ := by
  have htext : endBlockLine ++ rest =
      leader ++ '@' :: (['e', 'n', 'd', 'b', 'l', 'o', 'c', 'k'] ++ rest) := by
    simp [endBlockLine, endBlockKeyword]
  have hkey : afterKeyword? endBlockKeyword
      ('@' :: (['e', 'n', 'd', 'b', 'l', 'o', 'c', 'k'] ++ rest)) = some rest :=
    afterKeyword?_prefix endBlockKeyword rest
  have hvar : variableWord? (endBlockLine ++ rest) = none := rfl
  have hif : ifHeader? (endBlockLine ++ rest) = none := rfl
  have helse : elseLine? (endBlockLine ++ rest) = none := rfl
  have hend : endIf? (endBlockLine ++ rest) = none := rfl
  have hblock : blockHeader? (endBlockLine ++ rest) = none := by
    rw [blockHeader?, htext, afterLeaders_leader]
    rfl
  have hendBlock : endBlock? (endBlockLine ++ rest) = some ⟨.endBlock, endBlockLine, rest⟩ := by
    rw [endBlock?, htext, afterLeaders_leader, leaders_leader, hkey]
    rfl
  rw [marker?_eq_anyMarker?, anyMarker?, hvar, hif, hblock, if_pos rfl, helse, hend, hendBlock]
  rfl


-- ── Conditionals ─────────────────────────────────────────────────────────────

/-- The default in the header of a conditional. -/
def defaultText : Option Bool → List Char
  | none => []
  | some true => [':', 't', 'r', 'u', 'e']
  | some false => [':', 'f', 'a', 'l', 's', 'e']

theorem conditionDefault?_text (default? : Option Bool) (rest : List Char) :
    conditionDefault? (defaultText default? ++ '\n' :: rest) =
      some (default?, defaultText default?, '\n' :: rest) := by
  cases default? with
  | none => rfl
  | some value => cases value <;> rfl

/-- The line that opens a conditional. -/
def ifLine (name : List Char) (default? : Option Bool) : List Char :=
  ifKeyword ++ ' ' :: (name ++ defaultText default?)

theorem wordChar_of_conditionChar {c : Char} (h : isConditionChar c = true) :
    isWordChar c = true := by
  simp only [isConditionChar, Bool.not_or, Bool.and_eq_true] at h
  exact h.2

/-- Behind the name of a condition stands its default or the line break. -/
theorem defaultText_head (default? : Option Bool) (rest : List Char) :
    ∃ c after, defaultText default? ++ '\n' :: rest = c :: after ∧ isConditionChar c = false := by
  cases default? with
  | none => exact ⟨'\n', rest, rfl, rfl⟩
  | some value => cases value <;> exact ⟨':', _, rfl, rfl⟩

theorem ifHeader?_line {name rest : List Char} (hne : name ≠ [])
    (hname : ∀ c ∈ name, isConditionChar c = true) (default? : Option Bool) :
    ifHeader? (ifLine name default? ++ '\n' :: rest) =
      some ⟨.ifHeader (String.ofList name) default?, ifLine name default? ++ '\n' :: blankLines rest,
        afterBlankLines rest⟩ := by
  have htext : ifLine name default? ++ '\n' :: rest =
      ifKeyword ++ ' ' :: (name ++ (defaultText default? ++ '\n' :: rest)) := by
    simp [ifLine]
  obtain ⟨hgap, hafter⟩ := gap_before_word hne
    (fun c hc => wordChar_of_conditionChar (hname c hc)) (defaultText default? ++ '\n' :: rest)
  have hrun : (name ++ (defaultText default? ++ '\n' :: rest)).takeWhile isConditionChar = name ∧
      (name ++ (defaultText default? ++ '\n' :: rest)).dropWhile isConditionChar =
        defaultText default? ++ '\n' :: rest := by
    obtain ⟨c, after, hd, hc⟩ := defaultText_head default? rest
    rw [hd]
    exact ⟨takeWhile_run hname hc after, dropWhile_run hname hc after⟩
  have hne' : name.isEmpty = false := by simpa using hne
  rw [ifHeader?, htext, afterKeyword?_prefix]
  show (if _ then _ else _) = _
  rw [hgap, hafter, hrun.1, hrun.2, hne', if_neg (by simp), conditionDefault?_text]
  show endHeader _ _ _ = _
  rw [endHeader_break]
  simp [ifLine]

/-- The line that opens a conditional. -/
theorem marker?_ifLine (b : Bool) {name : List Char} (hne : name ≠ [])
    (hname : ∀ c ∈ name, isConditionChar c = true) (default? : Option Bool) (rest : List Char) :
    marker? b (ifLine name default? ++ '\n' :: rest) =
      some ⟨.ifHeader (String.ofList name) default?, ifLine name default? ++ '\n' :: blankLines rest,
        afterBlankLines rest⟩ := by
  have hvar : variableWord? (ifLine name default? ++ '\n' :: rest) = none := rfl
  rw [marker?_eq_anyMarker?, anyMarker?, hvar, ifHeader?_line hne hname default?]
  rfl

/-- The line between the branches of a conditional. -/
theorem marker?_elseLine (rest : List Char) :
    marker? true (elseKeyword ++ '\n' :: rest) =
      some ⟨.elseLine, elseKeyword ++ '\n' :: blankLines rest, afterBlankLines rest⟩ := by
  have hvar : variableWord? (elseKeyword ++ '\n' :: rest) = none := rfl
  have hif : ifHeader? (elseKeyword ++ '\n' :: rest) = none := rfl
  have hblock : blockHeader? (elseKeyword ++ '\n' :: rest) = none := by
    rw [blockHeader?]
    show (afterKeyword? blockKeyword (afterLeaders false ('@' :: _))).bind _ = _
    rw [afterLeaders_at]
    rfl
  have helse : elseLine? (elseKeyword ++ '\n' :: rest) =
      some ⟨.elseLine, elseKeyword ++ '\n' :: blankLines rest, afterBlankLines rest⟩ := by
    rw [elseLine?, afterKeyword?_prefix]
    exact endHeader_break _ _ _
  rw [marker?_eq_anyMarker?, anyMarker?, hvar, hif, hblock, if_pos rfl, helse]
  rfl

/-- The word that closes a conditional. -/
theorem marker?_endIf (rest : List Char) :
    marker? true (endIfKeyword ++ rest) = some ⟨.endIf, endIfKeyword, rest⟩ := by
  have hvar : variableWord? (endIfKeyword ++ rest) = none := rfl
  have hif : ifHeader? (endIfKeyword ++ rest) = none := rfl
  have hblock : blockHeader? (endIfKeyword ++ rest) = none := by
    rw [blockHeader?]
    show (afterKeyword? blockKeyword (afterLeaders false ('@' :: _))).bind _ = _
    rw [afterLeaders_at]
    rfl
  have helse : elseLine? (endIfKeyword ++ rest) = none := rfl
  have hend : endIf? (endIfKeyword ++ rest) = some ⟨.endIf, endIfKeyword, rest⟩ := by
    rw [endIf?, afterKeyword?_prefix]
    rfl
  rw [marker?_eq_anyMarker?, anyMarker?, hvar, hif, hblock, if_pos rfl, helse, hend]
  rfl

-- ── Variables ────────────────────────────────────────────────────────────────

/-- Alternatives, each behind a bar. -/
def barred (alternatives : List (List Char)) : List Char := alternatives.flatMap ('|' :: ·)

/-- The alternatives of a variable as they are written. -/
def alternativesText : List (List Char) → List Char
  | [] => []
  | first :: others => '=' :: (first ++ barred others)

/-- A variable as it is written. -/
def variableText (name : List Char) (alternatives : List (List Char)) : List Char :=
  '<' :: (name ++ (alternativesText alternatives ++ ['>']))

theorem not_inlineBlank_of_alternativeChar {c : Char} (h : isAlternativeChar c = true) :
    isInlineBlank c = false := by
  cases hi : isInlineBlank c with
  | false => rfl
  | true => simp [isAlternativeChar, isAsciiBlank_of_isInlineBlank hi] at h

/-- A word is its own first alternative if a bar or a bracket follows it. -/
theorem firstValue_word {word : List Char} (hne : word ≠ [])
    (hword : ∀ c ∈ word, isAlternativeChar c = true) {stop : Char}
    (hstop : isAlternativeChar stop = false) (hblank : isInlineBlank stop = false)
    (rest : List Char) :
    firstValue (word ++ stop :: rest) = word ∧
      afterFirstValue (word ++ stop :: rest) = stop :: rest ∧
      firstValueSource (word ++ stop :: rest) = word := by
  obtain ⟨c, cs, rfl⟩ := List.exists_cons_of_ne_nil hne
  have hc := not_inlineBlank_of_alternativeChar (hword c List.mem_cons_self)
  have hdrop : (c :: cs ++ stop :: rest).dropWhile isInlineBlank = c :: cs ++ stop :: rest :=
    List.dropWhile_cons_of_neg (by simp [hc])
  have htake : (c :: cs ++ stop :: rest).takeWhile isInlineBlank = [] :=
    List.takeWhile_cons_of_neg (by simp [hc])
  have hvalue : firstValue (c :: cs ++ stop :: rest) = c :: cs := by
    rw [firstValue, hdrop, takeWhile_run hword hstop]
  refine ⟨hvalue, ?_, ?_⟩
  · rw [afterFirstValue, hdrop, dropWhile_run hword hstop]
    exact List.dropWhile_cons_of_neg (by simp [hblank])
  · rw [firstValueSource, hvalue, hdrop, htake, dropWhile_run hword hstop,
      List.takeWhile_cons_of_neg (by simp [hblank])]
    simp

theorem alternatives?_text {first : List Char} {others : List (List Char)}
    (hne : ∀ a ∈ first :: others, a ≠ [])
    (hword : ∀ a ∈ first :: others, ∀ c ∈ a, isAlternativeChar c = true) (rest : List Char) :
    alternatives? (first ++ (barred others ++ '>' :: rest)) =
      some ((first :: others).map String.ofList, first ++ (barred others ++ ['>']), rest) := by
  induction others generalizing first with
  | nil =>
      obtain ⟨hvalue, hafter, hsource⟩ := firstValue_word (hne first List.mem_cons_self)
        (hword first List.mem_cons_self) (show isAlternativeChar '>' = false from rfl) rfl rest
      have hfirst : first.isEmpty = false := by simpa using hne first List.mem_cons_self
      have htext : first ++ (barred [] ++ '>' :: rest) = first ++ '>' :: rest := rfl
      rw [htext, alternatives?_eq, hvalue, hafter, hsource, hfirst, if_neg (by simp)]
      rfl
  | cons second others ih =>
      obtain ⟨hvalue, hafter, hsource⟩ := firstValue_word (hne first List.mem_cons_self)
        (hword first List.mem_cons_self) (show isAlternativeChar '|' = false from rfl) rfl
        (second ++ (barred others ++ '>' :: rest))
      have hfirst : first.isEmpty = false := by simpa using hne first List.mem_cons_self
      have htext : first ++ (barred (second :: others) ++ '>' :: rest) =
          first ++ '|' :: (second ++ (barred others ++ '>' :: rest)) := by
        simp [barred]
      have hsecond := ih (fun a ha => hne a (List.mem_cons_of_mem _ ha))
        (fun a ha => hword a (List.mem_cons_of_mem _ ha))
      rw [htext, alternatives?_eq, hvalue, hafter, hsource, hfirst, if_neg (by simp)]
      show Option.map _ (alternatives? _) = _
      rw [hsecond]
      simp [barred]

/-- A variable is read as it is written; an alternative that is repeated counts once. -/
theorem variableWord?_text {name : List Char} {alternatives : List (List Char)}
    (hne : name ≠ []) (hname : ∀ c ∈ name, isVariableChar c = true)
    (halt : ∀ a ∈ alternatives, a ≠ [])
    (hword : ∀ a ∈ alternatives, ∀ c ∈ a, isAlternativeChar c = true) (rest : List Char) :
    variableWord? (variableText name alternatives ++ rest) =
      some ⟨.variable (String.ofList name) (alternatives.map String.ofList).eraseDups,
        variableText name alternatives, rest⟩ := by
  have hne' : name.isEmpty = false := by simpa using hne
  cases alternatives with
  | nil =>
      have htext : variableText name [] ++ rest = '<' :: (name ++ '>' :: rest) := by
        simp [variableText, alternativesText]
      rw [htext, variableWord?]
      show (if _ then _ else _) = _
      rw [takeWhile_run hname rfl, dropWhile_run hname rfl, hne', if_neg (by simp)]
      have hclose : ('>' :: rest).dropWhile isInlineBlank = '>' :: rest := rfl
      rw [hclose]
      simp [variableText, alternativesText, isInlineBlank]
  | cons first others =>
      have htext : variableText name (first :: others) ++ rest =
          '<' :: (name ++ '=' :: (first ++ (barred others ++ '>' :: rest))) := by
        simp [variableText, alternativesText]
      rw [htext, variableWord?]
      show (if _ then _ else _) = _
      rw [takeWhile_run hname rfl, dropWhile_run hname rfl, hne', if_neg (by simp)]
      show Option.map _ (alternatives? _) = _
      rw [alternatives?_text halt hword]
      simp [variableText, alternativesText, isInlineBlank]

end ShaderTemplates.Template
