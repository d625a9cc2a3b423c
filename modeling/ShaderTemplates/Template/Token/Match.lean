import ShaderTemplates.Template.Token
import ShaderTemplates.Text

/-!
# Markers at the start of a text

`marker?` decides whether a directive marker starts at the first character of a text. The grammar
is lenient: what does not match is ordinary text, never an error.

```text
@if <blank> Name [: [literal]] <line break>      literal: true or false in any case
@else <line break>                               at the start of a line
@endif                                           at the start of a line
[// ...] @block <blank> Name <line break>
[[:]// ...] @endblock                            at the start of a line
<Name>   <Name = a | b | c>                      on one line
```

A line break ends a header together with the blank lines after it; the indentation of the next
line with content does not belong to the header (`headerEnd?`).

What a match takes and what it leaves make up the text (`marker?_append`), and a match takes at
least one character (`marker?_source_ne_nil`). Only four characters start markers
(`marker?_eq_anyMarker?`), so most positions of a text are passed at once.
-/

namespace ShaderTemplates.Template

open Text

/-- A marker at the start of a text, the characters it takes, and the text after them. -/
structure Found where
  marker : Marker
  source : List Char
  rest : List Char
deriving DecidableEq, Repr

-- ── Words ────────────────────────────────────────────────────────────────────

def ifKeyword : List Char := ['@', 'i', 'f']

def elseKeyword : List Char := ['@', 'e', 'l', 's', 'e']

def endIfKeyword : List Char := ['@', 'e', 'n', 'd', 'i', 'f']

def blockKeyword : List Char := ['@', 'b', 'l', 'o', 'c', 'k']

def endBlockKeyword : List Char := ['@', 'e', 'n', 'd', 'b', 'l', 'o', 'c', 'k']

/-- The characters of a block's name, and of a default's literal. -/
def isWordChar (c : Char) : Bool := !isAsciiBlank c

/-- The characters of a condition's name. -/
def isConditionChar (c : Char) : Bool := !(c == ':' || isAsciiBlank c)

/-- The characters of a variable's name. -/
def isVariableChar (c : Char) : Bool := !(c == '=' || c == '<' || c == '>' || isAsciiBlank c)

/-- The characters of an alternative. -/
def isAlternativeChar (c : Char) : Bool := !(c == '|' || c == '<' || c == '>' || isAsciiBlank c)

-- ── Parts of markers ─────────────────────────────────────────────────────────

/-- The length of the blanks up to the last line break among them, if there is one before the next
    character that is not blank. -/
def headerEnd? : List Char → Option Nat
  | [] => none
  | c :: rest =>
    if isAsciiBlank c then
      match headerEnd? rest with
      | some n => some (n + 1)
      | none => if c = '\n' then some 1 else none
    else none

/-- Ends a header that consists of `taken` so far. -/
def endHeader (marker : Marker) (taken rest : List Char) : Option Found :=
  (headerEnd? rest).map fun n => ⟨marker, taken ++ rest.take n, rest.drop n⟩

/-- The text after a keyword. -/
def afterKeyword? (keyword cs : List Char) : Option (List Char) :=
  if keyword.isPrefixOf cs then some (cs.drop keyword.length) else none

/-- The literals `true` and `false` in any mixture of cases. -/
def boolLiteral? (cs : List Char) : Option Bool :=
  let word := cs.map Char.toLower
  if word = ['t', 'r', 'u', 'e'] then some true
  else if word = ['f', 'a', 'l', 's', 'e'] then some false
  else none

/-- The optional default after the name of a condition: its value, the characters it takes and the
    text after them. A colon without a literal gives no default; any other literal is refused. -/
def conditionDefault? (cs : List Char) : Option (Option Bool × List Char × List Char) :=
  let blanks := cs.takeWhile isInlineBlank
  match cs.dropWhile isInlineBlank with
  | ':' :: afterColon =>
    let gap := afterColon.takeWhile isInlineBlank
    let afterGap := afterColon.dropWhile isInlineBlank
    let literal := afterGap.takeWhile isWordChar
    let taken := blanks ++ ':' :: (gap ++ literal)
    let rest := afterGap.dropWhile isWordChar
    if literal.isEmpty then some (none, taken, rest)
    else (boolLiteral? literal).map fun value => (some value, taken, rest)
  | rest => some (none, blanks, rest)

/-- The text after the comment leaders at its start. A leader is `//` with the blanks behind it;
    where `colon` says so, a colon may stand in front. -/
def afterLeaders (colon : Bool) (cs : List Char) : List Char :=
  match cs with
  | '/' :: '/' :: rest => afterLeaders colon (rest.dropWhile isInlineBlank)
  | ':' :: '/' :: '/' :: rest =>
    if colon then afterLeaders colon (rest.dropWhile isInlineBlank) else cs
  | _ => cs
termination_by cs.length
decreasing_by
  all_goals
    have := (List.dropWhile_sublist isInlineBlank (l := rest)).length_le
    simp only [List.length_cons]
    omega

/-- The comment leaders at the start of a text. -/
def leaders (colon : Bool) (cs : List Char) : List Char :=
  match cs with
  | '/' :: '/' :: rest =>
    '/' :: '/' :: (rest.takeWhile isInlineBlank ++ leaders colon (rest.dropWhile isInlineBlank))
  | ':' :: '/' :: '/' :: rest =>
    if colon then
      ':' :: '/' :: '/' ::
        (rest.takeWhile isInlineBlank ++ leaders colon (rest.dropWhile isInlineBlank))
    else []
  | _ => []
termination_by cs.length
decreasing_by
  all_goals
    have := (List.dropWhile_sublist isInlineBlank (l := rest)).length_le
    simp only [List.length_cons]
    omega

/-- The alternatives of a variable, the characters up to and including the closing bracket, and
    the text after it. -/
def alternatives? (cs : List Char) : Option (List String × List Char × List Char) :=
  let blanks := cs.takeWhile isInlineBlank
  let afterBlanks := cs.dropWhile isInlineBlank
  let value := afterBlanks.takeWhile isAlternativeChar
  let afterValue := afterBlanks.dropWhile isAlternativeChar
  let taken := blanks ++ (value ++ afterValue.takeWhile isInlineBlank)
  if value.isEmpty then none
  else
    match _h : afterValue.dropWhile isInlineBlank with
    | '|' :: more =>
      (alternatives? more).map fun found =>
        (String.ofList value :: found.1, taken ++ '|' :: found.2.1, found.2.2)
    | '>' :: rest => some ([String.ofList value], taken ++ ['>'], rest)
    | _ => none
termination_by cs.length
decreasing_by
  have h₁ := (List.dropWhile_sublist isInlineBlank (l := cs)).length_le
  have h₂ := (List.dropWhile_sublist isAlternativeChar
    (l := cs.dropWhile isInlineBlank)).length_le
  have h₃ := (List.dropWhile_sublist isInlineBlank
    (l := (cs.dropWhile isInlineBlank).dropWhile isAlternativeChar)).length_le
  have h₄ : (((cs.dropWhile isInlineBlank).dropWhile isAlternativeChar).dropWhile
    isInlineBlank).length = more.length + 1 := congrArg List.length _h
  omega

-- ── The markers ──────────────────────────────────────────────────────────────

/-- The header of a conditional. -/
def ifHeader? (cs : List Char) : Option Found :=
  (afterKeyword? ifKeyword cs).bind fun afterKeyword =>
    let gap := afterKeyword.takeWhile isInlineBlank
    let afterGap := afterKeyword.dropWhile isInlineBlank
    let name := afterGap.takeWhile isConditionChar
    let afterName := afterGap.dropWhile isConditionChar
    if gap.isEmpty || name.isEmpty then none
    else
      (conditionDefault? afterName).bind fun found =>
        endHeader (.ifHeader (String.ofList name) found.1)
          (ifKeyword ++ (gap ++ (name ++ found.2.1))) found.2.2

/-- The line between the branches of a conditional. -/
def elseLine? (cs : List Char) : Option Found :=
  (afterKeyword? elseKeyword cs).bind (endHeader .elseLine elseKeyword)

/-- The end of a conditional. -/
def endIf? (cs : List Char) : Option Found :=
  (afterKeyword? endIfKeyword cs).map fun rest => ⟨.endIf, endIfKeyword, rest⟩

/-- The header of a block, comment leaders included. -/
def blockHeader? (cs : List Char) : Option Found :=
  (afterKeyword? blockKeyword (afterLeaders false cs)).bind fun afterKeyword =>
    let gap := afterKeyword.takeWhile isInlineBlank
    let afterGap := afterKeyword.dropWhile isInlineBlank
    let name := afterGap.takeWhile isWordChar
    let afterName := afterGap.dropWhile isWordChar
    if gap.isEmpty || name.isEmpty then none
    else
      endHeader (.blockHeader (String.ofList name))
        (leaders false cs ++ (blockKeyword ++ (gap ++ name))) afterName

/-- The end of a block, comment leaders included. -/
def endBlock? (cs : List Char) : Option Found :=
  (afterKeyword? endBlockKeyword (afterLeaders true cs)).map fun rest =>
    ⟨.endBlock, leaders true cs ++ endBlockKeyword, rest⟩

/-- A variable with or without alternatives. An alternative that is repeated counts once. -/
def variableWord? (cs : List Char) : Option Found :=
  match cs with
  | '<' :: afterOpen =>
    let name := afterOpen.takeWhile isVariableChar
    let afterName := afterOpen.dropWhile isVariableChar
    let taken := '<' :: (name ++ afterName.takeWhile isInlineBlank)
    if name.isEmpty then none
    else
      match afterName.dropWhile isInlineBlank with
      | '>' :: rest => some ⟨.variable (String.ofList name) [], taken ++ ['>'], rest⟩
      | '=' :: more =>
        (alternatives? more).map fun found =>
          ⟨.variable (String.ofList name) found.1.eraseDups, taken ++ '=' :: found.2.1, found.2.2⟩
      | _ => none
  | _ => none

/-- The first of the markers that is at the start of a text. -/
def anyMarker? (lineStart : Bool) (cs : List Char) : Option Found :=
  variableWord? cs <|> ifHeader? cs <|> blockHeader? cs <|>
    if lineStart then elseLine? cs <|> endIf? cs <|> endBlock? cs else none

/-- The characters that markers start with. -/
def startsMarker (c : Char) : Bool := c == '<' || c == '@' || c == '/' || c == ':'

/-- The marker at the start of a text. `lineStart` tells whether only blanks stand between the
    start of the line and the text. -/
def marker? (lineStart : Bool) (cs : List Char) : Option Found :=
  if cs.head?.any startsMarker then anyMarker? lineStart cs else none

-- ── What a match takes ───────────────────────────────────────────────────────

theorem append_drop_of_isPrefixOf {keyword cs : List Char} (h : keyword.isPrefixOf cs = true) :
    keyword ++ cs.drop keyword.length = cs := by
  obtain ⟨rest, rfl⟩ := List.isPrefixOf_iff_prefix.1 h
  simp

theorem afterKeyword?_append {keyword cs rest : List Char}
    (h : afterKeyword? keyword cs = some rest) : keyword ++ rest = cs := by
  unfold afterKeyword? at h
  split at h
  next hp => cases h; exact append_drop_of_isPrefixOf hp
  next => cases h

/-- A blank run and what follows it make up the text. -/
theorem takeWhile_append_of_dropWhile_eq {p : Char → Bool} {cs rest : List Char}
    (h : cs.dropWhile p = rest) : cs.takeWhile p ++ rest = cs :=
  h ▸ List.takeWhile_append_dropWhile

theorem endHeader_append {marker : Marker} {taken rest : List Char} {f : Found}
    (h : endHeader marker taken rest = some f) : f.source ++ f.rest = taken ++ rest := by
  obtain ⟨n, _, rfl⟩ := Option.map_eq_some_iff.1 h
  simp

theorem conditionDefault?_append {cs : List Char} {found : Option Bool × List Char × List Char}
    (h : conditionDefault? cs = some found) : found.2.1 ++ found.2.2 = cs := by
  unfold conditionDefault? at h
  split at h
  next afterColon hc =>
    have hcs := takeWhile_append_of_dropWhile_eq hc
    have key : ∀ value : Option Bool,
        ((value, cs.takeWhile isInlineBlank ++ ':' :: (afterColon.takeWhile isInlineBlank ++
            (afterColon.dropWhile isInlineBlank).takeWhile isWordChar),
          (afterColon.dropWhile isInlineBlank).dropWhile isWordChar) :
            Option Bool × List Char × List Char) = found →
        found.2.1 ++ found.2.2 = cs := by
      rintro value rfl
      simp only [List.append_assoc, List.cons_append, List.takeWhile_append_dropWhile]
      exact hcs
    dsimp only at h
    split at h
    · exact key none (Option.some.inj h)
    · obtain ⟨value, _, hv⟩ := Option.map_eq_some_iff.1 h
      exact key (some value) hv
  next =>
    cases h
    exact List.takeWhile_append_dropWhile

theorem leaders_append (colon : Bool) (cs : List Char) :
    leaders colon cs ++ afterLeaders colon cs = cs := by
  fun_induction leaders colon cs with
  | case1 rest ih =>
    rw [afterLeaders]
    simp only [List.cons_append, List.append_assoc, ih, List.takeWhile_append_dropWhile]
  | case2 rest hc ih =>
    rw [afterLeaders, if_pos hc]
    simp only [List.cons_append, List.append_assoc, ih, List.takeWhile_append_dropWhile]
  | case3 rest hc => rw [afterLeaders, if_neg hc]; rfl
  | case4 cs h h' =>
    unfold afterLeaders
    split
    next rest => exact absurd rfl (h rest)
    next rest => exact absurd rfl (h' rest)
    next => rfl

theorem alternatives?_append {cs : List Char} {found : List String × List Char × List Char}
    (h : alternatives? cs = some found) : found.2.1 ++ found.2.2 = cs := by
  fun_induction alternatives? cs generalizing found with
  | case1 => cases h
  | case2 =>
    rename_i cs blanks afterBlanks value afterValue taken _ more hm ih
    obtain ⟨inner, hinner, rfl⟩ := Option.map_eq_some_iff.1 h
    have := takeWhile_append_of_dropWhile_eq hm
    simp only [List.append_assoc, List.cons_append, ih hinner, taken, blanks, value, this]
    simp only [afterValue, afterBlanks, List.takeWhile_append_dropWhile]
  | case3 =>
    rename_i cs blanks afterBlanks value afterValue taken _ rest hm
    cases h
    have := takeWhile_append_of_dropWhile_eq hm
    simp only [List.append_assoc, List.cons_append, List.nil_append, taken, blanks, value, this]
    simp only [afterValue, afterBlanks, List.takeWhile_append_dropWhile]
  | case4 => cases h

theorem ifHeader?_append {cs : List Char} {f : Found} (h : ifHeader? cs = some f) :
    f.source ++ f.rest = cs := by
  obtain ⟨rest, hk, h⟩ := Option.bind_eq_some_iff.1 h
  dsimp only at h
  split at h
  · cases h
  · obtain ⟨found, hd, h⟩ := Option.bind_eq_some_iff.1 h
    rw [endHeader_append h, List.append_assoc, List.append_assoc, List.append_assoc,
      conditionDefault?_append hd, List.takeWhile_append_dropWhile,
      List.takeWhile_append_dropWhile, afterKeyword?_append hk]

theorem elseLine?_append {cs : List Char} {f : Found} (h : elseLine? cs = some f) :
    f.source ++ f.rest = cs := by
  obtain ⟨rest, hk, h⟩ := Option.bind_eq_some_iff.1 h
  rw [endHeader_append h, afterKeyword?_append hk]

theorem endIf?_append {cs : List Char} {f : Found} (h : endIf? cs = some f) :
    f.source ++ f.rest = cs := by
  obtain ⟨rest, hk, rfl⟩ := Option.map_eq_some_iff.1 h
  exact afterKeyword?_append hk

theorem blockHeader?_append {cs : List Char} {f : Found} (h : blockHeader? cs = some f) :
    f.source ++ f.rest = cs := by
  obtain ⟨rest, hk, h⟩ := Option.bind_eq_some_iff.1 h
  dsimp only at h
  split at h
  · cases h
  · rw [endHeader_append h, List.append_assoc, List.append_assoc, List.append_assoc,
      List.takeWhile_append_dropWhile, List.takeWhile_append_dropWhile, afterKeyword?_append hk,
      leaders_append]

theorem endBlock?_append {cs : List Char} {f : Found} (h : endBlock? cs = some f) :
    f.source ++ f.rest = cs := by
  obtain ⟨rest, hk, rfl⟩ := Option.map_eq_some_iff.1 h
  rw [List.append_assoc, afterKeyword?_append hk, leaders_append]

theorem variableWord?_append {cs : List Char} {f : Found} (h : variableWord? cs = some f) :
    f.source ++ f.rest = cs := by
  unfold variableWord? at h
  split at h
  next afterOpen =>
    dsimp only at h
    split at h
    · cases h
    · split at h
      next rest hc =>
        cases h
        simp only [List.append_assoc, List.cons_append, List.nil_append,
          takeWhile_append_of_dropWhile_eq hc, List.takeWhile_append_dropWhile]
      next more hc =>
        obtain ⟨found, ha, rfl⟩ := Option.map_eq_some_iff.1 h
        simp only [List.append_assoc, List.cons_append, alternatives?_append ha,
          takeWhile_append_of_dropWhile_eq hc, List.takeWhile_append_dropWhile]
      next => cases h
  next => cases h

theorem afterLeaders_of_head {colon : Bool} {c : Char} {rest : List Char}
    (h : startsMarker c = false) : afterLeaders colon (c :: rest) = c :: rest := by
  unfold afterLeaders
  split
  next hc => cases hc; cases h
  next hc => cases hc; cases h
  next => rfl

theorem afterKeyword?_of_head {keyword : List Char} {c : Char} {rest : List Char}
    (hk : '@' ∈ keyword.head?) (h : startsMarker c = false) :
    afterKeyword? keyword (c :: rest) = none := by
  obtain ⟨tail, rfl⟩ := List.head?_eq_some_iff.1 hk
  have hne : ¬ '@' = c := by rintro rfl; cases h
  simp [afterKeyword?, List.isPrefixOf, hne]

/-- A text that starts with none of the characters of `startsMarker` starts with no marker. -/
theorem marker?_eq_anyMarker? (lineStart : Bool) (cs : List Char) :
    marker? lineStart cs = anyMarker? lineStart cs := by
  unfold marker?
  split
  · rfl
  next hn =>
    cases cs with
    | nil => cases lineStart <;> simp [anyMarker?, variableWord?, ifHeader?, blockHeader?, elseLine?,
        endIf?, endBlock?, afterLeaders, afterKeyword?, ifKeyword, blockKeyword, elseKeyword,
        endIfKeyword, endBlockKeyword]
    | cons c rest =>
      have h : startsMarker c = false := by simpa using hn
      have hvar : variableWord? (c :: rest) = none := by
        unfold variableWord?
        split
        next hc => cases hc; cases h
        next => rfl
      have key := fun keyword hk => @afterKeyword?_of_head keyword c rest hk h
      simp [anyMarker?, hvar, ifHeader?, blockHeader?, elseLine?, endIf?, endBlock?,
        afterLeaders_of_head h, key ifKeyword rfl, key blockKeyword rfl, key elseKeyword rfl,
        key endIfKeyword rfl, key endBlockKeyword rfl]

/-- A marker is one of six kinds, and half of them need the start of a line. -/
theorem marker?_eq_some {lineStart : Bool} {cs : List Char} {f : Found}
    (h : marker? lineStart cs = some f) :
    variableWord? cs = some f ∨ ifHeader? cs = some f ∨ blockHeader? cs = some f ∨
      lineStart = true ∧ (elseLine? cs = some f ∨ endIf? cs = some f ∨ endBlock? cs = some f) := by
  simp only [marker?_eq_anyMarker?, anyMarker?, Option.orElse_eq_orElse, Option.orElse_eq_or,
    Option.or_eq_some_iff] at h
  rcases h with h | ⟨_, h | ⟨_, h | ⟨_, h⟩⟩⟩
  · exact .inl h
  · exact .inr (.inl h)
  · exact .inr (.inr (.inl h))
  · split at h
    next hstart =>
      simp only [Option.or_eq_some_iff] at h
      rcases h with h | ⟨_, h | ⟨_, h⟩⟩
      · exact .inr (.inr (.inr ⟨hstart, .inl h⟩))
      · exact .inr (.inr (.inr ⟨hstart, .inr (.inl h)⟩))
      · exact .inr (.inr (.inr ⟨hstart, .inr (.inr h)⟩))
    next => cases h

/-- The header of a conditional ends as headers do. -/
theorem ifHeader?_eq_some {cs : List Char} {f : Found} (h : ifHeader? cs = some f) :
    ∃ name default? taken rest, taken ≠ [] ∧
      endHeader (.ifHeader name default?) taken rest = some f := by
  obtain ⟨_, _, h⟩ := Option.bind_eq_some_iff.1 h
  dsimp only at h
  split at h
  · cases h
  · obtain ⟨found, _, h⟩ := Option.bind_eq_some_iff.1 h
    exact ⟨_, _, _, _, List.cons_ne_nil _ _, h⟩

/-- The header of a block ends as headers do, and its name is a word. -/
theorem blockHeader?_eq_some {cs : List Char} {f : Found} (h : blockHeader? cs = some f) :
    ∃ name taken rest, (∀ c ∈ name, isWordChar c = true) ∧ taken ≠ [] ∧
      endHeader (.blockHeader (String.ofList name)) taken rest = some f := by
  obtain ⟨_, _, h⟩ := Option.bind_eq_some_iff.1 h
  dsimp only at h
  split at h
  · cases h
  · refine ⟨_, _, _, ?_, List.append_ne_nil_of_right_ne_nil _ (List.cons_ne_nil _ _), h⟩
    exact fun c hc => List.all_eq_true.1 List.all_takeWhile c hc

theorem elseLine?_eq_some {cs : List Char} {f : Found} (h : elseLine? cs = some f) :
    ∃ rest, endHeader .elseLine elseKeyword rest = some f := by
  obtain ⟨rest, _, h⟩ := Option.bind_eq_some_iff.1 h
  exact ⟨rest, h⟩

/-- What a match takes and what it leaves make up the text. -/
theorem marker?_append {lineStart : Bool} {cs : List Char} {f : Found}
    (h : marker? lineStart cs = some f) : f.source ++ f.rest = cs := by
  rcases marker?_eq_some h with h | h | h | ⟨_, h | h | h⟩
  · exact variableWord?_append h
  · exact ifHeader?_append h
  · exact blockHeader?_append h
  · exact elseLine?_append h
  · exact endIf?_append h
  · exact endBlock?_append h

theorem endHeader_source_ne_nil {marker : Marker} {taken rest : List Char} {f : Found}
    (ht : taken ≠ []) (h : endHeader marker taken rest = some f) : f.source ≠ [] := by
  obtain ⟨n, _, rfl⟩ := Option.map_eq_some_iff.1 h
  simp [ht]

/-- A match takes at least one character. -/
theorem marker?_source_ne_nil {lineStart : Bool} {cs : List Char} {f : Found}
    (h : marker? lineStart cs = some f) : f.source ≠ [] := by
  rcases marker?_eq_some h with h | h | h | ⟨_, h | h | h⟩
  · unfold variableWord? at h
    split at h
    · dsimp only at h
      split at h
      · cases h
      · split at h
        · cases h; exact List.cons_ne_nil _ _
        · obtain ⟨_, _, rfl⟩ := Option.map_eq_some_iff.1 h
          exact List.cons_ne_nil _ _
        · cases h
    · cases h
  · obtain ⟨_, _, _, _, htaken, h⟩ := ifHeader?_eq_some h
    exact endHeader_source_ne_nil htaken h
  · obtain ⟨_, _, _, _, htaken, h⟩ := blockHeader?_eq_some h
    exact endHeader_source_ne_nil htaken h
  · obtain ⟨_, h⟩ := elseLine?_eq_some h
    exact endHeader_source_ne_nil (List.cons_ne_nil _ _) h
  · obtain ⟨_, _, rfl⟩ := Option.map_eq_some_iff.1 h
    exact List.cons_ne_nil _ _
  · obtain ⟨_, _, rfl⟩ := Option.map_eq_some_iff.1 h
    exact List.append_ne_nil_of_right_ne_nil _ (List.cons_ne_nil _ _)

end ShaderTemplates.Template
