import ShaderTemplates.Proofs.CommentLeaders

/-!
# The marker at a character

On bytes a marker is looked for at the first byte of the character that it starts with, the header
of a block at the at sign of its keyword.  `matchMarker_eq` says what is found there in terms of the
markers on characters: the marker that starts with the character (`ownMarker?`), or at an at sign the
header of a block together with the comment leaders in front of it.

No text starts with both (`ownMarker?_of_leaders`), so `marker?` is the first of the two that there
is (`marker?_eq_or`).
-/

namespace ShaderTemplates.Template.Offsets

open Text

-- ── Markers at a character ───────────────────────────────────────────────────

/-- The marker at the start of a text, headers of blocks left out. -/
def ownMarker? (lineStart : Bool) (cs : List Char) : Option Found :=
  (variableWord? cs).or <| (ifHeader? cs).or <|
    if lineStart then (elseLine? cs).or <| (endIf? cs).or <| endBlock? cs else none

/-- The header of a block is its keyword with what follows it, behind comment leaders. -/
theorem exists_of_blockHeader? {cs : List Char} {f : Found} (h : blockHeader? cs = some f) :
    ∃ ahead rest own, IsLeaders ahead ∧ cs = ahead ++ (blockKeyword ++ rest) ∧ own ≠ [] ∧
      f.source = ahead ++ own ∧ own ++ f.rest = blockKeyword ++ rest := by
  have happ := blockHeader?_append h
  obtain ⟨rest, hkeyword, h⟩ := Option.bind_eq_some_iff.1 h
  have hcs : cs = leaders false cs ++ (blockKeyword ++ rest) := by
    rw [afterKeyword?_append hkeyword, leaders_append]
  dsimp only at h
  split at h
  · cases h
  · obtain ⟨n, -, rfl⟩ := Option.map_eq_some_iff.1 h
    refine ⟨leaders false cs, rest, _, isLeaders_leaders cs, hcs, ?_, List.append_assoc _ _ _, ?_⟩
    · simp [blockKeyword]
    · refine List.append_cancel_left (?_ : leaders false cs ++ _ = leaders false cs ++ _)
      rw [← hcs, ← List.append_assoc, ← List.append_assoc]
      exact happ

/-- A text that starts with the header of a block starts with no other marker. -/
theorem ownMarker?_of_leaders {ahead : List Char} (h : IsLeaders ahead) (lineStart : Bool)
    (rest : List Char) : ownMarker? lineStart (ahead ++ (blockKeyword ++ rest)) = none := by
  have hend : endBlock? (ahead ++ (blockKeyword ++ rest)) = none := by
    have hafter : afterLeaders true (ahead ++ (blockKeyword ++ rest)) = blockKeyword ++ rest :=
      h.afterLeaders_eq true _
    rw [endBlock?, hafter]
    rfl
  have hothers : variableWord? (ahead ++ (blockKeyword ++ rest)) = none ∧
      ifHeader? (ahead ++ (blockKeyword ++ rest)) = none ∧
      elseLine? (ahead ++ (blockKeyword ++ rest)) = none ∧
      endIf? (ahead ++ (blockKeyword ++ rest)) = none := by
    cases h <;> exact ⟨rfl, rfl, rfl, rfl⟩
  obtain ⟨hvariable, hif, helse, hendIf⟩ := hothers
  rw [ownMarker?, hvariable, hif, helse, hendIf, hend]
  cases lineStart <;> rfl

theorem marker?_eq_or (lineStart : Bool) (cs : List Char) :
    marker? lineStart cs = (ownMarker? lineStart cs).or (blockHeader? cs) := by
  rw [marker?_eq_anyMarker?, anyMarker?]
  cases hb : blockHeader? cs with
  | none => cases lineStart <;> simp [ownMarker?]
  | some f =>
    obtain ⟨ahead, rest, own, hahead, rfl, -, -, -⟩ := exists_of_blockHeader? hb
    have hown := ownMarker?_of_leaders hahead lineStart rest
    rw [hown]
    simp only [ownMarker?, Option.or_eq_none_iff] at hown
    simp [hown.1, hown.2.1]

/-- Whether a text starts with the header of a block is decided behind its leaders. -/
theorem blockHeader?_isSome {a b : List Char} (h : afterLeaders false a = afterLeaders false b) :
    (blockHeader? a).isSome = (blockHeader? b).isSome := by
  rw [blockHeader?, blockHeader?, h]
  cases afterKeyword? blockKeyword (afterLeaders false b) with
  | none => rfl
  | some rest =>
    simp only [Option.bind_some]
    split
    · rfl
    · simp [endHeader]

-- ── Matching at a character ──────────────────────────────────────────────────

theorem endBlock?_at (rest : List Char) :
    endBlock? ('@' :: rest) =
      (afterKeyword? endBlockKeyword ('@' :: rest)).map fun r => ⟨.endBlock, endBlockKeyword, r⟩ := by
  have hafter : afterLeaders true ('@' :: rest) = '@' :: rest := IsLeaders.nil.afterLeaders_eq true rest
  have hleaders : leaders true ('@' :: rest) = [] := IsLeaders.nil.leaders_eq true rest
  rw [endBlock?, hafter, hleaders]
  rfl

/-- At an at sign the keyword decides which marker it is. -/
theorem ownMarker?_at (lineStart : Bool) (rest : List Char) :
    ownMarker? lineStart ('@' :: rest) =
      if ifKeyword.isPrefixOf ('@' :: rest) then ifHeader? ('@' :: rest)
      else if lineStart ∧ elseKeyword.isPrefixOf ('@' :: rest) then elseLine? ('@' :: rest)
      else if lineStart ∧ endIfKeyword.isPrefixOf ('@' :: rest) then endIf? ('@' :: rest)
      else if lineStart ∧ endBlockKeyword.isPrefixOf ('@' :: rest) then endBlock? ('@' :: rest)
      else none := by
  have hif : ¬ ifKeyword.isPrefixOf ('@' :: rest) → ifHeader? ('@' :: rest) = none := fun h => by
    rw [ifHeader?, afterKeyword?, if_neg h]
    rfl
  have helse : ¬ elseKeyword.isPrefixOf ('@' :: rest) → elseLine? ('@' :: rest) = none :=
    fun h => by
      rw [elseLine?, afterKeyword?, if_neg h]
      rfl
  have hendIf : ¬ endIfKeyword.isPrefixOf ('@' :: rest) → endIf? ('@' :: rest) = none := fun h => by
    rw [endIf?, afterKeyword?, if_neg h]
    rfl
  have hendBlock : ¬ endBlockKeyword.isPrefixOf ('@' :: rest) → endBlock? ('@' :: rest) = none :=
    fun h => by
      rw [endBlock?_at, afterKeyword?, if_neg h]
      rfl
  have hdiffer : ∀ {keyword r : List Char}, keyword ++ r = '@' :: rest →
      ∀ other : List Char, other.isPrefixOf (keyword ++ r) = false →
        ¬ other.isPrefixOf ('@' :: rest) := fun htext other h => by
    rw [← htext, h]
    exact Bool.false_ne_true
  have hvariable : variableWord? ('@' :: rest) = none := rfl
  rw [ownMarker?, hvariable, Option.none_or]
  by_cases hprefix : ifKeyword.isPrefixOf ('@' :: rest)
  · obtain ⟨r, hr⟩ := List.isPrefixOf_iff_prefix.1 hprefix
    rw [if_pos hprefix, helse (hdiffer hr _ rfl), hendIf (hdiffer hr _ rfl),
      hendBlock (hdiffer hr _ rfl)]
    cases lineStart <;> simp
  rw [if_neg hprefix, hif hprefix, Option.none_or]
  cases lineStart with
  | false => simp
  | true =>
  simp only [true_and, if_true]
  by_cases hprefix : elseKeyword.isPrefixOf ('@' :: rest)
  · obtain ⟨r, hr⟩ := List.isPrefixOf_iff_prefix.1 hprefix
    rw [if_pos hprefix, hendIf (hdiffer hr _ rfl), hendBlock (hdiffer hr _ rfl), Option.or_none,
      Option.or_none]
  rw [if_neg hprefix, helse hprefix, Option.none_or]
  by_cases hprefix : endIfKeyword.isPrefixOf ('@' :: rest)
  · obtain ⟨r, hr⟩ := List.isPrefixOf_iff_prefix.1 hprefix
    rw [if_pos hprefix, hendBlock (hdiffer hr _ rfl), Option.or_none]
  rw [if_neg hprefix, hendIf hprefix, Option.none_or]
  by_cases hprefix : endBlockKeyword.isPrefixOf ('@' :: rest)
  · rw [if_pos hprefix]
  · rw [if_neg hprefix, hendBlock hprefix]

theorem blockHeader?_of_not {ahead rest : List Char} (hahead : IsLeaders ahead)
    (h : afterKeyword? blockKeyword ('@' :: rest) = none) :
    blockHeader? (ahead ++ '@' :: rest) = none := by
  rw [blockHeader?, hahead.afterLeaders_eq, h]
  rfl

/-- At an at sign stands the marker that starts there, or the header of a block whose leaders are in
    front of it. -/
theorem matchAtSign_eq {cs back ahead rest : List Char} {s : Cursor}
    (h : At cs s.lastStop (back.reverse ++ '@' :: rest))
    (hpos : s.pos = s.lastStop + byteLength back)
    (hahead : IsLeaders ahead) (hback : ahead.reverse ++ beforeLeaders back = back) :
    matchAtSign cs s =
      .ok (((ownMarker? s.lineStart ('@' :: rest)).map s.tokenOf).or
        ((blockHeader? (ahead ++ '@' :: rest)).map fun f =>
          s.token f.marker (s.lastStop + byteLength (beforeLeaders back))
            (s.lastStop + byteLength (beforeLeaders back) + byteLength f.source))) := by
  have hat : At cs s.pos ('@' :: rest) := hpos ▸ h.skip_back
  have hother : ∀ {keyword r : List Char}, keyword ++ r = '@' :: rest →
      afterKeyword? blockKeyword (keyword ++ r) = none →
      blockHeader? (ahead ++ '@' :: rest) = none := fun htext hkeyword =>
    blockHeader?_of_not hahead (htext ▸ hkeyword)
  rw [matchAtSign, hat.sliceFrom_eq, ok_bind, ownMarker?_at]
  by_cases hprefix : ifKeyword.isPrefixOf ('@' :: rest)
  · obtain ⟨r, hr⟩ := List.isPrefixOf_iff_prefix.1 hprefix
    simp only [if_pos hprefix]
    rw [hother hr rfl, ← hr, matchIf_eq (hr ▸ hat), Option.map_none, Option.or_none]
  simp only [if_neg hprefix]
  by_cases hprefix : s.lineStart ∧ elseKeyword.isPrefixOf ('@' :: rest)
  · obtain ⟨r, hr⟩ := List.isPrefixOf_iff_prefix.1 hprefix.2
    simp only [if_pos hprefix]
    rw [hother hr rfl, ← hr, matchElse_eq (hr ▸ hat), Option.map_none, Option.or_none]
    rfl
  simp only [if_neg hprefix]
  by_cases hprefix : s.lineStart ∧ endIfKeyword.isPrefixOf ('@' :: rest)
  · obtain ⟨r, hr⟩ := List.isPrefixOf_iff_prefix.1 hprefix.2
    simp only [if_pos hprefix]
    rw [hother hr rfl, ← hr, endIf?, afterKeyword?_prefix, Option.map_none, Option.or_none]
    rfl
  simp only [if_neg hprefix]
  by_cases hprefix : s.lineStart ∧ endBlockKeyword.isPrefixOf ('@' :: rest)
  · obtain ⟨r, hr⟩ := List.isPrefixOf_iff_prefix.1 hprefix.2
    simp only [if_pos hprefix]
    rw [hother hr rfl, matchEndBlock_eq hat, Option.map_none, Option.or_none]
  simp only [if_neg hprefix]
  rw [Option.map_none, Option.none_or]
  by_cases hprefix : blockKeyword.isPrefixOf ('@' :: rest)
  · obtain ⟨r, hr⟩ := List.isPrefixOf_iff_prefix.1 hprefix
    have hlead : leaders false (ahead ++ (blockKeyword ++ r)) = ahead := hahead.leaders_eq false _
    have hlen : s.lastStop + byteLength (beforeLeaders back) + byteLength ahead = s.pos := by
      rw [hpos, ← byteLength_reverse ahead]
      conv => rhs; rw [← hback, byteLength_append]
      omega
    rw [if_pos hprefix, ← hr]
    exact matchBlock_eq (hr ▸ hat) hlead (hpos ▸ leaderStart_eq h) hlen
  · rw [if_neg hprefix, blockHeader?_of_not hahead (if_neg hprefix)]
    rfl

theorem afterKeyword?_of_ne {c : Char} (h : c ≠ '@') {keyword : List Char} (rest : List Char) :
    afterKeyword? ('@' :: keyword) (c :: rest) = none := by
  simp [afterKeyword?, Ne.symm h]

/-- Away from at signs only variables and ends of blocks start. -/
theorem ownMarker?_of_ne {c : Char} (h : c ≠ '@') (lineStart : Bool) (rest : List Char) :
    ownMarker? lineStart (c :: rest) =
      (variableWord? (c :: rest)).or (if lineStart then endBlock? (c :: rest) else none) := by
  have hnone : ifHeader? (c :: rest) = none ∧ elseLine? (c :: rest) = none ∧
      endIf? (c :: rest) = none := by
    simp only [ifHeader?, elseLine?, endIf?, ifKeyword, elseKeyword, endIfKeyword,
      afterKeyword?_of_ne h]
    exact ⟨rfl, rfl, rfl⟩
  rw [ownMarker?, hnone.1, hnone.2.1, hnone.2.2, Option.none_or, Option.none_or, Option.none_or]

theorem endBlock?_of_ne {c : Char} (hat : c ≠ '@') (hslash : c ≠ '/') (hcolon : c ≠ ':')
    (rest : List Char) : endBlock? (c :: rest) = none := by
  have hafter : afterLeaders true (c :: rest) = c :: rest := by
    unfold afterLeaders
    split
    next hc => cases hc; exact absurd rfl hslash
    next hc => cases hc; exact absurd rfl hcolon
    next => rfl
  rw [endBlock?, hafter, endBlockKeyword, afterKeyword?_of_ne hat]
  rfl

theorem matchMarker_of_char {c : Char} {b : UInt8} (hb : b ∈ String.utf8EncodeChar c)
    (cs : List Char) (s : Cursor) :
    matchMarker cs s b =
      if c = '@' then matchAtSign cs s
      else if c = '<' then matchVariable cs s
      else if (c = '/' ∨ c = ':') ∧ s.lineStart then matchEndBlock cs s
      else .ok none := by
  simp only [matchMarker, eq_toUInt8_iff (a := '@') (by decide) hb,
    eq_toUInt8_iff (a := '<') (by decide) hb, eq_toUInt8_iff (a := '/') (by decide) hb,
    eq_toUInt8_iff (a := ':') (by decide) hb]

/-- At the first byte of a character the marker is found that starts with the character, or at an at
    sign the header of a block whose leaders are in front of it. -/
theorem matchMarker_eq {cs back ahead rest : List Char} {s : Cursor} {c : Char} {b : UInt8}
    (hb : b ∈ String.utf8EncodeChar c) (h : At cs s.lastStop (back.reverse ++ c :: rest))
    (hpos : s.pos = s.lastStop + byteLength back)
    (hahead : IsLeaders ahead) (hback : ahead.reverse ++ beforeLeaders back = back) :
    matchMarker cs s b =
      .ok (((ownMarker? s.lineStart (c :: rest)).map s.tokenOf).or
        (if c = '@' then (blockHeader? (ahead ++ c :: rest)).map fun f =>
          s.token f.marker (s.lastStop + byteLength (beforeLeaders back))
            (s.lastStop + byteLength (beforeLeaders back) + byteLength f.source)
        else none)) := by
  have hat : At cs s.pos (c :: rest) := hpos ▸ h.skip_back
  rw [matchMarker_of_char hb]
  by_cases hsign : c = '@'
  · subst hsign
    rw [if_pos rfl, if_pos rfl, matchAtSign_eq h hpos hahead hback]
  · rw [if_neg hsign, if_neg hsign, Option.or_none, ownMarker?_of_ne hsign]
    by_cases hopen : c = '<'
    · subst hopen
      rw [if_pos rfl, matchVariable_eq hat, endBlock?_of_ne (by decide) (by decide) (by decide),
        ite_self, Option.or_none]
    · rw [if_neg hopen, variableWord?_of_ne hopen, Option.none_or]
      by_cases hlead : c = '/' ∨ c = ':'
      · cases hstart : s.lineStart with
        | true => rw [if_pos ⟨hlead, rfl⟩, matchEndBlock_eq hat, if_pos rfl]
        | false => rw [if_neg (by simp), if_neg (by simp)]; rfl
      · rw [if_neg fun hc => hlead hc.1,
          endBlock?_of_ne hsign (fun hc => hlead (.inl hc)) fun hc => hlead (.inr hc), ite_self]
        rfl

end ShaderTemplates.Template.Offsets
