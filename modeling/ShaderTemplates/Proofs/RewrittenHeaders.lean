import Mathlib.Data.List.TakeWhile
import ShaderTemplates.Proofs.BranchTexts
import ShaderTemplates.Proofs.HeaderWalls

/-!
# Text in front of a rewritten header

The header of a block is printed behind a comment leader, however it was written.  The text in front
of it is read as before (`piecesFrom_rewritten`), although the leader is new to it:

* a marker that ends before its line does is read by itself (`marker?_local`);
* a marker does not take up a part of the leader (`marker?_leader`), unless there are leaders only
  in front of it, and then there was no marker in front of the header before either;
* what follows a line break is seen by no marker in front of it.
-/

namespace ShaderTemplates.Template

open Text

-- ── Markers that end on their line ───────────────────────────────────────────

theorem run_before {p : Char → Bool} {s r : List Char} (hs : ∀ c ∈ s, p c = true)
    (hr : ∀ c ∈ r.head?, p c = false) :
    (s ++ r).takeWhile p = s ∧ (s ++ r).dropWhile p = r := by
  cases r with
  | nil => exact ⟨by rw [List.append_nil, takeWhile_eq_self hs],
      by rw [List.append_nil, dropWhile_eq_nil hs]⟩
  | cons c r => exact ⟨takeWhile_run hs (hr c rfl) r, dropWhile_run hs (hr c rfl) r⟩

/-- Behind blanks stands what ends a word, if it ends a word without the blanks. -/
theorem head_blanks {p : Char → Bool} (hp : ∀ c, isInlineBlank c = true → p c = false) {c : Char}
    (hc : p c = false) (cs w : List Char) :
    ∀ d ∈ (cs.takeWhile isInlineBlank ++ c :: w).head?, p d = false := by
  intro d hd
  cases hblanks : cs.takeWhile isInlineBlank with
  | nil =>
      rw [hblanks] at hd
      cases hd
      exact hc
  | cons g blanks =>
      rw [hblanks] at hd
      obtain rfl : g = d := Option.some.inj hd
      exact hp g (List.mem_takeWhile_imp (hblanks ▸ List.mem_cons_self))

/-- A value with the blanks around it is read by itself if a character follows that ends it. -/
theorem firstValue_local {cs : List Char} (hvalue : firstValue cs ≠ []) {c : Char}
    (hblank : isInlineBlank c = false) (hc : isAlternativeChar c = false) (w : List Char) :
    firstValue (firstValueSource cs ++ c :: w) = firstValue cs ∧
      afterFirstValue (firstValueSource cs ++ c :: w) = c :: w ∧
      firstValueSource (firstValueSource cs ++ c :: w) = firstValueSource cs := by
  have hword : ∀ x ∈ firstValue cs, isAlternativeChar x = true := fun x hx => List.mem_takeWhile_imp hx
  have hafter : ∀ x, isInlineBlank x = true → isAlternativeChar x = false := by
    intro x hx
    simp [isAlternativeChar, isAsciiBlank_of_isInlineBlank hx]
  have hgap := head_blanks hafter hc ((cs.dropWhile isInlineBlank).dropWhile isAlternativeChar) w
  have htext : firstValueSource cs ++ c :: w =
      cs.takeWhile isInlineBlank ++ (firstValue cs ++
        (((cs.dropWhile isInlineBlank).dropWhile isAlternativeChar).takeWhile isInlineBlank ++
          c :: w)) := by
    simp [firstValueSource]
  have hsource : firstValueSource cs = cs.takeWhile isInlineBlank ++ (firstValue cs ++
      ((cs.dropWhile isInlineBlank).dropWhile isAlternativeChar).takeWhile isInlineBlank) := rfl
  rw [htext, hsource]
  generalize hb : cs.takeWhile isInlineBlank = blanks
  generalize hg : ((cs.dropWhile isInlineBlank).dropWhile isAlternativeChar).takeWhile
    isInlineBlank = gap at hgap
  have hblanks : ∀ x ∈ blanks, isInlineBlank x = true := fun x hx => List.mem_takeWhile_imp (hb ▸ hx)
  have hgaps : ∀ x ∈ gap, isInlineBlank x = true := fun x hx => List.mem_takeWhile_imp (hg ▸ hx)
  have hfirst : ∀ x ∈ (firstValue cs ++ (gap ++ c :: w)).head?, isInlineBlank x = false := by
    obtain ⟨v, value, hv⟩ := List.exists_cons_of_ne_nil hvalue
    intro x hx
    rw [hv] at hx
    cases hx
    exact not_inlineBlank_of_alternativeChar (hword v (hv ▸ List.mem_cons_self))
  obtain ⟨h1, h2⟩ := run_before hblanks hfirst
  obtain ⟨h3, h4⟩ := run_before hword hgap
  obtain ⟨h5, h6⟩ := run_before (r := c :: w) hgaps fun x hx => by cases hx; exact hblank
  have hfirstValue : firstValue (blanks ++ (firstValue cs ++ (gap ++ c :: w))) = firstValue cs := by
    rw [firstValue, h2, h3]
  refine ⟨hfirstValue, ?_, ?_⟩
  · rw [afterFirstValue, h2, h4, h6]
  · rw [firstValueSource, hfirstValue, h1, h2, h4, h5]

theorem alternatives?_local {cs : List Char} {values : List String} {source rest : List Char}
    (h : alternatives? cs = some (values, source, rest)) (u : List Char) :
    alternatives? (source ++ u) = some (values, source, u) := by
  induction hn : cs.length using Nat.strongRecOn generalizing cs values source rest with
  | ind n ih =>
      rw [alternatives?_eq] at h
      split at h
      · cases h
      · next hempty =>
          have hvalue : firstValue cs ≠ [] := by simpa using hempty
          have hempty' : (firstValue cs).isEmpty = false := by simpa using hempty
          have hlen := afterFirstValue_length_le cs
          cases hafter : afterFirstValue cs with
          | nil => rw [hafter] at h; cases h
          | cons c more =>
              rw [hafter] at h hlen
              by_cases hbar : c = '|'
              · subst hbar
                obtain ⟨⟨values', source', rest'⟩, hmore, heq⟩ := Option.map_eq_some_iff.mp h
                cases heq
                have hinner := ih more.length (by simp at hlen; omega) hmore rfl
                obtain ⟨h1, h2, h3⟩ := firstValue_local (c := '|') hvalue rfl rfl (source' ++ u)
                rw [List.append_assoc, List.cons_append, alternatives?_eq, h1, h2, h3,
                  if_neg (by simp [hempty'])]
                show Option.map _ (alternatives? (source' ++ u)) = _
                rw [hinner]
                rfl
              · by_cases hclose : c = '>'
                · subst hclose
                  cases h
                  obtain ⟨h1, h2, h3⟩ := firstValue_local (c := '>') hvalue rfl rfl u
                  rw [List.append_assoc, List.singleton_append, alternatives?_eq, h1, h2, h3,
                    if_neg (by simp [hempty'])]
                  rfl
                · simp [hbar, hclose] at h

/-- The name of a variable and the blanks behind it are read by themselves if an end follows. -/
theorem variableWord?_start {cs : List Char} (hname : cs.takeWhile isVariableChar ≠ []) {c : Char}
    (hblank : isInlineBlank c = false) (hc : isVariableChar c = false) (w : List Char) :
    variableWord? ('<' :: (cs.takeWhile isVariableChar ++
        ((cs.dropWhile isVariableChar).takeWhile isInlineBlank ++ c :: w))) =
      variableEnd? (cs.takeWhile isVariableChar) ('<' :: (cs.takeWhile isVariableChar ++
        (cs.dropWhile isVariableChar).takeWhile isInlineBlank)) (c :: w) := by
  have hword : ∀ x ∈ cs.takeWhile isVariableChar, isVariableChar x = true := fun x hx =>
    List.mem_takeWhile_imp hx
  have hafter : ∀ x, isInlineBlank x = true → isVariableChar x = false := by
    intro x hx
    simp [isVariableChar, isAsciiBlank_of_isInlineBlank hx]
  have hgap := head_blanks hafter hc (cs.dropWhile isVariableChar) w
  have hgaps : ∀ x ∈ (cs.dropWhile isVariableChar).takeWhile isInlineBlank,
      isInlineBlank x = true := fun x hx => List.mem_takeWhile_imp hx
  have hempty : (cs.takeWhile isVariableChar).isEmpty = false := by simpa using hname
  obtain ⟨h1, h2⟩ := run_before hword hgap
  obtain ⟨h3, h4⟩ := run_before (r := c :: w) hgaps fun x hx => by
    cases hx
    exact hblank
  rw [variableWord?_eq, h1, h2, h3, h4, if_neg (by simp [hempty])]

/-- A variable is read by itself. -/
theorem variableWord?_local {cs : List Char} {m : Marker} {source rest : List Char}
    (h : variableWord? cs = some ⟨m, source, rest⟩) (u : List Char) :
    variableWord? (source ++ u) = some ⟨m, source, u⟩ := by
  cases cs with
  | nil => cases h
  | cons c cs =>
      by_cases hopen : c = '<'
      · subst hopen
        rw [variableWord?_eq] at h
        split at h
        · cases h
        · next hempty =>
            have hname : cs.takeWhile isVariableChar ≠ [] := by simpa using hempty
            cases hrest : (cs.dropWhile isVariableChar).dropWhile isInlineBlank with
            | nil => rw [hrest] at h; cases h
            | cons c more =>
                rw [hrest] at h
                by_cases hclose : c = '>'
                · subst hclose
                  cases h
                  have hend := variableWord?_start hname (c := '>') rfl rfl u
                  simpa [variableEnd?] using hend
                · by_cases heq : c = '='
                  · subst heq
                    obtain ⟨⟨values, source', rest'⟩, hmore, hf⟩ := Option.map_eq_some_iff.mp h
                    cases hf
                    have hend := variableWord?_start hname (c := '=') rfl rfl (source' ++ u)
                    rw [variableEnd?, alternatives?_local hmore] at hend
                    simpa using hend
                  · rw [variableEnd?_of_ne hclose heq] at h
                    cases h
      · rw [variableWord?_of_ne hopen] at h
        cases h

/-- The end of a block is read by itself. -/
theorem endBlock?_local {cs : List Char} {m : Marker} {source rest : List Char}
    (h : endBlock? cs = some ⟨m, source, rest⟩) (u : List Char) :
    endBlock? (source ++ u) = some ⟨m, source, u⟩ := by
  obtain ⟨z, hkey, hf⟩ := Option.map_eq_some_iff.mp h
  cases hf
  obtain ⟨more, hmore⟩ : ∃ more, ∀ w, endBlockKeyword ++ w = '@' :: (more ++ w) :=
    ⟨endBlockKeyword.tail, fun w => rfl⟩
  have hafter : afterLeaders true cs = endBlockKeyword ++ rest :=
    (afterKeyword?_append hkey).symm
  have hat : ∀ w, afterLeaders true (leaders true cs ++ (endBlockKeyword ++ w)) =
      afterLeaders true (leaders true cs) ++ (endBlockKeyword ++ w) := by
    intro w
    rw [hmore]
    exact afterLeaders_append rfl (by decide) (by decide) true _ _
  have hnil : afterLeaders true (leaders true cs) = [] := by
    have htext := hat rest
    rw [← hafter, leaders_append] at htext
    exact List.self_eq_append_left.mp htext
  have hleft : ∀ w, leaders true (leaders true cs ++ (endBlockKeyword ++ w)) = leaders true cs := by
    intro w
    have htext := leaders_append true (leaders true cs ++ (endBlockKeyword ++ w))
    rw [hat, hnil, List.nil_append] at htext
    exact List.append_cancel_right htext
  rw [endBlock?, List.append_assoc, hat, hnil, hleft, List.nil_append, afterKeyword?_prefix]
  rfl

/-- A marker that takes no line break is read by itself, whatever follows it. -/
theorem marker?_local {b : Bool} {cs : List Char} {m : Marker} {source rest : List Char}
    (h : marker? b cs = some ⟨m, source, rest⟩) (hline : '\n' ∉ source) (u : List Char) :
    marker? b (source ++ u) = some ⟨m, source, u⟩ := by
  obtain hvar | ⟨-, hbreak⟩ | ⟨rfl, hend | hend⟩ := marker?_cases h
  · rw [marker?_eq_anyMarker?, anyMarker?, variableWord?_local hvar u]
    rfl
  · exact absurd hbreak hline
  · obtain ⟨_, -, hf⟩ := Option.map_eq_some_iff.mp hend
    cases hf
    exact marker?_endIf u
  · exact marker?_of_endBlock? (endBlock?_local hend u)

-- ── Leaders ──────────────────────────────────────────────────────────────────

theorem fence_slashes (r : List Char) : fence ['/', '/'] '@' r = leader ++ '@' :: r := rfl

theorem fence_leader : Fence ['/', '/'] '@' where
  start := ⟨'/', ['/'], rfl, by decide⟩
  fits := by decide
  visible := by decide
  not_colon := by decide
  not_bar := by decide
  not_close := by decide
  not_equals := by decide

/-- The text behind the leaders in front of a block line starts with the keyword, or in front of the
    line, or with something else than an at sign. -/
theorem afterLeaders_leader_cases (colon : Bool) (x w : List Char) :
    (afterLeaders colon (x ++ leader) = [] ∧
        afterLeaders colon (x ++ (leader ++ '@' :: w)) = '@' :: w) ∨
      (∃ a, afterLeaders colon (x ++ (leader ++ '@' :: w)) = a ++ (leader ++ '@' :: w)) ∨
      ∃ c rest, afterLeaders colon (x ++ (leader ++ '@' :: w)) = c :: rest ∧ c ≠ '@' := by
  have happ := leaders_append colon (x ++ leader)
  have hafter : afterLeaders colon (x ++ (leader ++ '@' :: w)) =
      afterLeaders colon (x ++ leader) ++ '@' :: w := by
    rw [← List.append_assoc]
    exact afterLeaders_append rfl (by decide) (by decide) colon _ w
  rw [hafter]
  obtain ⟨a, -, ha⟩ | ⟨a, -, ha⟩ := List.append_eq_append_iff.mp happ
  · exact .inr (.inl ⟨a, by rw [ha, List.append_assoc]⟩)
  · cases hrest : afterLeaders colon (x ++ leader) with
    | nil => exact .inl ⟨rfl, rfl⟩
    | cons c rest =>
        refine .inr (.inr ⟨c, rest ++ '@' :: w, rfl, ?_⟩)
        rintro rfl
        have hat : '@' ∈ leader := by
          rw [ha, hrest]
          exact List.mem_append_right a List.mem_cons_self
        exact absurd hat (by decide)

theorem afterKeyword?_of_head_ne {keyword rest : List Char} {c : Char} (hk : '@' ∈ keyword.head?)
    (hc : c ≠ '@') : afterKeyword? keyword (c :: rest) = none := by
  obtain ⟨tail, rfl⟩ := List.head?_eq_some_iff.mp hk
  simp [afterKeyword?, List.isPrefixOf, Ne.symm hc]

/-- The line that opens a block keeps apart what is read in front of it and behind, except that more
    leaders may stand in front of its own. -/
theorem marker?_leader {b : Bool} {x : List Char} (hx : x ≠ []) {w : List Char} {f : Found}
    (h : marker? b (x ++ (leader ++ '@' :: 'b' :: w)) = some f) :
    (∃ y, f.rest = y ++ (leader ++ '@' :: 'b' :: w)) ∨ afterLeaders false (x ++ leader) = [] := by
  have hslash : ∀ {keyword a z : List Char}, keyword.tail.all Char.isAlpha = true →
      '@' ∈ keyword.head? →
      afterKeyword? keyword (a ++ (leader ++ '@' :: 'b' :: w)) = some z →
      ∃ y, z = y ++ (leader ++ '@' :: 'b' :: w) := by
    intro keyword a z hkey hat h
    obtain ⟨y, -, hy⟩ := afterKeyword?_before (c := '/') (by decide) hkey
      (.inr (afterKeyword?_of_head_ne hat (by decide))) h
    exact ⟨y, hy⟩
  obtain hrest | hblock | hend := marker?_fence fence_leader hx h
  · exact .inl hrest
  · obtain ⟨z, hkey, hblock⟩ := Option.bind_eq_some_iff.mp hblock
    obtain ⟨hnil, -⟩ | ⟨a, ha⟩ | ⟨c, rest, ha, hc⟩ := afterLeaders_leader_cases false x ('b' :: w)
    · exact .inr hnil
    · refine .inl ?_
      rw [fence_slashes, ha] at hkey
      obtain ⟨y, rfl⟩ := hslash (by decide) rfl hkey
      dsimp only at hblock
      split at hblock
      · cases hblock
      · exact endHeader_fence fence_leader (blanks_name_fence fence_leader y) hblock
    · rw [fence_slashes, ha, afterKeyword?_of_head_ne rfl hc] at hkey
      cases hkey
  · obtain ⟨z, hkey, rfl⟩ := Option.map_eq_some_iff.mp hend
    rw [fence_slashes] at hkey
    obtain ⟨-, ha⟩ | ⟨a, ha⟩ | ⟨c, rest, ha, hc⟩ := afterLeaders_leader_cases true x ('b' :: w)
    · rw [ha] at hkey
      cases hkey
    · rw [ha] at hkey
      exact .inl (hslash (by decide) rfl hkey)
    · rw [ha, afterKeyword?_of_head_ne rfl hc] at hkey
      cases hkey

theorem slashes_of_afterLeaders_nil {cs : List Char} (h : afterLeaders false cs = [])
    (hne : cs ≠ []) :
    ∃ rest, cs = '/' :: '/' :: rest ∧ afterLeaders false (rest.dropWhile isInlineBlank) = [] := by
  unfold afterLeaders at h
  split at h
  · next rest => exact ⟨rest, rfl, h⟩
  · cases h
  · exact absurd h hne

/-- Leaders in front of a text that starts with no blank are the leaders of both. -/
theorem afterLeaders_of_leaders {x u : List Char} (hx : afterLeaders false (x ++ leader) = [])
    {c : Char} (hc : isInlineBlank c = false) :
    afterLeaders false (x ++ c :: u) = afterLeaders false (c :: u) := by
  induction hn : x.length using Nat.strongRecOn generalizing x with
  | ind n ih =>
      cases x with
      | nil => rfl
      | cons d x =>
          obtain ⟨rest, htext, hrest⟩ := slashes_of_afterLeaders_nil hx (by simp)
          rw [List.cons_append] at htext
          obtain ⟨rfl, htail⟩ := List.cons.inj htext
          cases x with
          | nil =>
              -- one slash and the leader are no leaders, because a slash is left
              obtain rfl : ['/', ' '] = rest := by simpa [leader] using htail
              have hleft : afterLeaders false ['/', ' '] = ['/', ' '] :=
                afterLeaders_of_not ⟨by simp, by simp⟩
              exact absurd (hleft.symm.trans hrest) (by simp)
          | cons e x =>
              rw [List.cons_append] at htail
              obtain ⟨rfl, rfl⟩ := List.cons.inj htail
              have hleader : (x ++ leader).dropWhile isInlineBlank =
                  x.dropWhile isInlineBlank ++ leader := dropWhile_append_stop rfl x _
              have hlen := (List.dropWhile_sublist isInlineBlank (l := x)).length_le
              rw [hleader] at hrest
              rw [List.cons_append, List.cons_append, afterLeaders_slashes,
                dropWhile_append_stop hc]
              exact ih _ (by simp at hn; omega) hrest rfl

/-- Whether a text starts with the header of a block is decided behind its leaders. -/
theorem blockHeader?_isSome_of_afterLeaders {cs cs' : List Char}
    (h : afterLeaders false cs = afterLeaders false cs') :
    (blockHeader? cs).isSome = (blockHeader? cs').isSome := by
  rw [blockHeader?, blockHeader?, h]
  cases afterKeyword? blockKeyword (afterLeaders false cs') with
  | none => rfl
  | some z =>
      rw [Option.bind_some, Option.bind_some]
      dsimp only
      split
      · rfl
      · rw [endHeader, endHeader, Option.isSome_map, Option.isSome_map]

-- ── Markers in front of a header ─────────────────────────────────────────────

theorem blockHeader?_of_none {b : Bool} {cs : List Char} (h : marker? b cs = none) :
    blockHeader? cs = none := by
  rw [marker?_eq_anyMarker?] at h
  simp only [anyMarker?, Option.orElse_eq_orElse, Option.orElse_eq_or, Option.or_eq_none_iff] at h
  exact h.2.2.1

theorem not_asciiBlank_of_startsMarker {c : Char} (h : startsMarker c = true) :
    isAsciiBlank c = false := by
  cases hblank : isAsciiBlank c with
  | false => rfl
  | true =>
      rw [startsMarker_of_isAsciiBlank hblank] at h
      cases h

/-- A marker in front of a line break does not see the text behind the break, if that is not blank. -/
theorem marker?_before_break {b : Bool} (a v : List Char) {c d : Char} (hc : isAsciiBlank c = false)
    (hd : isAsciiBlank d = false) (h t : List Char) :
    (marker? b (a ++ '\n' :: v ++ c :: h) = none → marker? b (a ++ '\n' :: v ++ d :: t) = none) ∧
      ∀ m s z, marker? b (a ++ '\n' :: v ++ c :: h) = some ⟨m, s, z ++ c :: h⟩ →
        marker? b (a ++ '\n' :: v ++ d :: t) = some ⟨m, s, z ++ d :: t⟩ := by
  have htext : ∀ u, a ++ '\n' :: v ++ u = a ++ '\n' :: (v ++ u) := by simp
  rw [htext, htext]
  obtain ⟨h1, h2⟩ | ⟨m, s, z, -, h1, h2⟩ | ⟨m, s, s', h1, h2⟩ :=
    marker?_both (breaks_plain (v ++ c :: h)) (breaks_plain (v ++ d :: t)) b a
  · rw [h1, h2]
    exact ⟨fun _ => rfl, fun _ _ _ heq => nomatch heq⟩
  · rw [h1, h2]
    refine ⟨fun heq => (nomatch heq), fun m' s' z' heq => ?_⟩
    injection heq with heq
    injection heq with hm hs hz
    have hz' : z' = z ++ '\n' :: v := by
      refine (List.append_left_inj (c :: h)).mp ?_
      rw [← hz]
      simp
    rw [hm, hs, hz']
    simp
  · -- the marker takes the line break and the blank lines behind it
    rw [afterBlankLines_stop hc, ← htext] at h1
    rw [afterBlankLines_stop hd, ← htext] at h2
    have hs : s' = s := by
      refine (List.append_left_inj (afterBlankLines v)).mp ?_
      rw [source_append_rest h1, source_append_rest h2]
    rw [← htext, ← htext, h1, h2]
    refine ⟨fun heq => (nomatch heq), fun m' s₀ z' heq => ?_⟩
    injection heq with heq
    injection heq with hm hs' hz
    rw [← hm, ← hs', hs, List.append_cancel_right hz]

/-- In front of the header of a block the same markers are read if the header is rewritten. -/
theorem marker?_rewritten {b : Bool} {x h : List Char} (hx : x ≠ []) (hh : blockHeader? h ≠ none)
    (w : List Char) :
    (marker? b (x ++ h) = none → marker? b (x ++ (leader ++ '@' :: 'b' :: w)) = none) ∧
      ∀ m s z, marker? b (x ++ h) = some ⟨m, s, z ++ h⟩ →
        marker? b (x ++ (leader ++ '@' :: 'b' :: w)) =
          some ⟨m, s, z ++ (leader ++ '@' :: 'b' :: w)⟩ := by
  obtain ⟨c, h, rfl, hc⟩ : ∃ c rest, h = c :: rest ∧ isAsciiBlank c = false := by
    obtain ⟨f, hf⟩ : ∃ f, marker? true h = some f :=
      Option.ne_none_iff_exists'.mp (mt blockHeader?_of_none hh)
    cases h with
    | nil => cases hf
    | cons c rest =>
        exact ⟨c, rest, rfl, not_asciiBlank_of_startsMarker (startsMarker_of_some hf)⟩
  by_cases hbreak : '\n' ∈ x
  · obtain ⟨a, v, rfl⟩ := List.append_of_mem hbreak
    exact marker?_before_break a v hc (d := '/') rfl h _
  · refine ⟨fun hnone => ?_, fun m s z hsome => ?_⟩
    · cases hf : marker? b (x ++ (leader ++ '@' :: 'b' :: w)) with
      | none => rfl
      | some f =>
          obtain ⟨y, hy⟩ | hleaders := marker?_leader hx hf
          · -- the marker is read by itself, so it stands in front of the header as well
            obtain ⟨m, s, rest⟩ := f
            obtain rfl : rest = y ++ (leader ++ '@' :: 'b' :: w) := hy
            have hsource := source_append_rest hf
            have hline : '\n' ∉ s := fun hm => hbreak (hsource ▸ List.mem_append_left _ hm)
            have hlocal := marker?_local hf hline (y ++ c :: h)
            rw [← List.append_assoc, hsource, hnone] at hlocal
            cases hlocal
          · -- with the leaders in front of it the header is a header
            have hinline : isInlineBlank c = false :=
              not_inlineBlank_of_wordChar (by rw [isWordChar, hc]; rfl)
            have hheader :=
              blockHeader?_isSome_of_afterLeaders (afterLeaders_of_leaders (u := h) hleaders hinline)
            rw [blockHeader?_of_none hnone] at hheader
            exact absurd (Option.isNone_iff_eq_none.mp (by simpa using hheader.symm)) hh
    · have hsource := source_append_rest hsome
      have hline : '\n' ∉ s := fun hm => hbreak (hsource ▸ List.mem_append_left _ hm)
      have hlocal := marker?_local hsome hline (z ++ (leader ++ '@' :: 'b' :: w))
      rwa [← List.append_assoc, hsource] at hlocal

/-- The text in front of the header of a block is read as before if the header is rewritten. -/
theorem piecesFrom_rewritten {h : List Char} (hh : blockHeader? h ≠ none) (w : List Char)
    {p : Position} {before qs : List (Piece Token)}
    (hp : piecesFrom p (tokenSource before ++ h) = before ++ qs) :
    ∃ q, piecesFrom p (tokenSource before ++ (leader ++ '@' :: 'b' :: w)) =
      before ++ piecesFrom q (leader ++ '@' :: 'b' :: w) := by
  induction before generalizing p with
  | nil => exact ⟨p, rfl⟩
  | cons a before ih =>
      cases a with
      | char c =>
          rw [tokenSource_char] at hp ⊢
          obtain ⟨hnone, -⟩ := marker?_rewritten (b := p.lineStart)
            (List.cons_ne_nil c (tokenSource before)) hh w
          cases hm : marker? p.lineStart (c :: tokenSource before ++ h) with
          | some f =>
              rw [piecesFrom_marker hm] at hp
              cases hp
          | none =>
              rw [List.cons_append] at hp hm
              rw [piecesFrom_char hm, List.cons_append] at hp
              obtain ⟨q, hq⟩ := ih (List.cons.inj hp).2
              have hm' := hnone hm
              rw [List.cons_append] at hm' ⊢
              exact ⟨q, by rw [piecesFrom_char hm', hq]; rfl⟩
      | item t =>
          rw [tokenSource_item, List.append_assoc] at hp ⊢
          cases hm : marker? p.lineStart (t.source ++ (tokenSource before ++ h)) with
          | none =>
              cases htext : t.source ++ (tokenSource before ++ h) with
              | nil => rw [htext] at hp; cases hp
              | cons c rest => rw [htext] at hp hm; rw [piecesFrom_char hm] at hp; cases hp
          | some f =>
              rw [piecesFrom_marker hm, List.cons_append] at hp
              obtain ⟨ht, hbefore⟩ := List.cons.inj hp
              cases ht
              have hrest : f.rest = tokenSource before ++ h :=
                List.append_cancel_left (marker?_append hm)
              obtain ⟨m, s, rest⟩ := f
              obtain rfl : rest = tokenSource before ++ h := hrest
              have hne : s ++ tokenSource before ≠ [] :=
                List.append_ne_nil_of_left_ne_nil (marker?_source_ne_nil hm) _
              rw [← List.append_assoc] at hm ⊢
              have hm' := (marker?_rewritten hne hh w).2 _ _ _ hm
              obtain ⟨q, hq⟩ := ih hbefore
              exact ⟨q, by rw [piecesFrom_marker hm', hq]; rfl⟩

end ShaderTemplates.Template
