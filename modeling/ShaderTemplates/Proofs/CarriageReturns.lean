import ShaderTemplates.Proofs.BranchTexts

/-!
# Carriage returns

A text in which carriage returns stand in front of line breaks only (`Paired`) is read like the text
without them.  Both have the same markers (`marker?_withoutReturns`), because a marker sees of the
end of its line no more than that there is one.  So their pieces correspond
(`piecesFrom_withoutReturns`), and so do the contents of their regions (`content_withoutReturns`).
-/

namespace ShaderTemplates.Template

open Text

-- ── Texts without their carriage returns ─────────────────────────────────────

def withoutReturns (cs : List Char) : List Char := cs.filter (· != '\r')

@[simp] theorem withoutReturns_nil : withoutReturns [] = [] := rfl

@[simp] theorem withoutReturns_return (cs : List Char) :
    withoutReturns ('\r' :: cs) = withoutReturns cs := rfl

@[simp] theorem withoutReturns_break (cs : List Char) :
    withoutReturns ('\n' :: cs) = '\n' :: withoutReturns cs := rfl

theorem withoutReturns_cons {c : Char} (h : c ≠ '\r') (cs : List Char) :
    withoutReturns (c :: cs) = c :: withoutReturns cs :=
  List.filter_cons_of_pos (by simpa using h)

@[simp] theorem withoutReturns_append (a b : List Char) :
    withoutReturns (a ++ b) = withoutReturns a ++ withoutReturns b :=
  List.filter_append a b

theorem flatMap_withoutReturns (cs : List Char) :
    cs.flatMap (fun c => withoutReturns [c]) = withoutReturns cs := by
  induction cs with
  | nil => rfl
  | cons c cs ih => rw [List.flatMap_cons, ih, ← withoutReturns_append, List.singleton_append]

theorem return_not_mem_withoutReturns (cs : List Char) : '\r' ∉ withoutReturns cs := by
  simp [withoutReturns]

theorem withoutReturns_of_not_mem {cs : List Char} (h : '\r' ∉ cs) : withoutReturns cs = cs := by
  refine List.filter_eq_self.mpr fun c hc => ?_
  have hne : c ≠ '\r' := fun he => h (he ▸ hc)
  simpa using hne

theorem lineBreaks_withoutReturns (cs : List Char) :
    lineBreaks (withoutReturns cs) = lineBreaks cs :=
  List.count_filter rfl

theorem getLast?_withoutReturns {cs : List Char} (h : cs.getLast? ≠ some '\r') :
    (withoutReturns cs).getLast? = cs.getLast? := by
  cases hlast : cs.getLast? with
  | none =>
      rw [List.getLast?_eq_none_iff.mp hlast]
      rfl
  | some c =>
      obtain ⟨a, rfl⟩ := List.getLast?_eq_some_iff.mp hlast
      have hc : c ≠ '\r' := fun hc => h (hc ▸ hlast)
      rw [withoutReturns_append, withoutReturns_cons hc, withoutReturns_nil,
        List.getLast?_concat]

/-- Runs of characters that may hold carriage returns stay runs. -/
theorem takeWhile_withoutReturns {p : Char → Bool} (hp : p '\r' = true) (cs : List Char) :
    (withoutReturns cs).takeWhile p = withoutReturns (cs.takeWhile p) := by
  induction cs with
  | nil => rfl
  | cons c cs ih =>
      by_cases hc : c = '\r'
      · subst hc
        rw [withoutReturns_return, List.takeWhile_cons_of_pos hp, withoutReturns_return, ih]
      · rw [withoutReturns_cons hc]
        cases h : p c with
        | true =>
            rw [List.takeWhile_cons_of_pos h, List.takeWhile_cons_of_pos h, withoutReturns_cons hc,
              ih]
        | false =>
            rw [List.takeWhile_cons_of_neg (by simp [h]), List.takeWhile_cons_of_neg (by simp [h])]
            rfl

theorem dropWhile_withoutReturns {p : Char → Bool} (hp : p '\r' = true) (cs : List Char) :
    (withoutReturns cs).dropWhile p = withoutReturns (cs.dropWhile p) := by
  refine (List.append_right_inj ((withoutReturns cs).takeWhile p)).mp ?_
  rw [List.takeWhile_append_dropWhile, takeWhile_withoutReturns hp, ← withoutReturns_append,
    List.takeWhile_append_dropWhile]

-- ── Carriage returns in front of line breaks ─────────────────────────────────

/-- Every carriage return of the text is followed by a line break. -/
def Paired : List Char → Prop
  | [] => True
  | c :: rest => (c = '\r' → ∃ after, rest = '\n' :: after) ∧ Paired rest

theorem paired_of_not_mem {cs : List Char} (h : '\r' ∉ cs) : Paired cs := by
  induction cs with
  | nil => trivial
  | cons c cs ih =>
      refine ⟨?_, ih fun hm => h (List.mem_cons_of_mem c hm)⟩
      rintro rfl
      exact absurd List.mem_cons_self h

theorem Paired.append {a b : List Char} (ha : Paired a) (hb : Paired b) : Paired (a ++ b) := by
  induction a with
  | nil => exact hb
  | cons c a ih =>
      refine ⟨?_, ih ha.2⟩
      intro hc
      obtain ⟨after, rfl⟩ := ha.1 hc
      exact ⟨after ++ b, rfl⟩

theorem Paired.suffix {a b : List Char} (h : Paired (a ++ b)) : Paired b := by
  induction a with
  | nil => exact h
  | cons c a ih => exact ih h.2

/-- What follows a carriage return starts with a line break. -/
theorem Paired.break {a b : List Char} (h : Paired (a ++ '\r' :: b)) : ∃ after, b = '\n' :: after :=
  h.suffix.1 rfl

/-- A first part that does not end with a carriage return is paired by itself. -/
theorem Paired.prefix {a b : List Char} (h : Paired (a ++ b)) (hlast : a.getLast? ≠ some '\r') :
    Paired a := by
  induction a with
  | nil => trivial
  | cons c a ih =>
      cases a with
      | nil =>
          refine ⟨?_, trivial⟩
          rintro rfl
          exact absurd rfl hlast
      | cons d a =>
          refine ⟨?_, ih h.2 (by simpa using hlast)⟩
          intro hc
          obtain ⟨after, hafter⟩ := h.1 hc
          exact ⟨a, congrArg (· :: a) (List.cons.inj hafter).1⟩

/-- A part in front of another character than a line break is paired by itself. -/
theorem Paired.before {a b : List Char} {c : Char} (h : Paired (a ++ c :: b)) (hc : c ≠ '\n') :
    Paired a := by
  refine h.prefix ?_
  intro hlast
  obtain ⟨x, rfl⟩ := List.getLast?_eq_some_iff.mp hlast
  rw [List.append_assoc, List.singleton_append] at h
  obtain ⟨after, hafter⟩ := h.break
  exact hc (List.cons.inj hafter).1

theorem Paired.no_return_or_break {cs : List Char} (h : Paired cs) :
    '\r' ∉ cs ∨ ∃ x after, '\r' ∉ x ∧ cs = x ++ '\r' :: '\n' :: after := by
  by_cases hmem : '\r' ∈ cs
  · obtain ⟨x, b, rfl, hx⟩ := List.eq_append_cons_of_mem hmem
    obtain ⟨after, rfl⟩ := h.break
    exact .inr ⟨x, after, hx, rfl⟩
  · exact .inl hmem

/-- Writing every line break as a line feed drops the carriage returns of a paired text. -/
theorem unixBreaks_of_paired {cs : List Char} (h : Paired cs) :
    unixBreaks cs = withoutReturns cs := by
  fun_induction unixBreaks cs with
  | case1 => rfl
  | case2 rest ih =>
      rw [withoutReturns_return, withoutReturns_break, ih h.2.2]
  | case3 c rest hpair ih =>
      have hc : c ≠ '\r' := by
        rintro rfl
        obtain ⟨after, rfl⟩ := h.1 rfl
        exact hpair after rfl rfl
      rw [withoutReturns_cons hc, ih h.2]

-- ── Contents ─────────────────────────────────────────────────────────────────

theorem trimEnd_withoutReturns (cs : List Char) :
    trimEnd (withoutReturns cs) = withoutReturns (trimEnd cs) := by
  have hreverse : ∀ cs, withoutReturns cs.reverse = (withoutReturns cs).reverse :=
    fun cs => List.filter_reverse
  rw [trimEnd, ← hreverse, dropWhile_withoutReturns rfl, ← hreverse, trimEnd]

theorem keptBlanks_withoutReturns (blanks : List Char) :
    keptBlanks (withoutReturns blanks) = withoutReturns (keptBlanks blanks) := by
  have hmem : '\n' ∈ withoutReturns blanks ↔ '\n' ∈ blanks := by simp [withoutReturns]
  have hline : ∀ cs, (withoutReturns cs).getLast? ≠ some '\r' := by
    intro cs hlast
    exact return_not_mem_withoutReturns cs (List.mem_of_getLast? hlast)
  rw [keptBlanks, keptBlanks, takeWhile_withoutReturns rfl]
  by_cases hbreak : '\n' ∈ blanks
  · rw [if_pos (hmem.mpr hbreak), if_pos hbreak]
    dsimp only
    rw [if_neg (hline _)]
    split
    · next hlast =>
        obtain ⟨a, ha⟩ := List.getLast?_eq_some_iff.mp hlast
        rw [ha, List.dropLast_concat, withoutReturns_append, withoutReturns_return,
          withoutReturns_nil, List.append_nil]
    · rfl
  · rw [if_neg (hbreak ∘ hmem.mp), if_neg hbreak]
    rfl

/-- The content of a region without its carriage returns is the content without them. -/
theorem content_withoutReturns (region : List Char) :
    content (withoutReturns region) = withoutReturns (content region) := by
  have hblanks : (withoutReturns region).drop (trimEnd (withoutReturns region)).length =
      withoutReturns (region.drop (trimEnd region).length) := by
    refine (List.append_right_inj (trimEnd (withoutReturns region))).mp ?_
    rw [trimEnd_append_drop, trimEnd_withoutReturns, ← withoutReturns_append, trimEnd_append_drop]
  rw [content, content, hblanks, keptBlanks_withoutReturns, trimEnd_withoutReturns,
    withoutReturns_append]

theorem keptBlanks_prefix (blanks : List Char) : keptBlanks blanks <+: blanks := by
  have hline := List.takeWhile_prefix (· != '\n') (l := blanks)
  rw [keptBlanks]
  split
  · dsimp only
    split
    · exact (List.dropLast_prefix _).trans hline
    · exact hline
  · exact List.nil_prefix

theorem content_prefix (region : List Char) : content region <+: region := by
  have h := trimEnd_append_drop region
  obtain ⟨rest, hrest⟩ := keptBlanks_prefix (region.drop (trimEnd region).length)
  refine ⟨rest, ?_⟩
  rw [content, List.append_assoc, hrest, h]

/-- The blanks that stay behind a content leave the carriage return of their line break out. -/
theorem Paired.getLast?_keptBlanks {blanks after : List Char} (h : Paired (blanks ++ after)) :
    (keptBlanks blanks).getLast? ≠ some '\r' := by
  intro hlast
  rw [keptBlanks] at hlast
  split at hlast
  · dsimp only at hlast
    split at hlast
    · next hline =>
        -- a second carriage return would stand in front of the first
        obtain ⟨a, ha⟩ := List.getLast?_eq_some_iff.mp hline
        rw [ha, List.dropLast_concat] at hlast
        obtain ⟨x, rfl⟩ := List.getLast?_eq_some_iff.mp hlast
        rw [← List.takeWhile_append_dropWhile (p := (· != '\n')) (l := blanks), ha] at h
        simp only [List.append_assoc, List.singleton_append] at h
        obtain ⟨rest, hrest⟩ := h.break
        cases hrest
    · next hline => exact hline hlast
  · cases hlast

/-- A content takes no carriage return without its line break. -/
theorem Paired.getLast?_content {region after : List Char} (h : Paired (region ++ after)) :
    (content region).getLast? ≠ some '\r' := by
  have hsplit := trimEnd_append_drop region
  rw [← hsplit, List.append_assoc] at h
  have hkept := h.suffix.getLast?_keptBlanks
  rw [content, List.getLast?_append]
  intro hlast
  cases hk : (keptBlanks (region.drop (trimEnd region).length)).getLast? with
  | some c =>
      rw [hk] at hlast
      exact hkept (hk.trans hlast)
  | none =>
      rw [hk] at hlast
      exact absurd (getLast?_trimEnd region hlast) (by decide)

theorem Paired.content {region after : List Char} (h : Paired (region ++ after)) :
    Paired (content region) := by
  have hlast := h.getLast?_content
  obtain ⟨rest, hrest⟩ := content_prefix region
  rw [← hrest, List.append_assoc] at h
  exact h.prefix hlast

-- ── Markers ──────────────────────────────────────────────────────────────────

/-- The blank lines behind a header end at the same place. -/
theorem headerEnd?_withoutReturns (cs : List Char) :
    (headerEnd? cs = none ∧ headerEnd? (withoutReturns cs) = none) ∨
      ∃ n m, headerEnd? cs = some n ∧ headerEnd? (withoutReturns cs) = some m ∧
        (withoutReturns cs).drop m = withoutReturns (cs.drop n) := by
  induction cs with
  | nil => exact .inl ⟨rfl, rfl⟩
  | cons c cs ih =>
      by_cases hc : c = '\r'
      · subst hc
        have hblank : isAsciiBlank '\r' = true := rfl
        rw [withoutReturns_return, headerEnd?, if_pos hblank]
        obtain ⟨h, h'⟩ | ⟨n, m, h, h', hdrop⟩ := ih
        · rw [h]
          exact .inl ⟨rfl, h'⟩
        · rw [h]
          exact .inr ⟨n + 1, m, rfl, h', hdrop⟩
      · rw [withoutReturns_cons hc, headerEnd?, headerEnd?]
        by_cases hblank : isAsciiBlank c = true
        · rw [if_pos hblank, if_pos hblank]
          obtain ⟨h, h'⟩ | ⟨n, m, h, h', hdrop⟩ := ih
          · rw [h, h']
            by_cases hbreak : c = '\n'
            · exact .inr ⟨1, 1, if_pos hbreak, if_pos hbreak, rfl⟩
            · exact .inl ⟨if_neg hbreak, if_neg hbreak⟩
          · rw [h, h']
            exact .inr ⟨n + 1, m + 1, rfl, rfl, hdrop⟩
        · rw [if_neg hblank, if_neg hblank]
          exact .inl ⟨rfl, rfl⟩

theorem afterBlankLines_withoutReturns (cs : List Char) :
    afterBlankLines (withoutReturns cs) = withoutReturns (afterBlankLines cs) := by
  rw [afterBlankLines, afterBlankLines]
  obtain ⟨h, h'⟩ | ⟨n, m, h, h', hdrop⟩ := headerEnd?_withoutReturns cs
  · rw [h, h']
    rfl
  · rw [h, h']
    exact hdrop

def Found.withoutReturns (f : Found) : Found :=
  ⟨f.marker, Template.withoutReturns f.source, Template.withoutReturns f.rest⟩

/-- A paired text has the same markers without its carriage returns. -/
theorem marker?_withoutReturns {cs : List Char} (h : Paired cs) (b : Bool) :
    marker? b (withoutReturns cs) = (marker? b cs).map Found.withoutReturns := by
  obtain hmem | ⟨x, after, hx, rfl⟩ := h.no_return_or_break
  · rw [withoutReturns_of_not_mem hmem]
    cases hm : marker? b cs with
    | none => rfl
    | some f =>
        have happ := marker?_append hm
        have hsource : '\r' ∉ f.source := fun hs => hmem (happ ▸ List.mem_append_left _ hs)
        have hrest : '\r' ∉ f.rest := fun hr => hmem (happ ▸ List.mem_append_right _ hr)
        rw [Option.map_some, Found.withoutReturns, withoutReturns_of_not_mem hsource,
          withoutReturns_of_not_mem hrest]
  · have hreturn : Breaks ('\r' :: '\n' :: after) after :=
      ⟨['\r'], List.forall_mem_singleton.mpr rfl, rfl⟩
    have hbreak : withoutReturns ('\r' :: '\n' :: after) = '\n' :: withoutReturns after := rfl
    rw [withoutReturns_append, hbreak, withoutReturns_of_not_mem hx]
    obtain ⟨hm, hm'⟩ | ⟨m, s, z, rfl, hm, hm'⟩ | ⟨m, s, s', hm, hm'⟩ :=
      marker?_both hreturn (breaks_plain (withoutReturns after)) b x
    · rw [hm, hm']
      rfl
    · have hs : '\r' ∉ s := fun h => hx (List.mem_append_left z h)
      have hz : '\r' ∉ z := fun h => hx (List.mem_append_right s h)
      rw [hm, hm', Option.map_some, Found.withoutReturns, withoutReturns_of_not_mem hs,
        withoutReturns_append, hbreak, withoutReturns_of_not_mem hz]
    · have happ : s ++ afterBlankLines after = x ++ '\r' :: '\n' :: after := marker?_append hm
      have happ' : s' ++ afterBlankLines (withoutReturns after) =
          x ++ '\n' :: withoutReturns after := marker?_append hm'
      have hs : withoutReturns s = s' := by
        refine (List.append_left_inj (afterBlankLines (withoutReturns after))).mp ?_
        rw [happ', afterBlankLines_withoutReturns, ← withoutReturns_append, happ,
          withoutReturns_append, hbreak, withoutReturns_of_not_mem hx]
      rw [hm, hm', Option.map_some, Found.withoutReturns, hs, afterBlankLines_withoutReturns]

-- ── Pieces ───────────────────────────────────────────────────────────────────

/-- Leaves out the carriage returns, in plain text and in tokens. -/
def unreturned : Retelling where
  chars c := withoutReturns [c]
  token t := { t with source := withoutReturns t.source }
  piece
    | .char c => Piece.plain (withoutReturns [c])
    | .item t => [.item { t with source := withoutReturns t.source }]
  piece_char _ := rfl
  piece_token _ := rfl
  inert h u hu := by
    obtain rfl : u = _ := by simpa using hu
    exact h
  source t := by
    rw [tokenSource_item, tokenSource_nil, List.append_nil]
    exact (flatMap_withoutReturns t.source).symm
  marker _ := rfl

/-- Behind a marker reading goes on from the same place. -/
theorem piecesFrom_pastMarker_withoutReturns (p : Position) {source rest : List Char}
    (h : Paired (source ++ rest)) :
    piecesFrom (p.pastMarker (withoutReturns source)) (withoutReturns rest) =
      piecesFrom (p.pastMarker source) (withoutReturns rest) := by
  by_cases hlast : source.getLast? = some '\r'
  · -- the marker ends in front of a line break
    obtain ⟨s, rfl⟩ := List.getLast?_eq_some_iff.mp hlast
    rw [List.append_assoc, List.singleton_append] at h
    obtain ⟨after, rfl⟩ := h.break
    have hend : LineEnd (withoutReturns ('\n' :: after)) := lineEnd_break _
    rw [piecesFrom_lineEnd _ hend, piecesFrom_lineEnd (p.pastMarker _) hend, Position.pastMarker,
      lineBreaks_withoutReturns]
    rfl
  · rw [Position.pastMarker, getLast?_withoutReturns hlast, lineBreaks_withoutReturns]
    rfl

theorem piecesFrom_withoutReturns (p : Position) {cs : List Char} (h : Paired cs) :
    piecesFrom p (withoutReturns cs) = unreturned.pieces (piecesFrom p cs) := by
  induction p, cs using reading_induction with
  | nil p => rfl
  | char p c rest hm ih =>
      rw [piecesFrom_char hm, Telling.pieces_cons, ← ih h.2]
      by_cases hc : c = '\r'
      · subst hc
        rfl
      · have hm' := marker?_withoutReturns h p.lineStart
        rw [withoutReturns_cons hc] at hm' ⊢
        rw [hm] at hm'
        rw [piecesFrom_char hm', unreturned.piece_char]
        show _ = Piece.plain (withoutReturns [c]) ++ _
        rw [withoutReturns_cons hc]
        rfl
  | marker p cs f hm ih =>
      have happ := marker?_append hm
      have hm' := marker?_withoutReturns h p.lineStart
      rw [hm, Option.map_some] at hm'
      rw [← happ] at h
      rw [piecesFrom_marker hm, piecesFrom_marker hm', Telling.pieces_cons, ← ih h.suffix,
        ← piecesFrom_pastMarker_withoutReturns p h]
      rfl

end ShaderTemplates.Template
