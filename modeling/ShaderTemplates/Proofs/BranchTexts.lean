import ShaderTemplates.Proofs.BlockRegions
import ShaderTemplates.Proofs.CutTexts

/-!
# Branches as texts of their own

A branch is cut out of a text and read anew: reading starts at the beginning of a line, as it does
behind the header of the branch, and it ends where the blanks in front of the next marker line
begin.  What is read is what was read before, as far as conditionals are concerned (`bare_region`).
A header that loses its line break at the end of a branch was no header of a conditional, because no
end marker of the branch stands behind it (`Inside.last`).
-/

namespace ShaderTemplates.Template

open Text

-- ── Blank texts and single lines ─────────────────────────────────────────────

theorem startsMarker_of_isBlank {c : Char} (h : isBlank c = true) : startsMarker c = false := by
  cases hs : startsMarker c with
  | false => rfl
  | true =>
      simp only [startsMarker, Bool.or_eq_true, beq_iff_eq] at hs
      obtain ((rfl | rfl) | rfl) | rfl := hs <;> revert h <;> decide

theorem startsMarker_of_some {b : Bool} {c : Char} {rest : List Char} {f : Found}
    (h : marker? b (c :: rest) = some f) : startsMarker c = true := by
  rw [marker?] at h
  split at h
  · next hc => simpa using hc
  · cases h

/-- A token starts with one of the characters that markers start with. -/
theorem head_of_mem_piecesFrom {p : Position} {cs : List Char} {t : Token}
    (h : .item t ∈ piecesFrom p cs) : ∃ c s, t.source = c :: s ∧ startsMarker c = true := by
  induction p, cs using reading_induction with
  | nil p => exact absurd h List.not_mem_nil
  | char p c rest hm ih =>
      rw [piecesFrom_char hm] at h
      rcases List.mem_cons.mp h with h | h
      · cases h
      · exact ih h
  | marker p cs f hm ih =>
      rw [piecesFrom_marker hm] at h
      rcases List.mem_cons.mp h with h | h
      · cases h
        have happ := marker?_append hm
        obtain ⟨c, s, hs⟩ := List.exists_cons_of_ne_nil (marker?_source_ne_nil hm)
        rw [hs] at happ
        exact ⟨c, s, hs, startsMarker_of_some (happ ▸ hm)⟩
      · exact ih h

theorem mem_tokenSource {ps : List (Piece Token)} {t : Token} (h : .item t ∈ ps) {c : Char}
    (hc : c ∈ t.source) : c ∈ tokenSource ps := by
  obtain ⟨a, b, rfl⟩ := List.append_of_mem h
  rw [tokenSource_append, tokenSource_item]
  exact List.mem_append_right _ (List.mem_append_left _ hc)

/-- Blanks are plain text. -/
theorem plain_of_blank {p : Position} {cs : List Char} {ps qs : List (Piece Token)}
    (h : piecesFrom p cs = ps ++ qs) (hblank : ∀ c ∈ tokenSource ps, isBlank c = true) :
    ps = Piece.plain (tokenSource ps) := by
  have hnone : ∀ t, .item t ∉ ps := by
    intro t ht
    obtain ⟨c, s, hs, hstart⟩ := head_of_mem_piecesFrom (h ▸ List.mem_append_left qs ht)
    have hc : c ∈ t.source := hs ▸ List.mem_cons_self
    rw [startsMarker_of_isBlank (hblank c (mem_tokenSource ht hc))] at hstart
    cases hstart
  clear h hblank
  induction ps with
  | nil => rfl
  | cons x ps ih =>
      have hps := ih fun t ht => hnone t (List.mem_cons_of_mem _ ht)
      cases x with
      | char c => exact congrArg (.char c :: ·) hps
      | item t => exact absurd List.mem_cons_self (hnone t)

/-- In the middle of a line there are no markers of conditionals that end on it. -/
theorem inert_of_line {p : Position} {cs : List Char} (hp : p.lineStart = false)
    (hcs : '\n' ∉ cs) : ∀ t, .item t ∈ piecesFrom p cs → t.marker.Inert := by
  induction p, cs using reading_induction with
  | nil p => exact fun t ht => absurd ht List.not_mem_nil
  | char p c rest hm ih =>
      rw [piecesFrom_char hm]
      intro t ht
      rcases List.mem_cons.mp ht with ht | ht
      · cases ht
      · have hc : c ≠ '\n' := fun hc => hcs (hc ▸ List.mem_cons_self)
        refine ih ?_ (fun hm => hcs (List.mem_cons_of_mem _ hm)) t ht
        rw [Position.pastChar, if_neg hc]
        split
        · exact hp
        · rfl
  | marker p cs f hm ih =>
      have happ := marker?_append hm
      have hsource : '\n' ∉ f.source := fun hm => hcs (happ ▸ List.mem_append_left _ hm)
      rw [piecesFrom_marker hm]
      intro t ht
      rcases List.mem_cons.mp ht with ht | ht
      · cases ht
        obtain h | ⟨-, h⟩ | ⟨h, -⟩ := marker?_cases hm
        · obtain ⟨name, alternatives, hkind⟩ := marker_of_variableWord? h
          show f.marker.Inert
          rw [hkind]
          trivial
        · exact absurd h hsource
        · rw [hp] at h
          cases h
      · refine ih ?_ (fun hm => hcs (happ ▸ List.mem_append_right _ hm)) t ht
        cases hlast : (p.pastMarker f.source).lineStart with
        | false => rfl
        | true =>
            have hlast : f.source.getLast? = some '\n' := by simpa [Position.pastMarker] using hlast
            exact absurd (List.mem_of_getLast? hlast) hsource

-- ── Bare pieces of a text ────────────────────────────────────────────────────

theorem bare_piecesFrom_eq {p q : Position} (h : p.lineStart = q.lineStart) (cs : List Char) :
    bare.pieces (piecesFrom p cs) = bare.pieces (piecesFrom q cs) := by
  refine flatMap_piecesFrom_eq ?_ h cs
  intro m s n k
  cases m <;> rfl

theorem afterBlankLines_length_le (cs : List Char) :
    (afterBlankLines cs).length ≤ cs.length := by
  have happ := congrArg List.length (blankLines_append cs)
  rw [List.length_append] at happ
  omega

theorem Breaks.append {tail after : List Char} (h : Breaks tail after) (more : List Char) :
    Breaks (tail ++ more) (after ++ more) := by
  obtain ⟨blanks, hb, rfl⟩ := h
  exact ⟨blanks, hb, by simp⟩

theorem Breaks.length_lt {tail after : List Char} (h : Breaks tail after) :
    after.length < tail.length := by
  obtain ⟨blanks, -, rfl⟩ := h
  rw [List.length_append, List.length_cons]
  omega

/-- A header on the last line is plain text once its line break is lost, and so is all behind it. -/
theorem inert_of_lost_header {p : Position} {c : Char} {y tail : List Char} {f : Found}
    (hbefore : marker? p.lineStart (c :: y ++ tail) = some f)
    (hafter : marker? p.lineStart (c :: y) = none) (hline : '\n' ∉ c :: y) :
    ∀ t, .item t ∈ piecesFrom p (c :: y) → t.marker.Inert := by
  have hstart := startsMarker_of_some hbefore
  have hc : c ≠ '\n' := fun hc => hline (hc ▸ List.mem_cons_self)
  have hinline : isInlineBlank c = false := by
    cases hblank : isInlineBlank c with
    | false => rfl
    | true =>
        rw [startsMarker_of_isAsciiBlank (isAsciiBlank_of_isInlineBlank hblank)] at hstart
        cases hstart
  rw [piecesFrom_char hafter]
  intro t ht
  rcases List.mem_cons.mp ht with ht | ht
  · cases ht
  · refine inert_of_line ?_ (fun hm => hline (List.mem_cons_of_mem _ hm)) t ht
    rw [Position.pastChar, if_neg hc, hinline]
    rfl

/-- A header that loses its line break to a cut is told as plain text, before the cut as behind it:
    no end marker of the branch stands behind it, so it is no header of a conditional. -/
theorem bare_lost_header {p : Position} {c : Char} {y tail more after s : List Char} {m : Marker}
    {ps qs : List (Piece Token)} {d : Nat} (ht : Breaks (tail ++ more) after)
    (hblank : ∀ c ∈ tail, isBlank c = true) (hline : '\n' ∉ c :: y) (hm : m.EndsLine)
    (hbefore : marker? p.lineStart (c :: y ++ (tail ++ more)) =
      some ⟨m, s, afterBlankLines after⟩)
    (hafter : marker? p.lineStart (c :: y) = none)
    (h : piecesFrom (p.pastMarker s) (afterBlankLines after) = ps ++ qs)
    (hsource : s ++ tokenSource ps = (c :: y) ++ tail)
    (hin : Inside d (.item ⟨m, s, p.line⟩ :: ps)) :
    bare.pieces (.item ⟨m, s, p.line⟩ :: ps) =
      bare.pieces (piecesFrom p (c :: y)) ++ Piece.plain tail := by
  -- behind the header only blanks are left of the branch
  have hleft : ∀ x ∈ tokenSource ps, isBlank x = true := by
    have happ := congrArg List.length (marker?_append hbefore)
    have hlen := afterBlankLines_length_le after
    have hshort := ht.length_lt
    simp only [List.length_append] at happ hshort
    obtain ⟨a, ha, hps⟩ | ⟨a, -, htext⟩ := List.append_eq_append_iff.mp hsource
    · have hlen := congrArg List.length ha
      rw [List.length_append] at hlen
      have hnil : a = [] := List.eq_nil_of_length_eq_zero (by omega)
      rw [hps, hnil]
      exact hblank
    · intro x hx
      exact hblank x (htext ▸ List.mem_append_right a hx)
  have hps := plain_of_blank h hleft
  have hinert : m.Inert := by
    rw [hps] at hin
    obtain hend | hinert := hin.last
    · cases hend
      exact hm.elim
    · exact hinert
  have hall : ∀ t, .item t ∈ Piece.item ⟨m, s, p.line⟩ :: ps → t.marker.Inert := by
    intro t ht
    rcases List.mem_cons.mp ht with ht | ht
    · cases ht
      exact hinert
    · rw [hps] at ht
      exact absurd ht not_mem_plain
  rw [bare_inert hall, bare_inert (inert_of_lost_header hbefore hafter hline), tokenSource_item,
    hsource, tokenSource_piecesFrom, Piece.plain_append]

/-- A text that is cut in front of blanks is read as before, as far as conditionals are
    concerned. -/
theorem bare_cut {p : Position} {y tail more after : List Char} {ps qs : List (Piece Token)}
    {d : Nat} (hy : Shut y) (ht : Breaks (tail ++ more) after)
    (hblank : ∀ c ∈ tail, isBlank c = true)
    (h : piecesFrom p (y ++ (tail ++ more)) = ps ++ qs) (hsource : tokenSource ps = y ++ tail)
    (hin : Inside d ps) :
    bare.pieces ps = bare.pieces (piecesFrom p y) ++ Piece.plain tail := by
  induction hn : y.length using Nat.strongRecOn generalizing y p ps d with
  | ind n ih =>
      subst hn
      cases y with
      | nil =>
          rw [List.nil_append] at hsource
          have hplain := plain_of_blank h (hsource ▸ hblank)
          rw [hplain, hsource, bare_plain, piecesFrom_nil]
          rfl
      | cons c y =>
          cases ps with
          | nil => cases hsource
          | cons x ps =>
              obtain ⟨e, hin'⟩ := hin.tail
              obtain ⟨h1, h2⟩ | ⟨m, s, z, h1, h2⟩ | ⟨m, s, hm, h1, h2, hline⟩ :=
                marker?_cut hy ht p.lineStart
              · rw [List.cons_append] at h1 h
                rw [piecesFrom_char h1, List.cons_append] at h
                obtain ⟨rfl, htail⟩ := List.cons.inj h
                have hrest := ih y.length (by simp) (hy.suffix (a := [c])) htail
                  (List.cons.inj hsource).2 hin' rfl
                rw [piecesFrom_char h2, Telling.pieces_cons, Telling.pieces_cons, hrest,
                  List.append_assoc]
              · have happ := marker?_append h2
                have hlen := marker?_rest_length h2
                rw [piecesFrom_marker h1, List.cons_append] at h
                obtain ⟨rfl, htail⟩ := List.cons.inj h
                have hz : tokenSource ps = z ++ tail := by
                  rw [tokenSource_item, ← happ, List.append_assoc] at hsource
                  exact List.append_cancel_left hsource
                have hrest := ih z.length hlen (Shut.suffix (a := s) (happ ▸ hy)) htail hz hin' rfl
                rw [piecesFrom_marker h2, Telling.pieces_cons, Telling.pieces_cons, hrest,
                  List.append_assoc]
              · rw [piecesFrom_marker h1, List.cons_append] at h
                obtain ⟨rfl, htail⟩ := List.cons.inj h
                exact bare_lost_header ht hblank hline hm h1 h2 htail hsource hin

-- ── Contents ─────────────────────────────────────────────────────────────────

/-- What trimming takes from the end of a text is blank. -/
theorem blank_of_mem_drop (cs : List Char) {c : Char} (h : c ∈ cs.drop (trimEnd cs).length) :
    isBlank c = true := by
  have hcut := List.takeWhile_append_dropWhile (p := isBlank) (l := cs.reverse)
  have htext : trimEnd cs ++ (cs.reverse.takeWhile isBlank).reverse = cs := by
    rw [trimEnd, ← List.reverse_append, hcut, List.reverse_reverse]
  have hdrop : cs.drop (trimEnd cs).length = (cs.reverse.takeWhile isBlank).reverse := by
    refine (List.append_right_inj (trimEnd cs)).mp ?_
    rw [trimEnd_append_drop, htext]
  rw [hdrop, List.mem_reverse] at h
  exact List.all_eq_true.mp List.all_takeWhile c h

theorem getLast?_trimEnd (cs : List Char) {c : Char} (h : (trimEnd cs).getLast? = some c) :
    isBlank c = false := by
  rw [trimEnd, List.getLast?_reverse] at h
  have hhead := List.head?_dropWhile_not isBlank cs.reverse
  rw [h] at hhead
  simpa using hhead

theorem lineBreak_not_mem_keptBlanks (blanks : List Char) : '\n' ∉ keptBlanks blanks := by
  have hline : '\n' ∉ blanks.takeWhile (· != '\n') := break_not_mem_firstLine blanks
  rw [keptBlanks]
  split
  · dsimp only
    split
    · exact fun h => hline ((List.dropLast_sublist _).mem h)
    · exact hline
  · exact List.not_mem_nil

/-- A content holds all the blanks at its end on its last line. -/
theorem shut_content (region : List Char) : Shut (content region) := by
  intro a b hab hb hbreak
  rw [content] at hab
  have hkept := lineBreak_not_mem_keptBlanks (region.drop (trimEnd region).length)
  obtain ⟨k, -, hk⟩ | ⟨k, htrim, hk⟩ := List.append_eq_append_iff.mp hab
  · exact hkept (hk ▸ List.mem_append_right k hbreak)
  · -- blanks with a line break would go back behind the last character that is no blank
    cases hlast : k.getLast? with
    | none =>
        rw [List.getLast?_eq_none_iff.mp hlast, List.nil_append] at hk
        exact hkept (hk ▸ hbreak)
    | some c =>
        have hc : isBlank c = false := by
          refine getLast?_trimEnd region ?_
          rw [htrim, List.getLast?_append, hlast]
          rfl
        have hcb := hb c (hk ▸ List.mem_append_left _ (List.mem_of_getLast? hlast))
        rw [isBlank_of_isAsciiBlank hcb] at hc
        cases hc

/-- A region that ends where a marker line starts is its content and blanks. -/
theorem content_append_blanks {region : List Char} (h : BlankEnd True region) :
    (content region = [] ∧ ∀ c ∈ region, isBlank c = true) ∨
      ∃ tail after, region = content region ++ tail ∧ Breaks tail after ∧
        ∀ c ∈ tail, isBlank c = true := by
  obtain hnil | ⟨tail, after, hregion, ht⟩ := content_of_blankEnd h
  · refine .inl ⟨hnil, fun c hc => blank_of_mem_drop region ?_⟩
    have htrim : trimEnd region = [] := by
      rw [content] at hnil
      exact (List.append_eq_nil_iff.mp hnil).1
    rw [htrim]
    exact hc
  · refine .inr ⟨tail, after, hregion, ht, fun c hc => blank_of_mem_drop region ?_⟩
    have hdrop := trimEnd_append_drop region
    have hkept : keptBlanks (region.drop (trimEnd region).length) ++ tail =
        region.drop (trimEnd region).length := by
      refine (List.append_right_inj (trimEnd region)).mp ?_
      rw [hdrop, ← List.append_assoc]
      exact hregion.symm
    rw [← hkept]
    exact List.mem_append_right _ hc

-- ── Branches ─────────────────────────────────────────────────────────────────

/-- What stands between the markers of a branch is the content of the branch and blanks behind it,
    and the content is read by itself as it is read in the text. -/
theorem bare_region {q : Position} {cs : List Char} {ps qs : List (Piece Token)}
    (h : piecesFrom q cs = ps ++ qs) (hblank : BlankEnd True (tokenSource ps))
    (hin : Inside 0 ps) :
    ∃ tail, tokenSource ps = content (tokenSource ps) ++ tail ∧
      bare.pieces ps =
        bare.pieces (piecesFrom q (content (tokenSource ps))) ++ Piece.plain tail := by
  obtain ⟨hnil, hall⟩ | ⟨tail, after, hregion, ht, hall⟩ := content_append_blanks hblank
  · refine ⟨tokenSource ps, by rw [hnil, List.nil_append], ?_⟩
    rw [hnil, piecesFrom_nil, Telling.pieces_nil, List.nil_append]
    have hplain := plain_of_blank h hall
    generalize tokenSource ps = cs at hplain
    rw [hplain, bare_plain]
  · refine ⟨tail, hregion, ?_⟩
    have htext : cs = content (tokenSource ps) ++ (tail ++ tokenSource qs) := by
      have hsource := congrArg tokenSource h
      rw [tokenSource_piecesFrom, tokenSource_append] at hsource
      rw [← List.append_assoc, ← hregion]
      exact hsource
    rw [htext] at h
    exact bare_cut (shut_content _) (ht.append _) hall h hregion hin

theorem lineStart_of_stop {q : Position} {cs : List Char} {f : Found} (hm : f.marker.StartsLine)
    (h : marker? q.lineStart cs = some f) : q.lineStart = true := by
  have hwhy := marker?_explained h
  obtain ⟨m, source, rest⟩ := f
  cases m with
  | elseLine => exact hwhy.1
  | endIf => exact hwhy
  | endBlock => exact hwhy
  | ifHeader name default? => exact hm.elim
  | blockHeader name => exact hm.elim
  | «variable» name alternatives => exact hm.elim

theorem lineStart_pastHeader {q : Position} {b : Bool} {cs : List Char} {f : Found}
    (hm : f.marker.EndsLine) (h : marker? b cs = some f) :
    (q.pastMarker f.source).lineStart = true := by
  have hlast : f.source.getLast? = some '\n' := by
    have hwhy := marker?_explained h
    obtain ⟨m, source, rest⟩ := f
    cases m with
    | ifHeader name default? => exact hwhy
    | elseLine => exact hwhy.2
    | blockHeader name => exact hwhy
    | endIf => exact hm.elim
    | endBlock => exact hm.elim
    | «variable» name alternatives => exact hm.elim
  simp [Position.pastMarker, hlast]

/-- The branches of a conditional are read as they are read in the text around them. -/
theorem bare_branch {p : Position} {cs : List Char} {s : Site}
    (h : .item s ∈ gatherClosings (piecesFrom p cs)) (value : Bool) :
    ∃ tail, tokenSource (s.region value) = s.conditional.branch value ++ tail ∧
      bare.pieces (s.region value) =
        bare.pieces (tokenize (s.conditional.branch value)) ++ Piece.plain tail := by
  rw [s.branch_eq, tokenize_eq_piecesFrom]
  obtain hnil | ⟨⟨before, header, stop, after, hps, hheader, hstop⟩, hin⟩ := between_of_mem h value
  · rw [hnil]
    exact ⟨[], rfl, rfl⟩
  · obtain ⟨q, hopen, hread, -⟩ := piecesFrom_item hps
    have hq := lineStart_pastHeader (q := q) hheader hopen
    generalize q.pastMarker header.source = r at hread hq
    obtain ⟨q', hclose, -, hblank⟩ := piecesFrom_item hread.symm
    have hend : BlankEnd True (tokenSource (s.region value)) := by
      obtain ⟨-, hs⟩ | hs := hblank (lineStart_of_stop hstop hclose)
      · exact .inl ⟨trivial, hs⟩
      · exact .inr hs
    obtain ⟨tail, hsource, hbare⟩ := bare_region hread.symm hend hin
    refine ⟨tail, hsource, ?_⟩
    rw [hbare, bare_piecesFrom_eq (q := .lineAt 1) hq]

end ShaderTemplates.Template
