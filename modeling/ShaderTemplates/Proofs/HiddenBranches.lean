import ShaderTemplates.Proofs.HeaderWalls
import ShaderTemplates.Proofs.UntakenBranches

/-!
# Branches that are not taken, in texts

A conditional that is written out between two arbitrary texts is found there, whatever the texts
hold: no marker in front of it goes on into it (`piecesFrom_before`), and its branches bring no
markers of conditionals (`bare_written`).  So converting does not depend on the branch that the
condition does not select (`untaken_branch_hidden`).
-/

namespace ShaderTemplates.Template

open Text

-- ── Texts without conditionals ───────────────────────────────────────────────

def conditionalKeywords : List (List Char) := [ifKeyword, elseKeyword, endIfKeyword]

/-- A text that holds none of the keywords of conditionals. -/
def Unconditional (cs : List Char) : Prop := ∀ keyword ∈ conditionalKeywords, ¬ keyword <:+: cs

theorem unconditional_iff {cs : List Char} :
    (∀ keyword ∈ conditionalKeywords, ∀ k < cs.length + 1,
      keyword.isPrefixOf (cs.drop k) = false) ↔ Unconditional cs := by
  constructor
  · rintro h keyword hk ⟨s, t, rfl⟩
    have hs := h keyword hk s.length (by simp only [List.length_append]; omega)
    rw [List.append_assoc, List.drop_left] at hs
    rw [List.isPrefixOf_iff_prefix.mpr (List.prefix_append keyword t)] at hs
    cases hs
  · intro h keyword hk k _
    refine Bool.eq_false_iff.mpr fun hp => h keyword hk ?_
    exact (List.isPrefixOf_iff_prefix.mp hp).isInfix.trans (List.drop_suffix k cs).isInfix

instance (cs : List Char) : Decidable (Unconditional cs) := decidable_of_iff _ unconditional_iff

theorem Unconditional.suffix {a b : List Char} (h : Unconditional (a ++ b)) : Unconditional b :=
  fun keyword hk hb => h keyword hk (hb.trans (List.suffix_append a b).isInfix)

/-- A marker of a conditional starts with its keyword. -/
theorem keyword_of_not_inert {b : Bool} {cs : List Char} {f : Found} (h : marker? b cs = some f)
    (hf : ¬ f.marker.Inert) :
    ∃ keyword ∈ conditionalKeywords, ∃ rest, afterKeyword? keyword cs = some rest := by
  obtain h | h | h | ⟨-, h | h | h⟩ := marker?_eq_some h
  · obtain ⟨name, alternatives, hm⟩ := marker_of_variableWord? h
    rw [hm] at hf
    exact absurd trivial hf
  · obtain ⟨rest, hkey, -⟩ := Option.bind_eq_some_iff.mp h
    exact ⟨ifKeyword, by simp [conditionalKeywords], rest, hkey⟩
  · obtain ⟨_, _, _, -, -, h⟩ := blockHeader?_eq_some h
    rw [(endHeader_getLast? h).1] at hf
    exact absurd trivial hf
  · obtain ⟨rest, hkey, -⟩ := Option.bind_eq_some_iff.mp h
    exact ⟨elseKeyword, by simp [conditionalKeywords], rest, hkey⟩
  · obtain ⟨rest, hkey, -⟩ := Option.map_eq_some_iff.mp h
    exact ⟨endIfKeyword, by simp [conditionalKeywords], rest, hkey⟩
  · obtain ⟨rest, -, rfl⟩ := Option.map_eq_some_iff.mp h
    exact absurd trivial hf

theorem Unconditional.inert {x tail after : List Char} (hx : Unconditional x)
    (ht : Breaks tail after) {b : Bool} {f : Found} (h : marker? b (x ++ tail) = some f) :
    f.marker.Inert := by
  refine Classical.byContradiction fun hf => ?_
  obtain ⟨keyword, hk, rest, hkey⟩ := keyword_of_not_inert h hf
  have hblank : ∀ c ∈ keyword, isAsciiBlank c = false := by
    simp only [conditionalKeywords, List.mem_cons, List.not_mem_nil, or_false] at hk
    obtain rfl | rfl | rfl := hk <;> exact noBlank_of_any rfl
  rw [ht.keyword hblank] at hkey
  obtain ⟨more, hkey, -⟩ := Option.map_eq_some_iff.mp hkey
  refine hx keyword hk ?_
  rw [← afterKeyword?_append hkey]
  exact (List.prefix_append keyword more).isInfix

theorem afterBlankLines_at (r : List Char) : afterBlankLines ('@' :: r) = '@' :: r :=
  afterBlankLines_stop (u := []) rfl r

/-- A text without conditionals is plain text up to the marker line behind it. -/
theorem bare_unconditional {x : List Char} (hx : Unconditional x) (p : Position) (r : List Char) :
    bare.pieces (piecesFrom p (x ++ '\n' :: '@' :: r)) =
      Piece.plain (x ++ ['\n']) ++ bare.pieces (piecesFrom (.lineAt 1) ('@' :: r)) := by
  induction hn : x.length using Nat.strongRecOn generalizing x p with
  | ind n ih =>
      subst hn
      have ht := breaks_plain ('@' :: r)
      -- a marker that is found is told as its text
      have hbare : ∀ {m s rest}, marker? p.lineStart (x ++ '\n' :: '@' :: r) = some ⟨m, s, rest⟩ →
          bare.pieces (piecesFrom p (x ++ '\n' :: '@' :: r)) =
            Piece.plain s ++ bare.pieces (piecesFrom (p.pastMarker s) rest) := by
        intro m s rest h
        rw [piecesFrom_marker h, Telling.pieces_cons]
        exact congrArg (· ++ _) (bareToken_inert (hx.inert ht h))
      obtain ⟨h, -⟩ | ⟨m, s, z, rfl, h, -⟩ | ⟨m, s, -, h, -⟩ := marker?_both ht ht p.lineStart x
      · cases x with
        | nil =>
            rw [List.nil_append, piecesFrom_lineBreak, Telling.pieces_cons,
              bare_piecesFrom_eq (p := .lineAt (p.line + 1)) (q := .lineAt 1) rfl]
            rfl
        | cons c x =>
            rw [List.cons_append] at h ⊢
            rw [piecesFrom_char h, Telling.pieces_cons,
              ih x.length (by simp) (hx.suffix (a := [c])) _ rfl]
            rfl
      · have hpos : 0 < s.length := List.length_pos_iff.mpr (marker?_source_ne_nil h)
        have hlen : z.length < (s ++ z).length := by
          rw [List.length_append]
          omega
        rw [hbare h, ih z.length hlen hx.suffix _ rfl, List.append_assoc s z,
          Piece.plain_append s, List.append_assoc]
      · rw [afterBlankLines_at] at h
        have hsource : s ++ '@' :: r = x ++ '\n' :: '@' :: r := marker?_append h
        have hs : s = x ++ ['\n'] := by
          refine (List.append_left_inj ('@' :: r)).mp ?_
          rw [hsource]
          simp
        rw [hbare h, hs, bare_piecesFrom_eq (q := .lineAt 1)]
        simp [Position.pastMarker]

/-- The text of a branch behind its header, up to the marker line behind it. -/
theorem bare_branchText {a : List Char} (ha : Unconditional a) {p : Position}
    (hp : p.lineStart = true) {s : List Char} (hs : ∃ r, s = '@' :: r) :
    bare.pieces (piecesFrom p (afterBlankLines (a ++ '\n' :: s))) =
      Piece.plain (afterBlankLines (a ++ ['\n'])) ++
        bare.pieces (piecesFrom (.lineAt 1) s) := by
  obtain ⟨r, rfl⟩ := hs
  have hsplit : a ++ '\n' :: '@' :: r = (a ++ ['\n']) ++ '@' :: r := by simp
  rw [hsplit, afterBlankLines_stop rfl]
  have hcut : afterBlankLines (a ++ ['\n']) = [] ∨
      ∃ b x, a = b ++ x ∧ afterBlankLines (a ++ ['\n']) = x ++ ['\n'] := by
    rw [afterBlankLines]
    generalize (headerEnd? (a ++ ['\n'])).getD 0 = k
    by_cases hk : k ≤ a.length
    · exact .inr ⟨_, _, (List.take_append_drop k a).symm, List.drop_append_of_le_length hk⟩
    · refine .inl (List.drop_eq_nil_of_le ?_)
      rw [List.length_append, List.length_singleton]
      omega
  obtain hcut | ⟨b, x, rfl, hcut⟩ := hcut
  · rw [hcut, List.nil_append, bare_piecesFrom_eq (q := .lineAt 1) hp]
    rfl
  · rw [hcut, List.append_assoc, List.singleton_append, bare_unconditional ha.suffix]

-- ── A conditional in front of which anything stands ──────────────────────────

section Before

variable (n : Identifier)

/-- The text of a conditional header, its line break and what follows. -/
def headed (rest : List Char) : List Char := ifLine n.chars none ++ '\n' :: rest

theorem headed_eq_wall :
    ∃ c cs, isNameChar c = true ∧ ∀ rest, headed n rest = wall c (cs ++ '\n' :: rest) := by
  obtain ⟨c, cs, hcs⟩ := List.exists_cons_of_ne_nil n.nonempty
  refine ⟨c, cs, n.nameChars c (hcs ▸ List.mem_cons_self), fun rest => ?_⟩
  simp [headed, wall, ifLine, defaultText, hcs]

/-- A marker that starts in front of a header ends there too, and what follows the line of the
    header does not matter to it. -/
theorem marker?_before (b : Bool) {y : List Char} (hy : y ≠ []) :
    (∀ rest, marker? b (y ++ headed n rest) = none) ∨
      ∃ m s z, ∀ rest, marker? b (y ++ headed n rest) = some ⟨m, s, z ++ headed n rest⟩ := by
  obtain ⟨c, cs, hc, hwall⟩ := headed_eq_wall n
  have hshape : ∀ rest, y ++ headed n rest = (y ++ ifLine n.chars none) ++ '\n' :: rest :=
    fun rest => (List.append_assoc _ _ _).symm
  cases h : marker? b (y ++ headed n []) with
  | none =>
      refine .inl fun rest => ?_
      rw [hshape] at h ⊢
      obtain ⟨k, -⟩ | ⟨m, s, z, -, -, k⟩ | ⟨m, s, s', -, k⟩ :=
        marker?_both (breaks_plain rest) (breaks_plain []) b (y ++ ifLine n.chars none)
      · exact k
      · rw [h] at k
        cases k
      · rw [h] at k
        cases k
  | some f =>
      obtain ⟨z, hz⟩ := marker?_wall hc hy (hwall [] ▸ h)
      rw [← hwall] at hz
      obtain ⟨m, s, rest⟩ := f
      obtain rfl : rest = z ++ headed n [] := hz
      refine .inr ⟨m, s, z, fun rest => ?_⟩
      rw [hshape] at h ⊢
      obtain ⟨-, k⟩ | ⟨m', s', z', -, h', k⟩ | ⟨m', s', s'', -, k⟩ :=
        marker?_both (breaks_plain rest) (breaks_plain []) b (y ++ ifLine n.chars none)
      · rw [h] at k
        cases k
      · rw [h] at k
        injection k with k
        injection k with hm hs hz
        have hz' : z' = z ++ ifLine n.chars none := by
          refine (List.append_cancel_right (?_ : _ ++ ['\n'] = _ ++ ['\n'])).symm
          rw [← hz, List.append_assoc]
          rfl
        rw [h', ← hm, ← hs, hz', List.append_assoc]
        rfl
      · rw [h] at k
        injection k with k
        injection k with hm hs hz
        exact absurd hz (by simp [headed, afterBlankLines, headerEnd?])

/-- What stands in front of a header is read by itself. -/
theorem piecesFrom_before (p : Position) (y : List Char) :
    ∃ a q, ∀ rest, piecesFrom p (y ++ headed n rest) = a ++ piecesFrom q (headed n rest) := by
  induction hn : y.length using Nat.strongRecOn generalizing y p with
  | ind k ih =>
      subst hn
      cases y with
      | nil => exact ⟨[], p, fun rest => rfl⟩
      | cons c y =>
          obtain h | ⟨m, s, z, h⟩ := marker?_before n p.lineStart (List.cons_ne_nil c y)
          · obtain ⟨a, q, ha⟩ := ih y.length (by simp) (p.pastChar c) y rfl
            refine ⟨.char c :: a, q, fun rest => ?_⟩
            exact (piecesFrom_char (h rest)).trans (congrArg (.char c :: ·) (ha rest))
          · have hlen := marker?_rest_length (h [])
            simp only [List.length_append] at hlen
            obtain ⟨a, q, ha⟩ := ih z.length (by omega) (p.pastMarker s) z rfl
            refine ⟨.item ⟨m, s, p.line⟩ :: a, q, fun rest => ?_⟩
            rw [piecesFrom_marker (h rest), ha]
            rfl

end Before

-- ── The written conditional ──────────────────────────────────────────────────

/-- A conditional with the given branches, as it is written. -/
def writtenChoice (n : Identifier) (a f rest : List Char) : List Char :=
  headed n (a ++ '\n' :: (elseKeyword ++ '\n' :: (f ++ '\n' :: (endIfKeyword ++ rest))))

/-- The tokens of the conditional. Its headers take the blank lines at the start of the branches. -/
def choiceOf (n : Identifier) (a f : List Char) : PlainChoice where
  name := n.name
  header := ifLine n.chars none ++ '\n' :: blankLines (a ++ ['\n'])
  whenTrue := afterBlankLines (a ++ ['\n'])
  divider := elseKeyword ++ '\n' :: blankLines (f ++ ['\n'])
  whenFalse := afterBlankLines (f ++ ['\n'])
  header_ne := List.cons_ne_nil _ _
  divider_ne := List.cons_ne_nil _ _

theorem blankLines_at (a : List Char) {s : List Char} (hs : ∃ r, s = '@' :: r) :
    blankLines (a ++ '\n' :: s) = blankLines (a ++ ['\n']) := by
  obtain ⟨r, rfl⟩ := hs
  have hsplit : a ++ '\n' :: '@' :: r = (a ++ ['\n']) ++ '@' :: r := by simp
  rw [hsplit, blankLines_stop rfl]

theorem bare_marker {p : Position} {cs source rest : List Char} {m : Marker} (hm : ¬ m.Inert)
    (h : marker? p.lineStart cs = some ⟨m, source, rest⟩) :
    bare.pieces (piecesFrom p cs) =
      .item ⟨m, source, 0⟩ :: bare.pieces (piecesFrom (p.pastMarker source) rest) := by
  rw [piecesFrom_marker h, Telling.pieces_cons, bare.piece_token (t := ⟨m, source, p.line⟩) hm]
  rfl

/-- A written conditional is read as its tokens, whatever stands in front of it and behind it. -/
theorem bare_written (n : Identifier) {a f : List Char} (ha : Unconditional a)
    (hf : Unconditional f) (q : Position) (rest : List Char) :
    bare.pieces (piecesFrom q (writtenChoice n a f rest)) =
      (choiceOf n a f).pieces ++ bare.pieces (piecesFrom ⟨false, 1⟩ rest) := by
  have hname : ∀ c ∈ n.chars, isConditionChar c = true :=
    fun c hc => conditionChar_of_nameChar (n.nameChars c hc)
  have hendAt : ∃ r, endIfKeyword ++ rest = '@' :: r := ⟨_, rfl⟩
  have helseAt : ∃ r, elseKeyword ++ '\n' :: (f ++ '\n' :: (endIfKeyword ++ rest)) = '@' :: r :=
    ⟨_, rfl⟩
  have hif := marker?_ifLine q.lineStart n.nonempty hname none
    (a ++ '\n' :: (elseKeyword ++ '\n' :: (f ++ '\n' :: (endIfKeyword ++ rest))))
  have helse := marker?_elseLine (f ++ '\n' :: (endIfKeyword ++ rest))
  have hpastIf := lineStart_pastHeader (q := q) (f := ⟨.ifHeader _ _, _, _⟩) trivial hif
  have hpastElse := lineStart_pastHeader (q := .lineAt 1) (f := ⟨.elseLine, _, _⟩) trivial helse
  have hpastEnd : (Position.pastMarker (.lineAt 1) endIfKeyword).lineStart = false := rfl
  rw [writtenChoice, headed, bare_marker id hif, bare_branchText ha hpastIf helseAt,
    bare_marker (p := .lineAt 1) id helse, bare_branchText hf hpastElse hendAt,
    bare_marker (p := .lineAt 1) id (marker?_endIf rest), blankLines_at a helseAt,
    blankLines_at f hendAt, bare_piecesFrom_eq (q := ⟨false, 1⟩) hpastEnd]
  simp [PlainChoice.pieces, choiceOf, PlainChoice.headerToken, PlainChoice.dividerToken,
    PlainChoice.endToken, Identifier.name]

/-- Tokens that are bare stay as they are. -/
theorem bare_bare (ps : List (Piece Token)) : bare.pieces (bare.pieces ps) = bare.pieces ps := by
  induction ps with
  | nil => rfl
  | cons p ps ih =>
      rw [Telling.pieces_cons, Telling.pieces_append, ih]
      cases p with
      | char c => rfl
      | item t =>
          by_cases ht : t.marker.Inert
          · have hplain : bare.piece (.item t) = Piece.plain t.source := bareToken_inert ht
            rw [hplain, bare_plain]
          · have hbare : ¬ (bare.token t).marker.Inert := ht
            rw [bare.piece_token ht, Telling.pieces_cons, bare.piece_token hbare]
            rfl

theorem mark_not_mem_bare (ps : List (Piece Token)) : .item mark ∉ bare.pieces ps := by
  intro h
  obtain ⟨p, -, hm⟩ := List.mem_flatMap.mp h
  cases p with
  | char c => cases List.mem_singleton.mp hm
  | item t =>
      by_cases ht : t.marker.Inert
      · rw [show bare.piece (.item t) = Piece.plain t.source from bareToken_inert ht] at hm
        exact absurd hm not_mem_plain
      · rw [bare.piece_token ht] at hm
        have hmark : mark = bare.token t := Piece.item.inj (List.mem_singleton.mp hm)
        have hmarker : (bare.token t).marker.Inert := hmark ▸ trivial
        exact ht hmarker

/-- The tokens of a text in which a conditional is written, for all its branches at once. -/
theorem bare_tokenize_written (n : Identifier) (before rest : List Char) :
    ∃ ps, ∀ {a f : List Char}, Unconditional a → Unconditional f →
      bare.pieces (tokenize (before ++ writtenChoice n a f rest)) =
        (filling (choiceOf n a f)).pieces ps := by
  obtain ⟨a', q, hbefore⟩ := piecesFrom_before n (.lineAt 1) before
  refine ⟨bare.pieces a' ++ .item mark :: bare.pieces (piecesFrom ⟨false, 1⟩ rest), ?_⟩
  intro a f ha hf
  have hread := hbefore
    (a ++ '\n' :: (elseKeyword ++ '\n' :: (f ++ '\n' :: (endIfKeyword ++ rest))))
  rw [tokenize_eq_piecesFrom, writtenChoice, hread, Telling.pieces_append, ← writtenChoice,
    bare_written n ha hf, Telling.pieces_append, Telling.pieces_cons, filling_mark,
    filling_of_not_mem (mark_not_mem_bare _), filling_of_not_mem (mark_not_mem_bare _)]

-- ── Converting ───────────────────────────────────────────────────────────────

/-- The first pass over a text in which a conditional is written depends on the branch that the
    condition selects, and on no other. -/
theorem resolve_written {conditions : Table Bool} {n : Identifier} {a a' f f' : List Char}
    (ha : Unconditional a) (ha' : Unconditional a') (hf : Unconditional f) (hf' : Unconditional f')
    (h : PlainChoice.Agrees conditions (choiceOf n a f) (choiceOf n a' f'))
    (before rest : List Char) :
    ((Outline.ofText (before ++ writtenChoice n a f rest)).resolve conditions).mapError
        Unresolved.demanded =
      ((Outline.ofText (before ++ writtenChoice n a' f' rest)).resolve conditions).mapError
        Unresolved.demanded := by
  obtain ⟨ps, hps⟩ := bare_tokenize_written n before rest
  have hread : ∀ {a f : List Char}, Unconditional a → Unconditional f →
      ((Outline.ofText (before ++ writtenChoice n a f rest)).resolve conditions).mapError
          Unresolved.demanded =
        decideTokens conditions ((filling (choiceOf n a f)).pieces ps) := by
    intro a f ha hf
    have houtline :=
      Outline.ofTokens_of_bare (bare_bare (tokenize (before ++ writtenChoice n a f rest)))
    rw [hps ha hf] at houtline
    rw [decideTokens, ← Outline.resolve_unplaced, ← houtline, Outline.resolve_unplaced]
  have hne : ∀ t, .item t ∈ ps → t.source ≠ [] := by
    intro t ht
    by_cases hmark : t = mark
    · subst hmark
      exact List.cons_ne_nil _ _
    · have hmem : .item t ∈ (filling (choiceOf n a f)).pieces ps := by
        refine List.mem_flatMap.mpr ⟨_, ht, ?_⟩
        rw [filling_of_ne hmark]
        exact List.mem_cons_self
      rw [← hps ha hf] at hmem
      exact source_ne_nil_of_mem_bare hmem
  rw [hread ha hf, hread ha' hf', decideTokens_filling h hne]

/-- A conditional with the branches `a` and `f` between two texts. -/
def conditionalText (before : String) (n : Identifier) (a f after : String) : String :=
  before ++ "@if " ++ n.name ++ "\n" ++ a ++ "\n@else\n" ++ f ++ "\n@endif" ++ after

theorem toList_conditionalText (before : String) (n : Identifier) (a f after : String) :
    (conditionalText before n a f after).toList =
      before.toList ++ writtenChoice n a.toList f.toList after.toList := by
  simp [conditionalText, writtenChoice, headed, ifLine, defaultText, ifKeyword, elseKeyword,
    endIfKeyword, Identifier.name]

/-- A branch that the condition does not select has no part in what a template is converted to: not
    in the text, not in the counts and not in the name that turns out to have no value. The texts
    around the conditional are arbitrary, and a condition without a value selects neither branch. -/
theorem untaken_branch_hidden (before after : String) (n : Identifier) (v : Values) {a f : String}
    (ha : Unconditional a.toList) (hf : Unconditional f.toList) :
    (v.conditions.get? n.name ≠ some false → ∀ f' : String, Unconditional f'.toList →
      (convert (conditionalText before n a f after) v).mapError Unresolved.demanded =
        (convert (conditionalText before n a f' after) v).mapError Unresolved.demanded) ∧
    (v.conditions.get? n.name ≠ some true → ∀ a' : String, Unconditional a'.toList →
      (convert (conditionalText before n a f after) v).mapError Unresolved.demanded =
        (convert (conditionalText before n a' f after) v).mapError Unresolved.demanded) := by
  have hconvert : ∀ {a' f' : String}, Unconditional a'.toList → Unconditional f'.toList →
      PlainChoice.Agrees v.conditions (choiceOf n a.toList f.toList)
        (choiceOf n a'.toList f'.toList) →
      (convert (conditionalText before n a f after) v).mapError Unresolved.demanded =
        (convert (conditionalText before n a' f' after) v).mapError Unresolved.demanded := by
    intro a' f' ha' hf' h
    rw [convert, convert, mapError_bind, mapError_bind, toList_conditionalText,
      toList_conditionalText, resolve_written ha ha' hf hf' h]
  refine ⟨fun h f' hf' => hconvert ha hf' ⟨rfl, fun value hvalue => ?_⟩,
    fun h a' ha' => hconvert ha' hf ⟨rfl, fun value hvalue => ?_⟩⟩
  · cases value with
    | true => rfl
    | false => exact absurd hvalue h
  · cases value with
    | true => exact absurd hvalue h
    | false => rfl

/-- The condition `F` under a header that nothing closes. The branches hold an unfinished block and
    a variable. -/
theorem untaken_branch_hidden_sample :
    (convert (conditionalText "@if G\n" (.single 'F' rfl) "x" "// @block B\n<n>" "\n<m>")
        ((∅ : Values).setCondition "F" true)).mapError Unresolved.demanded =
      (convert (conditionalText "@if G\n" (.single 'F' rfl) "x" "y" "\n<m>")
        ((∅ : Values).setCondition "F" true)).mapError Unresolved.demanded ∧
    (convert (conditionalText "@if G\n" (.single 'F' rfl) "x" "// @block B\n<n>" "\n<m>")
        ((∅ : Values).setCondition "F" false)).mapError Unresolved.demanded =
      (convert (conditionalText "@if G\n" (.single 'F' rfl) "<k> @" "// @block B\n<n>" "\n<m>")
        ((∅ : Values).setCondition "F" false)).mapError Unresolved.demanded := by
  have hx : Unconditional "x".toList := by decide
  have hf : Unconditional "// @block B\n<n>".toList := by decide
  refine ⟨?_, ?_⟩
  · exact (untaken_branch_hidden _ _ _ _ hx hf).1 (by decide) "y" (by decide)
  · exact (untaken_branch_hidden _ _ _ _ hx hf).2 (by decide) "<k> @" (by decide)

end ShaderTemplates.Template
