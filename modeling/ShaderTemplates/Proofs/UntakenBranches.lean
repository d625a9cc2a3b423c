import ShaderTemplates.Proofs.Forests

/-!
# Branches that are not taken, among tokens

Tokens may hold a mark that stands for a conditional with two plain branches, and the conditional is
put in its place by `filling`.  Markers pair around the mark as they pair around the conditional,
and a branch is cut behind either in the same way.  So what is decided depends on the chosen branch
of the conditional only, wherever the mark stands (`decideTokens_filling`).
-/

namespace ShaderTemplates.Template

open Text

-- ── Deciding tokens ──────────────────────────────────────────────────────────

section Decisions

variable (conditions : Table Bool)

/-- What the conditionals of tokens are decided to, or the condition that has no value. -/
def decideTokens (ps : List (Piece Token)) : Except (Kind × String) (List Char × Nat) :=
  ((Outline.ofTokens ps).resolve conditions).mapError Unresolved.demanded

/-- What the conditionals at the sites are decided to. -/
def decideSites (as : List (Piece Site)) : Except (Kind × String) (List Char × Nat) :=
  ((as.foldr (Outline.consSite Outline.ofTokens) .done).resolve conditions).mapError
    Unresolved.demanded

theorem decideTokens_eq (ps : List (Piece Token)) :
    decideTokens conditions ps = decideSites conditions (gatherClosings ps) := by
  rw [decideTokens, Outline.ofTokens_eq, decideSites]

theorem decideSites_char (c : Char) (as : List (Piece Site)) :
    decideSites conditions (.char c :: as) =
      (decideSites conditions as).map fun after => (c :: after.1, after.2) := by
  rw [decideSites, List.foldr_cons, Outline.consSite, Outline.resolve, mapError_map, decideSites]

theorem decideSites_item (s : Site) (as : List (Piece Site)) :
    decideSites conditions (.item s :: as) = do
      let value ← demand conditions .condition s.name
      let branch ← decideTokens conditions (branchPieces (s.region value))
      let after ← decideSites conditions as
      return (branch.1 ++ after.1, branch.2 + after.2 + 1) := by
  rw [decideSites, List.foldr_cons, Outline.consSite, Outline.resolve_choice]
  congr 1
  funext value
  cases value with
  | true => rfl
  | false => rfl

variable {conditions}

theorem decideSites_plain_congr (cs : List Char) {as bs : List (Piece Site)}
    (h : decideSites conditions as = decideSites conditions bs) :
    decideSites conditions (Piece.plain cs ++ as) =
      decideSites conditions (Piece.plain cs ++ bs) := by
  induction cs with
  | nil => exact h
  | cons c cs ih =>
      show decideSites conditions (.char c :: (Piece.plain cs ++ as)) =
        decideSites conditions (.char c :: (Piece.plain cs ++ bs))
      rw [decideSites_char, decideSites_char, ih]

/-- Of two branches only the one that the condition selects matters. -/
theorem decideSites_item_congr {s s' : Site} {as bs : List (Piece Site)} (hname : s.name = s'.name)
    (hbranch : ∀ value, conditions.get? s.name = some value →
      decideTokens conditions (branchPieces (s.region value)) =
        decideTokens conditions (branchPieces (s'.region value)))
    (hrest : decideSites conditions as = decideSites conditions bs) :
    decideSites conditions (.item s :: as) = decideSites conditions (.item s' :: bs) := by
  rw [decideSites_item, decideSites_item, ← hname, hrest, demand]
  cases hvalue : conditions.get? s.name with
  | none => rfl
  | some value =>
      show (decideTokens conditions (branchPieces (s.region value)) >>= _) = _
      rw [hbranch value hvalue]
      rfl

end Decisions

-- ── Plain choices ────────────────────────────────────────────────────────────

/-- A conditional with two branches of plain text: the texts of its header and of the line between
    the branches, and the branches. -/
structure PlainChoice where
  name : String
  header : List Char
  whenTrue : List Char
  divider : List Char
  whenFalse : List Char
  header_ne : header ≠ []
  divider_ne : divider ≠ []

namespace PlainChoice

variable (u : PlainChoice)

/-- The text of a branch, up to the marker behind it. -/
def text (value : Bool) : List Char := if value then u.whenTrue else u.whenFalse

def headerToken : Token := ⟨.ifHeader u.name none, u.header, 0⟩

def dividerToken : Token := ⟨.elseLine, u.divider, 0⟩

def endToken : Token := ⟨.endIf, endIfKeyword, 0⟩

/-- The tokens of the conditional. -/
def pieces : List (Piece Token) :=
  .item u.headerToken :: (Piece.plain u.whenTrue ++ .item u.dividerToken ::
    (Piece.plain u.whenFalse ++ [.item endToken]))

/-- The conditional in front of other tokens. -/
def site (rest : List (Piece Token)) : Site :=
  ⟨u.headerToken, u.name, none,
    ⟨Piece.plain u.whenTrue, some (u.dividerToken, Piece.plain u.whenFalse), endToken, rest⟩⟩

theorem region_site (rest : List (Piece Token)) (value : Bool) :
    (u.site rest).region value = Piece.plain (u.text value) := by
  cases value <;> rfl

theorem balanced_plain (cs : List Char) : Balanced (Piece.plain cs) :=
  balanced_of_inert fun _ ht => absurd ht not_mem_plain

theorem balanced_pieces : Balanced u.pieces :=
  balanced_ifElse (balanced_plain _) (balanced_plain _) rfl rfl rfl

theorem gatherClosings_pieces (rest : List (Piece Token)) :
    gatherClosings (u.pieces ++ rest) = .item (u.site rest) :: gatherClosings rest := by
  have hclose := closeConditional?_ifElse (balanced_plain u.whenTrue) (balanced_plain u.whenFalse)
    (u := u.dividerToken) (w := endToken) rfl rfl rest
  have hshape : u.pieces ++ rest = .item u.headerToken :: (Piece.plain u.whenTrue ++
      .item u.dividerToken :: (Piece.plain u.whenFalse ++ .item endToken :: rest)) := by
    simp [pieces]
  rw [hshape, gatherClosings_closed (t := u.headerToken) rfl hclose]
  rfl

/-- Two conditionals on the same condition whose selected branches are the same. -/
structure Agrees (conditions : Table Bool) (u u' : PlainChoice) : Prop where
  name : u.name = u'.name
  text : ∀ value, conditions.get? u.name = some value → u.text value = u'.text value

end PlainChoice

-- ── Fillings ─────────────────────────────────────────────────────────────────

/-- The mark that a conditional is put in the place of. -/
def mark : Token := ⟨.endBlock, ['@'], 0⟩

/-- A token, or the conditional if it is the mark. -/
def fillToken (u : PlainChoice) (t : Token) : List (Piece Token) :=
  if t = mark then u.pieces else [.item t]

/-- Puts a conditional in the place of every mark. -/
def filling (u : PlainChoice) : Telling where
  chars c := [c]
  token t := t
  piece
    | .char c => [.char c]
    | .item t => fillToken u t
  piece_char _ := rfl
  piece_token {t} h := by
    refine if_neg ?_
    rintro rfl
    exact h trivial
  balanced {t} h := by
    show Balanced (fillToken u t)
    rw [fillToken]
    split
    · exact u.balanced_pieces
    · exact balanced_inert h
  marker _ := rfl

section Filling

variable {u : PlainChoice} {ps : List (Piece Token)}

theorem filling_mark (u : PlainChoice) : (filling u).piece (.item mark) = u.pieces :=
  show fillToken u mark = u.pieces from if_pos rfl

theorem filling_of_ne {t : Token} (h : t ≠ mark) : (filling u).piece (.item t) = [.item t] :=
  show fillToken u t = [.item t] from if_neg h

theorem filling_of_not_mem (h : .item mark ∉ ps) : (filling u).pieces ps = ps := by
  induction ps with
  | nil => rfl
  | cons p ps ih =>
      rw [Telling.pieces_cons, ih fun hm => h (List.mem_cons_of_mem _ hm)]
      cases p with
      | char c => rfl
      | item t =>
          rw [filling_of_ne]
          · rfl
          · rintro rfl
            exact h List.mem_cons_self

/-- A text is cut behind its last visible character in a way that does not depend on what stands in
    front of that character. -/
theorem content_visible (v : List Char) :
    ∃ w, ∀ a c, isBlank c = false → content (a ++ c :: v) = a ++ c :: w := by
  have key : ∀ {b : List Char}, (∀ x ∈ b, isBlank x = true) → ∀ a c, isBlank c = false →
      content (a ++ c :: b) = a ++ c :: keptBlanks b := by
    intro b hb a c hc
    rw [content, trimEnd_of_visible hc a hb]
    simp
  by_cases hv : Visible v
  · obtain ⟨x, d, b, rfl, hd, hb⟩ := hv.last
    refine ⟨x ++ d :: keptBlanks b, fun a c _ => ?_⟩
    have h := key hb (a ++ c :: x) d hd
    simpa using h
  · refine ⟨keptBlanks v, key fun x hx => ?_⟩
    cases hblank : isBlank x with
    | true => rfl
    | false => exact absurd ⟨x, hx, hblank⟩ hv

theorem last_mark (h : .item mark ∈ ps) : ∃ a b, ps = a ++ .item mark :: b ∧ .item mark ∉ b := by
  induction ps with
  | nil => exact absurd h List.not_mem_nil
  | cons p ps ih =>
      by_cases hps : .item mark ∈ ps
      · obtain ⟨a, b, rfl, hb⟩ := ih hps
        exact ⟨p :: a, b, rfl, hb⟩
      · rcases List.mem_cons.mp h with rfl | h
        · exact ⟨[], ps, rfl, hps⟩
        · exact absurd h hps

theorem ne_nil_of_mem_filling (h : ∀ t, .item t ∈ ps → t.source ≠ []) {t : Token}
    (ht : .item t ∈ (filling u).pieces ps) : t.source ≠ [] := by
  obtain ⟨p, hp, ht⟩ := List.mem_flatMap.mp ht
  cases p with
  | char c => cases List.mem_singleton.mp ht
  | item t' =>
      by_cases hmark : t' = mark
      · subst hmark
        rw [filling_mark] at ht
        simp only [PlainChoice.pieces, List.mem_cons, List.mem_append, not_mem_plain, false_or,
          List.not_mem_nil, or_false, Piece.item.injEq] at ht
        obtain rfl | rfl | rfl := ht
        · exact u.header_ne
        · exact u.divider_ne
        · exact List.cons_ne_nil _ _
      · rw [filling_of_ne hmark] at ht
        cases List.mem_singleton.mp ht
        exact h t hp

theorem source_pieces (u : PlainChoice) : ∃ x, tokenSource u.pieces = x ++ ['f'] := by
  refine ⟨u.header ++ (u.whenTrue ++ (u.divider ++ (u.whenFalse ++ ['@', 'e', 'n', 'd', 'i']))), ?_⟩
  simp [PlainChoice.pieces, PlainChoice.headerToken, PlainChoice.dividerToken,
    PlainChoice.endToken, endIfKeyword]

/-- A branch is cut behind its last visible token in a way that does not depend on that token. -/
theorem branchPieces_visible (b : List (Piece Token)) :
    ∃ n, ∀ a, (∀ t, .item t ∈ a → t.source ≠ []) →
      (∃ x c, tokenSource a = x ++ [c] ∧ isBlank c = false) →
        branchPieces (a ++ b) = a ++ cutPieces n b := by
  obtain ⟨w, hw⟩ := content_visible (tokenSource b)
  refine ⟨w.length, fun a ha hvisible => ?_⟩
  obtain ⟨x, c, hx, hc⟩ := hvisible
  have hlen : (content (tokenSource (a ++ b))).length = (tokenSource a).length + w.length := by
    rw [tokenSource_append, hx, List.append_assoc, List.singleton_append, hw x c hc]
    simp
    omega
  rw [branchPieces, hlen, cutPieces_append ha]

/-- A branch is cut behind a mark as it is cut behind the conditional. -/
theorem branchPieces_filling (h : ∀ t, .item t ∈ ps → t.source ≠ []) :
    branchPieces ((filling u).pieces ps) = (filling u).pieces (branchPieces ps) := by
  by_cases hmark : .item mark ∈ ps
  · obtain ⟨a, b, rfl, hb⟩ := last_mark hmark
    have hsplit : a ++ .item mark :: b = (a ++ [.item mark]) ++ b := by simp
    rw [hsplit] at h ⊢
    have hne : ∀ t, .item t ∈ a ++ [.item mark] → t.source ≠ [] :=
      fun t ht => h t (List.mem_append_left b ht)
    obtain ⟨n, hn⟩ := branchPieces_visible b
    have hcut : .item mark ∉ cutPieces n b := fun hm => hb (mem_cutPieces hm)
    obtain ⟨x, hx⟩ := source_pieces u
    have hfilled : tokenSource ((filling u).pieces (a ++ [.item mark])) =
        tokenSource ((filling u).pieces a) ++ x ++ ['f'] := by
      simp [filling_mark, hx]
    rw [Telling.pieces_append, filling_of_not_mem hb, hn _ (fun _ => ne_nil_of_mem_filling hne)
      ⟨_, _, hfilled, rfl⟩, hn _ hne ⟨tokenSource a, '@', by simp [mark], rfl⟩,
      (filling u).pieces_append (a ++ [Piece.item mark]) (cutPieces n b), filling_of_not_mem hcut]
  · rw [filling_of_not_mem hmark, filling_of_not_mem]
    exact fun hm => hmark (mem_cutPieces hm)

/-- A token that opens no conditional opens none where the marks are filled. -/
theorem gatherClosings_filling {t : Token} (hmark : t ≠ mark)
    (hplain : ∀ name default?, t.marker = .ifHeader name default? →
      closeConditional? ps = none) :
    gatherClosings ((filling u).pieces (.item t :: ps)) =
      Piece.plain t.source ++ gatherClosings ((filling u).pieces ps) := by
  by_cases ht : t.marker.Inert
  · rw [Telling.pieces_cons, filling_of_ne hmark, List.singleton_append]
    refine gatherClosings_plain fun name default? hm => ?_
    rw [hm] at ht
    exact ht.elim
  · exact (filling u).gatherClosings_token ht hplain

/-- Behind a header that is closed stands less than there was. -/
theorem weight_rest_lt {t : Token} {c : Closing} (h : closeConditional? ps = some c) :
    weight c.rest < weight (.item t :: ps) := by
  obtain ⟨hps, -, -, -⟩ := divides_of_closeConditional? h
  rw [weight_item, hps, weight_append, weight_append, weight_item]
  omega

theorem mem_region {s : Site} (h : .item s ∈ gatherClosings ps) {value : Bool} {t : Token}
    (ht : .item t ∈ s.region value) : .item t ∈ ps := by
  obtain hnil | ⟨⟨before, header, stop, after, rfl, -, -⟩, -⟩ := between_of_mem h value
  · rw [hnil] at ht
    exact absurd ht List.not_mem_nil
  · simp [ht]

/-- What is decided does not depend on the branch of the conditional that is not taken. The mark may
    stand inside any conditionals of the tokens, closed ones or not. -/
theorem decideTokens_filling {conditions : Table Bool} {u u' : PlainChoice}
    (hu : PlainChoice.Agrees conditions u u') (h : ∀ t, .item t ∈ ps → t.source ≠ []) :
    decideTokens conditions ((filling u).pieces ps) =
      decideTokens conditions ((filling u').pieces ps) := by
  rw [decideTokens_eq, decideTokens_eq]
  induction hn : weight ps using Nat.strongRecOn generalizing ps with
  | ind n ih =>
      subst hn
      cases ps with
      | nil => rfl
      | cons p ps =>
          have hps : ∀ t, .item t ∈ ps → t.source ≠ [] :=
            fun t ht => h t (List.mem_cons_of_mem _ ht)
          cases p with
          | char c =>
              have hlt : weight ps < weight (.char c :: ps) := by
                simp only [weight, tokenSource_char, Piece.items_char, List.length_cons]
                omega
              show decideSites conditions (gatherClosings (.char c :: (filling u).pieces ps)) =
                decideSites conditions (gatherClosings (.char c :: (filling u').pieces ps))
              rw [gatherClosings_char, gatherClosings_char, decideSites_char, decideSites_char,
                ih _ hlt hps rfl]
          | item t =>
              have hlt : weight ps < weight (.item t :: ps) := by
                rw [weight_item]
                omega
              obtain ⟨name, default?, c, hm, hc⟩ | hplain := opens_or_plain t ps
              · -- the mark stands in a branch of a closed conditional, or behind it
                have hsite : .item ⟨t, name, default?, c⟩ ∈ gatherClosings (.item t :: ps) := by
                  rw [gatherClosings_closed hm hc]
                  exact List.mem_cons_self
                have hrest : ∀ t, .item t ∈ c.rest → t.source ≠ [] :=
                  fun t ht => hps t (item_mem_of_closeConditional? hc ht)
                rw [(filling u).gatherClosings_site hm hc, (filling u').gatherClosings_site hm hc]
                refine decideSites_item_congr rfl (fun value _ => ?_)
                  (ih _ (weight_rest_lt hc) hrest rfl)
                have hregion : ∀ t, .item t ∈ (Site.mk t name default? c).region value →
                    t.source ≠ [] := fun t ht => h t (mem_region hsite ht)
                rw [Telling.region_site, Telling.region_site, branchPieces_filling hregion,
                  branchPieces_filling hregion, decideTokens_eq, decideTokens_eq]
                exact ih _ (weight_region_lt hsite value)
                  (fun t ht => hregion t (mem_cutPieces ht)) rfl
              · by_cases hmark : t = mark
                · subst hmark
                  rw [Telling.pieces_cons, Telling.pieces_cons, filling_mark, filling_mark,
                    u.gatherClosings_pieces, u'.gatherClosings_pieces]
                  refine decideSites_item_congr hu.name (fun value hvalue => ?_) (ih _ hlt hps rfl)
                  rw [u.region_site, u'.region_site, hu.text value hvalue]
                · rw [gatherClosings_filling hmark hplain, gatherClosings_filling hmark hplain]
                  exact decideSites_plain_congr _ (ih _ hlt hps rfl)

end Filling

end ShaderTemplates.Template
