import ShaderTemplates.Proofs.Pairings

/-!
# Conditionals and the markers that delimit them

`gatherClosings` keeps of every conditional what pairing found: its header and its closing (`Site`).
The sites of pieces that are told anew are the sites told anew
(`Retelling.gatherClosings_pieces`).

A branch stands between two markers that are alone on their lines, and no marker inside it closes or
divides the conditional (`between_of_mem`).
-/

namespace ShaderTemplates.Template

-- ── Sites ────────────────────────────────────────────────────────────────────

/-- A conditional where it stands: its header and the markers and pieces that close it. -/
structure Site where
  header : Token
  name : String
  default? : Option Bool
  closing : Closing
deriving DecidableEq, Repr

namespace Site

/-- The conditional without its place. -/
def conditional (s : Site) : Conditional := s.closing.toConditional s.header s.name s.default?

/-- The pieces strictly between the markers that delimit a branch. -/
def region (s : Site) (value : Bool) : List (Piece Token) :=
  if value then s.closing.whenTrue
  else
    match s.closing.otherwise? with
    | none => []
    | some o => o.2

theorem branch_eq (s : Site) (value : Bool) :
    s.conditional.branch value = content (tokenSource (s.region value)) := by
  obtain ⟨header, name, default?, whenTrue, otherwise?, endIf, rest⟩ := s
  cases value with
  | true => rfl
  | false =>
      cases otherwise? with
      | none => rfl
      | some o => rfl

end Site

/-- Gathers the outermost conditionals as `gatherConditionals` does, with their places. -/
def gatherClosings (ps : List (Piece Token)) : List (Piece Site) :=
  match ps with
  | [] => []
  | .char c :: rest => .char c :: gatherClosings rest
  | .item t :: rest =>
    match t.marker with
    | .ifHeader name default? =>
      match _h : closeConditional? rest with
      | some c => .item ⟨t, name, default?, c⟩ :: gatherClosings c.rest
      | none => Piece.plain t.source ++ gatherClosings rest
    | _ => Piece.plain t.source ++ gatherClosings rest
termination_by ps.length
decreasing_by
  · exact Nat.lt_succ_self _
  · exact Nat.lt_succ_of_lt (closeConditional?_rest_length _h)
  · exact Nat.lt_succ_self _
  · exact Nat.lt_succ_self _

@[simp] theorem gatherClosings_nil : gatherClosings [] = [] := by rw [gatherClosings]

@[simp] theorem gatherClosings_char (c : Char) (ps : List (Piece Token)) :
    gatherClosings (.char c :: ps) = .char c :: gatherClosings ps := by
  rw [gatherClosings]

theorem gatherClosings_closed {t : Token} {name : String} {default? : Option Bool}
    {rest : List (Piece Token)} {c : Closing} (hm : t.marker = .ifHeader name default?)
    (hc : closeConditional? rest = some c) :
    gatherClosings (.item t :: rest) = .item ⟨t, name, default?, c⟩ :: gatherClosings c.rest := by
  rw [gatherClosings]
  split
  · next name' default' hm' =>
      rw [hm] at hm'
      cases hm'
      split
      · next c' hc' =>
          rw [hc] at hc'
          cases hc'
          rfl
      · next hn =>
          rw [hc] at hn
          cases hn
  · next hn => exact absurd hm (hn name default?)

/-- A token that opens no conditional is plain text. -/
theorem gatherClosings_plain {t : Token} {rest : List (Piece Token)}
    (h : ∀ name default?, t.marker = .ifHeader name default? → closeConditional? rest = none) :
    gatherClosings (.item t :: rest) = Piece.plain t.source ++ gatherClosings rest := by
  rw [gatherClosings]
  split
  · next name default? hm =>
      split
      · next c hc =>
          rw [h name default? hm] at hc
          cases hc
      · rfl
  · rfl

theorem gatherClosings_plain_append (cs : List Char) (ps : List (Piece Token)) :
    gatherClosings (Piece.plain cs ++ ps) = Piece.plain cs ++ gatherClosings ps := by
  induction cs with
  | nil => rfl
  | cons c cs ih =>
      show gatherClosings (.char c :: (Piece.plain cs ++ ps)) = .char c :: (Piece.plain cs ++ _)
      rw [gatherClosings_char, ih]

/-- Pieces without markers of conditionals are plain text. -/
theorem gatherClosings_inert_append {ps : List (Piece Token)}
    (h : ∀ t, .item t ∈ ps → t.marker.Inert) (qs : List (Piece Token)) :
    gatherClosings (ps ++ qs) = Piece.plain (tokenSource ps) ++ gatherClosings qs := by
  induction ps with
  | nil => rfl
  | cons p ps ih =>
      have hps := ih fun t ht => h t (List.mem_cons_of_mem _ ht)
      cases p with
      | char c =>
          rw [List.cons_append, gatherClosings_char, hps]
          rfl
      | item t =>
          have ht := h t List.mem_cons_self
          rw [List.cons_append, gatherClosings_plain fun name default? hm => by
            rw [hm] at ht
            exact ht.elim, hps, tokenSource_item, Piece.plain_append, List.append_assoc]

/-- A token opens a conditional that is closed, or it is plain text. -/
theorem opens_or_plain (t : Token) (rest : List (Piece Token)) :
    (∃ name default? c, t.marker = .ifHeader name default? ∧ closeConditional? rest = some c) ∨
      ∀ name default?, t.marker = .ifHeader name default? → closeConditional? rest = none := by
  cases hc : closeConditional? rest with
  | none => exact .inr fun _ _ _ => rfl
  | some c =>
      by_cases hm : ∃ name default?, t.marker = .ifHeader name default?
      · obtain ⟨name, default?, hm⟩ := hm
        exact .inl ⟨name, default?, c, hm, rfl⟩
      · exact .inr fun name default? h => absurd ⟨name, default?, h⟩ hm

/-- Induction along the gathering of conditionals. -/
theorem gathering_induction {motive : List (Piece Token) → Prop} (nil : motive [])
    (char : ∀ c ps, motive ps → motive (.char c :: ps))
    (closed : ∀ t name default? c ps, t.marker = .ifHeader name default? →
      closeConditional? ps = some c → motive c.rest → motive (.item t :: ps))
    (plain : ∀ t ps, (∀ name default?, t.marker = .ifHeader name default? →
      closeConditional? ps = none) → motive ps → motive (.item t :: ps))
    (ps : List (Piece Token)) : motive ps := by
  induction hn : ps.length using Nat.strongRecOn generalizing ps with
  | ind n ih =>
      subst hn
      cases ps with
      | nil => exact nil
      | cons p ps =>
          cases p with
          | char c => exact char c ps (ih _ (by simp) ps rfl)
          | item t =>
              obtain ⟨name, default?, c, hm, hc⟩ | hplain := opens_or_plain t ps
              · have hlen := closeConditional?_rest_length hc
                exact closed t name default? c ps hm hc
                  (ih _ (by rw [List.length_cons]; omega) c.rest rfl)
              · exact plain t ps hplain (ih _ (by simp) ps rfl)

theorem gatherConditionals_plain {t : Token} {rest : List (Piece Token)}
    (h : ∀ name default?, t.marker = .ifHeader name default? → closeConditional? rest = none) :
    gatherConditionals (.item t :: rest) = Piece.plain t.source ++ gatherConditionals rest := by
  rw [gatherConditionals]
  split
  · next name default? hm =>
      split
      · next c hc =>
          rw [h name default? hm] at hc
          cases hc
      · rfl
  · rfl

/-- The conditionals that are found stand at the sites. -/
theorem gatherConditionals_eq (ps : List (Piece Token)) :
    gatherConditionals ps = (gatherClosings ps).map (Piece.map Site.conditional) := by
  induction ps using gathering_induction with
  | nil => rw [gatherConditionals, gatherClosings_nil]; rfl
  | char c ps ih => rw [gatherConditionals, gatherClosings_char, ih]; rfl
  | closed t name default? c ps hm hc ih =>
      rw [gatherConditionals_closed hm hc, gatherClosings_closed hm hc, ih]
      rfl
  | plain t ps hplain ih =>
      rw [gatherClosings_plain hplain, List.map_append, Piece.map_plain, ← ih,
        gatherConditionals_plain hplain]

namespace Telling

variable (r : Telling)

/-- A site among pieces that are told anew. -/
def site (s : Site) : Site := ⟨r.token s.header, s.name, s.default?, r.closing s.closing⟩

theorem region_site (s : Site) (value : Bool) :
    (r.site s).region value = r.pieces (s.region value) := by
  obtain ⟨header, name, default?, whenTrue, otherwise?, endIf, rest⟩ := s
  cases value with
  | true => rfl
  | false =>
      cases otherwise? with
      | none => rfl
      | some o => rfl

/-- A conditional that is told anew is closed where it was closed before. -/
theorem gatherClosings_site {t : Token} {name : String} {default? : Option Bool}
    {ps : List (Piece Token)} {c : Closing} (hm : t.marker = .ifHeader name default?)
    (hc : closeConditional? ps = some c) :
    gatherClosings (r.pieces (.item t :: ps)) =
      .item (r.site ⟨t, name, default?, c⟩) :: gatherClosings (r.pieces c.rest) := by
  have ht : ¬ t.marker.Inert := by rw [hm]; exact id
  have hm' : (r.token t).marker = .ifHeader name default? := by rw [r.marker, hm]
  have hc' : closeConditional? (r.pieces ps) = some (r.closing c) := by
    rw [r.closeConditional?_pieces, hc]
    rfl
  rw [pieces_cons, r.piece_token ht, List.singleton_append, gatherClosings_closed hm' hc']
  rfl

/-- A marker that opens no conditional opens none when it is told anew. -/
theorem gatherClosings_token {t : Token} {ps : List (Piece Token)} (ht : ¬ t.marker.Inert)
    (hplain : ∀ name default?, t.marker = .ifHeader name default? →
      closeConditional? ps = none) :
    gatherClosings (r.pieces (.item t :: ps)) =
      Piece.plain (r.token t).source ++ gatherClosings (r.pieces ps) := by
  have hplain' : ∀ name default?, (r.token t).marker = .ifHeader name default? →
      closeConditional? (r.pieces ps) = none := by
    intro name default? hm
    rw [r.closeConditional?_pieces, hplain name default? (r.marker t ▸ hm)]
    rfl
  rw [pieces_cons, r.piece_token ht, List.singleton_append, gatherClosings_plain hplain']

end Telling

namespace Retelling

variable (r : Retelling)

/-- A piece with a site among pieces that are told anew. -/
def sitePiece : Piece Site → List (Piece Site)
  | .char c => Piece.plain (r.chars c)
  | .item s => [.item (r.site s)]

theorem flatMap_sitePiece_plain (cs : List Char) :
    (Piece.plain cs).flatMap r.sitePiece = Piece.plain (cs.flatMap r.chars) := by
  induction cs with
  | nil => rfl
  | cons c cs ih =>
      rw [List.flatMap_cons, Piece.plain_append, ← ih]
      rfl

/-- Telling pieces anew tells their sites anew. -/
theorem gatherClosings_pieces (ps : List (Piece Token)) :
    gatherClosings (r.pieces ps) = (gatherClosings ps).flatMap r.sitePiece := by
  induction ps using gathering_induction with
  | nil => rw [Telling.pieces_nil, gatherClosings_nil]; rfl
  | char c ps ih =>
      rw [Telling.pieces_cons, r.piece_char, gatherClosings_plain_append, gatherClosings_char, ih]
      rfl
  | closed t name default? c ps hm hc ih =>
      rw [r.gatherClosings_site hm hc, gatherClosings_closed hm hc, List.flatMap_cons, ← ih]
      rfl
  | plain t ps hplain ih =>
      rw [gatherClosings_plain hplain, List.flatMap_append, flatMap_sitePiece_plain, ← ih]
      by_cases ht : t.marker.Inert
      · rw [Telling.pieces_cons, gatherClosings_inert_append (r.inert ht), r.source]
      · rw [r.gatherClosings_token ht hplain, r.source_token ht]

end Retelling

theorem closeConditional?_append_plain (ps : List (Piece Token)) (cs : List Char) :
    closeConditional? (ps ++ Piece.plain cs) =
      (closeConditional? ps).map fun c => { c with rest := c.rest ++ Piece.plain cs } := by
  rw [closeConditional?, closeConditional?, cuts_endIf.append_plain]
  cases splitEndIf 0 ps with
  | none => rfl
  | some s =>
      obtain ⟨body, endIf, rest⟩ := s
      cases h : splitElse 0 body with
      | none => simp [h]
      | some o =>
          obtain ⟨whenTrue, elseLine, whenFalse⟩ := o
          cases h' : splitElse 0 whenFalse with
          | none => simp [h, h']
          | some o => simp [h, h']

/-- Plain text behind the pieces holds no conditional and closes none. -/
theorem gatherConditionals_append_plain (ps : List (Piece Token)) (cs : List Char) :
    gatherConditionals (ps ++ Piece.plain cs) = gatherConditionals ps ++ Piece.plain cs := by
  induction ps using gathering_induction with
  | nil =>
      rw [List.nil_append, gatherConditionals_eq, ← List.append_nil (Piece.plain cs),
        gatherClosings_plain_append, gatherClosings_nil, List.append_nil, Piece.map_plain,
        gatherConditionals]
      rfl
  | char c ps ih => rw [List.cons_append, gatherConditionals, gatherConditionals, ih]; rfl
  | closed t name default? c ps hm hc ih =>
      have hc' := closeConditional?_append_plain ps cs
      rw [hc] at hc'
      rw [List.cons_append, gatherConditionals_closed hm hc', gatherConditionals_closed hm hc, ih]
      rfl
  | plain t ps hplain ih =>
      have hplain' : ∀ name default?, t.marker = .ifHeader name default? →
          closeConditional? (ps ++ Piece.plain cs) = none := by
        intro name default? hm
        rw [closeConditional?_append_plain, hplain name default? hm]
        rfl
      rw [List.cons_append, gatherConditionals_plain hplain', gatherConditionals_plain hplain, ih,
        List.append_assoc]

-- ── Where sites stand ────────────────────────────────────────────────────────

/-- The markers that take the end of their line. -/
def Marker.EndsLine : Marker → Prop
  | .ifHeader .. | .elseLine | .blockHeader _ => True
  | _ => False

/-- The markers that need the start of a line. -/
def Marker.StartsLine : Marker → Prop
  | .elseLine | .endIf | .endBlock => True
  | _ => False

/-- A branch stands between two markers that are alone on their lines. -/
structure Between (ps region : List (Piece Token)) : Prop where
  place : ∃ before header stop after,
    ps = before ++ .item header :: (region ++ .item stop :: after) ∧
      header.marker.EndsLine ∧ stop.marker.StartsLine
  inside : Inside 0 region

theorem Between.prepend {ps region : List (Piece Token)} (h : Between ps region)
    (before : List (Piece Token)) : Between (before ++ ps) region := by
  obtain ⟨⟨a, header, stop, b, rfl, hheader, hstop⟩, hin⟩ := h
  exact ⟨⟨before ++ a, header, stop, b, by simp, hheader, hstop⟩, hin⟩

theorem endIf_of_stop {m : Marker} {d : Nat} (h : endIfStep m d = none) : m = .endIf ∧ d = 0 := by
  cases m <;> cases d <;> first | exact ⟨rfl, rfl⟩ | cases h

theorem elseLine_of_stop {m : Marker} {d : Nat} (h : elseStep m d = none) :
    m = .elseLine ∧ d = 0 := by
  cases m <;> cases d <;> first | exact ⟨rfl, rfl⟩ | cases h

theorem inside_of_no_else {ps : List (Piece Token)} (h : Leads endIfStep 0 ps 0)
    (helse : splitElse 0 ps = none) : Inside 0 ps := by
  obtain ⟨e, he⟩ := cuts_else.leads_of_none helse
  cases leads_eq h he
  exact ⟨h, he⟩

/-- The pieces of the other branch, with the marker in front of them. -/
def Closing.otherwise (c : Closing) : List (Piece Token) :=
  match c.otherwise? with
  | none => []
  | some o => .item o.1 :: o.2

theorem Closing.source_eq (c : Closing) :
    c.source = tokenSource c.whenTrue ++ (tokenSource c.otherwise ++ c.endIf.source) := by
  obtain ⟨whenTrue, otherwise?, endIf, rest⟩ := c
  cases otherwise? with
  | none => simp [Closing.source, Closing.otherwise]
  | some o => simp [Closing.source, Closing.otherwise]

/-- A closing divides the pieces behind a header: the branches stand between the markers of the
    conditional. -/
structure Closing.Divides (c : Closing) (ps : List (Piece Token)) : Prop where
  pieces : ps = c.whenTrue ++ (c.otherwise ++ .item c.endIf :: c.rest)
  endIf : c.endIf.marker = .endIf
  whenTrue : Inside 0 c.whenTrue
  otherwise : ∀ o, c.otherwise? = some o → o.1.marker = .elseLine ∧ Inside 0 o.2

theorem divides_of_closeConditional? {ps : List (Piece Token)} {c : Closing}
    (h : closeConditional? ps = some c) : c.Divides ps := by
  unfold closeConditional? at h
  split at h
  · cases h
  · next body endIf rest hEnd =>
      obtain ⟨d, hbody, hstop⟩ := cuts_endIf.leads_of_some hEnd
      obtain ⟨hendIf, rfl⟩ := endIf_of_stop hstop
      have happ := (splitEndIf_append hEnd).symm
      split at h
      · next hElse =>
          cases h
          exact ⟨happ, hendIf, inside_of_no_else hbody hElse, fun o ho => by cases ho⟩
      · next whenTrue elseLine whenFalse hElse =>
          split at h
          · cases h
          · next hLast =>
              cases h
              obtain ⟨d, htrue, hstop⟩ := cuts_else.leads_of_some hElse
              obtain ⟨helse, rfl⟩ := elseLine_of_stop hstop
              have happ' := (splitElse_append hElse).symm
              -- no conditional is open at the `@else` that divides the body
              rw [happ'] at hbody
              obtain ⟨d, hbodyTrue, e, hstep, hbodyFalse⟩ := leads_append.mp hbody
              cases leads_eq hbodyTrue htrue
              have he : e = 0 := by
                rw [helse] at hstep
                exact (Option.some.inj hstep).symm
              subst he
              have hnone : splitElse 0 whenFalse = none := by simpa using hLast
              refine ⟨?_, hendIf, ⟨hbodyTrue, htrue⟩, fun o ho => ?_⟩
              · rw [happ, happ']
                simp [Closing.otherwise]
              · cases ho
                exact ⟨helse, inside_of_no_else hbodyFalse hnone⟩

/-- A site stands in the pieces with its header in front of what it closes. -/
theorem gatherClosings_split {ps : List (Piece Token)} {before after : List (Piece Site)} {s : Site}
    (h : gatherClosings ps = before ++ .item s :: after) :
    ∃ front back, ps = front ++ .item s.header :: back ∧
      s.header.marker = .ifHeader s.name s.default? ∧ closeConditional? back = some s.closing ∧
      tokenSource front = Piece.source (·.conditional.source) before := by
  induction ps using gathering_induction generalizing before with
  | nil =>
      rw [gatherClosings_nil] at h
      exact absurd (h ▸ List.mem_append_right before List.mem_cons_self) List.not_mem_nil
  | char c ps ih =>
      rw [gatherClosings_char] at h
      cases before with
      | nil => cases h
      | cons x before =>
          obtain ⟨rfl, htail⟩ := List.cons.inj h
          obtain ⟨front, back, rfl, hm, hclose, hsource⟩ := ih htail
          exact ⟨.char c :: front, back, rfl, hm, hclose, congrArg (c :: ·) hsource⟩
  | closed t name default? c ps hm hc ih =>
      rw [gatherClosings_closed hm hc] at h
      cases before with
      | nil =>
          cases h
          exact ⟨[], ps, rfl, hm, hc, rfl⟩
      | cons x before =>
          obtain ⟨rfl, htail⟩ := List.cons.inj h
          obtain ⟨front, back, hrest, hm', hclose, hsource⟩ := ih htail
          have hps := (divides_of_closeConditional? hc).pieces
          refine ⟨.item t :: (c.whenTrue ++ (c.otherwise ++ .item c.endIf :: front)), back, ?_, hm',
            hclose, ?_⟩
          · rw [hps, hrest]
            simp
          · rw [Piece.source_item, ← hsource]
            show _ = t.source ++ c.source ++ tokenSource front
            rw [c.source_eq]
            simp
  | plain t ps hplain ih =>
      rw [gatherClosings_plain hplain] at h
      obtain ⟨a, rfl, htail⟩ := Piece.split_of_plain_append h
      obtain ⟨front, back, rfl, hm, hclose, hfront⟩ := ih htail
      refine ⟨.item t :: front, back, rfl, hm, hclose, ?_⟩
      rw [tokenSource_item, Piece.source_append, Piece.source_plain, hfront]

/-- The header of a site is one of the pieces. -/
theorem header_mem {ps : List (Piece Token)} {s : Site} (h : .item s ∈ gatherClosings ps) :
    .item s.header ∈ ps := by
  obtain ⟨before, after, hps⟩ := List.append_of_mem h
  obtain ⟨front, back, rfl, -⟩ := gatherClosings_split hps
  exact List.mem_append_right _ List.mem_cons_self

/-- The branches of a site stand between markers that are alone on their lines, unless there is no
    branch. -/
theorem between_of_mem {ps : List (Piece Token)} {s : Site} (h : .item s ∈ gatherClosings ps)
    (value : Bool) : s.region value = [] ∨ Between ps (s.region value) := by
  obtain ⟨before, after, hps⟩ := List.append_of_mem h
  obtain ⟨front, back, rfl, hm, hclose, -⟩ := gatherClosings_split hps
  obtain ⟨hback, hendIf, htrue, hfalse⟩ := divides_of_closeConditional? hclose
  have hheader : s.header.marker.EndsLine := by rw [hm]; trivial
  have hends : s.closing.endIf.marker.StartsLine := by rw [hendIf]; trivial
  rw [hback]
  refine .imp_right (fun hb => Between.prepend hb front) ?_
  rw [Site.region, Closing.otherwise]
  cases ho : s.closing.otherwise? with
  | none =>
      cases value with
      | false => exact .inl rfl
      | true =>
          exact .inr ⟨⟨[], s.header, s.closing.endIf, s.closing.rest, rfl, hheader, hends⟩, htrue⟩
  | some o =>
      obtain ⟨helse, hother⟩ := hfalse o ho
      have hdivides : o.1.marker.EndsLine ∧ o.1.marker.StartsLine := by
        rw [helse]
        exact ⟨trivial, trivial⟩
      cases value with
      | true =>
          exact .inr ⟨⟨[], s.header, o.1, o.2 ++ .item s.closing.endIf :: s.closing.rest, rfl,
            hheader, hdivides.2⟩, htrue⟩
      | false =>
          refine .inr ⟨⟨.item s.header :: s.closing.whenTrue, o.1, s.closing.endIf, s.closing.rest,
            ?_, hdivides.1, hends⟩, hother⟩
          simp

end ShaderTemplates.Template
