import ShaderTemplates.Proofs.LayoutPasses

/-!
# How markers pair

Which markers belong together depends on the kinds of the markers and on their order, and on nothing
else.  A search for the end of a conditional goes from marker to marker (`Cuts`), and what it has to
remember is the number of conditionals that are open (`Leads`).

So pairing survives any change of the pieces that keeps the markers of conditionals and adds whole
conditionals at most (`Telling`): the tokens of blocks and variables may become plain text (`bare`),
characters may be left out, and a conditional may be put where a mark stands.
-/

namespace ShaderTemplates.Template

open Text

-- ── The steps of a cut ───────────────────────────────────────────────────────

/-- What a marker does to the search for `@endif`: it ends the search, or the search goes on with
    another number of open conditionals. -/
def endIfStep : Marker → Nat → Option Nat
  | .endIf, 0 => none
  | .endIf, d + 1 => some d
  | .ifHeader .., d => some (d + 1)
  | _, d => some d

/-- What a marker does to the search for `@else`. -/
def elseStep : Marker → Nat → Option Nat
  | .elseLine, 0 => none
  | .endIf, d => some (d - 1)
  | .ifHeader .., d => some (d + 1)
  | _, d => some d

/-- A cut that goes from marker to marker. -/
structure Cuts (cut : Cut) (step : Marker → Nat → Option Nat) : Prop where
  nil : ∀ d, cut d [] = none
  char : ∀ d c ps, cut d (.char c :: ps) = (cut d ps).map fun s => (.char c :: s.1, s.2)
  stop : ∀ {t : Token} {d}, step t.marker d = none → ∀ ps, cut d (.item t :: ps) = some ([], t, ps)
  pass : ∀ {t : Token} {d e}, step t.marker d = some e → ∀ ps,
    cut d (.item t :: ps) = (cut e ps).map fun s => (.item t :: s.1, s.2)
  inert : ∀ {m : Marker}, m.Inert → ∀ d, step m d = some d

theorem cuts_endIf : Cuts splitEndIf endIfStep where
  nil _ := rfl
  char _ _ _ := rfl
  stop {t d} h ps := by
    obtain ⟨m, source, line⟩ := t
    cases m <;> cases d <;> first | rfl | cases h
  pass {t d e} h ps := by
    obtain ⟨m, source, line⟩ := t
    cases m <;> cases d <;> cases h <;> rfl
  inert {m} h d := by
    cases m <;> first | rfl | exact h.elim

theorem cuts_else : Cuts splitElse elseStep where
  nil _ := rfl
  char _ _ _ := rfl
  stop {t d} h ps := by
    obtain ⟨m, source, line⟩ := t
    cases m <;> cases d <;> first | rfl | cases h
  pass {t d e} h ps := by
    obtain ⟨m, source, line⟩ := t
    cases m <;> cases d <;> cases h <;> rfl
  inert {m} h d := by
    cases m <;> first | rfl | exact h.elim

theorem not_mem_plain {α : Type} {a : α} {cs : List Char} :
    .item a ∉ (Piece.plain cs : List (Piece α)) := by
  simp [Piece.plain]

/-- An item behind a plain stretch of text is one of the pieces behind it. -/
theorem Piece.split_of_plain_append {α : Type} {cs : List Char} {ps before after : List (Piece α)}
    {a : α} (h : plain cs ++ ps = before ++ .item a :: after) :
    ∃ front, before = plain cs ++ front ∧ ps = front ++ .item a :: after := by
  induction cs generalizing before with
  | nil => exact ⟨before, rfl, h⟩
  | cons c cs ih =>
      cases before with
      | nil => cases h
      | cons p before =>
          obtain ⟨rfl, htail⟩ := List.cons.inj h
          obtain ⟨front, rfl, hps⟩ := ih htail
          exact ⟨front, rfl, hps⟩

section Cuts

variable {cut : Cut} {step : Marker → Nat → Option Nat} (hc : Cuts cut step)
include hc

theorem Cuts.passes_char (d : Nat) (c : Char) : Passes cut d [.char c] d :=
  fun qs => hc.char d c qs

theorem Cuts.passes_item {t : Token} {d e : Nat} (h : step t.marker d = some e) :
    Passes cut d [.item t] e :=
  fun qs => hc.pass h qs

/-- A cut goes past pieces without markers of conditionals. -/
theorem Cuts.passes_inert (d : Nat) {ps : List (Piece Token)}
    (h : ∀ t, .item t ∈ ps → t.marker.Inert) : Passes cut d ps d := by
  induction ps with
  | nil => exact .nil
  | cons p ps ih =>
      have hps := ih fun t ht => h t (List.mem_cons_of_mem _ ht)
      cases p with
      | char c => exact (hc.passes_char d c).cons hps
      | item t => exact (hc.passes_item (hc.inert (h t List.mem_cons_self) d)).cons hps

/-- A cut falls into the first part of the pieces or goes past it. -/
theorem Cuts.found_or_passes (d : Nat) (ps : List (Piece Token)) :
    (∃ a t b, ∀ qs, cut d (ps ++ qs) = some (a, t, b ++ qs)) ∨ ∃ e, Passes cut d ps e := by
  induction ps generalizing d with
  | nil => exact .inr ⟨d, .nil⟩
  | cons p ps ih =>
      have hpast : ∀ {e}, Passes cut d [p] e →
          (∃ a t b, ∀ qs, cut d (p :: ps ++ qs) = some (a, t, b ++ qs)) ∨
            ∃ f, Passes cut d (p :: ps) f := by
        intro e hp
        obtain ⟨a, t, b, h⟩ | ⟨f, h⟩ := ih e
        · refine .inl ⟨p :: a, t, b, fun qs => ?_⟩
          have hstep := hp (ps ++ qs)
          rw [h qs] at hstep
          exact hstep
        · exact .inr ⟨f, hp.cons h⟩
      cases p with
      | char c => exact hpast (hc.passes_char d c)
      | item t =>
          cases hs : step t.marker d with
          | none => exact .inl ⟨[], t, ps, fun qs => hc.stop hs (ps ++ qs)⟩
          | some e => exact hpast (hc.passes_item hs)

/-- Plain text behind the pieces does not move a cut. -/
theorem Cuts.append_plain (d : Nat) (ps : List (Piece Token)) (cs : List Char) :
    cut d (ps ++ Piece.plain cs) =
      (cut d ps).map fun s => (s.1, s.2.1, s.2.2 ++ Piece.plain cs) := by
  have hnone : ∀ e, cut e (Piece.plain cs) = none := by
    intro e
    have hpass : Passes cut e (Piece.plain cs) e :=
      hc.passes_inert e fun t ht => absurd ht not_mem_plain
    have h := hpass []
    rw [List.append_nil, hc.nil] at h
    exact h
  obtain ⟨a, t, b, h⟩ | ⟨e, h⟩ := hc.found_or_passes d ps
  · have h' := h []
    rw [List.append_nil, List.append_nil] at h'
    rw [h, h']
    rfl
  · have h' := h []
    rw [List.append_nil, hc.nil] at h'
    rw [h, h', hnone]
    rfl

end Cuts

-- ── Steps through pieces ─────────────────────────────────────────────────────

/-- The markers of the pieces lead from `d` open conditionals to `e`. -/
def Leads (step : Marker → Nat → Option Nat) : Nat → List (Piece Token) → Nat → Prop
  | d, [], e => d = e
  | d, .char _ :: ps, e => Leads step d ps e
  | d, .item t :: ps, e => ∃ f, step t.marker d = some f ∧ Leads step f ps e

section Leads

variable {step : Marker → Nat → Option Nat} {d e : Nat} {ps qs : List (Piece Token)}

theorem leads_append :
    Leads step d (ps ++ qs) e ↔ ∃ f, Leads step d ps f ∧ Leads step f qs e := by
  induction ps generalizing d with
  | nil =>
      constructor
      · exact fun h => ⟨d, rfl, h⟩
      · rintro ⟨f, rfl, h⟩
        exact h
  | cons p ps ih =>
      cases p with
      | char c => exact ih
      | item t =>
          constructor
          · rintro ⟨f, hf, h⟩
            obtain ⟨g, hg, h⟩ := ih.mp h
            exact ⟨g, ⟨f, hf, hg⟩, h⟩
          · rintro ⟨g, ⟨f, hf, hg⟩, h⟩
            exact ⟨f, hf, ih.mpr ⟨g, hg, h⟩⟩

theorem leads_plain {cs : List Char} : Leads step d (Piece.plain cs) e ↔ d = e := by
  induction cs with
  | nil => exact Iff.rfl
  | cons c cs ih => exact ih

/-- A cut ends at a marker to which the pieces before it lead. -/
theorem Cuts.leads_of_some {cut : Cut} (hc : Cuts cut step) {a b : List (Piece Token)} {t : Token}
    (h : cut d ps = some (a, t, b)) : ∃ e, Leads step d a e ∧ step t.marker e = none := by
  induction ps generalizing d a with
  | nil =>
      rw [hc.nil] at h
      cases h
  | cons p ps ih =>
      cases p with
      | char c =>
          rw [hc.char] at h
          obtain ⟨⟨a', s⟩, hs, he⟩ := Option.map_eq_some_iff.mp h
          cases he
          obtain ⟨e, hlead, hstop⟩ := ih hs
          exact ⟨e, hlead, hstop⟩
      | item u =>
          cases hs : step u.marker d with
          | none =>
              rw [hc.stop hs] at h
              cases h
              exact ⟨d, rfl, hs⟩
          | some f =>
              rw [hc.pass hs] at h
              obtain ⟨⟨a', s⟩, hcut, he⟩ := Option.map_eq_some_iff.mp h
              cases he
              obtain ⟨e, hlead, hstop⟩ := ih hcut
              exact ⟨e, ⟨f, hs, hlead⟩, hstop⟩

/-- If no marker ends a cut, all pieces are gone through. -/
theorem Cuts.leads_of_none {cut : Cut} (hc : Cuts cut step) (h : cut d ps = none) :
    ∃ e, Leads step d ps e := by
  induction ps generalizing d with
  | nil => exact ⟨d, rfl⟩
  | cons p ps ih =>
      cases p with
      | char c =>
          rw [hc.char] at h
          exact ih (Option.map_eq_none_iff.mp h)
      | item u =>
          cases hs : step u.marker d with
          | none =>
              rw [hc.stop hs] at h
              cases h
          | some f =>
              rw [hc.pass hs] at h
              obtain ⟨e, hlead⟩ := ih (Option.map_eq_none_iff.mp h)
              exact ⟨e, f, hs, hlead⟩

/-- A marker that ends neither search opens and closes the same conditionals for both. -/
theorem step_eq {m : Marker} {f g : Nat} (hf : endIfStep m d = some f)
    (hg : elseStep m d = some g) : f = g := by
  cases m <;> cases d <;> cases hf <;> cases hg <;> rfl

theorem leads_eq {f : Nat} (he : Leads endIfStep d ps e) (hf : Leads elseStep d ps f) : e = f := by
  induction ps generalizing d with
  | nil => exact he.symm.trans hf
  | cons p ps ih =>
      cases p with
      | char c => exact ih he hf
      | item t =>
          obtain ⟨g, hg, he⟩ := he
          obtain ⟨g', hg', hf⟩ := hf
          cases step_eq hg hg'
          exact ih he hf

end Leads

/-- The end of a branch inside which `d` further conditionals are open: no marker of the pieces
    closes the conditional of the branch or starts its other branch, and at the end of the pieces
    all others are closed. -/
structure Inside (d : Nat) (ps : List (Piece Token)) : Prop where
  endIf : Leads endIfStep d ps 0
  otherwise : Leads elseStep d ps 0

theorem Inside.tail {d : Nat} {p : Piece Token} {ps : List (Piece Token)} (h : Inside d (p :: ps)) :
    ∃ e, Inside e ps := by
  obtain ⟨he, ho⟩ := h
  cases p with
  | char c => exact ⟨d, he, ho⟩
  | item t =>
      obtain ⟨e, hstep, he⟩ := he
      obtain ⟨e', hstep', ho⟩ := ho
      cases step_eq hstep hstep'
      exact ⟨e, he, ho⟩

/-- The last marker of a branch is no header of a conditional and no `@else`. -/
theorem Inside.last {d : Nat} {t : Token} {cs : List Char}
    (h : Inside d (.item t :: Piece.plain cs)) : t.marker = .endIf ∨ t.marker.Inert := by
  obtain ⟨⟨e, hstep, he⟩, ⟨e', hstep', he'⟩⟩ := h
  rw [leads_plain] at he he'
  subst he he'
  obtain ⟨m, source, line⟩ := t
  cases m with
  | endIf => exact .inl rfl
  | ifHeader name default? => cases hstep
  | elseLine => cases d <;> cases hstep'
  | blockHeader name => exact .inr trivial
  | endBlock => exact .inr trivial
  | «variable» name alternatives => exact .inr trivial

-- ── Retellings ───────────────────────────────────────────────────────────────

/-- A way to tell pieces anew, in which the markers of conditionals stay what they are and the other
    pieces bring whole conditionals at most. -/
structure Telling where
  chars : Char → List Char
  token : Token → Token
  piece : Piece Token → List (Piece Token)
  piece_char : ∀ c, piece (.char c) = Piece.plain (chars c)
  piece_token : ∀ {t : Token}, ¬ t.marker.Inert → piece (.item t) = [.item (token t)]
  balanced : ∀ {t : Token}, t.marker.Inert → Balanced (piece (.item t))
  marker : ∀ t : Token, (token t).marker = t.marker

namespace Telling

variable (r : Telling)

def pieces (ps : List (Piece Token)) : List (Piece Token) := ps.flatMap r.piece

@[simp] theorem pieces_nil : r.pieces [] = [] := rfl

@[simp] theorem pieces_cons (p : Piece Token) (ps : List (Piece Token)) :
    r.pieces (p :: ps) = r.piece p ++ r.pieces ps := List.flatMap_cons

@[simp] theorem pieces_append (ps qs : List (Piece Token)) :
    r.pieces (ps ++ qs) = r.pieces ps ++ r.pieces qs := List.flatMap_append

/-- A cut of pieces that are told anew. -/
def cutAt (s : List (Piece Token) × Token × List (Piece Token)) :
    List (Piece Token) × Token × List (Piece Token) :=
  (r.pieces s.1, r.token s.2.1, r.pieces s.2.2)

/-- Telling pieces anew does not move their cuts. -/
theorem cut_pieces {cut : Cut} {step : Marker → Nat → Option Nat} (hc : Cuts cut step)
    (hinert : ∀ {t : Token}, t.marker.Inert → ∀ d, Passes cut d (r.piece (.item t)) d) (d : Nat)
    (ps : List (Piece Token)) : cut d (r.pieces ps) = (cut d ps).map r.cutAt := by
  induction ps generalizing d with
  | nil => rw [pieces_nil, hc.nil]; rfl
  | cons p ps ih =>
      -- what is passed is put back in front on both sides
      have hpast : ∀ {e}, Passes cut d (r.piece p) e → Passes cut d [p] e →
          cut d (r.pieces (p :: ps)) = (cut d (p :: ps)).map r.cutAt := by
        intro e hnew hold
        have h := hold ps
        rw [List.singleton_append] at h
        rw [pieces_cons, hnew, ih, h]
        cases cut e ps with
        | none => rfl
        | some s => simp [cutAt]
      cases p with
      | char c =>
          refine hpast ?_ (hc.passes_char d c)
          rw [r.piece_char]
          exact hc.passes_inert d fun t ht => absurd ht not_mem_plain
      | item t =>
          by_cases ht : t.marker.Inert
          · exact hpast (hinert ht d) (hc.passes_item (hc.inert ht d))
          · rw [pieces_cons, r.piece_token ht]
            cases hs : step t.marker d with
            | none =>
                rw [hc.stop hs]
                exact hc.stop (r.marker t ▸ hs) _
            | some e =>
                have hnew : Passes cut d (r.piece (.item t)) e := by
                  rw [r.piece_token ht]
                  exact hc.passes_item (r.marker t ▸ hs)
                rw [← r.piece_token ht, ← pieces_cons]
                exact hpast hnew (hc.passes_item hs)

/-- A closing among pieces that are told anew. -/
def closing (c : Closing) : Closing where
  whenTrue := r.pieces c.whenTrue
  otherwise? := c.otherwise?.map fun o => (r.token o.1, r.pieces o.2)
  endIf := r.token c.endIf
  rest := r.pieces c.rest

theorem closeConditional?_pieces (ps : List (Piece Token)) :
    closeConditional? (r.pieces ps) = (closeConditional? ps).map r.closing := by
  have hEnd := r.cut_pieces cuts_endIf (fun h => (r.balanced h).endIf) 0 ps
  have hElse := r.cut_pieces cuts_else (fun h => (r.balanced h).otherwise) 0
  cases h : splitEndIf 0 ps with
  | none =>
      rw [h] at hEnd
      simp [closeConditional?, hEnd, h]
  | some s =>
      obtain ⟨body, endIf, rest⟩ := s
      rw [h] at hEnd
      have hBody := hElse body
      cases h' : splitElse 0 body with
      | none =>
          rw [h'] at hBody
          simp [closeConditional?, hEnd, hBody, h, h', cutAt, closing]
      | some o =>
          obtain ⟨whenTrue, elseLine, whenFalse⟩ := o
          rw [h'] at hBody
          have hLast := hElse whenFalse
          cases h'' : splitElse 0 whenFalse with
          | none =>
              rw [h''] at hLast
              simp [closeConditional?, hEnd, hBody, hLast, h, h', h'', cutAt, closing]
          | some o =>
              rw [h''] at hLast
              simp [closeConditional?, hEnd, hBody, hLast, h, h', h'', cutAt]

end Telling

/-- A way to tell pieces anew that adds no markers of conditionals at all, and tells the text of
    every piece in the same way. -/
structure Retelling extends Telling where
  inert : ∀ {t : Token}, t.marker.Inert → ∀ u, .item u ∈ piece (.item t) → u.marker.Inert
  source : ∀ t : Token, tokenSource (piece (.item t)) = t.source.flatMap chars
  balanced h := balanced_of_inert (inert h)

namespace Retelling

variable (r : Retelling)

theorem tokenSource_pieces (ps : List (Piece Token)) :
    tokenSource (r.pieces ps) = (tokenSource ps).flatMap r.chars := by
  induction ps with
  | nil => rfl
  | cons p ps ih =>
      rw [Telling.pieces_cons, tokenSource_append, ih]
      cases p with
      | char c => rw [r.piece_char, tokenSource_plain, tokenSource_char, List.flatMap_cons]
      | item t => rw [r.source, tokenSource_item, List.flatMap_append]

theorem source_token {t : Token} (h : ¬ t.marker.Inert) :
    (r.token t).source = t.source.flatMap r.chars := by
  rw [← r.source t, r.piece_token h]
  simp

end Retelling

-- ── Bare pieces ──────────────────────────────────────────────────────────────

/-- A token without its line, or its text if it plays no part in a conditional. -/
def bareToken (t : Token) : List (Piece Token) :=
  match t.marker with
  | .ifHeader .. | .elseLine | .endIf => [.item { t with line := 0 }]
  | _ => Piece.plain t.source

/-- Leaves out what does not matter to conditionals: the markers of blocks and variables, and the
    lines of the others. -/
def bare : Retelling where
  chars c := [c]
  token t := { t with line := 0 }
  piece
    | .char c => [.char c]
    | .item t => bareToken t
  piece_char _ := rfl
  piece_token {t} h := by
    obtain ⟨m, source, line⟩ := t
    cases m <;> first | rfl | exact absurd trivial h
  inert {t} h u hu := by
    obtain ⟨m, source, line⟩ := t
    cases m <;> first | exact h.elim | exact absurd hu not_mem_plain
  source t := by
    obtain ⟨m, source, line⟩ := t
    cases m <;> simp [bareToken]
  marker _ := rfl

theorem bareToken_inert {t : Token} (h : t.marker.Inert) : bareToken t = Piece.plain t.source := by
  obtain ⟨m, source, line⟩ := t
  cases m <;> first | rfl | exact h.elim

theorem bare_plain (cs : List Char) : bare.pieces (Piece.plain cs) = Piece.plain cs := by
  induction cs with
  | nil => rfl
  | cons c cs ih => exact congrArg (.char c :: ·) ih

theorem bare_inert {ps : List (Piece Token)} (h : ∀ t, .item t ∈ ps → t.marker.Inert) :
    bare.pieces ps = Piece.plain (tokenSource ps) := by
  induction ps with
  | nil => rfl
  | cons p ps ih =>
      have hps := ih fun t ht => h t (List.mem_cons_of_mem _ ht)
      rw [Telling.pieces_cons, hps]
      cases p with
      | char c => rfl
      | item t =>
          rw [tokenSource_item, Piece.plain_append, ← bareToken_inert (h t List.mem_cons_self)]
          rfl

theorem tokenSource_bare (ps : List (Piece Token)) :
    tokenSource (bare.pieces ps) = tokenSource ps := by
  rw [Retelling.tokenSource_pieces]
  simp [bare]

end ShaderTemplates.Template
