import Mathlib.Data.List.Infix
import ShaderTemplates.Proofs.BlockRegions
import ShaderTemplates.Proofs.CarriageReturns
import ShaderTemplates.Proofs.CutTexts
import ShaderTemplates.Proofs.Words

/-!
# Texts that are read line by line

What is read on a line does not depend on the lines behind it, except that a header takes the blank
lines that follow it (`unplacedFrom_line`).  Only a line with an at sign on it can hold a marker of
a block.  So two texts show the same markers of blocks if the lines with at signs are the same in
both and stand in the same order, whatever stands between them (`Redrawn.read`).

Lines are not counted here: the other lines may be more or fewer.
-/

namespace ShaderTemplates.Template

open Text

-- ── Tokens without their lines ───────────────────────────────────────────────

/-- A token without its line. -/
def Token.unplaced (t : Token) : Token := { t with line := 0 }

/-- The pieces of a text, given whether only blanks stand before it on its line; the tokens are
    without their lines. -/
def unplacedFrom (lineStart : Bool) (cs : List Char) : List (Piece Token) :=
  (piecesFrom ⟨lineStart, 0⟩ cs).map (Piece.map Token.unplaced)

theorem map_unplaced (p : Position) (cs : List Char) :
    (piecesFrom p cs).map (Piece.map Token.unplaced) = unplacedFrom p.lineStart cs := by
  have hstart : p.lineStart = Position.lineStart ⟨p.lineStart, 0⟩ := rfl
  have htell : (piecesFrom p cs).flatMap (fun x => [Piece.map Token.unplaced x]) =
      (piecesFrom ⟨p.lineStart, 0⟩ cs).flatMap fun x => [Piece.map Token.unplaced x] :=
    flatMap_piecesFrom_eq (fun _ _ _ _ => rfl) hstart cs
  rwa [← List.map_eq_flatMap, ← List.map_eq_flatMap] at htell

@[simp] theorem unplacedFrom_nil (b : Bool) : unplacedFrom b [] = [] := rfl

theorem unplacedFrom_char {b : Bool} {c : Char} {rest : List Char}
    (h : marker? b (c :: rest) = none) :
    unplacedFrom b (c :: rest) =
      .char c :: unplacedFrom ((Position.pastChar ⟨b, 0⟩ c).lineStart) rest := by
  rw [unplacedFrom, piecesFrom_char h, List.map_cons, map_unplaced]
  rfl

theorem unplacedFrom_marker {b : Bool} {cs : List Char} {f : Found} (h : marker? b cs = some f) :
    unplacedFrom b cs =
      .item ⟨f.marker, f.source, 0⟩ :: unplacedFrom (f.source.getLast? == some '\n') f.rest := by
  rw [unplacedFrom, piecesFrom_marker h, List.map_cons, map_unplaced]
  rfl

theorem tokenSource_unplaced (ps : List (Piece Token)) :
    tokenSource (ps.map (Piece.map Token.unplaced)) = tokenSource ps :=
  Piece.source_map _ _ ps

@[simp] theorem tokenSource_unplacedFrom (b : Bool) (cs : List Char) :
    tokenSource (unplacedFrom b cs) = cs := by
  rw [unplacedFrom, tokenSource_unplaced, tokenSource_piecesFrom]

/-- No token is empty. -/
def Solid (ps : List (Piece Token)) : Prop := ∀ t, .item t ∈ ps → t.source ≠ []

theorem solid_unplacedFrom (b : Bool) (cs : List Char) : Solid (unplacedFrom b cs) := by
  intro t ht
  obtain ⟨p, hp, heq⟩ := List.mem_map.mp ht
  cases p with
  | char c => cases heq
  | item u =>
      cases heq
      exact source_ne_nil_of_mem_readPieces (t := u) hp

theorem Solid.eq_nil {ps : List (Piece Token)} (h : Solid ps) (hnil : tokenSource ps = []) :
    ps = [] := by
  cases ps with
  | nil => rfl
  | cons p ps =>
      cases p with
      | char c => cases hnil
      | item t =>
          rw [tokenSource_item, List.append_eq_nil_iff] at hnil
          exact absurd hnil.1 (h t List.mem_cons_self)

/-- Of two parts of a reading the one with the shorter text is part of the other. -/
theorem split_of_source {a c k d : List (Piece Token)} {w : List Char} (h : a ++ k = c ++ d)
    (hsolid : Solid a) (hsource : tokenSource c = tokenSource a ++ w) :
    ∃ more, c = a ++ more ∧ k = more ++ d ∧ tokenSource more = w := by
  rcases List.append_eq_append_iff.mp h with ⟨more, rfl, rfl⟩ | ⟨more, rfl, rfl⟩
  · rw [tokenSource_append] at hsource
    exact ⟨more, rfl, rfl, List.append_cancel_left hsource⟩
  · rw [tokenSource_append, List.append_assoc] at hsource
    have hnil := List.append_eq_nil_iff.mp (List.self_eq_append_right.mp hsource)
    have hmore : more = [] := by
      refine Solid.eq_nil (fun t ht => hsolid t (List.mem_append_right c ht)) hnil.1
    rw [hmore]
    exact ⟨[], by simp, rfl, hnil.2.symm⟩

-- ── Lines ────────────────────────────────────────────────────────────────────

/-- Blank lines are plain text. -/
theorem unplacedFrom_blanks {s : List Char} (hs : ∀ c ∈ s, isAsciiBlank c = true)
    (hlast : s.getLast? = some '\n') (b : Bool) (rest : List Char) :
    unplacedFrom b (s ++ rest) = Piece.plain s ++ unplacedFrom true rest := by
  induction s generalizing b with
  | nil => cases hlast
  | cons c s ih =>
      have hc := startsMarker_of_isAsciiBlank (hs c List.mem_cons_self)
      rw [List.cons_append, unplacedFrom_char (marker?_of_head hc b _)]
      cases s with
      | nil =>
          obtain rfl : c = '\n' := by simpa using hlast
          rfl
      | cons d s =>
          rw [ih (fun x hx => hs x (List.mem_cons_of_mem _ hx)) (by simpa using hlast)]
          rfl

theorem unplacedFrom_blankLines (cs : List Char) :
    unplacedFrom true cs =
      Piece.plain (blankLines cs) ++ unplacedFrom true (afterBlankLines cs) := by
  cases h : headerEnd? cs with
  | none => rw [blankLines, afterBlankLines, h]; rfl
  | some n =>
      obtain ⟨hall, hlast⟩ := headerEnd?_spec h
      have hread := unplacedFrom_blanks hall hlast true (cs.drop n)
      rw [List.take_append_drop] at hread
      rw [hread, blankLines, afterBlankLines, h]
      rfl

/-- The end of a line is plain text. -/
theorem unplacedFrom_lineEnd {blanks : List Char} (hb : ∀ c ∈ blanks, isInlineBlank c = true)
    (b : Bool) (after : List Char) :
    unplacedFrom b (blanks ++ '\n' :: after) =
      Piece.plain (blanks ++ ['\n']) ++ unplacedFrom true after := by
  have hall : ∀ c ∈ blanks ++ ['\n'], isAsciiBlank c = true := by
    intro c hc
    rcases List.mem_append.mp hc with hc | hc
    · exact isAsciiBlank_of_isInlineBlank (hb c hc)
    · rw [List.mem_singleton.mp hc]
      rfl
  have hread := unplacedFrom_blanks hall (by simp) b after
  rwa [List.append_assoc] at hread

section

variable {b : Bool} {x : List Char} {tail after : List Char} (ht : Breaks tail after)
include ht

/-- A marker that ends on its line is read by itself. -/
theorem marker?_onLine {m : Marker} {s y : List Char}
    (h : marker? b (x ++ ['\n']) = some ⟨m, s, y ++ ['\n']⟩) :
    marker? b (x ++ tail) = some ⟨m, s, y ++ tail⟩ := by
  obtain ⟨-, hnone⟩ | ⟨m', s', z, -, htail, hplain⟩ | ⟨m', s', s'', -, hplain⟩ :=
    marker?_both ht (breaks_plain []) b x
  · rw [h] at hnone
    cases hnone
  · rw [h] at hplain
    injection hplain with hplain
    injection hplain with hm hs hz
    rw [htail, hm, hs, List.append_cancel_right hz]
  · rw [h] at hplain
    injection hplain with hplain
    injection hplain with hm hs hz
    exact absurd hz (by simp [afterBlankLines])

/-- A header takes the line break and the blank lines behind it. -/
theorem marker?_pastLine {m : Marker} {s : List Char}
    (h : marker? b (x ++ ['\n']) = some ⟨m, s, []⟩) :
    ∃ s', marker? b (x ++ tail) = some ⟨m, s', afterBlankLines after⟩ := by
  obtain ⟨-, hnone⟩ | ⟨m', s', z, -, -, hplain⟩ | ⟨m', s', s'', htail, hplain⟩ :=
    marker?_both ht (breaks_plain []) b x
  · rw [h] at hnone
    cases hnone
  · rw [h] at hplain
    injection hplain with hplain
    injection hplain with hm hs hz
    exact absurd hz.symm (by simp)
  · rw [h] at hplain
    cases hplain
    exact ⟨s', htail⟩

end

/-- What is read of a line: its tokens, and then either its end as plain text or a header that takes
    it, together with the blank lines behind it. -/
inductive LineRead (b : Bool) (l : List Char) (front : List (Piece Token)) : Prop where
  | toEnd (source : tokenSource front = l)
      (read : ∀ blanks after, (∀ c ∈ blanks, isInlineBlank c = true) →
        unplacedFrom b (l ++ (blanks ++ '\n' :: after)) =
          front ++ (Piece.plain (blanks ++ ['\n']) ++ unplacedFrom true after))
  | header {m : Marker} {x : List Char} (source : tokenSource front ++ x = l)
      (marker : ∀ name alternatives, m ≠ .variable name alternatives)
      (read : ∀ blanks after, (∀ c ∈ blanks, isInlineBlank c = true) →
        unplacedFrom b (l ++ (blanks ++ '\n' :: after)) =
          front ++ .item ⟨m, x ++ (blanks ++ '\n' :: blankLines after), 0⟩ ::
            unplacedFrom true (afterBlankLines after))

theorem LineRead.cons {b d : Bool} {l s : List Char} {p : Piece Token} {front : List (Piece Token)}
    (h : LineRead d l front) (hsource : tokenSource [p] = s)
    (hread : ∀ rest, (∃ blanks after, (∀ c ∈ blanks, isInlineBlank c = true) ∧
      rest = blanks ++ '\n' :: after) →
        unplacedFrom b (s ++ (l ++ rest)) = p :: unplacedFrom d (l ++ rest)) :
    LineRead b (s ++ l) (p :: front) := by
  have hfront : tokenSource (p :: front) = s ++ tokenSource front := by
    rw [← hsource, ← tokenSource_append]
    rfl
  cases h with
  | toEnd source read =>
      refine .toEnd (by rw [hfront, source]) fun blanks after hb => ?_
      rw [List.append_assoc, hread _ ⟨blanks, after, hb, rfl⟩, read blanks after hb]
      rfl
  | header source marker read =>
      refine .header (by rw [hfront, List.append_assoc, source]) marker fun blanks after hb => ?_
      rw [List.append_assoc, hread _ ⟨blanks, after, hb, rfl⟩, read blanks after hb]
      rfl

/-- A line is read alike whatever follows it, and whatever blanks are at its end. -/
theorem unplacedFrom_line (b : Bool) (l : List Char) : ∃ front, LineRead b l front := by
  induction hn : l.length using Nat.strongRecOn generalizing b l with
  | ind n ih =>
      cases l with
      | nil => exact ⟨[], .toEnd rfl fun blanks after hb => unplacedFrom_lineEnd hb b after⟩
      | cons c l =>
          cases href : marker? b (c :: l ++ ['\n']) with
          | none =>
              obtain ⟨front, hfront⟩ := ih l.length (by simp at hn; omega)
                ((Position.pastChar ⟨b, 0⟩ c).lineStart) l rfl
              refine ⟨.char c :: front, hfront.cons (s := [c]) rfl ?_⟩
              rintro rest ⟨blanks, after, hb, rfl⟩
              have hbreaks : Breaks (blanks ++ '\n' :: after) after := ⟨blanks, hb, rfl⟩
              have halike := marker?_alike hbreaks b (c :: l)
              rw [href] at halike
              refine unplacedFrom_char ?_
              generalize hm : marker? b _ = found at halike
              cases halike
              exact hm
          | some f =>
              have hself := marker?_alike (breaks_plain []) b (c :: l)
              rw [href] at hself
              generalize hg : some f = g at hself
              cases hself with
              | none => cases hg
              | onLine m s s' y =>
                  cases hg
                  have hsource : s ++ y = c :: l := source_append_rest href
                  have hshort : y.length < n := by
                    have hpos := List.length_pos_iff.mpr (marker?_source_ne_nil href)
                    have hlen := congrArg List.length hsource
                    simp only [List.length_append] at hpos hlen
                    omega
                  obtain ⟨front, hfront⟩ := ih y.length hshort (s.getLast? == some '\n') y rfl
                  rw [← hsource]
                  refine ⟨.item ⟨m, s, 0⟩ :: front, hfront.cons (List.append_nil s) ?_⟩
                  rintro rest ⟨blanks, after, hb, rfl⟩
                  have hbreaks : Breaks (blanks ++ '\n' :: after) after := ⟨blanks, hb, rfl⟩
                  have hm := marker?_onLine hbreaks href
                  rw [← hsource, List.append_assoc] at hm
                  exact unplacedFrom_marker hm
              | pastBreak m s s' hvar =>
                  cases hg
                  refine ⟨[], .header rfl hvar fun blanks after hb => ?_⟩
                  have hbreaks : Breaks (blanks ++ '\n' :: after) after := ⟨blanks, hb, rfl⟩
                  obtain ⟨s', hm⟩ := marker?_pastLine hbreaks href
                  obtain rfl : s' = c :: l ++ (blanks ++ '\n' :: blankLines after) := by
                    refine List.append_cancel_right ((marker?_append hm).trans ?_)
                    rw [List.append_assoc, List.append_assoc]
                    show _ = _ ++ (_ ++ '\n' :: (blankLines after ++ afterBlankLines after))
                    rw [blankLines_append]
                  rw [unplacedFrom_marker hm, List.getLast?_append, List.getLast?_append,
                    getLast?_break_blankLines]
                  rfl

-- ── Markers of blocks ────────────────────────────────────────────────────────

/-- Whether a marker opens or ends a block. -/
def Marker.ofBlock : Marker → Bool
  | .blockHeader _ => true
  | .endBlock => true
  | _ => false

/-- The markers of blocks among pieces, in order. -/
def blockMarkers (ps : List (Piece Token)) : List Marker :=
  ((Piece.items ps).map Token.marker).filter Marker.ofBlock

theorem blockMarkers_append (ps qs : List (Piece Token)) :
    blockMarkers (ps ++ qs) = blockMarkers ps ++ blockMarkers qs := by
  rw [blockMarkers, Piece.items_append, List.map_append, List.filter_append]
  rfl

@[simp] theorem blockMarkers_plain (cs : List Char) : blockMarkers (Piece.plain cs) = [] := by
  rw [blockMarkers, Piece.items_plain]
  rfl

theorem blockMarkers_unplaced (ps : List (Piece Token)) :
    blockMarkers (ps.map (Piece.map Token.unplaced)) = blockMarkers ps := by
  rw [blockMarkers, Piece.items_map, List.map_map]
  rfl

theorem unplacedFrom_text {s : List Char} (hs : '@' ∉ s) (b : Bool) (rest : List Char) :
    unplacedFrom b (s ++ '\n' :: rest) =
      unplacedFrom b s ++ .char '\n' :: unplacedFrom true rest := by
  rw [unplacedFrom, piecesFrom_text hs (lineEnd_break rest), List.map_append, map_unplaced,
    map_unplaced]
  exact congrArg _ (unplacedFrom_char (marker?_lineBreak true rest))

/-- Without at signs there are variables only. -/
theorem variable_of_mem_unplaced {s : List Char} (hs : '@' ∉ s) {b : Bool} {t : Token}
    (h : .item t ∈ unplacedFrom b s) :
    ∃ name alternatives, t.marker = .variable name alternatives := by
  obtain ⟨p, hp, heq⟩ := List.mem_map.mp h
  cases p with
  | char c => cases heq
  | item u =>
      cases heq
      exact variable_of_mem_text (t := u) hs hp

theorem blockMarkers_text {s : List Char} (hs : '@' ∉ s) (b : Bool) :
    blockMarkers (unplacedFrom b s) = [] := by
  refine List.filter_eq_nil_iff.mpr fun m hm => ?_
  obtain ⟨t, ht, rfl⟩ := List.mem_map.mp hm
  obtain ⟨name, alternatives, hvar⟩ := variable_of_mem_unplaced hs (Piece.item_of_mem_items ht)
  rw [hvar]
  exact Bool.false_ne_true

-- ── Redrawn texts ────────────────────────────────────────────────────────────

/-- A text in front of another one is redrawn: its lines with at signs stay as they are, but for the
    blanks at their ends, and the others give way to any text without at signs.  The last line goes
    on in the text behind it, so it stays if there is any. -/
inductive Redrawn (behind : List Char) : List Char → List Char → Prop where
  | same (cs : List Char) : Redrawn behind cs cs
  | last {x y : List Char} (hend : behind = []) (hx : '@' ∉ x) (hy : '@' ∉ y) : Redrawn behind x y
  | marked {u u' blanks blanks' : List Char} (l : List Char)
      (hb : ∀ c ∈ blanks, isInlineBlank c = true) (hb' : ∀ c ∈ blanks', isInlineBlank c = true)
      (rest : Redrawn behind u u') :
      Redrawn behind (l ++ (blanks ++ '\n' :: u)) (l ++ (blanks' ++ '\n' :: u'))
  | unmarked {x y u u' : List Char} (hx : '@' ∉ x) (hy : '@' ∉ y) (rest : Redrawn behind u u') :
      Redrawn behind (x ++ '\n' :: u) (y ++ '\n' :: u')

/-- Blank lines do not reach into the text behind. -/
def Closed (behind : List Char) : Prop :=
  ∀ u, blankLines (u ++ behind) = blankLines u ∧
    afterBlankLines (u ++ behind) = afterBlankLines u ++ behind

theorem closed_nil : Closed [] := fun u => by simp

theorem closed_cons {c : Char} (hc : isAsciiBlank c = false) (rest : List Char) :
    Closed (c :: rest) := fun u => ⟨blankLines_stop hc u rest, afterBlankLines_stop hc u rest⟩

/-- The reading of a text in front of another one, up to the start of the other one. -/
structure ReadsTo (b : Bool) (u : List Char) (d : Bool) (behind : List Char)
    (before : List (Piece Token)) : Prop where
  read : unplacedFrom b (u ++ behind) = before ++ unplacedFrom d behind
  source : tokenSource before = u

section

variable {b d : Bool} {u behind : List Char} {before : List (Piece Token)}

/-- The reading goes on behind a part of it. -/
theorem ReadsTo.behind_part (h : ReadsTo b u d behind before) {front : List (Piece Token)}
    {w : List Char} {e : Bool} (hsolid : Solid front) (hu : u = tokenSource front ++ w)
    (hread : unplacedFrom b (u ++ behind) = front ++ unplacedFrom e (w ++ behind)) :
    ∃ rest, before = front ++ rest ∧ ReadsTo e w d behind rest := by
  obtain ⟨rest, hbefore, hrest, hsource⟩ :=
    split_of_source (hread.symm.trans h.read) hsolid (h.source.trans hu)
  exact ⟨rest, hbefore, hrest, hsource⟩

theorem solid_plain (cs : List Char) : Solid (Piece.plain cs) := by
  intro t ht
  simp [Piece.plain] at ht

theorem solid_append {ps qs : List (Piece Token)} (hps : Solid ps) (hqs : Solid qs) :
    Solid (ps ++ qs) := fun t ht => (List.mem_append.mp ht).elim (hps t) (hqs t)

/-- Blank lines at the start of a text are read first. -/
theorem readsTo_blankLines (hclosed : Closed behind) :
    ReadsTo true u d behind before ↔
      ∃ rest, before = Piece.plain (blankLines u) ++ rest ∧
        ReadsTo true (afterBlankLines u) d behind rest := by
  have hread : unplacedFrom true (u ++ behind) =
      Piece.plain (blankLines u) ++ unplacedFrom true (afterBlankLines u ++ behind) := by
    rw [unplacedFrom_blankLines, (hclosed u).1, (hclosed u).2]
  constructor
  · intro h
    refine h.behind_part (solid_plain _) ?_ hread
    rw [tokenSource_plain, blankLines_append]
  · rintro ⟨rest, rfl, hrest⟩
    refine ⟨?_, ?_⟩
    · rw [hread, hrest.read, List.append_assoc]
    · rw [tokenSource_append, tokenSource_plain, hrest.source, blankLines_append]

/-- A line without at signs is read first. -/
theorem readsTo_unmarked {x : List Char} (hx : '@' ∉ x) :
    ReadsTo b (x ++ '\n' :: u) d behind before ↔
      ∃ rest, before = unplacedFrom b x ++ .char '\n' :: rest ∧ ReadsTo true u d behind rest := by
  have hread : unplacedFrom b (x ++ '\n' :: u ++ behind) =
      unplacedFrom b x ++ [.char '\n'] ++ unplacedFrom true (u ++ behind) := by
    rw [List.append_assoc, List.cons_append, unplacedFrom_text hx]
    simp
  constructor
  · intro h
    obtain ⟨rest, hbefore, hrest⟩ := h.behind_part
      (solid_append (solid_unplacedFrom b x) (solid_plain ['\n'])) (by simp [Piece.plain]) hread
    exact ⟨rest, by simpa [Piece.plain] using hbefore, hrest⟩
  · rintro ⟨rest, rfl, hrest⟩
    refine ⟨?_, ?_⟩
    · rw [hread, hrest.read]
      simp
    · rw [tokenSource_append, tokenSource_unplacedFrom, tokenSource_char, hrest.source]

end

-- ── Filled texts ─────────────────────────────────────────────────────────────

/-- The text of pieces with another text in the place of each variable. -/
def filled (text : String → List Char) (ps : List (Piece Token)) : List Char :=
  Piece.source (fun e => text e.1) (ps.flatMap tokenWord)

section

variable (text : String → List Char)

@[simp] theorem filled_nil : filled text [] = [] := rfl

@[simp] theorem filled_append (ps qs : List (Piece Token)) :
    filled text (ps ++ qs) = filled text ps ++ filled text qs := by
  rw [filled, List.flatMap_append, Piece.source_append]
  rfl

@[simp] theorem filled_char (c : Char) (ps : List (Piece Token)) :
    filled text (.char c :: ps) = c :: filled text ps := rfl

@[simp] theorem filled_plain (cs : List Char) : filled text (Piece.plain cs) = cs := by
  induction cs with
  | nil => rfl
  | cons c cs ih => exact congrArg (c :: ·) ih

theorem filled_item {t : Token} (h : ∀ name alternatives, t.marker ≠ .variable name alternatives)
    (ps : List (Piece Token)) : filled text (.item t :: ps) = t.source ++ filled text ps := by
  rw [filled, List.flatMap_cons, Piece.source_append, tokenWord, markerWord_plain h,
    Piece.source_plain]
  rfl

/-- Pieces without variables stay as they are. -/
theorem filled_of_no_variables {ps : List (Piece Token)}
    (h : ∀ t, .item t ∈ ps → ∀ name alternatives, t.marker ≠ .variable name alternatives) :
    filled text ps = tokenSource ps := by
  induction ps with
  | nil => rfl
  | cons p ps ih =>
      have hps := ih fun t ht => h t (List.mem_cons_of_mem _ ht)
      cases p with
      | char c => rw [filled_char, hps, tokenSource_char]
      | item t => rw [filled_item text (h t List.mem_cons_self), hps, tokenSource_item]

end

/-- A variable has an opening bracket. -/
theorem open_mem_of_variable {b : Bool} {cs : List Char} {t : Token}
    (h : .item t ∈ unplacedFrom b cs)
    {name : String} {alternatives : List String} (ht : t.marker = .variable name alternatives) :
    '<' ∈ t.source := by
  obtain ⟨p, hp, heq⟩ := List.mem_map.mp h
  cases p with
  | char c => cases heq
  | item u =>
      cases heq
      obtain ⟨before, after, hsplit⟩ := List.append_of_mem hp
      obtain ⟨q, hm, -⟩ := piecesFrom_item hsplit
      have hvar : variableWord? (u.source ++ tokenSource after) =
          some ⟨.variable name alternatives, u.source, tokenSource after⟩ := by
        have hmatch := matcher_of_marker? hm
        rwa [show u.marker = .variable name alternatives from ht] at hmatch
      show '<' ∈ u.source
      cases hsource : u.source with
      | nil => exact absurd hsource (marker?_source_ne_nil hm)
      | cons c s =>
          rw [hsource, List.cons_append] at hvar
          by_cases hc : c = '<'
          · subst hc
            exact List.mem_cons_self
          · rw [variableWord?_of_ne hc] at hvar
            cases hvar

/-- Pieces of a text without opening brackets hold no variables. -/
theorem not_variable_of_no_open {b : Bool} {cs : List Char} {ps : List (Piece Token)}
    (hps : ps ⊆ unplacedFrom b cs) (hopen : '<' ∉ tokenSource ps) {t : Token} (ht : .item t ∈ ps)
    (name : String) (alternatives : List String) : t.marker ≠ .variable name alternatives := by
  intro hvar
  obtain ⟨before, after, rfl⟩ := List.append_of_mem ht
  refine hopen ?_
  rw [tokenSource_append, tokenSource_item]
  exact List.mem_append_right _ (List.mem_append_left _ (open_mem_of_variable (hps ht) hvar))

-- ── Lines in front of others ─────────────────────────────────────────────────

/-- A line holds the same markers of blocks whatever is behind it, and reading goes on at the start
    of the next line.  Without an opening bracket the line stays as it is if it is filled. -/
structure LineMarkers (b : Bool) (l : List Char) (d : Bool) (behind : List Char)
    (marks : List Marker) : Prop where
  past : ∀ {blanks u : List Char} {before : List (Piece Token)},
    (∀ c ∈ blanks, isInlineBlank c = true) →
    ReadsTo b (l ++ (blanks ++ '\n' :: u)) d behind before →
      ∃ rest, ReadsTo true u d behind rest ∧ blockMarkers before = marks ++ blockMarkers rest ∧
        ('<' ∉ l → ∀ text, filled text before = l ++ (blanks ++ '\n' :: filled text rest))
  before : ∀ {blanks u : List Char} {rest : List (Piece Token)},
    (∀ c ∈ blanks, isInlineBlank c = true) → ReadsTo true u d behind rest →
      ∃ before, ReadsTo b (l ++ (blanks ++ '\n' :: u)) d behind before ∧
        blockMarkers before = marks ++ blockMarkers rest

theorem blockMarkers_item (t : Token) (ps : List (Piece Token)) :
    blockMarkers (.item t :: ps) = [t.marker].filter Marker.ofBlock ++ blockMarkers ps := by
  rw [blockMarkers, Piece.items_item, List.map_cons, ← List.singleton_append, List.filter_append]
  rfl

/-- What is read of a line that ends as plain text. -/
theorem LineRead.markers_toEnd {b d : Bool} {l behind : List Char} {front : List (Piece Token)}
    (hsource : tokenSource front = l)
    (hread : ∀ blanks after, (∀ c ∈ blanks, isInlineBlank c = true) →
      unplacedFrom b (l ++ (blanks ++ '\n' :: after)) =
        front ++ (Piece.plain (blanks ++ ['\n']) ++ unplacedFrom true after)) :
    LineMarkers b l d behind (blockMarkers front) where
  past := by
    intro blanks u before hb h
    have hsplit : unplacedFrom b (l ++ (blanks ++ '\n' :: u) ++ behind) =
        front ++ Piece.plain (blanks ++ ['\n']) ++ unplacedFrom true (u ++ behind) := by
      have htext := hread blanks (u ++ behind) hb
      simpa using htext
    have hsub : front ⊆ unplacedFrom b (l ++ (blanks ++ '\n' :: u) ++ behind) := by
      rw [hsplit, List.append_assoc]
      exact List.subset_append_left _ _
    have hsolid : Solid (front ++ Piece.plain (blanks ++ ['\n'])) :=
      solid_append (fun t ht => solid_unplacedFrom b _ t (hsub ht)) (solid_plain _)
    obtain ⟨rest, rfl, hrest⟩ := h.behind_part hsolid (by simp [hsource]) hsplit
    refine ⟨rest, hrest, ?_, ?_⟩
    · rw [blockMarkers_append, blockMarkers_append, blockMarkers_plain, List.append_nil]
    · intro hopen text
      have hno := filled_of_no_variables text fun t ht =>
        not_variable_of_no_open hsub (hsource ▸ hopen) ht
      simp [hno, hsource]
  before := by
    intro blanks u rest hb h
    refine ⟨front ++ (Piece.plain (blanks ++ ['\n']) ++ rest), ⟨?_, ?_⟩, ?_⟩
    · have htext := hread blanks (u ++ behind) hb
      rw [h.read] at htext
      simpa using htext
    · simp [hsource, h.source]
    · rw [blockMarkers_append, blockMarkers_append, blockMarkers_plain, List.nil_append]

/-- What is read of a line that ends with a header. -/
theorem LineRead.markers_header {b d : Bool} {l x behind : List Char} {front : List (Piece Token)}
    {m : Marker} (hclosed : Closed behind) (hsource : tokenSource front ++ x = l)
    (hmarker : ∀ name alternatives, m ≠ .variable name alternatives)
    (hread : ∀ blanks after, (∀ c ∈ blanks, isInlineBlank c = true) →
      unplacedFrom b (l ++ (blanks ++ '\n' :: after)) =
        front ++ .item ⟨m, x ++ (blanks ++ '\n' :: blankLines after), 0⟩ ::
          unplacedFrom true (afterBlankLines after)) :
    LineMarkers b l d behind (blockMarkers front ++ [m].filter Marker.ofBlock) where
  past := by
    intro blanks u before hb h
    have hsplit : unplacedFrom b (l ++ (blanks ++ '\n' :: u) ++ behind) =
        front ++ [.item ⟨m, x ++ (blanks ++ '\n' :: blankLines u), 0⟩] ++
          unplacedFrom true (afterBlankLines u ++ behind) := by
      have htext := hread blanks (u ++ behind) hb
      rw [(hclosed u).1, (hclosed u).2] at htext
      simpa using htext
    have hsub : front ⊆ unplacedFrom b (l ++ (blanks ++ '\n' :: u) ++ behind) := by
      rw [hsplit, List.append_assoc]
      exact List.subset_append_left _ _
    have hsolid : Solid (front ++ [.item ⟨m, x ++ (blanks ++ '\n' :: blankLines u), 0⟩]) := by
      refine solid_append (fun t ht => solid_unplacedFrom b _ t (hsub ht)) fun t ht => ?_
      cases List.mem_singleton.mp ht
      simp
    obtain ⟨k, rfl, hk⟩ := h.behind_part (w := afterBlankLines u) hsolid
      (by simp [← hsource, blankLines_append]) hsplit
    refine ⟨Piece.plain (blankLines u) ++ k, (readsTo_blankLines hclosed).mpr ⟨k, rfl, hk⟩, ?_, ?_⟩
    · rw [List.append_assoc, List.singleton_append, blockMarkers_append, blockMarkers_item,
        blockMarkers_append, blockMarkers_plain, List.append_assoc]
      rfl
    · intro hopen text
      have hopen' : '<' ∉ tokenSource front := fun hm =>
        hopen (hsource ▸ List.mem_append_left _ hm)
      have hno := filled_of_no_variables text fun t ht => not_variable_of_no_open hsub hopen' ht
      rw [filled_append, filled_append, hno, filled_item text hmarker, ← hsource]
      simp
  before := by
    intro blanks u rest hb h
    obtain ⟨k, rfl, hk⟩ := (readsTo_blankLines hclosed).mp h
    refine ⟨front ++ .item ⟨m, x ++ (blanks ++ '\n' :: blankLines u), 0⟩ :: k, ⟨?_, ?_⟩, ?_⟩
    · have htext := hread blanks (u ++ behind) hb
      rw [(hclosed u).1, (hclosed u).2, hk.read] at htext
      simpa using htext
    · simp [hk.source, ← hsource, blankLines_append]
    · rw [blockMarkers_append, blockMarkers_item, blockMarkers_append, blockMarkers_plain,
        List.append_assoc]
      rfl

theorem exists_lineMarkers {behind : List Char} (hclosed : Closed behind) (b : Bool) (l : List Char)
    (d : Bool) : ∃ marks, LineMarkers b l d behind marks := by
  obtain ⟨front, hfront⟩ := unplacedFrom_line b l
  cases hfront with
  | toEnd source read => exact ⟨_, LineRead.markers_toEnd source read⟩
  | header source marker read => exact ⟨_, LineRead.markers_header hclosed source marker read⟩

/-- A redrawn text shows the same markers of blocks. -/
theorem Redrawn.read {b d : Bool} {behind u u' : List Char} {before : List (Piece Token)}
    (h : Redrawn behind u u') (hclosed : Closed behind) (hread : ReadsTo b u d behind before) :
    ∃ before', ReadsTo b u' d behind before' ∧ blockMarkers before' = blockMarkers before := by
  induction h generalizing b before with
  | same cs => exact ⟨before, hread, rfl⟩
  | @last x y hend hx hy =>
      subst hend
      have hbefore : before = unplacedFrom b x := by
        have hsplit := hread.read
        simpa using hsplit.symm
      refine ⟨unplacedFrom b y, ⟨by simp, tokenSource_unplacedFrom b y⟩, ?_⟩
      rw [hbefore, blockMarkers_text hx, blockMarkers_text hy]
  | marked l hb hb' _ ih =>
      obtain ⟨marks, hline⟩ := exists_lineMarkers hclosed b l d
      obtain ⟨rest, hrest, hmarks, -⟩ := hline.past hb hread
      obtain ⟨rest', hrest', hsame⟩ := ih hrest
      obtain ⟨before', hbefore', hmarks'⟩ := hline.before hb' hrest'
      exact ⟨before', hbefore', by rw [hmarks', hsame, hmarks]⟩
  | @unmarked x y u u' hx hy _ ih =>
      obtain ⟨rest, rfl, hrest⟩ := (readsTo_unmarked hx).mp hread
      obtain ⟨rest', hrest', hsame⟩ := ih hrest
      refine ⟨_, (readsTo_unmarked hy).mpr ⟨rest', rfl, hrest'⟩, ?_⟩
      have hmarks : ∀ (z : List Char) (ps : List (Piece Token)), '@' ∉ z →
          blockMarkers (unplacedFrom b z ++ .char '\n' :: ps) = blockMarkers ps := by
        intro z ps hz
        rw [blockMarkers_append, blockMarkers_text hz]
        rfl
      rw [hmarks y rest' hy, hmarks x rest hx, hsame]

-- ── Line breaks as they are written ──────────────────────────────────────────

theorem mem_of_mem_unixBreaks {c : Char} {cs : List Char} (h : c ∈ unixBreaks cs) : c ∈ cs := by
  fun_induction unixBreaks cs with
  | case1 => exact h
  | case2 rest ih =>
      rcases List.mem_cons.mp h with rfl | h
      · simp
      · exact List.mem_cons_of_mem _ (List.mem_cons_of_mem _ (ih h))
  | case3 d rest hpair ih =>
      rcases List.mem_cons.mp h with rfl | h
      · exact List.mem_cons_self
      · exact List.mem_cons_of_mem _ (ih h)

theorem unixBreaks_cons {c : Char} {cs : List Char} (h : c = '\r' → cs.head? ≠ some '\n') :
    unixBreaks (c :: cs) = c :: unixBreaks cs := by
  rw [unixBreaks]
  rintro after rfl rfl
  exact h rfl rfl

/-- Two texts are written one after the other, unless a line break starts where they meet. -/
theorem unixBreaks_append {a b : List Char} (hb : b.head? ≠ some '\n') :
    unixBreaks (a ++ b) = unixBreaks a ++ unixBreaks b := by
  fun_induction unixBreaks a with
  | case1 => rfl
  | case2 rest ih => exact congrArg ('\n' :: ·) ih
  | case3 c rest hpair ih =>
      rw [List.cons_append, unixBreaks_cons, ih, List.cons_append]
      rintro rfl
      cases rest with
      | nil => exact hb
      | cons d rest =>
          intro hd
          obtain rfl : d = '\n' := Option.some.inj hd
          exact hpair rest rfl rfl

theorem unixBreaks_of_no_break {cs : List Char} (h : '\n' ∉ cs) : unixBreaks cs = cs := by
  induction cs with
  | nil => rfl
  | cons c cs ih =>
      rw [unixBreaks_cons, ih fun hm => h (List.mem_cons_of_mem c hm)]
      intro _ hhead
      exact h (List.mem_cons_of_mem c (List.mem_of_head? hhead))

/-- What stands in front of a line break loses characters at most. -/
theorem unixBreaks_break (x y : List Char) :
    ∃ x' ⊆ x, unixBreaks (x ++ '\n' :: y) = x' ++ '\n' :: unixBreaks y := by
  induction x with
  | nil => exact ⟨[], List.Subset.refl _, unixBreaks_cons (fun h => absurd h (by decide))⟩
  | cons c x ih =>
      obtain ⟨x', hx, htext⟩ := ih
      by_cases hpair : c = '\r' ∧ (x ++ '\n' :: y).head? = some '\n'
      · -- the carriage return belongs to the line break behind it
        obtain ⟨rfl, hhead⟩ := hpair
        obtain ⟨after, hafter⟩ := List.head?_eq_some_iff.mp hhead
        refine ⟨x', fun d hd => List.mem_cons_of_mem _ (hx hd), ?_⟩
        rw [← htext, List.cons_append, hafter, unixBreaks]
        exact (unixBreaks_cons fun h => absurd h (by decide)).symm
      · refine ⟨c :: x', List.cons_subset_cons c hx, ?_⟩
        rw [List.cons_append, unixBreaks_cons fun hc hhead => hpair ⟨hc, hhead⟩, htext]
        rfl

/-- A line loses a carriage return at its end, and nothing else. -/
theorem unixBreaks_line {l : List Char} (hl : '\n' ∉ l) (y : List Char) :
    ∃ l' blanks, l = l' ++ blanks ∧ (∀ c ∈ blanks, isInlineBlank c = true) ∧
      unixBreaks (l ++ '\n' :: y) = l' ++ '\n' :: unixBreaks y := by
  induction l with
  | nil =>
      exact ⟨[], [], rfl, fun c hc => absurd hc List.not_mem_nil,
        unixBreaks_cons (fun h => absurd h (by decide))⟩
  | cons c l ih =>
      obtain ⟨l', blanks, hsplit, hb, htext⟩ := ih fun hm => hl (List.mem_cons_of_mem c hm)
      by_cases hlast : c = '\r' ∧ l = []
      · obtain ⟨rfl, rfl⟩ := hlast
        exact ⟨[], ['\r'], rfl, List.forall_mem_singleton.mpr rfl, rfl⟩
      · refine ⟨c :: l', blanks, congrArg (c :: ·) hsplit, hb, ?_⟩
        rw [List.cons_append, unixBreaks_cons, htext]
        · rfl
        · rintro rfl hhead
          cases l with
          | nil => exact hlast ⟨rfl, rfl⟩
          | cons d l =>
              obtain rfl : d = '\n' := Option.some.inj hhead
              simp at hl

-- ── Filled texts are redrawn ─────────────────────────────────────────────────

/-- No line has both an at sign and an opening bracket on it. -/
def Apart (cs : List Char) : Prop := ∀ l, l <:+: cs → '\n' ∉ l → '@' ∈ l → '<' ∉ l

/-- It is enough to look at the first lines of what is left of the text at each of its places. -/
theorem apart_iff {cs : List Char} :
    Apart cs ↔ ∀ a ∈ cs.tails, '@' ∈ firstLine a → '<' ∉ firstLine a := by
  constructor
  · intro h a ha
    have hsuffix := (List.mem_tails a cs).mp ha
    have hline : firstLine a <+: a := List.takeWhile_prefix _
    exact h _ (hline.isInfix.trans hsuffix.isInfix) (break_not_mem_firstLine a)
  · rintro h l ⟨before, after, rfl⟩ hbreak hat hopen
    have hline := h (l ++ after) ((List.mem_tails _ _).mpr ⟨before, by simp⟩)
    rw [firstLine_append hbreak, List.mem_append, List.mem_append] at hline
    exact hline (.inl hat) (.inl hopen)

instance (cs : List Char) : Decidable (Apart cs) := decidable_of_iff _ apart_iff.symm

theorem Apart.part {a cs : List Char} (h : Apart cs) (ha : a <:+: cs) : Apart a :=
  fun l hl => h l (hl.trans ha)

/-- Without at signs in what is inserted there are none but those of the pieces. -/
theorem at_not_mem_filled {text : String → List Char} (htext : ∀ name, '@' ∉ text name)
    {ps : List (Piece Token)} (h : '@' ∉ tokenSource ps) : '@' ∉ filled text ps := by
  induction ps with
  | nil => exact List.not_mem_nil
  | cons p ps ih =>
      cases p with
      | char c =>
          rw [tokenSource_char, List.mem_cons, not_or] at h
          rw [filled_char, List.mem_cons, not_or]
          exact ⟨h.1, ih h.2⟩
      | item t =>
          rw [tokenSource_item, List.mem_append, not_or] at h
          by_cases hvar : ∀ name alternatives, t.marker ≠ .variable name alternatives
          · rw [filled_item text hvar, List.mem_append, not_or]
            exact ⟨h.1, ih h.2⟩
          · obtain ⟨name, hvar⟩ := Classical.not_forall.mp hvar
            obtain ⟨alternatives, hvar⟩ := Classical.not_forall.mp hvar
            have hword : filled text (.item t :: ps) = text name ++ filled text ps := by
              rw [filled, List.flatMap_cons, Piece.source_append, tokenWord,
                Classical.not_not.mp hvar]
              exact congrArg (· ++ _) (List.append_nil _)
            rw [hword, List.mem_append, not_or]
            exact ⟨htext name, ih h.2⟩

/-- A text in which no line has both an at sign and an opening bracket is redrawn if other texts are
    put in the places of its variables and its line breaks are written. -/
theorem redrawn_filled {text : String → List Char} (htext : ∀ name, '@' ∉ text name) {b d : Bool}
    {u behind : List Char} {before : List (Piece Token)} (hclosed : Closed behind)
    (hread : ReadsTo b u d behind before) (hapart : Apart u)
    (hlast : behind = [] ∨ ∀ l, l <:+ u → '\n' ∉ l → '<' ∉ l) :
    Redrawn behind u (unixBreaks (filled text before)) := by
  induction hn : u.length using Nat.strongRecOn generalizing b u before with
  | ind n ih =>
      by_cases hbreak : '\n' ∈ u
      · obtain ⟨l, u, rfl, hl⟩ := List.eq_append_cons_of_mem hbreak
        have hshort : u.length < n := by
          rw [← hn]
          simp
          omega
        have hsuffix : u <:+ l ++ '\n' :: u := ⟨l ++ ['\n'], by simp⟩
        have hlast' : behind = [] ∨ ∀ x, x <:+ u → '\n' ∉ x → '<' ∉ x :=
          hlast.imp_right fun h x hx => h x (hx.trans hsuffix)
        by_cases hat : '@' ∈ l
        · have hopen := hapart l (List.prefix_append l _).isInfix hl hat
          obtain ⟨marks, hline⟩ := exists_lineMarkers hclosed b l d
          have hnone : ∀ c ∈ ([] : List Char), isInlineBlank c = true := fun c hc =>
            absurd hc List.not_mem_nil
          obtain ⟨rest, hrest, -, hfilled⟩ := hline.past hnone hread
          have hredrawn := ih _ hshort hrest (hapart.part hsuffix.isInfix) hlast' rfl
          rw [hfilled hopen text, List.nil_append]
          obtain ⟨l', blanks, rfl, hb, hbreaks⟩ := unixBreaks_line hl (filled text rest)
          rw [hbreaks, List.append_assoc]
          exact .marked l' hb hnone hredrawn
        · obtain ⟨rest, rfl, hrest⟩ := (readsTo_unmarked hat).mp hread
          have hredrawn := ih _ hshort hrest (hapart.part hsuffix.isInfix) hlast' rfl
          obtain ⟨x, hx, hbreaks⟩ :=
            unixBreaks_break (filled text (unplacedFrom b l)) (filled text rest)
          rw [filled_append, filled_char, hbreaks]
          refine .unmarked hat (fun hm => ?_) hredrawn
          exact at_not_mem_filled htext (by rwa [tokenSource_unplacedFrom]) (hx hm)
      · -- the last line stays, or is the end of the text
        have hstays : '<' ∉ u → Redrawn behind u (unixBreaks (filled text before)) := by
          intro hopen
          have hsub : before ⊆ unplacedFrom b (u ++ behind) := by
            rw [hread.read]
            exact List.subset_append_left _ _
          have hno := filled_of_no_variables text fun t ht =>
            not_variable_of_no_open hsub (hread.source ▸ hopen) ht
          rw [hno, hread.source, unixBreaks_of_no_break hbreak]
          exact .same u
        obtain hnil | hopen := hlast
        · by_cases hat : '@' ∈ u
          · exact hstays (hapart u List.infix_rfl hbreak hat)
          · refine .last hnil hat fun hm => ?_
            exact at_not_mem_filled htext (by rwa [hread.source]) (mem_of_mem_unixBreaks hm)
        · exact hstays (hopen u List.suffix_rfl hbreak)

end ShaderTemplates.Template
