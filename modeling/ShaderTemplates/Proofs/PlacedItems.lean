import Mathlib.Data.List.Forall2
import ShaderTemplates.Proofs.Pieces
import ShaderTemplates.Template.Offsets.Conversion

/-!
# Items where they stand

A pass over the offsets of a text finds items, and a pass over its characters finds pieces.
`Placed` says that the two found the same: the items come in the order of the pieces, and each
stands at the offset at which the text of the pieces in front of it ends.

What holds of all kinds of items follows from this alone. They stand one behind the other
(`Placed.pairwise`), each at the end of a text that the pieces in front of it make up
(`Placed.split`), and putting other texts in their places is replacing the items of the pieces
(`Placed.splice_eq`).
-/

namespace ShaderTemplates.Template.Offsets

variable {α β γ ε : Type}

/-- The items that were found are those of a text that starts at an offset, given the text of each
    item and what it means to find an item at an offset. -/
inductive Placed (text : α → List Char) (Finds : Nat → α → β → Prop) :
    Nat → List (Piece α) → List β → Prop where
  | nil (n : Nat) : Placed text Finds n [] []
  | char {n : Nat} {c : Char} {ps : List (Piece α)} {found : List β}
      (rest : Placed text Finds (n + c.utf8Size) ps found) : Placed text Finds n (.char c :: ps) found
  | item {n : Nat} {a : α} {b : β} {ps : List (Piece α)} {found : List β} (first : Finds n a b)
      (rest : Placed text Finds (n + byteLength (text a)) ps found) :
      Placed text Finds n (.item a :: ps) (b :: found)

namespace Placed

variable {text : α → List Char} {Finds : Nat → α → β → Prop} {n : Nat} {ps : List (Piece α)}
  {found : List β}

theorem plain_append {cs : List Char} (h : Placed text Finds (n + byteLength cs) ps found) :
    Placed text Finds n (Piece.plain cs ++ ps) found := by
  induction cs generalizing n with
  | nil => exact h
  | cons c cs ih =>
      refine .char (ih ?_)
      rw [Nat.add_assoc]
      exact h

/-- What becomes of the items that were found is found, too. -/
theorem map {Finds' : Nat → α → γ → Prop} {f : β → γ} (h : Placed text Finds n ps found)
    (hf : ∀ m a b, a ∈ Piece.items ps → Finds m a b → Finds' m a (f b)) :
    Placed text Finds' n ps (found.map f) := by
  induction h with
  | nil n => exact .nil n
  | char rest ih => exact .char (ih hf)
  | item first rest ih =>
      exact .item (hf _ _ _ List.mem_cons_self first)
        (ih fun m a b ha => hf m a b (List.mem_cons_of_mem _ ha))

theorem map_eq {f : β → γ} {g : α → γ} (h : Placed text Finds n ps found)
    (hf : ∀ m a b, a ∈ Piece.items ps → Finds m a b → f b = g a) :
    found.map f = (Piece.items ps).map g := by
  induction h with
  | nil n => rfl
  | char rest ih => exact ih hf
  | item first rest ih =>
      rw [List.map_cons, hf _ _ _ List.mem_cons_self first,
        ih fun m a b ha => hf m a b (List.mem_cons_of_mem _ ha)]
      rfl

/-- An item is found where the text in front of it ends. -/
theorem split (h : Placed text Finds n ps found) {b : β} (hb : b ∈ found) :
    ∃ before a after, ps = before ++ .item a :: after ∧
      Finds (n + byteLength (Piece.source text before)) a b := by
  induction h with
  | nil n => exact absurd hb List.not_mem_nil
  | @char n c ps found rest ih =>
      obtain ⟨before, a, after, rfl, hfinds⟩ := ih hb
      refine ⟨.char c :: before, a, after, rfl, ?_⟩
      rw [Piece.source_char, byteLength, ← Nat.add_assoc]
      exact hfinds
  | @item n a b' ps found first rest ih =>
      rcases List.mem_cons.mp hb with rfl | hb
      · exact ⟨[], a, ps, rfl, first⟩
      · obtain ⟨before, a', after, rfl, hfinds⟩ := ih hb
        refine ⟨.item a :: before, a', after, rfl, ?_⟩
        rw [Piece.source_item, byteLength_append, ← Nat.add_assoc]
        exact hfinds

/-- Every item of the pieces is found where the text in front of it ends. -/
theorem find {before after : List (Piece α)} {a : α}
    (h : Placed text Finds n (before ++ .item a :: after) found) :
    ∃ b ∈ found, Finds (n + byteLength (Piece.source text before)) a b := by
  induction before generalizing n found with
  | nil =>
      cases h with
      | item first rest => exact ⟨_, List.mem_cons_self, first⟩
  | cons p before ih =>
      cases h with
      | char rest =>
          obtain ⟨b, hb, hfinds⟩ := ih rest
          rw [Nat.add_assoc] at hfinds
          exact ⟨b, hb, hfinds⟩
      | item first rest =>
          obtain ⟨b, hb, hfinds⟩ := ih rest
          rw [Nat.add_assoc, ← byteLength_append] at hfinds
          exact ⟨b, List.mem_cons_of_mem _ hb, hfinds⟩

/-- Items stand one behind the other. -/
theorem pairwise {start stop : β → Nat} (h : Placed text Finds n ps found)
    (hplace : ∀ m a b, Finds m a b → start b = m ∧ stop b = m + byteLength (text a)) :
    found.Pairwise fun b b' => stop b ≤ start b' := by
  induction h with
  | nil n => exact .nil
  | char rest ih => exact ih
  | item first rest ih =>
      refine .cons (fun b' hb' => ?_) ih
      obtain ⟨before, a', after, -, hfinds⟩ := rest.split hb'
      rw [(hplace _ _ _ first).2, (hplace _ _ _ hfinds).1]
      exact Nat.le_add_right _ _

/-- The items that were found and those of the pieces belong together one by one, and each item that
    was found can be cut out of the text. -/
theorem forall₂ {R : α → β → Prop} {cs : List Char} (h : Placed text Finds n ps found)
    (hat : At cs n (Piece.source text ps))
    (hR : ∀ m a b, Finds m a b → slice cs m (m + byteLength (text a)) = .ok (text a) → R a b) :
    List.Forall₂ R (Piece.items ps) found := by
  induction h with
  | nil n => exact .nil
  | char rest ih => exact ih hat.skip_char
  | item first rest ih => exact .cons (hR _ _ _ first (At.slice_eq hat)) (ih (At.skip hat))

end Placed

-- ── Replacing ────────────────────────────────────────────────────────────────

/-- Replaces every item, and adds up what the replacements count. -/
def replaceItems (replace : α → Except ε (List Char × Nat)) :
    List (Piece α) → Except ε (List Char × Nat)
  | [] => .ok ([], 0)
  | .char c :: rest => (replaceItems replace rest).map fun after => (c :: after.1, after.2)
  | .item a :: rest => do
    let text ← replace a
    let after ← replaceItems replace rest
    return (text.1 ++ after.1, text.2 + after.2)

/-- If each replacement counts as one, the items are counted. -/
theorem replaceItems_one (replace : α → Except ε (List Char)) (ps : List (Piece α)) :
    replaceItems (fun a => (replace a).map fun text => (text, 1)) ps =
      (Piece.substitute replace ps).map fun text => (text, (Piece.items ps).length) := by
  induction ps with
  | nil => rfl
  | cons p ps ih =>
      cases p with
      | char c =>
          rw [replaceItems, ih, Piece.substitute]
          cases Piece.substitute replace ps <;> rfl
      | item a =>
          rw [replaceItems, ih, Piece.substitute]
          cases replace a with
          | error e => rfl
          | ok text =>
              cases Piece.substitute replace ps with
              | error e => rfl
              | ok after =>
                  show Except.ok (text ++ after, 1 + (Piece.items ps).length) = _
                  rw [Nat.add_comm]
                  rfl

/-- The replacement of an item that stands at an offset. -/
def Replaces (text : α → List Char) (replace : α → Except Unresolved (List Char × Nat)) (n : Nat)
    (a : α) (r : Replacement) : Prop :=
  r = ⟨n, n + byteLength (text a), (replace a).mapError .unresolved⟩

/-- Putting texts in the places of items is replacing the items, and what it cuts out of the text
    can be cut out. Here `gap` is what stands between the last replacement and the pieces. -/
theorem Placed.splice_eq {text : α → List Char} {replace : α → Except Unresolved (List Char × Nat)}
    {cs gap : List Char} {n m : Nat} {ps : List (Piece α)} {rs : List Replacement}
    (h : Placed text (Replaces text replace) m ps rs)
    (hat : At cs n (gap ++ Piece.source text ps)) (hm : m = n + byteLength gap) :
    splice cs n rs =
      ((replaceItems replace ps).mapError .unresolved).map fun r => (gap ++ r.1, r.2) := by
  induction h generalizing n gap with
  | nil m =>
      rw [splice, hat.sliceFrom_eq]
      rfl
  | @char m c ps rs rest ih =>
      have hat' : At cs n ((gap ++ [c]) ++ Piece.source text ps) := by simpa using hat
      have hm' : m + c.utf8Size = n + byteLength (gap ++ [c]) := by
        rw [hm, byteLength_append, Nat.add_assoc]
        rfl
      rw [ih hat' hm', replaceItems]
      cases replaceItems replace ps with
      | error u => rfl
      | ok after => simp [Except.map, Except.mapError]
  | @item m a r ps rs first rest ih =>
      have hstart : r.start = n + byteLength gap := by rw [first, hm]
      have hstop : r.stop = m + byteLength (text a) := by rw [first]
      have htext : r.text = (replace a).mapError .unresolved := by rw [first]
      have hafter : At cs r.stop (Piece.source text ps) := by
        rw [hstop, hm]
        exact At.skip (At.skip hat)
      rw [splice, hstart, hat.slice_eq, htext, replaceItems,
        ih hafter (by rw [hstop, byteLength, Nat.add_zero])]
      cases replace a with
      | error u => rfl
      | ok own =>
          cases replaceItems replace ps with
          | error u => rfl
          | ok after => rfl

end ShaderTemplates.Template.Offsets
