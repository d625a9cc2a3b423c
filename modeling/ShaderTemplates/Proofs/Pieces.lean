import ShaderTemplates.Proofs.Computations
import ShaderTemplates.Proofs.Directives
import ShaderTemplates.Template.Conversion

/-!
# Replacing the items of a text

A pass asks a table for one value after another, and the first name without a value ends it.  What
matters about the failure is which name of which kind was asked for (`Unresolved.demanded`); the
line is left out here.

* `substitute_append`: a text is replaced part by part;
* `substitute_mapError`, `substitute_map`: what is known about an item beyond its name, and about
  a failure beyond what was asked for, does not matter to the replacement.

Values cover an inventory if every name it lists has one (`Values.Covers`).  What a text asks for
is then answered, be it a condition of its outline, a block or a variable.
-/

namespace ShaderTemplates.Template

-- ── Demands ──────────────────────────────────────────────────────────────────

/-- What a pass asked for in vain. -/
def Unresolved.demanded (u : Unresolved) : Kind × String := (u.kind, u.name)

/-- The value stored for a name, or the name as asked for in vain. -/
def demand {α : Type} (table : Table α) (kind : Kind) (name : String) : Except (Kind × String) α :=
  match table.get? name with
  | some value => .ok value
  | none => .error (kind, name)

theorem lookUp_demanded {α : Type} (table : Table α) (kind : Kind) (name : String) (line : Nat) :
    (lookUp table kind name line).mapError Unresolved.demanded = demand table kind name := by
  rw [lookUp, demand]
  cases table.get? name with
  | none => rfl
  | some value => rfl

-- ── Pieces ───────────────────────────────────────────────────────────────────

namespace Piece

variable {α β ε ε' : Type}

/-- Renames the item of a piece. -/
def map (f : α → β) : Piece α → Piece β
  | .char c => .char c
  | .item a => .item (f a)

@[simp] theorem map_plain (f : α → β) (cs : List Char) :
    (plain cs).map (map f) = (plain cs : List (Piece β)) := by
  induction cs with
  | nil => rfl
  | cons c cs ih => exact congrArg (.char c :: ·) ih

@[simp] theorem items_map (f : α → β) (ps : List (Piece α)) :
    items (ps.map (map f)) = (items ps).map f := by
  induction ps with
  | nil => rfl
  | cons p ps ih =>
      cases p with
      | char c => exact ih
      | item a => exact congrArg (f a :: ·) ih

theorem item_of_mem_items {ps : List (Piece α)} {a : α} (h : a ∈ items ps) : .item a ∈ ps := by
  obtain ⟨p, hp, ha⟩ := List.mem_filterMap.mp h
  cases p with
  | char c => cases ha
  | item b =>
      cases ha
      exact hp

/-- The text of renamed items is that of their new names. -/
theorem source_map (text : β → List Char) (f : α → β) (ps : List (Piece α)) :
    source text (ps.map (map f)) = source (fun a => text (f a)) ps := by
  induction ps with
  | nil => rfl
  | cons p ps ih =>
      cases p with
      | char c => exact congrArg (c :: ·) ih
      | item a => exact congrArg (text (f a) ++ ·) ih

/-- The text depends on that of the items only. -/
theorem source_congr {text text' : α → List Char} {ps : List (Piece α)}
    (h : ∀ a ∈ items ps, text a = text' a) : source text ps = source text' ps := by
  induction ps with
  | nil => rfl
  | cons p ps ih =>
      cases p with
      | char c => exact congrArg (c :: ·) (ih h)
      | item a =>
          rw [source_item, source_item, h a List.mem_cons_self,
            ih fun x hx => h x (List.mem_cons_of_mem _ hx)]

theorem plain_append (a b : List Char) : (plain (a ++ b) : List (Piece α)) = plain a ++ plain b :=
  List.map_append

-- ── Substitution ─────────────────────────────────────────────────────────────

/-- A text is replaced part by part. -/
theorem substitute_append (replace : α → Except ε (List Char)) (ps qs : List (Piece α)) :
    substitute replace (ps ++ qs) = do
      let before ← substitute replace ps
      let after ← substitute replace qs
      return before ++ after := by
  induction ps with
  | nil =>
      show substitute replace qs = (substitute replace qs).bind fun after => .ok ([] ++ after)
      cases substitute replace qs with
      | error e => rfl
      | ok after => rfl
  | cons p ps ih =>
      cases p with
      | char c =>
          show (substitute replace (ps ++ qs)).map (c :: ·) = _
          rw [ih, substitute]
          cases substitute replace ps with
          | error e => rfl
          | ok before =>
              cases substitute replace qs with
              | error e => rfl
              | ok after => rfl
      | item a =>
          show (replace a >>= fun text => substitute replace (ps ++ qs) >>= fun after =>
            pure (text ++ after)) = _
          rw [ih, substitute]
          cases replace a with
          | error e => rfl
          | ok text =>
              cases substitute replace ps with
              | error e => rfl
              | ok before =>
                  cases substitute replace qs with
                  | error e => rfl
                  | ok after => exact congrArg Except.ok (List.append_assoc text before after).symm

@[simp] theorem substitute_plain (replace : α → Except ε (List Char)) (cs : List Char) :
    substitute replace (plain cs) = .ok cs := by
  induction cs with
  | nil => rfl
  | cons c cs ih =>
      show (substitute replace (plain cs)).map (c :: ·) = _
      rw [ih]
      rfl

theorem substitute_mapError (replace : α → Except ε (List Char)) (f : ε → ε')
    (ps : List (Piece α)) :
    (substitute replace ps).mapError f = substitute (fun a => (replace a).mapError f) ps := by
  induction ps with
  | nil => rfl
  | cons p ps ih =>
      cases p with
      | char c =>
          rw [substitute, substitute, mapError_map, ih]
      | item a =>
          rw [substitute, substitute, mapError_bind]
          congr 1
          funext text
          rw [mapError_bind, ih]
          rfl

theorem substitute_map (replace : β → Except ε (List Char)) (f : α → β) (ps : List (Piece α)) :
    substitute replace (ps.map (map f)) = substitute (fun a => replace (f a)) ps := by
  induction ps with
  | nil => rfl
  | cons p ps ih =>
      cases p with
      | char c => exact congrArg (Except.map (c :: ·)) ih
      | item a =>
          show (replace (f a) >>= fun text => _) = (replace (f a) >>= fun text => _)
          rw [ih]

end Piece

-- ── Values for everything that is asked for ──────────────────────────────────

/-- Every name that an inventory lists has a value. -/
structure Values.Covers (v : Values) (i : Inventory) : Prop where
  conditions : ∀ name ∈ i.conditions.names, (v.conditions.get? name).isSome
  blocks : ∀ name ∈ i.blocks.names, (v.blocks.get? name).isSome
  vars : ∀ name ∈ i.vars.names, (v.vars.get? name).isSome

namespace Values.Covers

variable {v : Values} {i : Inventory}

theorem condition {pairs : List (String × Bool)} (h : v.Covers i)
    (hi : i.conditions = .ofListFirst pairs) :
    ∀ e ∈ pairs, (v.conditions.get? e.1).isSome := by
  intro e he
  refine h.conditions e.1 ?_
  rw [hi, Directives.names_ofListFirst, List.mem_eraseDups]
  exact List.mem_map_of_mem he

theorem block {pairs : List (String × String)} (h : v.Covers i)
    (hi : i.blocks = .ofListLast pairs) :
    ∀ e ∈ pairs, (v.blocks.get? e.1).isSome := by
  intro e he
  refine h.blocks e.1 ?_
  rw [hi, Directives.names_ofListLast, List.mem_eraseDups]
  exact List.mem_map_of_mem he

theorem var {pairs : List (String × List String)} (h : v.Covers i)
    (hi : i.vars = .ofListFirst pairs) :
    ∀ e ∈ pairs, (v.vars.get? e.1).isSome := by
  intro e he
  refine h.vars e.1 ?_
  rw [hi, Directives.names_ofListFirst, List.mem_eraseDups]
  exact List.mem_map_of_mem he

end Values.Covers

theorem demand_of_isSome {α : Type} {table : Table α} {name : String}
    (h : (table.get? name).isSome) (kind : Kind) :
    ∃ value, table.get? name = some value ∧ demand table kind name = .ok value := by
  obtain ⟨value, hv⟩ := Option.isSome_iff_exists.mp h
  exact ⟨value, hv, by rw [demand, hv]⟩

end ShaderTemplates.Template
