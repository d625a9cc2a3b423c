import ShaderTemplates.Template.Conversion
import ShaderTemplates.Template.Offsets.Region

/-!
# Conversion by offsets

A pass over a text copies what is between the directives by cutting it out of the text, and puts the
replacement of each directive in between (`splice`). It can fail in two ways (`Failure`): a directive
has no value, or the text is cut where it cannot be cut.
-/

namespace ShaderTemplates.Template.Offsets

open Text

/-- Why a pass fails. -/
inductive Failure where
  | outOfRange (e : OutOfRange)
  | unresolved (u : Unresolved)
deriving DecidableEq, Repr

/-- What is put in the place of a stretch of a text: another text, and the number of directives that
    were replaced for it. -/
structure Replacement where
  start : Nat
  stop : Nat
  text : Except Failure (List Char × Nat)

/-- The text from an offset on with its replacements, and how many directives were replaced. -/
def splice (cs : List Char) (pos : Nat) : List Replacement → Except Failure (List Char × Nat)
  | [] => do
    let rest ← (sliceFrom cs pos).mapError .outOfRange
    return (rest, 0)
  | r :: rs => do
    let before ← (slice cs pos r.start).mapError .outOfRange
    let text ← r.text
    let after ← splice cs r.stop rs
    return (before ++ (text.1 ++ after.1), text.2 + after.2)

-- ── Branches are shorter ─────────────────────────────────────────────────────

theorem slice_length_lt {cs text : List Char} {start stop : Nat} (hpos : 0 < start)
    (h : slice cs start stop = .ok text) : text.length < cs.length := by
  obtain ⟨after, ⟨before, rfl, rfl⟩, -⟩ := slice_eq_ok_iff.1 h
  cases before with
  | nil => exact absurd hpos (Nat.lt_irrefl 0)
  | cons c before =>
    simp only [List.length_append, List.length_cons]
    omega

theorem contentSlice_length_lt {cs : List Char} {start marker : Nat} {s : Slice} (hpos : 0 < start)
    (h : contentSlice cs start marker = .ok s) : s.text.length < cs.length := by
  obtain ⟨stop, _, h⟩ := bind_eq_ok.1 h
  obtain ⟨text, htext, h⟩ := bind_eq_ok.1 h
  cases h
  exact slice_length_lt hpos htext

theorem mem_of_tokenAt {ts : List Token} {index : Nat} {t : Token}
    (h : tokenAt ts index = .ok t) : t ∈ ts := by
  unfold tokenAt at h
  split at h
  next ht => cases h; exact List.mem_of_getElem? ht
  next => cases h

section

variable {cs : List Char} {ts : List Token}

theorem conditionalAt_branch_length_lt (hts : ∀ t ∈ ts, 0 < t.stop) {header : Token}
    (hheader : header ∈ ts) {name : String} {default? : Option Bool} {closing : ConditionalEnd}
    {c : Conditional} (h : conditionalAt cs ts header name default? closing = .ok c)
    (value : Bool) : (c.branch value).length < cs.length := by
  have hstart := hts header hheader
  obtain ⟨stop, _, h⟩ := bind_eq_ok.1 h
  split at h
  · obtain ⟨otherwise, hotherwise, h⟩ := bind_eq_ok.1 h
    obtain ⟨whenTrue, htrue, h⟩ := bind_eq_ok.1 h
    obtain ⟨whenFalse, hfalse, h⟩ := bind_eq_ok.1 h
    cases h
    cases value with
    | true => exact contentSlice_length_lt hstart htrue
    | false => exact contentSlice_length_lt (hts _ (mem_of_tokenAt hotherwise)) hfalse
  · obtain ⟨whenTrue, htrue, h⟩ := bind_eq_ok.1 h
    cases h
    have hlt := contentSlice_length_lt hstart htrue
    cases value with
    | true => exact hlt
    | false => exact Nat.lt_of_le_of_lt (Nat.zero_le _) hlt

theorem conditionalsFrom_branch_length_lt (hts : ∀ t ∈ ts, 0 < t.stop) {index : Nat}
    {found : List Conditional} (h : conditionalsFrom cs ts index = .ok found) {c : Conditional}
    (hc : c ∈ found) (value : Bool) : (c.branch value).length < cs.length := by
  fun_induction conditionalsFrom cs ts index generalizing found with
  | case1 index hlt name default? hm closing hclosing ih =>
    obtain ⟨c', hc', h⟩ := bind_eq_ok.1 h
    obtain ⟨rest, hrest, h⟩ := bind_eq_ok.1 h
    cases h
    rcases List.mem_cons.1 hc with rfl | hc
    · exact conditionalAt_branch_length_lt hts (List.getElem_mem _) hc' value
    · exact ih hrest hc
  | case2 => rename_i ih; exact ih h hc
  | case3 => rename_i ih; exact ih h hc
  | case4 => cases h; cases hc

/-- A branch is shorter than the text out of which it was cut. -/
theorem branch_length_lt {found : List Conditional} (h : conditionals cs = .ok found)
    {c : Conditional} (hc : c ∈ found) (value : Bool) : (c.branch value).length < cs.length := by
  obtain ⟨ts, hts, h⟩ := bind_eq_ok.1 h
  obtain ⟨r, hr, rfl⟩ := map_eq_ok.1 hts
  exact conditionalsFrom_branch_length_lt (fun t ht => Stream.stop_pos_of_mem_drain hr ht) h hc value

end

-- ── The passes ───────────────────────────────────────────────────────────────

/-- Replaces every conditional by its chosen branch, in which conditionals are replaced first. -/
def resolveConditionals (conditions : Table Bool) (cs : List Char) :
    Except Failure (List Char × Nat) :=
  match _h : conditionals cs with
  | .error e => .error (.outOfRange e)
  | .ok found =>
    splice cs 0 (found.attach.map fun c => {
      start := c.1.start
      stop := c.1.stop
      text := do
        let value ←
          (lookUp conditions .condition c.1.name c.1.line).mapError .unresolved
        let branch ← resolveConditionals conditions (c.1.branch value)
        return (branch.1, branch.2 + 1) })
termination_by cs.length
decreasing_by exact branch_length_lt _h c.2 value

/-- Replaces every block by its canonical form around the given body. -/
def fillBlocks (bodies : Table String) (cs : List Char) : Except Failure (List Char × Nat) := do
  let found ← (blocks cs).mapError .outOfRange
  splice cs 0 (found.map fun b => {
    start := b.start
    stop := b.stop
    text := (lookUp bodies .block b.name b.line).mapError .unresolved |>.map fun body =>
      (Block.canonical b.name.toList body.toList, 1) })

/-- The replacement of a token, if it is a variable. -/
def variableReplacement? (values : Table String) (t : Token) : Option Replacement :=
  match t.marker with
  | .variable name _ => some {
      start := t.start
      stop := t.stop
      text := (lookUp values .variable name t.line).mapError .unresolved |>.map fun value =>
        (value.toList, 1) }
  | _ => none

/-- Replaces every variable by its value. -/
def fillVariables (values : Table String) (cs : List Char) : Except Failure (List Char × Nat) := do
  let found ← (tokens cs).mapError .outOfRange
  splice cs 0 (found.filterMap (variableReplacement? values))

/-- Converts a template with the given values. -/
def convert (template : String) (values : Values) : Except Failure Conversion := do
  let structured ← resolveConditionals values.conditions template.toList
  let withBlocks ← fillBlocks values.blocks structured.1
  let filled ← fillVariables values.vars withBlocks.1
  return {
    text := String.ofList (unixBreaks filled.1)
    stats := ⟨structured.2, withBlocks.2, filled.2⟩ }

-- ── The inventory ────────────────────────────────────────────────────────────

/-- The conditions of a text with their defaults, the ones inside branches included. -/
def conditionsOf (cs : List Char) : Except OutOfRange (List (String × Bool)) :=
  match _h : conditionals cs with
  | .error e => .error e
  | .ok found => do
    let parts ← found.attach.mapM fun (c : { c // c ∈ found }) => do
      let inTrue ← conditionsOf (c.1.branch true)
      let inFalse ← conditionsOf (c.1.branch false)
      return (c.1.name, c.1.default?.getD false) :: (inTrue ++ inFalse)
    return parts.flatten
termination_by cs.length
decreasing_by
  · exact branch_length_lt _h c.2 true
  · exact branch_length_lt _h c.2 false

/-- The name and the alternatives of a token that is a variable. -/
def variableOf? (t : Token) : Option (String × List String) :=
  match t.marker with
  | .variable name alternatives => some (name, alternatives)
  | _ => none

/-- Lists the directives of a template. -/
def scan (template : String) : Except OutOfRange Inventory := do
  let conditions ← conditionsOf template.toList
  let blocks ← blocks template.toList
  let tokens ← tokens template.toList
  return {
    conditions := .ofListFirst conditions
    blocks := .ofListLast (blocks.map fun b => (b.name, String.ofList b.body.text))
    vars := .ofListFirst (tokens.filterMap variableOf?) }

end ShaderTemplates.Template.Offsets
