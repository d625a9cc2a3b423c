import ShaderTemplates.Directives
import ShaderTemplates.SortedMap

/-!
# Directive maps as lists

Whichever value of a name counts, the names of a directive map are those that were inserted, each at
its first place (`names_ofListFirst`, `names_ofListLast`).  Where the last value counts, it is the
one that is looked up (`get?_ofListLast`).
-/

namespace ShaderTemplates.Directives

variable {α : Type}

/-- One more element at the end counts if it is new. -/
theorem eraseDups_concat (l : List String) (name : String) :
    (l ++ [name]).eraseDups = if name ∈ l then l.eraseDups else l.eraseDups ++ [name] := by
  rw [List.eraseDups_append]
  by_cases h : name ∈ l
  · rw [if_pos h]
    simp [List.removeAll, h]
  · rw [if_neg h]
    simp [List.removeAll, h, List.eraseDups_cons]

theorem names_insertFirst (d : Directives α) (name : String) (value : α) :
    (d.insertFirst name value).names =
      if name ∈ d.names then d.names else d.names ++ [name] := by
  rw [insertFirst]
  by_cases h : name ∈ d.names
  · rw [if_pos h, dif_pos ((contains_iff d name).mpr h)]
  · rw [if_neg h, dif_neg fun hc => h ((contains_iff d name).mp hc)]
    simp [names]

theorem names_insertLast (d : Directives α) (name : String) (value : α) :
    (d.insertLast name value).names =
      if name ∈ d.names then d.names else d.names ++ [name] :=
  map_fst_replaceOrAppend name value d.entries

/-- The names after a run of insertions, given how one insertion changes them. -/
theorem names_foldl {β : Type} {insert : Directives α → β → Directives α} {nameOf : β → String}
    (hinsert : ∀ d b, (insert d b).names =
      if nameOf b ∈ d.names then d.names else d.names ++ [nameOf b])
    (bs : List β) (d : Directives α) (seen : List String) (hd : d.names = seen.eraseDups) :
    (bs.foldl insert d).names = (seen ++ bs.map nameOf).eraseDups := by
  induction bs generalizing d seen with
  | nil => rw [List.foldl_nil, List.map_nil, List.append_nil, hd]
  | cons b bs ih =>
      have hstep : (insert d b).names = (seen ++ [nameOf b]).eraseDups := by
        rw [hinsert, eraseDups_concat, hd]
        simp only [List.mem_eraseDups]
      rw [List.foldl_cons, ih _ (seen ++ [nameOf b]) hstep]
      simp

/-- The names are those that were inserted, each at its first place. -/
theorem names_ofListFirst (pairs : List (String × α)) :
    (ofListFirst pairs).names = (pairs.map (·.1)).eraseDups :=
  names_foldl (fun d e => names_insertFirst d e.1 e.2) pairs ∅ [] rfl

theorem names_ofListLast (pairs : List (String × α)) :
    (ofListLast pairs).names = (pairs.map (·.1)).eraseDups :=
  names_foldl (fun d e => names_insertLast d e.1 e.2) pairs ∅ [] rfl

/-- Nothing is there only if nothing was inserted. -/
theorem eq_nil_of_isEmpty {β : Type} {d : Directives α} {pairs : List (String × β)}
    (hnames : d.names = (pairs.map (·.1)).eraseDups) (h : d.isEmpty = true) : pairs = [] := by
  refine List.eq_nil_iff_forall_not_mem.mpr fun e he => ?_
  have hmem : e.1 ∈ d.names := by
    rw [hnames, List.mem_eraseDups]
    exact List.mem_map_of_mem he
  rw [names, List.isEmpty_iff.mp h] at hmem
  exact absurd hmem List.not_mem_nil

theorem lookup_replaceOrAppend (name : String) (value : α) (l : List (String × α)) (k : String) :
    (replaceOrAppend name value l).lookup k = if k = name then some value else l.lookup k := by
  induction l with
  | nil => exact lookup_entry_cons k (name, value) []
  | cons e l ih =>
      rw [replaceOrAppend]
      by_cases he : e.1 = name
      · rw [if_pos he, lookup_entry_cons, lookup_entry_cons, he]
        by_cases hk : k = name
        · rw [if_pos hk, if_pos hk]
        · rw [if_neg hk, if_neg hk, if_neg hk]
      · rw [if_neg he, lookup_entry_cons, ih, lookup_entry_cons]
        by_cases hk : k = e.1
        · rw [if_pos hk, if_neg (hk ▸ he), if_pos hk]
        · rw [if_neg hk, if_neg hk]

/-- The value of a name is that of the last pair with the name. -/
theorem get?_ofListLast (pairs : List (String × α)) (name : String) :
    (ofListLast pairs).get? name = pairs.reverse.lookup name := by
  have key : ∀ (pairs : List (String × α)) (d : Directives α),
      (pairs.foldl (fun d e => d.insertLast e.1 e.2) d).get? name =
        (pairs.reverse.lookup name).or (d.get? name) := by
    intro pairs
    induction pairs with
    | nil => exact fun d => (Option.none_or).symm
    | cons e pairs ih =>
        intro d
        have hstep : (d.insertLast e.1 e.2).get? name =
            if name = e.1 then some e.2 else d.get? name :=
          lookup_replaceOrAppend e.1 e.2 d.entries name
        rw [List.foldl_cons, ih, hstep, List.reverse_cons, List.lookup_append, lookup_entry_cons,
          Option.or_assoc]
        by_cases h : name = e.1
        · rw [if_pos h, if_pos h, Option.some_or]
        · rw [if_neg h, if_neg h, List.lookup_nil, Option.none_or]
  exact (key pairs ∅).trans Option.or_none

theorem mem_replaceOrAppend {name : String} {value : α} {e : String × α} {l : List (String × α)}
    (h : e ∈ replaceOrAppend name value l) : e = (name, value) ∨ e ∈ l := by
  induction l with
  | nil => exact .inl (List.mem_singleton.mp h)
  | cons x l ih =>
      rw [replaceOrAppend] at h
      split at h
      · rcases List.mem_cons.mp h with h | h
        · exact .inl h
        · exact .inr (List.mem_cons_of_mem _ h)
      · rcases List.mem_cons.mp h with h | h
        · exact .inr (h ▸ List.mem_cons_self)
        · exact (ih h).imp id (List.mem_cons_of_mem _)

/-- Every entry is one that was inserted. -/
theorem mem_ofListLast {pairs : List (String × α)} {e : String × α}
    (h : e ∈ (ofListLast pairs).entries) : e ∈ pairs := by
  have key : ∀ (pairs : List (String × α)) (d : Directives α),
      e ∈ (pairs.foldl (fun d e => d.insertLast e.1 e.2) d).entries →
        e ∈ pairs ∨ e ∈ d.entries := by
    intro pairs
    induction pairs with
    | nil => intro d h; exact .inr h
    | cons x pairs ih =>
        intro d h
        obtain h | h := ih _ h
        · exact .inl (List.mem_cons_of_mem _ h)
        · obtain h | h := mem_replaceOrAppend h
          · exact .inl (h ▸ List.mem_cons_self)
          · exact .inr h
  exact (key pairs ∅ h).resolve_right List.not_mem_nil

theorem replaceOrAppend_map {β : Type} (f : α → β) (name : String) (value : α)
    (l : List (String × α)) :
    replaceOrAppend name (f value) (l.map fun e => (e.1, f e.2)) =
      (replaceOrAppend name value l).map fun e => (e.1, f e.2) := by
  induction l with
  | nil => rfl
  | cons e l ih =>
      rw [List.map_cons, replaceOrAppend, replaceOrAppend]
      by_cases hname : e.1 = name
      · rw [if_pos hname, if_pos hname]
        rfl
      · rw [if_neg hname, if_neg hname, ih]
        rfl

/-- Values that are changed one by one keep their names and their order. -/
theorem entries_ofListLast_map {β : Type} (f : α → β) (pairs : List (String × α)) :
    (ofListLast (pairs.map fun e => (e.1, f e.2))).entries =
      (ofListLast pairs).entries.map fun e => (e.1, f e.2) := by
  have key : ∀ (pairs : List (String × α)) (d : Directives α) (d' : Directives β),
      d'.entries = d.entries.map (fun e => (e.1, f e.2)) →
        ((pairs.map fun e => (e.1, f e.2)).foldl (fun d e => d.insertLast e.1 e.2) d').entries =
          (pairs.foldl (fun d e => d.insertLast e.1 e.2) d).entries.map fun e => (e.1, f e.2) := by
    intro pairs
    induction pairs with
    | nil => intro d d' h; exact h
    | cons x pairs ih =>
        intro d d' h
        refine ih (d.insertLast x.1 x.2) (d'.insertLast x.1 (f x.2)) ?_
        show replaceOrAppend x.1 (f x.2) d'.entries = _
        rw [h, replaceOrAppend_map]
        rfl
  exact key pairs ∅ ∅ rfl

end ShaderTemplates.Directives
