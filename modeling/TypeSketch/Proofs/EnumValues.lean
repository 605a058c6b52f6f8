import TypeSketch.Proofs.ValuesAt

/-!
# The values of enums

An enum belongs to a route of a document, or to a place of a catalog. It gets its values bit by bit:
each array of strings that is met adds those that the enum does not hold yet. In the end it holds
what all these arrays say together, every text where it was first seen.

**The document** (`Json.textsAt`). The texts in the arrays of nothing but strings at a route, array
after array. An array that holds anything else as well does not count.

**Operations** (`Operation`). A catalog is filled by four operations in any order. Properties may be
set under any name here, also under one that no interface has. A walk is a row of such operations
(`exists_operations_typeOf`).

**The invariant** (`Tallied`). After some operations the enum of a place holds the values that were
given for that place. The enums have different names, and a fresh name is none of them, so values
for one place never get into the enum of another.

**Theorem** (`enum_values`). The values of an enum, for a walk and for any row of operations.
-/

namespace TypeSketch

open Catalog

/-! ## Where an element first stands -/

namespace Distinct

variable {α : Type*} [DecidableEq α] [BEq α] [LawfulBEq α]

/-- Adding the elements one by one keeps the first occurrence of each. -/
theorem ofList_eq_eraseDups (xs : List α) : ofList id xs = xs.eraseDups := by
  induction xs using List.reverseRecOn with
  | nil => rfl
  | append_singleton xs x ih =>
    have hadd : ofList id (xs ++ [x]) = add id (ofList id xs) x := addAll_append [] xs [x]
    rw [hadd, ih, List.eraseDups_append, add, List.map_id]
    by_cases hx : x ∈ xs
    · simp [List.removeAll, hx]
    · simp [List.removeAll, List.eraseDups_cons, hx]

theorem nodup_eraseDups (xs : List α) : xs.eraseDups.Nodup := by
  have hnodup : ((ofList id xs).map id).Nodup := nodup_map_addAll List.nodup_nil
  rwa [List.map_id, ofList_eq_eraseDups] at hnodup

end Distinct

/-! ## What a document says -/

namespace Json

def text? : Json → Option Text
  | .string s => some s
  | _ => none

def texts : Json → List Text
  | .array items => items.filterMap text?
  | _ => []

/-- The texts in the arrays of nothing but strings at a route, in the order of the document. -/
def textsAt (route : Route) (v : Json) : List Text :=
  ((v.valuesAt route).filter isStringArray).flatMap texts

theorem mem_texts {items : List Json} {s : Text} :
    s ∈ texts (.array items) ↔ .string s ∈ items := by
  rw [texts, List.mem_filterMap]
  constructor
  · rintro ⟨item, hitem, hs⟩
    cases item with
    | string => cases hs; exact hitem
    | null | bool | number | array | object | other => cases hs
  · intro hs
    exact ⟨_, hs, rfl⟩

theorem mem_textsAt {route : Route} {v : Json} {s : Text} :
    s ∈ v.textsAt route ↔
      ∃ items, .array items ∈ v.valuesAt route ∧ items.all isString = true ∧
        .string s ∈ items := by
  rw [textsAt, List.mem_flatMap]
  constructor
  · rintro ⟨u, hu, hs⟩
    obtain ⟨hat, hstrings⟩ := List.mem_filter.1 hu
    cases u with
    | array items =>
      rw [isStringArray, Bool.and_eq_true] at hstrings
      exact ⟨items, hat, hstrings.2, mem_texts.1 hs⟩
    | null | bool | number | string | object | other => cases hstrings
  · rintro ⟨items, hat, hall, hs⟩
    have hne : items ≠ [] := List.ne_nil_of_mem hs
    refine ⟨.array items, List.mem_filter.2 ⟨hat, ?_⟩, mem_texts.2 hs⟩
    simp [isStringArray, hne, hall]

/-- With enum detection an array gives its texts to an enum just if it is an array of strings. -/
theorem enumStrings_eq {o : Options} (ho : o.detectEnums = true) (u : Json) :
    u.enumStrings o = if u.isStringArray then u.texts else [] := by
  cases u with
  | null | bool | number | string | object | other => rfl
  | array items =>
    have hsome := isSome_enumValues? o items
    rw [ho, Bool.true_and] at hsome
    rw [enumStrings, isStringArray, ← hsome]
    cases hv : Walk.enumValues? o items with
    | none => simp
    | some values =>
      have htexts : texts (.array items) = values := by
        simp [texts, mem_of_enumValues? hv, List.filterMap_map, Function.comp_def, text?]
      rw [htexts, mem_of_enumValues? hv]
      cases values <;> rfl

theorem stringsAt_eq_textsAt {o : Options} (ho : o.detectEnums = true) (route : Route) (v : Json) :
    stringsAt o route (v.nodes []) = v.textsAt route := by
  rw [stringsAt_nodes, textsAt]
  induction v.valuesAt route with
  | nil => rfl
  | cons u rest ih =>
    rw [List.flatMap_cons, ih, enumStrings_eq ho, List.filter_cons]
    by_cases hu : u.isStringArray = true <;> simp [hu]

end Json

/-! ## Operations -/

/-- One of the operations that fill a catalog. -/
inductive Operation where
  | place (parent : Int) (step : Step)
  | openInterface (place : Int) (candidate : String)
  | setProperties (name : String) (properties : Properties)
  | addEnum (place : Int) (candidate : String) (values : List Text)

/-- The values that an operation gives for the enum of a place. -/
def Operation.given (place : Int) : Operation → List Text
  | .addEnum place' _ values => if place' = place then values else []
  | .place .. | .openInterface .. | .setProperties .. => []

namespace Catalog

def perform (c : Catalog) : Operation → Catalog
  | .place parent step => (c.place parent step).2
  | .openInterface place candidate => (c.openInterface place candidate).2
  | .setProperties name properties => c.setProperties name properties
  | .addEnum place candidate values => (c.addEnum place candidate values).2

/-- The catalog after some operations, from the first to the last. -/
def performAll (c : Catalog) (ops : List Operation) : Catalog := ops.foldl perform c

theorem performAll_append (c : Catalog) (ops more : List Operation) :
    c.performAll (ops ++ more) = (c.performAll ops).performAll more := List.foldl_append

theorem Edits.exists_operations {c c' : Catalog} (h : Edits c c') :
    ∃ ops, c' = c.performAll ops := by
  induction h with
  | refl => exact ⟨[], rfl⟩
  | tail _ hstep ih =>
    obtain ⟨ops, rfl⟩ := ih
    cases hstep with
    | place parent step => exact ⟨ops ++ [.place parent step], by rw [performAll_append]; rfl⟩
    | openInterface place candidate =>
      exact ⟨ops ++ [.openInterface place candidate], by rw [performAll_append]; rfl⟩
    | addEnum place candidate values =>
      exact ⟨ops ++ [.addEnum place candidate values], by rw [performAll_append]; rfl⟩
    | setProperties _ properties =>
      exact ⟨ops ++ [.setProperties _ properties], by rw [performAll_append]; rfl⟩

theorem exists_operations_typeOf (o : Options) (v : Json) (name : String) (c : Catalog) :
    ∃ ops, (typeOf o v name c).2 = c.performAll ops := by
  rw [Walk.typeOf_eq_typeAt]
  exact ((edits_rules o).value name rootPlace c v).exists_operations

/-! ## The invariant -/

section

variable {c c' : Catalog} {ops : List Operation} {op : Operation}

theorem find?_nameFor_eq (c : Catalog) (kind : Kind) (place : Int) (candidate : String)
    (key : Kind × Int) : (c.nameFor kind place candidate).2.names.find? key =
      if key = (kind, place) then some (c.nameFor kind place candidate).1
      else c.names.find? key := by
  cases hn : c.names.find? (kind, place) with
  | some name =>
    rw [nameFor_of_find? hn]
    split
    · next hkey => rw [hkey, hn]
    · rfl
  | none => rw [nameFor_of_find?_eq_none hn, find?_claim]

/-- A name stands for one thing, and a fresh name is not that of an enum. -/
structure Apart (c : Catalog) : Prop where
  injective {key key' : Kind × Int} {name : String} (h : c.names.find? key = some name)
    (h' : c.names.find? key' = some name) : key = key'
  taken {key : Kind × Int} {name : String} (h : c.names.find? key = some name) : name ∈ c.taken
  enums {name : String} (h : name ∈ c.enums.keys) : name ∈ c.taken

theorem Apart.congr (h : c.Apart) (hnames : c'.names = c.names) (htaken : c'.taken = c.taken)
    (henums : c'.enums = c.enums) : c'.Apart where
  injective hn hn' := h.injective (hnames ▸ hn) (hnames ▸ hn')
  taken hn := htaken ▸ h.taken (hnames ▸ hn)
  enums hn := htaken ▸ h.enums (henums ▸ hn)

theorem Apart.nameFor (h : c.Apart) (kind : Kind) (place : Int) (candidate : String) :
    (c.nameFor kind place candidate).2.Apart := by
  cases hn : c.names.find? (kind, place) with
  | some name =>
    rw [nameFor_of_find? hn]
    exact h
  | none =>
    rw [nameFor_of_find?_eq_none hn]
    have hfresh := Fresh.name_not_mem c.taken candidate
    refine ⟨injective_claim h.injective h.taken hfresh, ?_, ?_⟩
    · intro key name hk
      rw [find?_claim] at hk
      split at hk
      · cases hk
        exact List.mem_cons_self
      · exact List.mem_cons_of_mem _ (h.taken hk)
    · intro name hm
      exact List.mem_cons_of_mem _ (h.enums hm)

theorem Apart.openInterface (h : c.Apart) (place : Int) (candidate : String) :
    (c.openInterface place candidate).2.Apart := by
  have hapart := h.nameFor .interface place candidate
  exact ⟨hapart.injective, hapart.taken, hapart.enums⟩

theorem Apart.addEnum (h : c.Apart) (place : Int) (candidate : String) (values : List Text) :
    (c.addEnum place candidate values).2.Apart := by
  have hapart := h.nameFor .enum place candidate
  rw [addEnum_snd]
  refine ⟨hapart.injective, hapart.taken, ?_⟩
  intro name hm
  rcases Table.mem_keys_put.1 hm with hm | rfl
  · rw [← nameFor_enums c .enum place candidate] at hm
    exact hapart.enums hm
  · exact hapart.taken (find?_nameFor c .enum place candidate)

/-- The name of a place is free for its enum: no other place has it, and it is no enum yet unless it
is that of the place. -/
theorem Apart.find?_enums_nameFor (h : c.Apart) (place : Int) (candidate : String)
    (hn : c.names.find? (.enum, place) = none) :
    c.enums.find? (c.nameFor .enum place candidate).1 = none := by
  rw [nameFor_of_find?_eq_none hn, Table.find?_eq_none_iff]
  intro hm
  exact Fresh.name_not_mem c.taken candidate (h.enums hm)

/-- The enums of a catalog hold what some operations have given for their places. -/
structure Tallied (c : Catalog) (ops : List Operation) : Prop extends c.Apart where
  values {place : Int} {name : String} (h : c.names.find? (.enum, place) = some name) :
    c.enums.find? name = some (Distinct.ofList id (ops.flatMap (Operation.given place)))
  /-- A place without an enum has been given nothing. -/
  unnamed {place : Int} : c.names.find? (.enum, place) = none ↔
    ∀ candidate values, Operation.addEnum place candidate values ∉ ops

theorem tallied_empty : Tallied {} [] where
  injective h := by simp at h
  taken h := by simp at h
  enums h := by simp at h
  values h := by simp at h
  unnamed := by simp

theorem given_concat (ops : List Operation) (op : Operation) (place : Int) :
    (ops ++ [op]).flatMap (Operation.given place) =
      ops.flatMap (Operation.given place) ++ op.given place := by
  rw [List.flatMap_append, List.flatMap_singleton]

/-- An operation that is not for an enum. -/
theorem Tallied.idle (h : c.Tallied ops)
    (hop : ∀ place candidate values, op ≠ .addEnum place candidate values) (hapart : c'.Apart)
    (hnames : ∀ place, c'.names.find? (.enum, place) = c.names.find? (.enum, place))
    (henums : c'.enums = c.enums) : c'.Tallied (ops ++ [op]) where
  toApart := hapart
  values {place name} hn := by
    have hgiven : op.given place = [] := by
      cases op with
      | addEnum place' candidate values => exact absurd rfl (hop place' candidate values)
      | place | openInterface | setProperties => rfl
    rw [hnames] at hn
    rw [given_concat, hgiven, List.append_nil, henums]
    exact h.values hn
  unnamed {place} := by
    have hnot (candidate : String) (values : List Text) :
        Operation.addEnum place candidate values ≠ op := (hop place candidate values).symm
    rw [hnames, h.unnamed]
    simp [hnot]

/-- What the enum of a place holds, if it has been given anything. -/
theorem Tallied.getD_find? (h : c.Tallied ops) (place : Int) (candidate : String) :
    (c.enums.find? (c.nameFor .enum place candidate).1).getD [] =
      Distinct.ofList id (ops.flatMap (Operation.given place)) := by
  cases hn : c.names.find? (.enum, place) with
  | some name => rw [nameFor_of_find? hn, h.values hn, Option.getD_some]
  | none =>
    have hnone : ops.flatMap (Operation.given place) = [] := by
      rw [List.flatMap_eq_nil_iff]
      intro op hop
      cases op with
      | addEnum place' candidate' values =>
        refine if_neg ?_
        rintro rfl
        exact h.unnamed.1 hn candidate' values hop
      | place | openInterface | setProperties => rfl
    rw [h.find?_enums_nameFor place candidate hn, hnone]
    rfl

/-- An operation that gives values for the enum of a place. -/
theorem Tallied.addEnum (h : c.Tallied ops) (place : Int) (candidate : String)
    (values : List Text) :
    (c.addEnum place candidate values).2.Tallied (ops ++ [.addEnum place candidate values]) := by
  have hapart := h.nameFor .enum place candidate
  have hown := find?_nameFor c .enum place candidate
  refine ⟨h.toApart.addEnum place candidate values, ?_, ?_⟩
  · intro place' n hn
    rw [addEnum_snd] at hn ⊢
    set name := (c.nameFor .enum place candidate).1
    rw [Table.find?_put, given_concat, Operation.given]
    by_cases hplace : place = place'
    · subst hplace
      have hname : n = name := Option.some.inj (hn.symm.trans hown)
      rw [if_pos hname, if_pos rfl, h.getD_find?]
      exact congrArg some (Distinct.addAll_append [] _ values).symm
    · have hother : c.names.find? (.enum, place') = some n := by
        rw [← hn, find?_nameFor_eq, if_neg]
        simp [Ne.symm hplace]
      have hname : n ≠ name := by
        rintro rfl
        have hkey := hapart.injective hn hown
        exact hplace (congrArg Prod.snd hkey).symm
      rw [if_neg hname, if_neg hplace, List.append_nil]
      exact h.values hother
  · intro place'
    rw [addEnum_snd, find?_nameFor_eq]
    by_cases hplace : place' = place
    · subst hplace
      rw [if_pos rfl]
      refine iff_of_false (by simp) fun hnot => ?_
      exact hnot candidate values (List.mem_append_right _ (List.mem_singleton_self _))
    · rw [if_neg (by simp [hplace]), h.unnamed]
      simp [hplace]

theorem Tallied.perform (h : c.Tallied ops) (op : Operation) :
    (c.perform op).Tallied (ops ++ [op]) := by
  cases op with
  | place parent step =>
    have hnames : (c.place parent step).2.names = c.names := by
      unfold Catalog.place
      split <;> rfl
    have htaken : (c.place parent step).2.taken = c.taken := by
      unfold Catalog.place
      split <;> rfl
    have henums := place_enums c parent step
    refine h.idle (by simp) (h.congr hnames htaken henums) (fun place => ?_) henums
    exact congrArg (Table.find? · (Kind.enum, place)) hnames
  | openInterface place candidate =>
    have henums := openInterface_enums c place candidate
    refine h.idle (by simp) (h.toApart.openInterface place candidate) (fun place' => ?_) henums
    exact (find?_nameFor_eq c .interface place candidate _).trans (if_neg (by simp))
  | setProperties name properties =>
    exact h.idle (by simp) (h.congr rfl rfl rfl) (fun _ => rfl) rfl
  | addEnum place candidate values => exact h.addEnum place candidate values

theorem tallied_performAll (ops : List Operation) : (performAll {} ops).Tallied ops := by
  induction ops using List.reverseRecOn with
  | nil => exact tallied_empty
  | append_singleton ops op ih =>
    rw [performAll_append]
    exact ih.perform op

end

end Catalog

theorem Operation.mem_given {place : Int} {op : Operation} {s : Text} :
    s ∈ op.given place ↔ ∃ candidate values, op = .addEnum place candidate values ∧ s ∈ values := by
  cases op with
  | addEnum place' candidate values =>
    rw [given]
    by_cases hplace : place' = place <;> simp [hplace]
  | place | openInterface | setProperties => simp [given]

/-! ## Enums -/

/-- After a walk with enum detection a route has an enum just if an array of strings is at it. -/
theorem exists_enum_iff {o : Options} (ho : o.detectEnums = true) (v : Json) (name : String)
    {route : Route} : (∃ n, (typeOf o v name {}).2.nameAt? .enum route = some n) ↔
      ∃ u ∈ v.valuesAt route, u.isStringArray = true := by
  rw [exists_nameAt?_iff, Json.needs_iff]
  simp only [Json.declares, ho, Bool.true_and]

open Json in
/-- **The values of enums.** With enum detection a route has an enum after a walk just if there is
an array of strings at it. The enum holds the strings of these arrays, each once, where it first
stands in the document. No string gets in from an array that holds anything else, and there are no
other enums.

However a catalog was filled by operations, a place has an enum just if values were given for it,
be it none at all. The enum holds the values that were given for its place, each once, where it was
first given, and no other values. No other place has its name. Walks fill a catalog by the same
operations. -/
theorem enum_values :
    (∀ (o : Options) (v : Json) (name : String), o.detectEnums = true →
      let c := (typeOf o v name {}).2
      (∀ n ∈ c.enums.keys, ∃ route, c.nameAt? .enum route = some n) ∧
      ∀ route,
        ((∃ n, c.nameAt? .enum route = some n) ↔
          ∃ u ∈ v.valuesAt route, u.isStringArray = true) ∧
        ∀ n, c.nameAt? .enum route = some n → ∃ values, c.enums.find? n = some values ∧
          values = (v.textsAt route).eraseDups ∧ values.Nodup ∧
          ∀ s, s ∈ values ↔ ∃ items, .array items ∈ v.valuesAt route ∧
            items.all isString = true ∧ .string s ∈ items) ∧
    (∀ (ops : List Operation) (place : Int),
      let c := performAll {} ops
      ((∃ n, c.names.find? (.enum, place) = some n) ↔
        ∃ candidate values, .addEnum place candidate values ∈ ops) ∧
      ∀ n, c.names.find? (.enum, place) = some n →
        (∀ key, c.names.find? key = some n → key = (.enum, place)) ∧
        ∃ values, c.enums.find? n = some values ∧
          values = (ops.flatMap (Operation.given place)).eraseDups ∧ values.Nodup ∧
          ∀ s, s ∈ values ↔ ∃ candidate given, .addEnum place candidate given ∈ ops ∧ s ∈ given) ∧
    ∀ (o : Options) (v : Json) (name : String) (c : Catalog),
      ∃ ops, (typeOf o v name c).2 = c.performAll ops := by
  refine ⟨fun o v name ho => ⟨fun n hn => ?_, fun route => ⟨?_, fun n hn => ?_⟩⟩,
    fun ops place => ⟨?_, fun n hn => ⟨fun key hkey => ?_, ?_⟩⟩, exists_operations_typeOf⟩
  · have hdeclared : n ∈ (typeOf o v name {}).2.declared .enum := hn
    exact (mem_declared_typeOf o v name).1 hdeclared
  · exact exists_enum_iff ho v name
  · have hvalues := enums_typeOf hn
    rw [stringsAt_eq_textsAt ho, Distinct.ofList_eq_eraseDups] at hvalues
    refine ⟨_, hvalues, rfl, Distinct.nodup_eraseDups _, fun s => ?_⟩
    rw [List.mem_eraseDups, mem_textsAt]
  · rw [← Option.ne_none_iff_exists', ne_eq, (tallied_performAll ops).unnamed]
    push Not
    rfl
  · exact (tallied_performAll ops).injective hkey hn
  · have hvalues := (tallied_performAll ops).values hn
    rw [Distinct.ofList_eq_eraseDups] at hvalues
    refine ⟨_, hvalues, rfl, Distinct.nodup_eraseDups _, fun s => ?_⟩
    rw [List.mem_eraseDups, List.mem_flatMap]
    simp only [Operation.mem_given]
    constructor
    · rintro ⟨op, hop, candidate, given, rfl, hs⟩
      exact ⟨candidate, given, hop, hs⟩
    · rintro ⟨candidate, given, hop, hs⟩
      exact ⟨_, hop, candidate, given, rfl, hs⟩

end TypeSketch
