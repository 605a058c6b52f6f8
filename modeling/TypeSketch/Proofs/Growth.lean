import TypeSketch.Proofs.Recursion
import Mathlib.Logic.Relation
import Mathlib.Tactic.Common

/-!
# Growing catalogs

A catalog changes by four operations: a place is entered, an interface or an enum is named, and an
interface gets its properties. `Edit` is one of them, and `Edits` is any number of them in a row.

**Theorem** (`Edits.grows`). What is entered stays: places keep their numbers, names stay with their
places, declarations keep their order and stand before later ones, and an enum only gets more
values.

**Theorem** (`edits_rules`). A walk is a row of edits.
-/

namespace TypeSketch

namespace Catalog

/-! ## Places -/

/-- The place one step below a parent, if it is entered. -/
def child? (c : Catalog) (parent : Int) (step : Step) : Option Int :=
  (c.places.findIdx? (· = (parent, step))).map fun i : Nat => (i + 1 : Int)

theorem place_of_child? {c : Catalog} {parent below : Int} {step : Step}
    (h : c.child? parent step = some below) : c.place parent step = (below, c) := by
  obtain ⟨i, hi, rfl⟩ := Option.map_eq_some_iff.1 h
  simp only [place, hi]

theorem place_of_child?_eq_none {c : Catalog} {parent : Int} {step : Step}
    (h : c.child? parent step = none) : c.place parent step =
      ((c.places.length + 1 : Int), { c with places := c.places ++ [(parent, step)] }) := by
  rw [child?, Option.map_eq_none_iff] at h
  simp only [place, h]

/-- A place is found again once it is entered. -/
theorem child?_place (c : Catalog) (parent : Int) (step : Step) :
    (c.place parent step).2.child? parent step = some (c.place parent step).1 := by
  cases h : c.child? parent step with
  | some below => rw [place_of_child? h, h]
  | none =>
    rw [place_of_child?_eq_none h]
    rw [child?, Option.map_eq_none_iff] at h
    simp [child?, List.findIdx?_append, h, List.findIdx?_cons]

/-! ## Names -/

/-- A place that has a name keeps it, whatever the candidate. -/
theorem nameFor_of_find? {c : Catalog} {kind : Kind} {place : Int} {name : String}
    (h : c.names.find? (kind, place) = some name) (candidate : String) :
    c.nameFor kind place candidate = (name, c) := by
  simp only [nameFor, h]

def claim (c : Catalog) (kind : Kind) (place : Int) (name : String) : Catalog :=
  { c with names := c.names.put (kind, place) name, taken := name :: c.taken }

@[simp] theorem claim_interfaces (c : Catalog) (kind : Kind) (place : Int) (name : String) :
    (c.claim kind place name).interfaces = c.interfaces := rfl

@[simp] theorem claim_enums (c : Catalog) (kind : Kind) (place : Int) (name : String) :
    (c.claim kind place name).enums = c.enums := rfl

theorem find?_claim (c : Catalog) (kind : Kind) (place : Int) (name : String) (key : Kind × Int) :
    (c.claim kind place name).names.find? key =
      if key = (kind, place) then some name else c.names.find? key :=
  Table.find?_put _ _ _ _

/-- A place without a name gets a fresh one. -/
theorem nameFor_of_find?_eq_none {c : Catalog} {kind : Kind} {place : Int}
    (h : c.names.find? (kind, place) = none) (candidate : String) :
    c.nameFor kind place candidate =
      (Fresh.name c.taken candidate, c.claim kind place (Fresh.name c.taken candidate)) := by
  simp only [nameFor, h]
  rfl

theorem find?_nameFor (c : Catalog) (kind : Kind) (place : Int) (candidate : String) :
    (c.nameFor kind place candidate).2.names.find? (kind, place) =
      some (c.nameFor kind place candidate).1 := by
  cases h : c.names.find? (kind, place) with
  | some name => rw [nameFor_of_find? h, h]
  | none => rw [nameFor_of_find?_eq_none h, find?_claim, if_pos rfl]

/-- What gets a name is declared under it. -/
theorem mem_keys_openInterface (c : Catalog) (place : Int) (candidate : String) :
    (c.openInterface place candidate).1 ∈ (c.openInterface place candidate).2.interfaces.keys := by
  rw [openInterface_snd]
  exact Table.mem_keys_putNew.2 (Or.inr rfl)

theorem mem_keys_addEnum (c : Catalog) (place : Int) (candidate : String) (values : List Text) :
    (c.addEnum place candidate values).1 ∈ (c.addEnum place candidate values).2.enums.keys := by
  rw [addEnum_snd]
  exact Table.mem_keys_put.2 (Or.inr rfl)

/-- An enum that gets values has its name at the place, and holds all of them. -/
theorem exists_find?_addEnum (c : Catalog) (place : Int) (candidate : String)
    (values : List Text) : ∃ members,
      (c.addEnum place candidate values).2.enums.find? (c.addEnum place candidate values).1 =
        some members ∧ ∀ s ∈ values, s ∈ members := by
  rw [addEnum_snd, addEnum_fst]
  refine ⟨_, (Table.find?_put _ _ _ _).trans (if_pos rfl), fun s hs => ?_⟩
  have hmem : s ∈ (Distinct.addAll id
      ((c.enums.find? (c.nameFor .enum place candidate).1).getD []) values).map id :=
    Distinct.mem_map_addAll.2 (Or.inr (List.mem_map_of_mem hs))
  rwa [List.map_id] at hmem

/-- A new interface leaves the others alone. -/
theorem find?_openInterface_of_ne {c : Catalog} {place : Int} {candidate name : String}
    (h : name ≠ (c.openInterface place candidate).1) :
    (c.openInterface place candidate).2.interfaces.find? name = c.interfaces.find? name := by
  rw [openInterface_snd]
  exact Table.find?_putNew_of_ne h _

/-- An enum that gets values leaves the others alone. -/
theorem find?_addEnum_of_ne {c : Catalog} {place : Int} {candidate name : String}
    {values : List Text} (h : name ≠ (c.addEnum place candidate values).1) :
    (c.addEnum place candidate values).2.enums.find? name = c.enums.find? name := by
  rw [addEnum_snd, Table.find?_put]
  exact if_neg h

/-! ## Growth -/

/-- The second catalog has all that the first has, and what is new comes behind it. -/
structure Grows (c c' : Catalog) : Prop where
  places : c.places <+: c'.places
  names : c.names.entries <+: c'.names.entries
  taken : c.taken <:+ c'.taken
  interfaces : c.interfaces.keys <+: c'.interfaces.keys
  enums : c.enums.keys <+: c'.enums.keys
  values {name : String} {values : List Text} (h : c.enums.find? name = some values) :
    ∃ more, c'.enums.find? name = some (values ++ more)

theorem Grows.refl (c : Catalog) : Grows c c where
  places := List.prefix_refl _
  names := List.prefix_refl _
  taken := List.suffix_refl _
  interfaces := List.prefix_refl _
  enums := List.prefix_refl _
  values h := ⟨[], by rw [h, List.append_nil]⟩

theorem Grows.trans {a b c : Catalog} (h : Grows a b) (h' : Grows b c) : Grows a c where
  places := h.places.trans h'.places
  names := h.names.trans h'.names
  taken := h.taken.trans h'.taken
  interfaces := h.interfaces.trans h'.interfaces
  enums := h.enums.trans h'.enums
  values hv := by
    obtain ⟨more, hm⟩ := h.values hv
    obtain ⟨more', hm'⟩ := h'.values hm
    exact ⟨more ++ more', by rw [hm', List.append_assoc]⟩

theorem Grows.find? {c c' : Catalog} (h : Grows c c') {key : Kind × Int} {name : String}
    (hn : c.names.find? key = some name) : c'.names.find? key = some name :=
  Table.find?_of_prefix h.names hn

theorem Grows.child? {c c' : Catalog} (h : Grows c c') {parent below : Int} {step : Step}
    (hc : c.child? parent step = some below) : c'.child? parent step = some below := by
  obtain ⟨rest, hrest⟩ := h.places
  obtain ⟨i, hi, rfl⟩ := Option.map_eq_some_iff.1 hc
  rw [Catalog.child?, ← hrest, List.findIdx?_append, hi]
  rfl

theorem grows_place (c : Catalog) (parent : Int) (step : Step) :
    Grows c (c.place parent step).2 := by
  cases h : c.child? parent step with
  | some below => rw [place_of_child? h]; exact .refl c
  | none =>
    rw [place_of_child?_eq_none h]
    exact { Grows.refl c with places := List.prefix_append _ _ }

theorem grows_nameFor (c : Catalog) (kind : Kind) (place : Int) (candidate : String) :
    Grows c (c.nameFor kind place candidate).2 := by
  cases h : c.names.find? (kind, place) with
  | some name => rw [nameFor_of_find? h]; exact .refl c
  | none =>
    rw [nameFor_of_find?_eq_none h]
    have hk := (Table.find?_eq_none_iff _ _).1 h
    exact { Grows.refl c with
      names := by rw [claim, Table.entries_put_of_not_mem hk]; exact List.prefix_append _ _
      taken := List.suffix_cons _ _ }

theorem grows_openInterface (c : Catalog) (place : Int) (candidate : String) :
    Grows c (c.openInterface place candidate).2 := by
  rw [openInterface_snd]
  exact { grows_nameFor c .interface place candidate with
    interfaces := Table.keys_prefix_putNew _ _ _ }

theorem grows_addEnum (c : Catalog) (place : Int) (candidate : String) (values : List Text) :
    Grows c (c.addEnum place candidate values).2 := by
  rw [addEnum_snd]
  set own := (c.nameFor .enum place candidate).1
  refine { grows_nameFor c .enum place candidate with
    enums := Table.keys_prefix_put _ _ _, values := ?_ }
  intro name members hm
  rw [Table.find?_put]
  by_cases hname : name = own
  · obtain ⟨more, ha⟩ := Distinct.exists_addAll_eq_append id members values
    exact ⟨more, by rw [if_pos hname, ← hname, hm, Option.getD_some, ha]⟩
  · exact ⟨[], by rw [if_neg hname, hm, List.append_nil]⟩

theorem grows_setProperties (c : Catalog) (name : String) (properties : Properties) :
    Grows c (c.setProperties name properties) :=
  { Grows.refl c with interfaces := Table.keys_prefix_put _ _ _ }

/-! ## Edits -/

/-- One operation on a catalog. Only an interface that has its name gets properties. -/
inductive Edit : Catalog → Catalog → Prop
  | place (c : Catalog) (parent : Int) (step : Step) : Edit c (c.place parent step).2
  | openInterface (c : Catalog) (place : Int) (candidate : String) :
      Edit c (c.openInterface place candidate).2
  | addEnum (c : Catalog) (place : Int) (candidate : String) (values : List Text) :
      Edit c (c.addEnum place candidate values).2
  | setProperties {c : Catalog} {place : Int} {name : String}
      (h : c.names.find? (.interface, place) = some name) (properties : Properties) :
      Edit c (c.setProperties name properties)

/-- Any number of operations in a row. -/
abbrev Edits : Catalog → Catalog → Prop := Relation.ReflTransGen Edit

theorem Edit.grows {c c' : Catalog} (h : Edit c c') : Grows c c' := by
  cases h with
  | place parent step => exact grows_place c parent step
  | openInterface place candidate => exact grows_openInterface c place candidate
  | addEnum place candidate values => exact grows_addEnum c place candidate values
  | setProperties h properties => exact grows_setProperties c _ properties

theorem Edits.grows {c c' : Catalog} (h : Edits c c') : Grows c c' := by
  induction h with
  | refl => exact .refl c
  | tail _ hstep ih => exact ih.trans hstep.grows

end Catalog

/-! ## Walks -/

open Catalog in
/-- A walk is a row of edits. -/
theorem edits_rules (o : Options) : Walk.Rules o (fun _ _ c _ _ c' => Edits c c')
    (fun _ _ c _ _ c' => Edits c c') (fun _ _ c _ _ c' => Edits c c') where
  leaf _ := .refl
  strings _ _ := .single (.addEnum _ _ _ _)
  array _ _ _ ih := .head (.place _ _ _) ih
  object {name place c _ _ _} _ ih :=
    have hopen : Edits c (c.openInterface place (Text.typeName name)).2 :=
      .single (.openInterface c place _)
    -- The name was taken before the members were visited, and is there still.
    have hname := ih.grows.find? (find?_nameFor c .interface place (Text.typeName name))
    (hopen.trans ih).tail (.setProperties hname _)
  noItems := .refl
  item _ _ ihv ihrest := ihv.trans ihrest
  noMembers := .refl
  member _ _ ihv ihrest := (Relation.ReflTransGen.head (.place _ _ _) ihv).trans ihrest

end TypeSketch
