import TypeSketch.Proofs.Growth

/-!
# Names stand for one thing each

Interfaces and enums take their names from one stock. A catalog can be filled by walks and by single
operations in any order (`Reached`), and a candidate may well read like a name that another place
got with a number behind it.

**Theorem** (`reached_wellNamed`). However a catalog was filled, a name belongs to one place and one
kind, the taken names are the names in use, and the interfaces and enums are those that have a name.
No name is both, and no enum holds a value twice.

The invariant is `WellNamed`. Three parts of a catalog have to agree for it, so every operation is
looked at as a whole: a place that has its name gets no new entry anywhere, and a fresh name is new
to all three parts.
-/

namespace TypeSketch

namespace Catalog

/-! ## The invariant -/

/-- Every name stands for one thing, and all parts of the catalog know it. -/
structure WellNamed (c : Catalog) : Prop where
  /-- Different places do not share a name, and neither do the two kinds at one place. -/
  injective {key key' : Kind × Int} {name : String} (h : c.names.find? key = some name)
    (h' : c.names.find? key' = some name) : key = key'
  taken {name : String} : name ∈ c.taken ↔ ∃ key, c.names.find? key = some name
  interfaces {name : String} :
    name ∈ c.interfaces.keys ↔ ∃ place, c.names.find? (.interface, place) = some name
  enums {name : String} : name ∈ c.enums.keys ↔ ∃ place, c.names.find? (.enum, place) = some name
  values {name : String} {values : List Text} (h : c.enums.find? name = some values) :
    values.Nodup

theorem wellNamed_empty : WellNamed {} where
  injective h := by simp at h
  taken := by simp
  interfaces := by simp
  enums := by simp
  values h := by simp at h

theorem WellNamed.not_mem_enums {c : Catalog} (h : c.WellNamed) {name : String}
    (hi : name ∈ c.interfaces.keys) : name ∉ c.enums.keys := by
  intro he
  obtain ⟨place, hp⟩ := h.interfaces.1 hi
  obtain ⟨place', hp'⟩ := h.enums.1 he
  cases h.injective hp hp'

/-! ## A fresh name -/

section

variable {c : Catalog} {kind : Kind} {place : Int} {name : String}

/-- A place that takes a fresh name leaves every other name as it was. -/
theorem injective_claim
    (hinjective : ∀ {key key' : Kind × Int} {n : String}, c.names.find? key = some n →
      c.names.find? key' = some n → key = key')
    (htaken : ∀ {key : Kind × Int} {n : String}, c.names.find? key = some n → n ∈ c.taken)
    (hfresh : name ∉ c.taken) {key key' : Kind × Int} {name' : String}
    (hk : (c.claim kind place name).names.find? key = some name')
    (hk' : (c.claim kind place name).names.find? key' = some name') : key = key' := by
  rw [find?_claim] at hk hk'
  split at hk <;> split at hk'
  · next e e' => exact e.trans e'.symm
  · cases hk
    exact absurd (htaken hk') hfresh
  · cases hk'
    exact absurd (htaken hk) hfresh
  · exact hinjective hk hk'

/-- The names of one kind, after a place has taken a name of some kind. -/
theorem exists_find?_claim_kind (hnone : c.names.find? (kind, place) = none) {kind' : Kind}
    {name' : String} :
    (∃ place', (c.claim kind place name).names.find? (kind', place') = some name') ↔
      (kind' = kind ∧ name' = name) ∨ ∃ place', c.names.find? (kind', place') = some name' := by
  constructor
  · rintro ⟨place', hk⟩
    rw [find?_claim] at hk
    split at hk
    · next e =>
      cases hk
      cases e
      exact Or.inl ⟨rfl, rfl⟩
    · exact Or.inr ⟨place', hk⟩
  · rintro (⟨rfl, rfl⟩ | ⟨place', hk⟩)
    · exact ⟨place, by rw [find?_claim, if_pos rfl]⟩
    · refine ⟨place', ?_⟩
      rw [find?_claim, if_neg, hk]
      rintro ⟨⟩
      rw [hnone] at hk
      cases hk

theorem exists_find?_claim (hnone : c.names.find? (kind, place) = none) {name' : String} :
    (∃ key, (c.claim kind place name).names.find? key = some name') ↔
      name' = name ∨ ∃ key, c.names.find? key = some name' := by
  simp only [Prod.exists, exists_find?_claim_kind hnone, exists_or, exists_and_right,
    exists_eq, true_and]

/-- A fresh name keeps the invariant, if the declarations of its kind get it too. -/
theorem WellNamed.claim (h : c.WellNamed) (hnone : c.names.find? (kind, place) = none)
    (hfresh : name ∉ c.taken) {interfaces : Table String Properties}
    {enums : Table String (List Text)}
    (hi : ∀ n, n ∈ interfaces.keys ↔ (.interface = kind ∧ n = name) ∨ n ∈ c.interfaces.keys)
    (he : ∀ n, n ∈ enums.keys ↔ (.enum = kind ∧ n = name) ∨ n ∈ c.enums.keys)
    (hv : ∀ n values, enums.find? n = some values → values.Nodup) :
    WellNamed { c.claim kind place name with interfaces := interfaces, enums := enums } where
  injective hk hk' := injective_claim h.injective (fun hn => h.taken.2 ⟨_, hn⟩) hfresh hk hk'
  taken {n} := by
    show n ∈ name :: c.taken ↔ ∃ key, (c.claim kind place name).names.find? key = some n
    rw [exists_find?_claim hnone, List.mem_cons, h.taken]
  interfaces {n} := by
    show n ∈ interfaces.keys ↔ ∃ p, (c.claim kind place name).names.find? (_, p) = some n
    rw [exists_find?_claim_kind hnone, hi, h.interfaces]
  enums {n} := by
    show n ∈ enums.keys ↔ ∃ p, (c.claim kind place name).names.find? (_, p) = some n
    rw [exists_find?_claim_kind hnone, he, h.enums]
  values hn := hv _ _ hn

theorem WellNamed.not_mem_keys (h : c.WellNamed) (hfresh : name ∉ c.taken) :
    name ∉ c.interfaces.keys ∧ name ∉ c.enums.keys := by
  refine ⟨fun hi => hfresh ?_, fun he => hfresh ?_⟩
  · obtain ⟨place, hp⟩ := h.interfaces.1 hi
    exact h.taken.2 ⟨_, hp⟩
  · obtain ⟨place, hp⟩ := h.enums.1 he
    exact h.taken.2 ⟨_, hp⟩

end

/-! ## Single operations -/

section

variable {c c' : Catalog}

theorem WellNamed.place (h : c.WellNamed) (parent : Int) (step : Step) :
    (c.place parent step).2.WellNamed := by
  cases hc : c.child? parent step with
  | some below => rw [place_of_child? hc]; exact h
  | none => rw [place_of_child?_eq_none hc]; exact ⟨h.1, h.2, h.3, h.4, h.5⟩

theorem WellNamed.openInterface (h : c.WellNamed) (place : Int) (candidate : String) :
    (c.openInterface place candidate).2.WellNamed := by
  rw [openInterface_snd]
  cases hn : c.names.find? (.interface, place) with
  | some name =>
    rw [nameFor_of_find? hn, Table.putNew_of_mem (h.interfaces.2 ⟨place, hn⟩)]
    exact h
  | none =>
    rw [nameFor_of_find?_eq_none hn]
    have hfresh := Fresh.name_not_mem c.taken candidate
    refine h.claim hn hfresh ?_ (fun n => by simp) fun _ _ hv => h.values hv
    intro n
    rw [Table.keys_putNew, if_neg (h.not_mem_keys hfresh).1, List.mem_append, List.mem_singleton]
    simp [or_comm]

theorem WellNamed.addEnum (h : c.WellNamed) (place : Int) (candidate : String)
    (values : List Text) : (c.addEnum place candidate values).2.WellNamed := by
  rw [addEnum_snd]
  have hnodup (name : String) :
      (Distinct.addAll id ((c.enums.find? name).getD []) values).Nodup := by
    rw [← List.map_id (Distinct.addAll id _ values)]
    apply Distinct.nodup_map_addAll
    rw [List.map_id]
    cases hv : c.enums.find? name with
    | some members => exact h.values hv
    | none => exact List.nodup_nil
  have hvalues (name : String) : ∀ n members, (c.enums.put name
      (Distinct.addAll id ((c.enums.find? name).getD []) values)).find? n = some members →
        members.Nodup := by
    intro n members hm
    rw [Table.find?_put] at hm
    split at hm
    · cases hm
      exact hnodup name
    · exact h.values hm
  cases hn : c.names.find? (.enum, place) with
  | some name =>
    rw [nameFor_of_find? hn]
    have hmem := h.enums.2 ⟨place, hn⟩
    exact { h with
      enums := by rw [Table.keys_put, if_pos hmem]; exact h.enums
      values := fun hm => hvalues name _ _ hm }
  | none =>
    rw [nameFor_of_find?_eq_none hn]
    have hfresh := Fresh.name_not_mem c.taken candidate
    refine h.claim hn hfresh (fun n => by simp) ?_ (hvalues _)
    intro n
    rw [Table.keys_put, if_neg (h.not_mem_keys hfresh).2, List.mem_append, List.mem_singleton]
    simp [or_comm]

theorem WellNamed.setProperties (h : c.WellNamed) {place : Int} {name : String}
    (hn : c.names.find? (.interface, place) = some name) (properties : Properties) :
    (c.setProperties name properties).WellNamed :=
  { h with
    interfaces := by
      rw [Catalog.setProperties, Table.keys_put, if_pos (h.interfaces.2 ⟨place, hn⟩)]
      exact h.interfaces }

theorem WellNamed.edit (h : c.WellNamed) (he : Edit c c') : c'.WellNamed := by
  cases he with
  | place parent step => exact h.place parent step
  | openInterface place candidate => exact h.openInterface place candidate
  | addEnum place candidate values => exact h.addEnum place candidate values
  | setProperties hn properties => exact h.setProperties hn properties

theorem WellNamed.edits (h : c.WellNamed) (he : Edits c c') : c'.WellNamed := by
  induction he with
  | refl => exact h
  | tail _ hstep ih => exact ih.edit hstep

end

/-! ## Filled catalogs -/

/-- The catalogs that are filled from the empty one, by single operations and by walks with any
options, in any order. -/
inductive Reached : Catalog → Prop
  | empty : Reached {}
  | place {c : Catalog} (h : Reached c) (parent : Int) (step : Step) :
      Reached (c.place parent step).2
  | openInterface {c : Catalog} (h : Reached c) (place : Int) (candidate : String) :
      Reached (c.openInterface place candidate).2
  | addEnum {c : Catalog} (h : Reached c) (place : Int) (candidate : String)
      (values : List Text) : Reached (c.addEnum place candidate values).2
  /-- Only what is the name of an interface gets properties. -/
  | setProperties {c : Catalog} (h : Reached c) {place : Int} {name : String}
      (hn : c.names.find? (.interface, place) = some name) (properties : Properties) :
      Reached (c.setProperties name properties)
  | typeOf {c : Catalog} (h : Reached c) (o : Options) (value : Json) (name : String) :
      Reached (typeOf o value name c).2

theorem Reached.edits {c : Catalog} (h : Reached c) : Edits {} c := by
  induction h with
  | empty => exact .refl
  | place _ parent step ih => exact ih.tail (.place _ parent step)
  | openInterface _ place candidate ih => exact ih.tail (.openInterface _ place candidate)
  | addEnum _ place candidate values ih => exact ih.tail (.addEnum _ place candidate values)
  | setProperties _ hn properties ih => exact ih.tail (.setProperties hn properties)
  | typeOf _ o value name ih =>
    rw [Walk.typeOf_eq_typeAt]
    exact ih.trans ((edits_rules o).value name rootPlace _ value)

/-- **One name, one thing.** In a catalog that was filled in any way, different places and different
kinds have different names, the taken names are those in use, the interfaces and the enums are those
that have a name of that kind, no name is both, and no enum holds a value twice. -/
theorem reached_wellNamed {c : Catalog} (h : Reached c) :
    c.WellNamed ∧ ∀ name ∈ c.interfaces.keys, name ∉ c.enums.keys :=
  have hw := wellNamed_empty.edits h.edits
  ⟨hw, fun _ => hw.not_mem_enums⟩

/-- Two places that want one name, an enum that wants what the second of them got, and a walk. -/
def crowded : Catalog :=
  let c := ((openInterface {} 1 "Foo").2.openInterface 2 "Foo").2
  let c := (c.addEnum 3 "Foo2" ["x", "x"]).2.setProperties "Foo2" ∅
  (typeOf { detectEnums := true } (.object [("a", .array [.string "x"])]) "Foo" c).2

theorem reached_wellNamed_crowded :
    Reached crowded ∧ crowded.names.values = ["Foo", "Foo2", "Foo22", "Foo3", "Foo3AEnum"] ∧
      crowded.WellNamed ∧ ∀ name ∈ crowded.interfaces.keys, name ∉ crowded.enums.keys := by
  have hn : ((openInterface {} 1 "Foo").2.openInterface 2 "Foo").2.names.find? (.interface, 2) =
      some "Foo2" := by decide +kernel
  have h : Reached crowded :=
    ((((Reached.empty.openInterface 1 "Foo").openInterface 2 "Foo").addEnum 3 "Foo2"
      ["x", "x"]).setProperties ((grows_addEnum _ _ _ _).find? hn) ∅).typeOf _ _ _
  exact ⟨h, by decide +kernel, reached_wellNamed h⟩

end Catalog

end TypeSketch
