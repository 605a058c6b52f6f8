import TypeSketch.Proofs.Contents
import TypeSketch.Proofs.Renaming

/-!
# Loose nulls

Without strict nulls a null is of any type. That is the only difference, but it goes on outwards:
two items of an array may have one type where they had two, and then the array around them has
another type as well (`TypeExpr.loosen`).

An interface could be called `null` and be mistaken for the type of the null value. No interface is
if the root name begins with a capital letter or an underscore, because all names begin with it
(`IsTitle`).

**Theorem** (`loose_rules`). A walk without strict nulls is in step with a walk with strict nulls.
It finds the loosened types and leaves the catalog with loosened types behind.

**Theorem** (`typeOf_loose`). So does the walk through a whole document. In particular it makes the
same declarations with the same names and keys.
-/

namespace TypeSketch

open Catalog

/-! ## Loosened types -/

namespace TypeExpr

/-- The type with `any` in place of `null`. What becomes the same in an array counts once. -/
def loosen : TypeExpr → TypeExpr := rename fun name => if name = "null" then "any" else name

theorem loosen_null : null.loosen = any := by
  rw [loosen, null, rename_atom, if_pos rfl, any]

theorem loosen_atom {name : String} (h : name ≠ "null") : (atom name).loosen = atom name := by
  rw [loosen, rename_atom, if_neg h]

theorem loosen_array (item : TypeExpr) : (array item).loosen = array item.loosen :=
  rename_array _ item

end TypeExpr

/-! ## Titles -/

/-- An identifier that does not begin with a small letter. -/
structure IsTitle (s : String) : Prop extends IsIdentifier s where
  high : ∀ c ∈ s.toList.head?, c.isUpper = true ∨ c = '_'

theorem IsTitle.append {s t : String} (hs : IsTitle s) (ht : IsWord t) : IsTitle (s ++ t) where
  toIsIdentifier := hs.toIsIdentifier.append ht
  high c hc := by
    rw [String.toList_append, List.head?_append_of_ne_nil _ hs.ne_nil] at hc
    exact hs.high c hc

theorem IsTitle.ne_null {s : String} (h : IsTitle s) : s ≠ "null" := by
  rintro rfl
  have hn := h.high 'n' rfl
  revert hn
  decide

/-- A name that begins with a title. -/
abbrev Titled (name : String) : Prop := ∃ owner more, IsTitle owner ∧ name = owner ++ more

/-- All names in use are titles. -/
abbrev Catalog.HasTitles (c : Catalog) : Prop := c.NamesHave fun _ name => IsTitle name

theorem naming_isTitle (o : Options) : Naming o Titled (fun _ name => IsTitle name) :=
  naming_of_append o (fun _ h => h.toIsIdentifier) fun _ _ h ht => h.append ht

/-- Names stay titles in a walk, and the types are well-formed over words. -/
theorem isTitle_rules (o : Options) : Walk.Rules o
    (fun name _ c _ t c' => Titled name → c.HasTitles → c'.HasTitles ∧ t.WellFormed IsWord)
    (fun name _ c _ types c' => Titled name → c.HasTitles →
      c'.HasTitles ∧ ∀ t ∈ types, t.WellFormed IsWord)
    (fun interface _ c _ properties c' => IsTitle interface → c.HasTitles →
      c'.HasTitles ∧ ∀ e ∈ properties, e.2.WellFormed IsWord) :=
  (naming_isTitle o).rules (fun _ _ h => h.word) fun _ => isWord_of_mem_builtins

/-! ## Walks -/

section

variable (o : Options)

/-- The options with strict nulls, or with loose ones. -/
abbrev Options.withNulls (strict : Bool) : Options := { o with strictNulls := strict }

theorem leafType?_loose {v : Json} {t : TypeExpr}
    (h : Walk.leafType? (o.withNulls true) v = some t) :
    Walk.leafType? (o.withNulls false) v = some t.loosen := by
  have hatom {name : String} (hn : name ≠ "null") :
      some (TypeExpr.atom name) = some (TypeExpr.atom name).loosen := by
    rw [TypeExpr.loosen_atom hn]
  cases v with
  | null =>
    cases h
    exact congrArg some TypeExpr.loosen_null.symm
  | bool | number | string | other =>
    cases h
    exact hatom (by decide)
  | array items =>
    cases items with
    | nil =>
      cases h
      rw [TypeExpr.loosen_array, TypeExpr.any, TypeExpr.loosen_atom (by decide)]
      rfl
    | cons => cases h
  | object => cases h

/-- A walk without strict nulls is in step with one with strict nulls. -/
theorem loose_rules : Walk.Rules (o.withNulls true)
    (fun name place c v t c' => Titled name → c.HasTitles →
      Walk.typeAt (o.withNulls false) name place (c.mapTypes TypeExpr.loosen) v =
        (t.loosen, c'.mapTypes TypeExpr.loosen))
    (fun name place c items types c' => Titled name → c.HasTitles →
      Walk.typesOfItems (o.withNulls false) name place (c.mapTypes TypeExpr.loosen) items =
        (types.map TypeExpr.loosen, c'.mapTypes TypeExpr.loosen))
    (fun interface place c members properties c' => IsTitle interface → c.HasTitles →
      Walk.typesOfMembers (o.withNulls false) interface place (c.mapTypes TypeExpr.loosen)
        members = (properties.map (Prod.map id TypeExpr.loosen), c'.mapTypes TypeExpr.loosen)) where
  leaf ht _ _ := Walk.typeAt_of_leafType? (leafType?_loose o ht) _ _ _
  strings {name place c items values} hne hv hname hc := by
    have r := naming_isTitle (o.withNulls true)
    have hform : IsTitle (c.addEnum place (Text.typeName (name ++ "Enum")) values).1 :=
      (hc.nameFor r (r.enum hname) place).2
    have hv' : Walk.enumValues? (o.withNulls false) items = some values := hv
    rw [Walk.typeAt_of_enumValues? hne hv', addEnum_mapTypes]
    simp only [TypeExpr.loosen_array, TypeExpr.loosen_atom hform.ne_null]
  array {name place c items types c'} hne hv hitems ih hname hc := by
    have r := naming_isTitle (o.withNulls true)
    have hplace := hc.place place .item
    obtain ⟨-, hwell⟩ := (isTitle_rules _).of_typesOfItems hitems (r.item hname) hplace
    have hv' : Walk.enumValues? (o.withNulls false) items = none := hv
    rw [Walk.typeAt_array hne hv', place_mapTypes]
    simp only [ih (r.item hname) hplace]
    rw [TypeExpr.loosen, TypeExpr.rename_ofItems _ hwell]
  object {name place c members properties c'} hmembers ih hname hc := by
    have r := naming_isTitle (o.withNulls true)
    obtain ⟨hnames, hform⟩ : (c.openInterface place (Text.typeName name)).2.HasTitles ∧
        IsTitle (c.openInterface place (Text.typeName name)).1 :=
      hc.nameFor r (r.interface hname) place
    simp only [Walk.typeAt, openInterface_mapTypes, ih hform hnames, setProperties_mapTypes,
      TypeExpr.loosen_atom hform.ne_null]
  noItems _ _ := by simp only [Walk.typesOfItems, List.map_nil]
  item hv _ ihv ihrest hname hc := by
    have hnames := ((isTitle_rules _).of_typeAt hv hname hc).1
    simp only [Walk.typesOfItems, ihv hname hc, ihrest hname hnames, List.map_cons]
  noMembers _ _ := by simp only [Walk.typesOfMembers, List.map_nil]
  member {interface place c key v rest t properties c₁ c₂} hv _ ihv ihrest hform hc := by
    have r := naming_isTitle (o.withNulls true)
    have hnames := ((isTitle_rules _).of_typeAt hv (r.member hform key) (hc.place _ _)).1
    have hvalue := ihv (r.member hform key) (hc.place _ _)
    simp only [Walk.typesOfMembers, place_mapTypes]
    rw [show Walk.memberName (o.withNulls false) interface key =
      Walk.memberName (o.withNulls true) interface key from rfl, hvalue]
    simp only [ihrest hform hnames, List.map_cons, Prod.map_apply, id]

end

/-! ## Whole documents -/

/-- **Loose nulls.** Under a root name that begins with a capital letter or an underscore, a
document has the loosened type without strict nulls. The catalog is the same up to the types of the
properties, which are loosened: all names, all enums and their values, and all interfaces with their
keys are there in the same order. -/
theorem typeOf_loose (o : Options) (wanted : Text) (v : Json)
    (h : ∀ c ∈ (RootName.ofText wanted).toList.head?, c.isUpper = true ∨ c = '_') :
    let root := RootName.ofText wanted
    let strict := typeOf { o with strictNulls := true } v root {}
    let loose := typeOf { o with strictNulls := false } v root {}
    loose.1 = strict.1.loosen ∧ loose.2 = strict.2.mapTypes TypeExpr.loosen := by
  intro root strict loose
  have hroot : IsTitle root := ⟨isIdentifier_rootName wanted, h⟩
  have hwalk := (loose_rules o).value root rootPlace {} v ⟨root, "", hroot, by simp⟩
    (namesHave_empty _)
  have hloose : loose = (strict.1.loosen, strict.2.mapTypes TypeExpr.loosen) := by
    simp only [loose, strict, Walk.typeOf_eq_typeAt]
    exact hwalk
  rw [hloose]
  exact ⟨rfl, rfl⟩

/-- A document with a null beside an empty array one level further out, and one beside a string. -/
def withNulls : Json :=
  .object [("a", .array [.array [.null], .array []]), ("b", .array [.null, .string "x"])]

theorem values_withNulls (strict : Bool) :
    let nullType := if strict then TypeExpr.null else .any
    let c := (typeOf { strictNulls := strict } withNulls (RootName.ofText "_top") {}).2
    c.interfaces.values.map Table.values =
      [[.ofItems [.ofItems [nullType], .array .any], .ofItems [nullType, .string]]] := by
  intro nullType c
  have hkeys : c.interfaces.keys = ["_top"] := by cases strict <;> decide +kernel
  have hname : c.nameAt? .interface [] = some "_top" := by cases strict <;> decide +kernel
  rw [Table.values_of_keys hkeys (interfaces_typeOf hname)]
  rfl

/-- The types of two items become the same, so the array around them has one type less. The types
of two others stay different. -/
theorem typeOf_loose_merged :
    let root := RootName.ofText "_top"
    let strict := typeOf { strictNulls := true } withNulls root {}
    let loose := typeOf { strictNulls := false } withNulls root {}
    (∀ c ∈ root.toList.head?, c.isUpper = true ∨ c = '_') ∧
      loose.1 = strict.1.loosen ∧ loose.2 = strict.2.mapTypes TypeExpr.loosen ∧
      strict.2.interfaces.values.map (fun p => p.values.map TypeExpr.text) =
        [["(null[] | any[])[]", "(null | string)[]"]] ∧
      loose.2.interfaces.values.map (fun p => p.values.map TypeExpr.text) =
        [["any[][]", "(any | string)[]"]] := by
  intro root strict loose
  have hhead : root.toList.head? = some '_' := by decide +kernel
  have hroot : ∀ c ∈ root.toList.head?, c.isUpper = true ∨ c = '_' := fun c hc =>
    .inr (Option.some.inj (hc.symm.trans hhead))
  obtain ⟨htype, hcatalog⟩ := typeOf_loose {} "_top" withNulls hroot
  refine ⟨hroot, htype, hcatalog, ?_, ?_⟩
  · refine (List.map_map.symm.trans (congrArg _ (values_withNulls true))).trans ?_
    simp [TypeExpr.ofItems, TypeExpr.distinct, Distinct.ofList, Distinct.addAll, Distinct.add,
      TypeExpr.ofDistinct, TypeExpr.text, TypeExpr.null, TypeExpr.any, TypeExpr.string]
  · refine (List.map_map.symm.trans (congrArg _ (values_withNulls false))).trans ?_
    simp [TypeExpr.ofItems, TypeExpr.distinct, Distinct.ofList, Distinct.addAll, Distinct.add,
      TypeExpr.ofDistinct, TypeExpr.text, TypeExpr.any, TypeExpr.string]

end TypeSketch
