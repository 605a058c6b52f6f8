import TypeSketch.Proofs.Order

/-!
# What declarations hold in the end

A walk gives properties to an interface once for every object at its route, and it adds strings to
an enum once for every array of strings there. Seen from the end, when all routes have their names,
everything that it found can be read off the document and these names.

**Types** (`typeUnder`). The type of a value when the names of all routes are known.

**Theorem** (`typeUnder_rules`). A walk finds the types that are read off with the names of any
later catalog.

**Theorem** (`holds_rules`). A walk leaves every interface with the properties of the last object at
its route, and every enum with the strings of the arrays at its route, each once and in order.
-/

namespace TypeSketch

open Catalog Json

/-! ## Types that are read off -/

section

variable (o : Options) (names : Kind → Route → String)

mutual

/-- The type of a value at a route, when the names of all routes are known. -/
def typeUnder (route : Route) : Json → TypeExpr
  | .null => if o.strictNulls then .null else .any
  | .bool _ => .boolean
  | .number _ => .number
  | .string _ => .string
  | .array [] => .array .any
  | .array items =>
    if (Walk.enumValues? o items).isSome then .array (.atom (names .enum route))
    else .ofItems (typesUnder (route ++ [.item]) items)
  | .object _ => .atom (names .interface route)
  | .other => .any

def typesUnder (route : Route) : List Json → List TypeExpr
  | [] => []
  | item :: rest => typeUnder route item :: typesUnder route rest

end

/-- The keys of an object at a route with the types of their values. -/
def propertiesUnder (route : Route) (members : List (Text × Json)) : List (Text × TypeExpr) :=
  members.map fun m => (m.1, typeUnder o names (route ++ [.member m.1]) m.2)

end

section

variable {o : Options} {names : Kind → Route → String} {route : Route}

theorem typesUnder_eq_map (items : List Json) :
    typesUnder o names route items = items.map (typeUnder o names route) := by
  induction items with
  | nil => rfl
  | cons item rest ih => rw [typesUnder, ih, List.map_cons]

theorem typeUnder_of_leafType? {v : Json} {t : TypeExpr} (h : Walk.leafType? o v = some t) :
    typeUnder o names route v = t := by
  cases v with
  | null | bool | number | string | other => cases h; rfl
  | array items =>
    cases items with
    | nil => cases h; rfl
    | cons => cases h
  | object => cases h

theorem typeUnder_array {items : List Json} (hne : items ≠ []) :
    typeUnder o names route (.array items) =
      if (Walk.enumValues? o items).isSome then .array (.atom (names .enum route))
      else .ofItems (items.map (typeUnder o names (route ++ [.item]))) := by
  obtain ⟨item, rest, rfl⟩ := List.exists_cons_of_ne_nil hne
  rw [typeUnder, typesUnder_eq_map]
  exact List.cons_ne_nil item rest

end

/-- The names of all routes in a catalog. A route without a name does not need one. -/
def Catalog.named (c : Catalog) (kind : Kind) (route : Route) : String :=
  (c.nameAt? kind route).getD ""

theorem named_of_nameAt? {c : Catalog} {kind : Kind} {route : Route} {name : String}
    (h : c.nameAt? kind route = some name) : c.named kind route = name := by
  rw [Catalog.named, h, Option.getD_some]

theorem typeUnder_rules (o : Options) (d : Catalog) : Walk.Rules o
    (fun _ place c v t c' => ∀ route, c.placeAt? route = some place → Grows c' d →
      t = typeUnder o d.named route v)
    (fun _ place c items types c' => ∀ route, c.placeAt? route = some place → Grows c' d →
      types = items.map (typeUnder o d.named route))
    (fun _ place c members properties c' => ∀ route, c.placeAt? route = some place → Grows c' d →
      properties = propertiesUnder o d.named route members) where
  leaf ht _ _ _ := (typeUnder_of_leafType? ht).symm
  strings hne hv route hp hg := by
    rw [typeUnder_array hne, hv, named_of_nameAt? (hg.nameAt? (nameAt?_addEnum hp _ _))]
    rfl
  array hne hv _ ih route hp hg := by
    rw [typeUnder_array hne, hv, ih _ (placeAt?_place hp .item) hg]
    rfl
  object {name place c _ _ _} hmembers _ route hp hg := by
    have hinner := ((edits_rules o).of_typesOfMembers hmembers).grows
    have hset := (grows_setProperties _ _ _).trans hg
    have hname := nameAt?_openInterface hp (Text.typeName name)
    rw [typeUnder, named_of_nameAt? ((hinner.trans hset).nameAt? hname)]
  noItems _ _ _ := rfl
  item hv hrest ihv ihrest route hp hg := by
    have hg₁ := ((edits_rules o).of_typeAt hv).grows
    have hg₂ := ((edits_rules o).of_typesOfItems hrest).grows
    rw [ihv route hp (hg₂.trans hg), ihrest route (hg₁.placeAt? hp) hg, List.map_cons]
  noMembers _ _ _ := rfl
  member {_ place c key _ _ _ _ _ _} hv hrest ihv ihrest route hp hg := by
    have hg₁ := (grows_place c place (.member key)).trans ((edits_rules o).of_typeAt hv).grows
    have hg₂ := ((edits_rules o).of_typesOfMembers hrest).grows
    rw [ihv _ (placeAt?_place hp _) (hg₂.trans hg), ihrest route (hg₁.placeAt? hp) hg]
    rfl

/-! ## Strings of a document -/

namespace Json

/-- The strings that a value gives to the enum of its route. -/
def enumStrings (o : Options) : Json → List Text
  | .array items => (Walk.enumValues? o items).getD []
  | _ => []

/-- The strings for the enum of a route among some values, in their order. -/
def stringsAt (o : Options) (route : Route) (values : List (Route × Json)) : List Text :=
  values.flatMap fun value => if value.1 = route then value.2.enumStrings o else []

variable {o : Options}

theorem stringsAt_append (route : Route) (values values' : List (Route × Json)) :
    stringsAt o route (values ++ values') = stringsAt o route values ++ stringsAt o route values' :=
  List.flatMap_append

theorem stringsAt_cons (route route' : Route) (v : Json) (values : List (Route × Json)) :
    stringsAt o route ((route', v) :: values) =
      (if route' = route then v.enumStrings o else []) ++ stringsAt o route values :=
  List.flatMap_cons

/-- Single strings are in no enum. -/
theorem stringsAt_nodesOfItems_strings (route route' : Route) (values : List Text) :
    stringsAt o route (nodesOfItems route' (values.map .string)) = [] := by
  induction values with
  | nil => rfl
  | cons s rest ih =>
    rw [List.map_cons, nodesOfItems, stringsAt_append, ih]
    simp [nodes, stringsAt, enumStrings]

theorem stringsAt_leaf {v : Json} {t : TypeExpr} (h : Walk.leafType? o v = some t)
    (route route' : Route) : stringsAt o route (v.nodes route') = [] := by
  cases v with
  | null | bool | number | string | other => simp [nodes, stringsAt, enumStrings]
  | array items =>
    cases items with
    | nil =>
      have hnone : enumStrings o (.array []) = [] := by
        rw [enumStrings, Walk.enumValues?]
        split <;> rfl
      simp [nodes, nodesOfItems, stringsAt, hnone]
    | cons => cases h
  | object => cases h

theorem objectsAt_leaf {v : Json} {t : TypeExpr} (h : Walk.leafType? o v = some t)
    (route route' : Route) : objectsAt route (v.nodes route') = [] := by
  cases v with
  | null | bool | number | string | other => simp [nodes, objectsAt, members?]
  | array items =>
    cases items with
    | nil => simp [nodes, nodesOfItems, objectsAt, members?]
    | cons => cases h
  | object => cases h

theorem objectsAt_array (route route' : Route) (items : List Json) :
    objectsAt route ((Json.array items).nodes route') =
      objectsAt route (nodesOfItems (route' ++ [.item]) items) := by
  rw [nodes, objectsAt_cons]
  simp [members?]

theorem stringsAt_array {items : List Json} (route route' : Route) :
    stringsAt o route ((Json.array items).nodes route') =
      (if route' = route then (Walk.enumValues? o items).getD [] else []) ++
        stringsAt o route (nodesOfItems (route' ++ [.item]) items) := by
  rw [nodes, stringsAt_cons, enumStrings]

theorem stringsAt_object (route route' : Route) (members : List (Text × Json)) :
    stringsAt o route ((Json.object members).nodes route') =
      stringsAt o route (nodesOfMembers route' members) := by
  rw [nodes, stringsAt_cons]
  simp [enumStrings]

end Json

/-! ## Contents that are read off -/

/-- What a walk has made of the contents, seen from a catalog `d` that knows the names of all
routes: an interface holds the properties of the last object among the walked values at its route,
and an enum has got the strings of the arrays at its route. -/
structure Holds (o : Options) (d c c' : Catalog) (values : List (Route × Json)) : Prop where
  interfaces {route : Route} {n : String} (h : d.nameAt? .interface route = some n) :
    c'.interfaces.find? n = ((objectsAt route values).getLast?.map fun members =>
      Table.ofList (propertiesUnder o d.named route members)).or (c.interfaces.find? n)
  enums {route : Route} {n : String} (h : d.nameAt? .enum route = some n) :
    (c'.enums.find? n).getD [] =
      Distinct.addAll id ((c.enums.find? n).getD []) (stringsAt o route values)

section

variable {o : Options} {d c c' c'' : Catalog} {values values' : List (Route × Json)}

theorem holds_of_nothing (hv : ∀ route, objectsAt route values = [])
    (hs : ∀ route, stringsAt o route values = []) : Holds o d c c values where
  interfaces _ := by rw [hv]; rfl
  enums _ := by rw [hs]; rfl

/-- Walks one after the other. -/
theorem Holds.append (h : Holds o d c c' values) (h' : Holds o d c' c'' values') :
    Holds o d c c'' (values ++ values') where
  interfaces hn := by
    rw [h'.interfaces hn, h.interfaces hn, objectsAt_append, List.getLast?_append, Option.map_or,
      Option.or_assoc]
  enums hn := by
    rw [h'.enums hn, h.enums hn, stringsAt_append, Distinct.addAll_append]

/-- Only the contents before, and the objects and strings among the values count. -/
theorem Holds.congr (h : Holds o d c' c'' values) (hi : c'.interfaces = c.interfaces)
    (he : c'.enums = c.enums)
    (hv : ∀ route, objectsAt route values' = objectsAt route values)
    (hs : ∀ route, stringsAt o route values' = stringsAt o route values) :
    Holds o d c c'' values' where
  interfaces hn := by rw [h.interfaces hn, hi, hv]
  enums hn := by rw [h.enums hn, he, hs]

/-- An array of strings. -/
theorem holds_addEnum (hw : d.WellNamed) {route : Route} {place : Int}
    (hp : c.placeAt? route = some place) {candidate : String} {items : List Json}
    {strings : List Text} (hv : Walk.enumValues? o items = some strings)
    (hg : Grows (c.addEnum place candidate strings).2 d) :
    Holds o d c (c.addEnum place candidate strings).2 ((Json.array items).nodes route) where
  interfaces {route' n} _ := by
    rw [objectsAt_array, mem_of_enumValues? hv, objectsAt_nodesOfItems_strings, addEnum_interfaces]
    rfl
  enums {route' n} hn := by
    rw [stringsAt_array, hv, mem_of_enumValues? hv, stringsAt_nodesOfItems_strings, List.append_nil,
      Option.getD_some]
    have hown := hg.nameAt? (nameAt?_addEnum hp candidate strings)
    by_cases hr : route = route'
    · subst hr
      cases hown.symm.trans hn
      rw [if_pos rfl, addEnum_snd, addEnum_fst, Table.find?_put, if_pos rfl, Option.getD_some]
    · have hne : n ≠ (c.addEnum place candidate strings).1 := by
        rintro rfl
        exact hr (hw.nameAt?_inj hown hn)
      rw [if_neg hr, find?_addEnum_of_ne hne]
      rfl

/-- An object that has been walked, between the naming of its interface and the end. -/
theorem Holds.object (hw : d.WellNamed) {place : Int} {candidate : String} {route : Route}
    {members : List (Text × Json)}
    (hname : d.nameAt? .interface route = some (c.openInterface place candidate).1)
    (h : Holds o d (c.openInterface place candidate).2 c' (nodesOfMembers route members)) :
    Holds o d c (c'.setProperties (c.openInterface place candidate).1
      (Table.ofList (propertiesUnder o d.named route members)))
      ((Json.object members).nodes route) where
  interfaces {route' n} hn := by
    rw [objectsAt_nodes_object, Catalog.setProperties, Table.find?_put]
    by_cases hr : route' = route
    · subst hr
      cases hname.symm.trans hn
      rw [if_pos rfl, if_pos rfl]
      rfl
    · have hne : n ≠ (c.openInterface place candidate).1 := by
        rintro rfl
        exact hr (hw.nameAt?_inj hn hname)
      rw [if_neg hne, if_neg hr, h.interfaces hn, find?_openInterface_of_ne hne]
  enums hn := by
    rw [stringsAt_object, Catalog.setProperties, h.enums hn, openInterface_enums]

end

theorem holds_rules (o : Options) {d : Catalog} (hw : d.WellNamed) : Walk.Rules o
    (fun _ place c v _ c' => ∀ route, c.placeAt? route = some place → Grows c' d →
      Holds o d c c' (v.nodes route))
    (fun _ place c items _ c' => ∀ route, c.placeAt? route = some place → Grows c' d →
      Holds o d c c' (nodesOfItems route items))
    (fun _ place c members _ c' => ∀ route, c.placeAt? route = some place → Grows c' d →
      Holds o d c c' (nodesOfMembers route members)) where
  leaf ht _ _ _ := holds_of_nothing (fun _ => objectsAt_leaf ht _ _) fun _ => stringsAt_leaf ht _ _
  strings _ hv _ hp hg := holds_addEnum hw hp hv hg
  array {_ place c _ _ _} _ hv _ ih route hp hg := by
    refine (ih _ (placeAt?_place hp .item) hg).congr (place_interfaces c place _)
      (place_enums c place _) (fun _ => objectsAt_array _ _ _) fun route' => ?_
    rw [stringsAt_array, hv]
    simp
  object {name place c _ _ _} hmembers ih route hp hg := by
    have hopen := grows_openInterface c place (Text.typeName name)
    have hset := (grows_setProperties _ _ _).trans hg
    have hg₁ := ((edits_rules o).of_typesOfMembers hmembers).grows.trans hset
    have hname := hg₁.nameAt? (nameAt?_openInterface hp (Text.typeName name))
    rw [(typeUnder_rules o d).of_typesOfMembers hmembers route (hopen.placeAt? hp) hset]
    exact (ih route (hopen.placeAt? hp) hset).object hw hname
  noItems _ _ _ := holds_of_nothing (fun _ => rfl) fun _ => rfl
  item hv hrest ihv ihrest route hp hg := by
    have hg₁ := ((edits_rules o).of_typeAt hv).grows
    have hg₂ := ((edits_rules o).of_typesOfItems hrest).grows
    exact (ihv route hp (hg₂.trans hg)).append (ihrest route (hg₁.placeAt? hp) hg)
  noMembers _ _ _ := holds_of_nothing (fun _ => rfl) fun _ => rfl
  member {_ place c key _ _ _ _ _ _} hv hrest ihv ihrest route hp hg := by
    have hg₁ := (grows_place c place (.member key)).trans ((edits_rules o).of_typeAt hv).grows
    have hg₂ := ((edits_rules o).of_typesOfMembers hrest).grows
    exact ((ihv _ (placeAt?_place hp _) (hg₂.trans hg)).append
      (ihrest route (hg₁.placeAt? hp) hg)).congr (place_interfaces c place _)
      (place_enums c place _) (fun _ => rfl) fun _ => rfl

/-! ## Whole documents -/

section

variable (o : Options) (v : Json) (name : String)

/-- The type of a document is read off it with the names that the walk has given. -/
theorem typeOf_eq_typeUnder :
    (typeOf o v name {}).1 = typeUnder o (typeOf o v name {}).2.named [] v := by
  rw [Walk.typeOf_eq_typeAt]
  exact (typeUnder_rules o _).value name rootPlace {} v [] rfl (.refl _)

theorem holds_typeOf : Holds o (typeOf o v name {}).2 {} (typeOf o v name {}).2 (v.nodes []) := by
  have hw := wellNamed_typeOf o v name
  rw [Walk.typeOf_eq_typeAt] at hw ⊢
  exact (holds_rules o hw).value name rootPlace {} v [] rfl (.refl _)

variable {o v name} {route : Route} {n : String}

theorem interfaces_typeOf (h : (typeOf o v name {}).2.nameAt? .interface route = some n) :
    (typeOf o v name {}).2.interfaces.find? n =
      (objectsAt route (v.nodes [])).getLast?.map fun members =>
        Table.ofList (propertiesUnder o (typeOf o v name {}).2.named route members) := by
  rw [(holds_typeOf o v name).interfaces h, Table.find?_empty, Option.or_none]

/-- After a walk an enum holds the strings of the arrays at its route, each once and in order. -/
theorem enums_typeOf (h : (typeOf o v name {}).2.nameAt? .enum route = some n) :
    (typeOf o v name {}).2.enums.find? n =
      some (Distinct.ofList id (stringsAt o route (v.nodes []))) := by
  have hvalues := (holds_typeOf o v name).enums h
  have hmem := (wellNamed_typeOf o v name).mem_declared h
  cases hn : (typeOf o v name {}).2.enums.find? n with
  | none => exact absurd hmem ((Table.find?_eq_none_iff _ _).1 hn)
  | some values =>
    rw [hn] at hvalues
    exact congrArg some hvalues

end

end TypeSketch
