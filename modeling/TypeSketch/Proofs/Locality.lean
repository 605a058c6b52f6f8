import TypeSketch.Proofs.Order

/-!
# What a walk leaves alone

One catalog can take up several documents. A walk then comes upon what earlier walks have entered.
It shares the places that both documents have, and with them the names and the declarations.

**Contents** (`content?`). An interface holds its properties and an enum holds its values.

**Theorem** (`confined_rules`). A walk changes the content of a declaration only if that belongs to
a route at which a value needs it (`Confined`).

**Theorem** (`typeOf_local`). In a catalog that was filled in any way, a walk keeps all places,
names and declarations, and what is new comes behind them. Enums only get more values. A declaration
holds something else afterwards only if the document has an object, or an array of strings, at the
place of the declaration.
-/

namespace TypeSketch

open Catalog Json

/-! ## Contents -/

/-- What a declaration of a kind holds. -/
abbrev Kind.Content : Kind → Type
  | .interface => Properties
  | .enum => List Text

/-- What the declaration of a name holds. -/
def Catalog.content? (c : Catalog) : (kind : Kind) → String → Option kind.Content
  | .interface, name => c.interfaces.find? name
  | .enum, name => c.enums.find? name

theorem content?_place (c : Catalog) (parent : Int) (step : Step) (kind : Kind) (name : String) :
    (c.place parent step).2.content? kind name = c.content? kind name := by
  cases kind with
  | interface => exact congrArg (Table.find? · name) (place_interfaces c parent step)
  | enum => exact congrArg (Table.find? · name) (place_enums c parent step)

/-! ## Changes -/

/-- Contents change only at routes where one of the values needs the declaration. -/
def Confined (o : Options) (c c' : Catalog) (values : List (Route × Json)) : Prop :=
  ∀ kind name, c'.content? kind name ≠ c.content? kind name →
    ∃ route ∈ routesOf o kind values, c'.nameAt? kind route = some name

variable {o : Options} {c c' c'' : Catalog}

theorem confined_refl (o : Options) (c : Catalog) (values : List (Route × Json)) :
    Confined o c c values := fun _ _ hne => absurd rfl hne

/-- Walks one after the other. -/
theorem Confined.append {values values' : List (Route × Json)} (hg : Grows c' c'')
    (h : Confined o c c' values) (h' : Confined o c' c'' values') :
    Confined o c c'' (values ++ values') := by
  intro kind name hne
  rw [routesOf_append]
  by_cases hsame : c''.content? kind name = c'.content? kind name
  · obtain ⟨route, hr, hn⟩ := h kind name (hsame ▸ hne)
    exact ⟨route, List.mem_append_left _ hr, hg.nameAt? hn⟩
  · obtain ⟨route, hr, hn⟩ := h' kind name hsame
    exact ⟨route, List.mem_append_right _ hr, hn⟩

/-- Only contents and routes count. -/
theorem Confined.congr {values values' : List (Route × Json)} (h : Confined o c' c'' values)
    (hc : ∀ kind name, c'.content? kind name = c.content? kind name)
    (hv : ∀ kind, routesOf o kind values' = routesOf o kind values) : Confined o c c'' values' := by
  intro kind name hne
  rw [hv]
  exact h kind name (hc kind name ▸ hne)

theorem confined_addEnum {route : Route} {place : Int} (hp : c.placeAt? route = some place)
    (candidate : String) {items : List Json} {values : List Text} (hne : items ≠ [])
    (hv : Walk.enumValues? o items = some values) :
    Confined o c (c.addEnum place candidate values).2 ((Json.array items).nodes route) := by
  intro kind name hchange
  rw [routesOf_array_of_some hne hv]
  cases kind with
  | interface => exact absurd (congrArg (Table.find? · name) (addEnum_interfaces c _ _ _)) hchange
  | enum =>
    by_cases hname : name = (c.addEnum place candidate values).1
    · exact ⟨route, List.mem_singleton_self route, hname ▸ nameAt?_addEnum hp candidate values⟩
    · exact absurd (find?_addEnum_of_ne hname) hchange

/-- An object that has been walked, between the naming of its interface and the end. -/
theorem Confined.object {place : Int} {candidate : String} {route : Route}
    {members : List (Text × Json)}
    (hname : c'.nameAt? .interface route = some (c.openInterface place candidate).1)
    (h : Confined o (c.openInterface place candidate).2 c' (nodesOfMembers route members))
    (properties : Properties) :
    Confined o c (c'.setProperties (c.openInterface place candidate).1 properties)
      ((Json.object members).nodes route) := by
  intro kind name hchange
  simp only [routesOf_object, nameAt?_setProperties]
  set opened := (c.openInterface place candidate).2
  -- Apart from the interface itself, whatever changes does so while the members are walked.
  have inside (hne : c'.content? kind name ≠ opened.content? kind name) :
      ∃ r ∈ (if kind = .interface then [route] else []) ++
        routesOf o kind (nodesOfMembers route members), c'.nameAt? kind r = some name := by
    obtain ⟨r, hr, hn⟩ := h kind name hne
    exact ⟨r, List.mem_append_right _ hr, hn⟩
  cases kind with
  | interface =>
    by_cases hown : name = (c.openInterface place candidate).1
    · exact ⟨route, List.mem_append_left _ (List.mem_singleton_self route), hown ▸ hname⟩
    · refine inside fun he => hchange ?_
      have hput : (c'.interfaces.put (c.openInterface place candidate).1 properties).find? name =
          c'.interfaces.find? name := by rw [Table.find?_put, if_neg hown]
      exact (hput.trans he).trans (find?_openInterface_of_ne hown)
  | enum =>
    refine inside fun he => hchange ?_
    exact he.trans (congrArg (Table.find? · name) (openInterface_enums c place candidate))

theorem confined_rules (o : Options) : Walk.Rules o
    (fun _ place c v _ c' => ∀ route, c.placeAt? route = some place →
      Confined o c c' (v.nodes route))
    (fun _ place c items _ c' => ∀ route, c.placeAt? route = some place →
      Confined o c c' (nodesOfItems route items))
    (fun _ place c members _ c' => ∀ route, c.placeAt? route = some place →
      Confined o c c' (nodesOfMembers route members)) where
  leaf _ _ _ := confined_refl o _ _
  strings hne hv route hp := confined_addEnum hp _ hne hv
  array {_ place c _ _ _} hne hv _ ih route hp :=
    (ih _ (placeAt?_place hp .item)).congr (content?_place c place .item)
      fun _ => routesOf_array_of_none hne hv route
  object {name place c _ _ _} hmembers ih route hp := by
    have hg := grows_openInterface c place (Text.typeName name)
    have he := (edits_rules o).of_typesOfMembers hmembers
    have hname := he.grows.nameAt? (nameAt?_openInterface hp (Text.typeName name))
    exact (ih route (hg.placeAt? hp)).object hname _
  noItems _ _ := confined_refl o _ _
  item hv hrest ihv ihrest route hp := by
    have hg := ((edits_rules o).of_typeAt hv).grows
    have hg' := ((edits_rules o).of_typesOfItems hrest).grows
    exact (ihv route hp).append hg' (ihrest route (hg.placeAt? hp))
  noMembers _ _ := confined_refl o _ _
  member {_ place c key _ _ _ _ _ _} hv hrest ihv ihrest route hp := by
    have hg := ((grows_place c place (.member key))).trans ((edits_rules o).of_typeAt hv).grows
    have hg' := ((edits_rules o).of_typesOfMembers hrest).grows
    exact ((ihv _ (placeAt?_place hp _)).append hg' (ihrest route (hg.placeAt? hp))).congr
      (content?_place c place _) fun _ => rfl

/-- **Locality.** A walk in a catalog that was filled in any way keeps the places, the names and the
order of the declarations, it puts what is new behind them, and an enum keeps its values in front of
those that it gets. Every declaration from before has its own place. It holds something else after
the walk only if the document has a value that needs it, at the route that leads to this place: an
object for an interface, and for an enum an array of strings, when enums are wanted. -/
theorem typeOf_local {c : Catalog} (h : Reached c) (o : Options) (v : Json) (name : String) :
    let c' := (typeOf o v name c).2
    Grows c c' ∧ ∀ kind, ∀ n ∈ c.declared kind, ∃ place, c.names.find? (kind, place) = some n ∧
      (c'.content? kind n ≠ c.content? kind n →
        ∃ route ∈ routesOf o kind (v.nodes []), c'.placeAt? route = some place) := by
  intro c'
  have hc' : c' = (Walk.typeAt o name rootPlace c v).2 := by rw [← Walk.typeOf_eq_typeAt]
  have hg : Grows c c' := hc' ▸ ((edits_rules o).value name rootPlace c v).grows
  have hw : c.WellNamed := wellNamed_empty.edits h.edits
  have hw' : c'.WellNamed := wellNamed_empty.edits (h.typeOf o v name).edits
  have hconfined : Confined o c c' (v.nodes []) :=
    hc' ▸ (confined_rules o).value name rootPlace c v [] rfl
  refine ⟨hg, fun kind n hn => ?_⟩
  obtain ⟨place, hp⟩ : ∃ place, c.names.find? (kind, place) = some n := by
    cases kind with
    | interface => exact hw.interfaces.1 hn
    | enum => exact hw.enums.1 hn
  refine ⟨place, hp, fun hchange => ?_⟩
  obtain ⟨route, hr, hname⟩ := hconfined kind n hchange
  obtain ⟨place', hroute, hp'⟩ := Option.bind_eq_some_iff.1 hname
  cases hw'.injective (hg.find? hp) hp'
  exact ⟨route, hr, hroute⟩

/-- A catalog with an enum that has no route yet, and a walk through two members. -/
def filled : Catalog :=
  (typeOf { detectEnums := true }
    (.object [("a", .array [.string "x"]), ("b", .object [("c", .null)])]) "Root"
    (addEnum {} 4 "Tags" ["x"]).2).2

/-- A second document adds a value to one of the enums and leaves everything else alone. It meets
the place that the enum without a route was put at, and needs no enum there. -/
theorem typeOf_local_filled :
    let o : Options := { detectEnums := true }
    let v : Json := .object [("a", .array [.string "y", .string "x"]), ("d", .null)]
    let c' := (typeOf o v "Other" filled).2
    Reached filled ∧ Grows filled c' ∧
      (∀ kind, ∀ n ∈ filled.declared kind, ∃ place, filled.names.find? (kind, place) = some n ∧
        (c'.content? kind n ≠ filled.content? kind n →
          ∃ route ∈ routesOf o kind (v.nodes []), c'.placeAt? route = some place)) ∧
      filled.enums.keys = ["Tags", "RootAEnum"] ∧ c'.placeAt? [.member "d"] = some 4 ∧
      c'.enums.find? "Tags" = filled.enums.find? "Tags" ∧
      c'.enums.find? "RootAEnum" ≠ filled.enums.find? "RootAEnum" := by
  intro o v c'
  have h : Reached filled := (Reached.empty.addEnum 4 "Tags" ["x"]).typeOf _ _ _
  obtain ⟨hg, hlocal⟩ := typeOf_local h o v "Other"
  exact ⟨h, hg, hlocal, by decide +kernel⟩

end TypeSketch
