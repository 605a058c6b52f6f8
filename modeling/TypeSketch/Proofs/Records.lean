import TypeSketch.Proofs.Conformance
import TypeSketch.Proofs.Naming

/-!
# What the interfaces hold

Every object of a document sets the properties of its interface, in place of those set before. The
objects at one route share an interface, so in the end it describes the last of them.

**Theorem** (`settled_rules`). A walk leaves every interface either as the last object at its route
wants it, or untouched.

**Theorem** (`typeOf_conforms`). The type of a document conforms to it, and every interface
describes the last object at its route.
-/

namespace TypeSketch

open Catalog

/-! ## Objects of a document -/

namespace Json

def members? : Json → Option (List (Text × Json))
  | .object members => some members
  | _ => none

/-- The objects at a route among some values, in their order. -/
def objectsAt (route : Route) (values : List (Route × Json)) : List (List (Text × Json)) :=
  values.filterMap fun value => if value.1 = route then value.2.members? else none

@[simp] theorem objectsAt_nil (route : Route) : objectsAt route [] = [] := rfl

theorem objectsAt_append (route : Route) (values values' : List (Route × Json)) :
    objectsAt route (values ++ values') = objectsAt route values ++ objectsAt route values' :=
  List.filterMap_append

theorem objectsAt_cons (route route' : Route) (v : Json) (values : List (Route × Json)) :
    objectsAt route ((route', v) :: values) =
      (if route' = route then v.members? else none).toList ++ objectsAt route values := by
  rw [objectsAt, List.filterMap_cons]
  split <;> simp_all [objectsAt]

mutual

theorem prefix_of_mem_nodes {route : Route} {v : Json} {value : Route × Json}
    (h : value ∈ v.nodes route) : route <+: value.1 := by
  match v with
  | .null | .bool _ | .number _ | .string _ | .other =>
    cases List.mem_singleton.1 h
    exact List.prefix_refl _
  | .array items =>
    rcases List.mem_cons.1 h with rfl | h
    · exact List.prefix_refl _
    · exact (List.prefix_append _ _).trans (prefix_of_mem_nodesOfItems h)
  | .object members =>
    rcases List.mem_cons.1 h with rfl | h
    · exact List.prefix_refl _
    · obtain ⟨key, hk⟩ := prefix_of_mem_nodesOfMembers h
      exact (List.prefix_append _ _).trans hk

theorem prefix_of_mem_nodesOfItems {route : Route} {items : List Json} {value : Route × Json}
    (h : value ∈ nodesOfItems route items) : route <+: value.1 := by
  match items with
  | [] => cases h
  | item :: rest =>
    rcases List.mem_append.1 h with h | h
    · exact prefix_of_mem_nodes h
    · exact prefix_of_mem_nodesOfItems h

theorem prefix_of_mem_nodesOfMembers {route : Route} {members : List (Text × Json)}
    {value : Route × Json} (h : value ∈ nodesOfMembers route members) :
    ∃ key, route ++ [.member key] <+: value.1 := by
  match members with
  | [] => cases h
  | (key, v) :: rest =>
    rcases List.mem_append.1 h with h | h
    · exact ⟨key, prefix_of_mem_nodes h⟩
    · exact prefix_of_mem_nodesOfMembers h

end

/-- No object inside an object is at its route. -/
theorem objectsAt_nodesOfMembers (route : Route) (members : List (Text × Json)) :
    objectsAt route (nodesOfMembers route members) = [] := by
  rw [objectsAt, List.filterMap_eq_nil_iff]
  intro value hv
  obtain ⟨key, hk⟩ := prefix_of_mem_nodesOfMembers hv
  rw [if_neg]
  rintro rfl
  have hlen := hk.length_le
  rw [List.length_append, List.length_singleton] at hlen
  omega

/-- There are no objects in strings. -/
theorem objectsAt_nodesOfItems_strings (route route' : Route) (values : List Text) :
    objectsAt route (nodesOfItems route' (values.map .string)) = [] := by
  induction values with
  | nil => rfl
  | cons s rest ih =>
    rw [List.map_cons, nodesOfItems, objectsAt_append, ih]
    simp [nodes, objectsAt_cons, members?]

/-- At the route of an object there is only the object itself, and elsewhere what is inside it. -/
theorem objectsAt_nodes_object (route route' : Route) (members : List (Text × Json)) :
    objectsAt route' ((Json.object members).nodes route) =
      if route' = route then [members] else objectsAt route' (nodesOfMembers route members) := by
  rw [nodes, objectsAt_cons]
  by_cases hr : route' = route
  · rw [if_pos hr, if_pos hr.symm, hr, objectsAt_nodesOfMembers]
    rfl
  · rw [if_neg hr, if_neg (Ne.symm hr)]
    rfl

end Json

/-! ## Descriptions -/

variable {o : Options} {c c' c'' : Catalog}

/-- The properties are those of an object: its keys where they first stand, and for each key a type
of its last value. -/
structure Describes (o : Options) (c : Catalog) (route : Route) (members : List (Text × Json))
    (properties : Properties) : Prop where
  keys : properties.keys = Distinct.ofList id (members.map Prod.fst)
  conforms {before after : List (Text × Json)} {key : Text} {v : Json}
    (h : members = before ++ (key, v) :: after) (hlast : key ∉ after.map Prod.fst) :
    ∃ t, properties.find? key = some t ∧ Conforms o c (route ++ [.member key]) v t

theorem Describes.mono (hg : Grows c c') {route : Route} {members : List (Text × Json)}
    {properties : Properties} (h : Describes o c route members properties) :
    Describes o c' route members properties where
  keys := h.keys
  conforms hm hlast := by
    obtain ⟨t, ht, hc⟩ := h.conforms hm hlast
    exact ⟨t, ht, hc.mono hg⟩

theorem keys_ofList (l : List (Text × TypeExpr)) :
    (Table.ofList l).keys = Distinct.ofList id (l.map Prod.fst) := by
  have key (t : Properties) : (l.foldl (fun t e => t.put e.1 e.2) t).keys =
      Distinct.addAll id t.keys (l.map Prod.fst) := by
    induction l generalizing t with
    | nil => rfl
    | cons e rest ih =>
      rw [List.foldl_cons, ih, Table.keys_put]
      by_cases he : e.1 ∈ t.keys <;> simp [Distinct.addAll, Distinct.add, he]
  exact key Table.empty

theorem describes_ofList {route : Route} {members : List (Text × Json)}
    {properties : List (Text × TypeExpr)} (h : List.Forall₂ (fun m e =>
      e.1 = m.1 ∧ Conforms o c (route ++ [.member m.1]) m.2 e.2) members properties) :
    Describes o c route members (Table.ofList properties) where
  keys := by
    have hkeys {ms : List (Text × Json)} {es : List (Text × TypeExpr)}
        (h : List.Forall₂ (fun m e => e.1 = m.1) ms es) : es.map Prod.fst = ms.map Prod.fst := by
      induction h with
      | nil => rfl
      | cons he _ ih => rw [List.map_cons, List.map_cons, he, ih]
    rw [keys_ofList, hkeys (h.imp fun _ _ hme => hme.1)]
  conforms {before after key v} hm hlast := by
    subst hm
    obtain ⟨before', ⟨key', t⟩, after', rfl, ⟨he, hc⟩, hrest⟩ := exists_split_of_forall₂ h
    refine ⟨t, ?_, hc⟩
    cases he
    refine Table.find?_ofList fun hmem => hlast ?_
    obtain ⟨e, hem, he⟩ := List.mem_map.1 hmem
    obtain ⟨m, hm, hme⟩ := exists_of_forall₂_of_mem hrest.flip hem
    exact List.mem_map.2 ⟨m, hm, hme.1.symm.trans he⟩

/-! ## Settled interfaces -/

open Json in
/-- What has become of the interfaces while some values were walked: those at the routes of objects
describe the last object there, and the others hold what they held. -/
structure Settled (o : Options) (c c' : Catalog) (values : List (Route × Json)) : Prop where
  described {route : Route} {members : List (Text × Json)}
    (h : (objectsAt route values).getLast? = some members) : ∃ interface properties,
      c'.nameAt? .interface route = some interface ∧
      c'.interfaces.find? interface = some properties ∧ Describes o c' route members properties
  untouched {interface : String} (h : ∀ route, c'.nameAt? .interface route = some interface →
    objectsAt route values = []) : c'.interfaces.find? interface = c.interfaces.find? interface

/-- Without objects no interface is touched. -/
theorem settled_of_no_objects {values : List (Route × Json)}
    (hv : ∀ route, Json.objectsAt route values = []) (hi : c'.interfaces = c.interfaces) :
    Settled o c c' values where
  described h := by
    rw [hv] at h
    cases h
  untouched _ := by rw [hi]

theorem Catalog.WellNamed.nameAt?_inj (hw : c.WellNamed) {kind : Kind} {route route' : Route}
    {name : String} (h : c.nameAt? kind route = some name)
    (h' : c.nameAt? kind route' = some name) : route = route' := by
  obtain ⟨place, hp, hn⟩ := Option.bind_eq_some_iff.1 h
  obtain ⟨place', hp', hn'⟩ := Option.bind_eq_some_iff.1 h'
  cases hw.injective hn hn'
  exact placeAt?_inj hp hp'

/-- Walks one after the other. What the second one does not touch is left from the first. -/
theorem Settled.append {values values' : List (Route × Json)} (hw : c''.WellNamed)
    (hg : Grows c' c'') (h : Settled o c c' values) (h' : Settled o c' c'' values') :
    Settled o c c'' (values ++ values') where
  described {route members} hlast := by
    rw [Json.objectsAt_append] at hlast
    by_cases hnone : Json.objectsAt route values' = []
    · rw [hnone, List.append_nil] at hlast
      obtain ⟨interface, properties, hn, hp, hd⟩ := h.described hlast
      refine ⟨interface, properties, hg.nameAt? hn, ?_, hd.mono hg⟩
      rw [h'.untouched, hp]
      intro route' hn'
      rw [hw.nameAt?_inj hn' (hg.nameAt? hn), hnone]
    · rw [List.getLast?_append_of_ne_nil _ hnone] at hlast
      exact h'.described hlast
  untouched {interface} hnone := by
    have hboth {route : Route} (hn : c''.nameAt? .interface route = some interface) :
        Json.objectsAt route values = [] ∧ Json.objectsAt route values' = [] := by
      rw [← List.append_eq_nil_iff, ← Json.objectsAt_append]
      exact hnone route hn
    rw [h'.untouched fun route hn => (hboth hn).2,
      h.untouched fun route hn => (hboth (hg.nameAt? hn)).1]

/-- Only the interfaces before and the objects among the values count. -/
theorem Settled.congr {values values' : List (Route × Json)} (h : Settled o c' c'' values)
    (hi : c'.interfaces = c.interfaces)
    (hv : ∀ route, Json.objectsAt route values' = Json.objectsAt route values) :
    Settled o c c'' values' where
  described hlast := by
    rw [hv] at hlast
    exact h.described hlast
  untouched hnone := by
    rw [h.untouched fun route hn => (hv route).symm.trans (hnone route hn), hi]

/-- An object that has been walked, between the naming of its interface and the end. -/
theorem Settled.object {place : Int} {candidate : String} {route : Route}
    {members : List (Text × Json)} {properties : Properties} (hw : c'.WellNamed)
    (hname : c'.nameAt? .interface route = some (c.openInterface place candidate).1)
    (h : Settled o (c.openInterface place candidate).2 c' (Json.nodesOfMembers route members))
    (hd : Describes o c' route members properties) :
    Settled o c (c'.setProperties (c.openInterface place candidate).1 properties)
      ((Json.object members).nodes route) := by
  have hgrows := grows_setProperties c' (c.openInterface place candidate).1 properties
  have hfind (name : String) :
      (c'.setProperties (c.openInterface place candidate).1 properties).interfaces.find? name =
        if name = (c.openInterface place candidate).1 then some properties
        else c'.interfaces.find? name := Table.find?_put _ _ _ _
  constructor
  · intro route' members' hlast
    rw [Json.objectsAt_nodes_object] at hlast
    split at hlast
    · next hr =>
      cases hlast
      subst hr
      exact ⟨_, properties, hgrows.nameAt? hname, by rw [hfind, if_pos rfl], hd.mono hgrows⟩
    · next hr =>
      obtain ⟨interface, properties', hn, hp, hd'⟩ := h.described hlast
      refine ⟨interface, properties', hgrows.nameAt? hn, ?_, hd'.mono hgrows⟩
      rw [hfind, if_neg, hp]
      rintro rfl
      exact hr (hw.nameAt?_inj hn hname)
  · intro name hnone
    have hne : name ≠ (c.openInterface place candidate).1 := by
      rintro rfl
      have hr := hnone route (hgrows.nameAt? hname)
      rw [Json.objectsAt_nodes_object, if_pos rfl] at hr
      cases hr
    rw [hfind, if_neg hne, h.untouched, find?_openInterface_of_ne hne]
    intro route' hn
    have hr := hnone route' (hgrows.nameAt? hn)
    rw [Json.objectsAt_nodes_object] at hr
    split at hr
    · cases hr
    · exact hr

/-! ## Walks -/

theorem settled_rules (o : Options) : Walk.Rules o
    (fun _ place c v _ c' => ∀ route, c.WellNamed → c.NamesHave WalkName →
      c.placeAt? route = some place → Settled o c c' (v.nodes route))
    (fun _ place c items _ c' => ∀ route, c.WellNamed → c.NamesHave WalkName →
      c.placeAt? route = some place → Settled o c c' (Json.nodesOfItems route items))
    (fun interface place c members _ c' => ∀ route, WalkName .interface interface →
      c.WellNamed → c.NamesHave WalkName → c.placeAt? route = some place →
      Settled o c c' (Json.nodesOfMembers route members)) where
  leaf {_ _ _ v _} ht route _ _ _ := by
    refine settled_of_no_objects ?_ rfl
    intro route'
    cases v with
    | null | bool | number | string | other => simp [Json.nodes, Json.objectsAt_cons, Json.members?]
    | array items =>
      cases items with
      | nil => simp [Json.nodes, Json.objectsAt_cons, Json.members?, Json.nodesOfItems]
      | cons => cases ht
    | object => cases ht
  strings {name place c items values} hne hv route _ _ _ := by
    refine settled_of_no_objects ?_ (by rw [addEnum_snd, nameFor_interfaces])
    intro route'
    rw [mem_of_enumValues? hv, Json.nodes, Json.objectsAt_cons, Json.objectsAt_nodesOfItems_strings]
    simp [Json.members?]
  array {name place c items types c'} hne hv hitems ih route hw hn hp := by
    have hs := ih (route ++ [.item]) (hw.place place .item) (hn.place place .item)
      (placeAt?_place hp .item)
    apply hs.congr (place_interfaces c place .item)
    intro route'
    rw [Json.nodes, Json.objectsAt_cons]
    simp [Json.members?]
  object {name place c members properties c'} hmembers ih route hw hn hp := by
    have hcandidate : WalkName .interface (Text.typeName name) :=
      (naming_walkName o).interface trivial
    obtain ⟨hn₀, hform⟩ := hn.nameFor (naming_walkName o) hcandidate place
    have hopen := grows_openInterface c place (Text.typeName name)
    have he := (edits_rules o).of_typesOfMembers hmembers
    have hw₀ := hw.openInterface place (Text.typeName name)
    have hp₀ := hopen.placeAt? hp
    have hname := he.grows.nameAt? (nameAt?_openInterface hp (Text.typeName name))
    exact (ih route hform hw₀ hn₀ hp₀).object (hw₀.edits he) hname
      (describes_ofList ((conforms_rules o).of_typesOfMembers hmembers route hform hn₀ hp₀))
  noItems route _ _ _ := settled_of_no_objects (fun _ => rfl) rfl
  item {name place c v rest t types c₁ c₂} hv hrest ihv ihrest route hw hn hp := by
    have he := (edits_rules o).of_typeAt hv
    have he' := (edits_rules o).of_typesOfItems hrest
    have hn₁ := ((walkName_rules o).of_typeAt hv hn).1
    have hw₁ := hw.edits he
    exact (ihv route hw hn hp).append (hw₁.edits he') he'.grows
      (ihrest route hw₁ hn₁ (he.grows.placeAt? hp))
  noMembers route _ _ _ _ := settled_of_no_objects (fun _ => rfl) rfl
  member {_ place c key _ _ _ _ _ _} hv hrest ihv ihrest route hi hw hn hp := by
    have he := (edits_rules o).of_typeAt hv
    have he' := (edits_rules o).of_typesOfMembers hrest
    have hplace := hn.place place (.member key)
    have hn₁ := ((walkName_rules o).of_typeAt hv hplace).1
    have hw₁ := (hw.place place (.member key)).edits he
    have hs := ihv (route ++ [.member key]) (hw.place _ _) hplace (placeAt?_place hp _)
    refine (hs.append (hw₁.edits he') he'.grows (ihrest route hi hw₁ hn₁ ?_)).congr
      (place_interfaces c place _) fun _ => rfl
    exact he.grows.placeAt? ((grows_place c place (.member key)).placeAt? hp)

/-- **Soundness.** The document is of the type that is found for it. The interface at every route to
an object describes the last object there, and every interface stands at such a route. -/
theorem typeOf_conforms (o : Options) (v : Json) (name : String) :
    let found := typeOf o v name {}
    Conforms o found.2 [] v found.1 ∧
    (∀ route members, (Json.objectsAt route (v.nodes [])).getLast? = some members →
      ∃ interface properties, found.2.nameAt? .interface route = some interface ∧
        found.2.interfaces.find? interface = some properties ∧
        Describes o found.2 route members properties) ∧
    ∀ interface ∈ found.2.interfaces.keys, ∃ route,
      found.2.nameAt? .interface route = some interface ∧
      Json.objectsAt route (v.nodes []) ≠ [] := by
  rw [Walk.typeOf_eq_typeAt]
  intro found
  have hnames := namesHave_empty WalkName
  have hs : Settled o {} found.2 (v.nodes []) :=
    (settled_rules o).value name rootPlace {} v [] wellNamed_empty hnames rfl
  refine ⟨(conforms_rules o).value name rootPlace {} v [] hnames rfl,
    fun _ _ => hs.described, fun interface hi => ?_⟩
  by_contra hnone
  have hfind := hs.untouched fun route hn => by_contra fun hne => hnone ⟨route, hn, hne⟩
  exact (Table.find?_eq_none_iff _ _).1 (hfind.trans (Table.find?_empty _)) hi

-- The second object at a route replaces what the first one set.
example : (typeOf {} (.array [.object [("a", .bool true)], .object [("b", .string "x")]]) "Root"
    {}).2.interfaces.find? "RootItem" = some (Table.ofList [("b", .string)] : Properties) := by
  decide +kernel

end TypeSketch
