import TypeSketch.Proofs.Records
import TypeSketch.Proofs.Closure

/-!
# The order of declarations

The values of a document are met in the order in which they are written, an enclosing one before
those inside it. A declaration belongs to a route and not to a value, so it takes its place in the
catalog when the first value at its route is met that needs it (`Json.routesOf`).

**Theorem** (`lists_rules`). A walk adds to the declarations of a kind those of the new routes among
the ones it meets, in their order.

**Theorem** (`declared_in_order`). After a walk the declarations are those of the routes that need
one, each once, in the order of the document. So an object stands before everything in its members,
and a sketch is empty only if there is nothing to declare.

A route that goes on from another one by an item may come first all the same. The items of an array
have one route, and the first of them can be an array with objects in it while the second is an
object (`inner_before_outer`).
-/

namespace TypeSketch

open Catalog

/-! ## What a document declares -/

namespace Json

def isObject : Json → Bool
  | .object _ => true
  | _ => false

/-- Whether a value is an array that has strings in it and nothing else. -/
def isStringArray : Json → Bool
  | .array items => !items.isEmpty && items.all isString
  | _ => false

/-- Whether a value needs a declaration of a kind. -/
def declares (o : Options) : Kind → Json → Bool
  | .interface, v => v.isObject
  | .enum, v => o.detectEnums && v.isStringArray

/-- The routes of the values that need a declaration of a kind, in the order of the values. -/
def routesOf (o : Options) (kind : Kind) (values : List (Route × Json)) : List Route :=
  (values.filter fun value => declares o kind value.2).map Prod.fst

variable {o : Options} {kind : Kind}

@[simp] theorem routesOf_nil : routesOf o kind [] = [] := rfl

theorem routesOf_append (values values' : List (Route × Json)) :
    routesOf o kind (values ++ values') = routesOf o kind values ++ routesOf o kind values' := by
  rw [routesOf, List.filter_append, List.map_append, routesOf, routesOf]

theorem routesOf_cons (route : Route) (v : Json) (values : List (Route × Json)) :
    routesOf o kind ((route, v) :: values) =
      (if declares o kind v then [route] else []) ++ routesOf o kind values := by
  rw [routesOf, List.filter_cons]
  split <;> rfl

theorem mem_routesOf {values : List (Route × Json)} {route : Route} :
    route ∈ routesOf o kind values ↔ ∃ v, (route, v) ∈ values ∧ declares o kind v = true := by
  simp [routesOf]

theorem routesOf_eq_nil_iff {values : List (Route × Json)} :
    routesOf o kind values = [] ↔ ∀ value ∈ values, declares o kind value.2 = false := by
  simp [routesOf, List.filter_eq_nil_iff]

theorem routesOf_leaf {v : Json} {t : TypeExpr} (h : Walk.leafType? o v = some t) (route : Route) :
    routesOf o kind (v.nodes route) = [] := by
  cases v with
  | null | bool | number | string | other => cases kind <;> simp [nodes, routesOf_cons, declares,
      isObject, isStringArray]
  | array items =>
    cases items with
    | nil => cases kind <;> simp [nodes, nodesOfItems, routesOf_cons, declares, isObject,
        isStringArray]
    | cons => cases h
  | object => cases h

/-- Strings need no declaration of their own. -/
theorem routesOf_strings (route : Route) (values : List Text) :
    routesOf o kind (nodesOfItems route (values.map .string)) = [] := by
  induction values with
  | nil => rfl
  | cons s rest ih =>
    rw [List.map_cons, nodesOfItems, routesOf_append, ih, List.append_nil]
    exact routesOf_leaf (o := o) rfl route

theorem declares_enum_array {items : List Json} (hne : items ≠ []) :
    declares o .enum (.array items) = (Walk.enumValues? o items).isSome := by
  rw [isSome_enumValues?]
  cases items with
  | nil => exact absurd rfl hne
  | cons => rfl

/-- An array that makes an enum needs it, and nothing inside it needs anything. -/
theorem routesOf_array_of_some {items : List Json} (hne : items ≠ []) {values : List Text}
    (hv : Walk.enumValues? o items = some values) (route : Route) :
    routesOf o kind ((Json.array items).nodes route) = if kind = .enum then [route] else [] := by
  have hinner : routesOf o kind (nodesOfItems (route ++ [.item]) items) = [] := by
    rw [mem_of_enumValues? hv]
    exact routesOf_strings _ _
  rw [nodes, routesOf_cons, hinner, List.append_nil]
  cases kind with
  | interface => rfl
  | enum => rw [declares_enum_array hne, hv]; rfl

/-- Any other array only needs what its items need. -/
theorem routesOf_array_of_none {items : List Json} (hne : items ≠ [])
    (hv : Walk.enumValues? o items = none) (route : Route) :
    routesOf o kind ((Json.array items).nodes route) =
      routesOf o kind (nodesOfItems (route ++ [.item]) items) := by
  rw [nodes, routesOf_cons]
  cases kind with
  | interface => rfl
  | enum => rw [declares_enum_array hne, hv]; rfl

theorem routesOf_object (route : Route) (members : List (Text × Json)) :
    routesOf o kind ((Json.object members).nodes route) =
      (if kind = .interface then [route] else []) ++
        routesOf o kind (nodesOfMembers route members) := by
  rw [nodes, routesOf_cons]
  cases kind with
  | interface => rfl
  | enum => simp [declares, isStringArray]

end Json

/-! ## Lists without repetition -/

namespace Distinct

variable {α : Type*} [DecidableEq α]

theorem addAll_append (xs ys zs : List α) :
    addAll id xs (ys ++ zs) = addAll id (addAll id xs ys) zs :=
  List.foldl_append

theorem mem_addAll {xs ys : List α} {a : α} : a ∈ addAll id xs ys ↔ a ∈ xs ∨ a ∈ ys := by
  simpa using @mem_map_addAll _ _ _ id xs ys a

theorem ofList_eq_nil_iff {xs : List α} : ofList id xs = [] ↔ xs = [] := by
  simp only [List.eq_nil_iff_forall_not_mem, ofList, mem_addAll, List.not_mem_nil, false_or]

theorem addAll_map {α α' β β' : Type*} [DecidableEq β] [DecidableEq β'] {key : α → β}
    {key' : α' → β'} {g : α → α'} {p : α → Prop}
    (h : ∀ a b, p a → p b → (key' (g a) = key' (g b) ↔ key a = key b)) {xs ys : List α}
    (hxs : ∀ a ∈ xs, p a) (hys : ∀ a ∈ ys, p a) :
    addAll key' (xs.map g) (ys.map g) = (addAll key xs ys).map g := by
  induction ys generalizing xs with
  | nil => rfl
  | cons y ys ih =>
    rw [List.forall_mem_cons] at hys
    have hadd : add key' (xs.map g) (g y) = (add key xs y).map g := by
      have hmem : key' (g y) ∈ (xs.map g).map key' ↔ key y ∈ xs.map key := by
        simp only [List.mem_map, exists_exists_and_eq_and]
        exact exists_congr fun x => and_congr_right fun hx => h x y (hxs x hx) hys.1
      unfold add
      by_cases hy : key y ∈ xs.map key
      · rw [if_pos hy, if_pos (hmem.2 hy)]
      · rw [if_neg hy, if_neg (mt hmem.1 hy), List.map_append, List.map_singleton]
    have hp : ∀ a ∈ add key xs y, p a := by
      unfold add
      split
      · exact hxs
      · simpa [or_imp, forall_and] using ⟨hxs, hys.1⟩
    show addAll key' (add key' (xs.map g) (g y)) (ys.map g) = (addAll key (add key xs y) ys).map g
    rw [hadd, ih hp hys.2]

/-- What always stands before something else does so among the elements without repetition. -/
theorem sublist_ofList {xs : List α} {a b : α} (hb : b ∈ xs)
    (h : ∀ before after, xs = before ++ b :: after → a ∈ before) :
    [a, b].Sublist (ofList id xs) := by
  obtain ⟨before, after, hxs, hnot⟩ := List.eq_append_cons_of_mem hb
  have ha : a ∈ ofList id before := mem_addAll.2 (Or.inr (h before after hxs))
  have hnew : b ∉ (ofList id before).map id := by
    rw [List.map_id, ofList, mem_addAll]
    exact fun hm => hnot (hm.resolve_left List.not_mem_nil)
  obtain ⟨more, hmore⟩ := exists_addAll_eq_append id (ofList id before ++ [b]) after
  have hsplit : ofList id xs = ofList id before ++ [b] ++ more := by
    rw [hxs, ← hmore, ofList, addAll_append]
    exact congrArg (addAll id · after) (if_neg hnew)
  rw [hsplit]
  exact ((List.singleton_sublist.2 ha).append (List.Sublist.refl [b])).trans
    (List.sublist_append_left _ _)

end Distinct

/-! ## Declarations of routes -/

namespace Catalog

/-- The names that are declared as a kind, in their order. -/
def declared (c : Catalog) : Kind → List String
  | .interface => c.interfaces.keys
  | .enum => c.enums.keys

/-- The declarations of a kind are those of some routes, in the order of the routes. -/
def Lists (c : Catalog) (kind : Kind) (routes : List Route) : Prop :=
  (c.declared kind).map some = routes.map (c.nameAt? kind)

variable {c c' : Catalog} {kind : Kind} {routes : List Route}

theorem Lists.exists_name (h : c.Lists kind routes) {route : Route} (hr : route ∈ routes) :
    ∃ name ∈ c.declared kind, c.nameAt? kind route = some name := by
  have hm : c.nameAt? kind route ∈ (c.declared kind).map some := by
    rw [h]
    exact List.mem_map_of_mem hr
  obtain ⟨name, hd, he⟩ := List.mem_map.1 hm
  exact ⟨name, hd, he.symm⟩

theorem Lists.exists_route (h : c.Lists kind routes) {name : String}
    (hd : name ∈ c.declared kind) : ∃ route ∈ routes, c.nameAt? kind route = some name := by
  have hm : some name ∈ routes.map (c.nameAt? kind) := by
    rw [← h]
    exact List.mem_map_of_mem hd
  exact List.mem_map.1 hm

theorem Lists.eq_nil_iff (h : c.Lists kind routes) : c.declared kind = [] ↔ routes = [] := by
  rw [← List.map_eq_nil_iff (f := some), h, List.map_eq_nil_iff]

theorem Lists.map_nameAt? (h : c.Lists kind routes) (hg : Grows c c') :
    routes.map (c'.nameAt? kind) = (c.declared kind).map some := by
  rw [h]
  refine List.map_congr_left fun route hr => ?_
  obtain ⟨name, -, hn⟩ := h.exists_name hr
  rw [hn, hg.nameAt? hn]

theorem Lists.grow (h : c.Lists kind routes) (hg : Grows c c')
    (hd : c'.declared kind = c.declared kind) : c'.Lists kind routes := by
  rw [Lists, hd, h.map_nameAt? hg]

/-- The name of a route is declared, unless it is there. -/
theorem Lists.declare (h : c.Lists kind routes) (hg : Grows c c') (hw : c'.WellNamed)
    {route : Route} {name : String} (hn : c'.nameAt? kind route = some name)
    (hd : c'.declared kind =
      if name ∈ c.declared kind then c.declared kind else c.declared kind ++ [name]) :
    c'.Lists kind (Distinct.addAll id routes [route]) := by
  have hmem : name ∈ c.declared kind ↔ route ∈ routes.map id := by
    rw [List.map_id]
    constructor
    · intro hm
      obtain ⟨route', hr, hn'⟩ := h.exists_route hm
      exact hw.nameAt?_inj (hg.nameAt? hn') hn ▸ hr
    · intro hr
      obtain ⟨name', hm, hn'⟩ := h.exists_name hr
      cases (hg.nameAt? hn').symm.trans hn
      exact hm
  show (c'.declared kind).map some = (Distinct.add id routes route).map (c'.nameAt? kind)
  rw [hd, Distinct.add]
  by_cases hm : name ∈ c.declared kind
  · rw [if_pos hm, if_pos (show id route ∈ _ from hmem.1 hm), h.map_nameAt? hg]
  · rw [if_neg hm, if_neg (show ¬id route ∈ _ from mt hmem.2 hm), List.map_append, List.map_append,
      h.map_nameAt? hg, List.map_singleton, List.map_singleton, hn]

theorem declared_place (parent : Int) (step : Step) :
    (c.place parent step).2.declared kind = c.declared kind := by
  cases kind with
  | interface => exact congrArg Table.keys (place_interfaces c parent step)
  | enum => exact congrArg Table.keys (place_enums c parent step)

theorem declared_openInterface (place : Int) (candidate : String) :
    (c.openInterface place candidate).2.declared .interface =
      if (c.openInterface place candidate).1 ∈ c.declared .interface then c.declared .interface
      else c.declared .interface ++ [(c.openInterface place candidate).1] := by
  rw [openInterface_snd]
  exact Table.keys_putNew _ _ _

theorem declared_addEnum (place : Int) (candidate : String) (values : List Text) :
    (c.addEnum place candidate values).2.declared .enum =
      if (c.addEnum place candidate values).1 ∈ c.declared .enum then c.declared .enum
      else c.declared .enum ++ [(c.addEnum place candidate values).1] := by
  rw [addEnum_snd]
  exact Table.keys_put _ _ _

/-- Each of the two operations leaves the other kind alone. -/
theorem declared_enum_openInterface (place : Int) (candidate : String) :
    (c.openInterface place candidate).2.declared .enum = c.declared .enum := by
  rw [openInterface_snd]
  exact congrArg Table.keys (nameFor_enums _ _ _ _)

theorem declared_interface_addEnum (place : Int) (candidate : String) (values : List Text) :
    (c.addEnum place candidate values).2.declared .interface = c.declared .interface := by
  rw [addEnum_snd]
  exact congrArg Table.keys (nameFor_interfaces _ _ _ _)

/-- An interface that is there keeps its position. -/
theorem declared_setProperties (hw : c.WellNamed) {route : Route} {name : String}
    (hn : c.nameAt? .interface route = some name) (properties : Properties) :
    (c.setProperties name properties).declared kind = c.declared kind := by
  obtain ⟨place, -, hp⟩ := Option.bind_eq_some_iff.1 hn
  cases kind with
  | interface => exact (Table.keys_put _ _ _).trans (if_pos (hw.interfaces.2 ⟨place, hp⟩))
  | enum => rfl

theorem Lists.addEnum (h : c.Lists kind routes) (hw : c.WellNamed) {route : Route} {place : Int}
    (hp : c.placeAt? route = some place) (candidate : String) (values : List Text) :
    (c.addEnum place candidate values).2.Lists kind
      (Distinct.addAll id routes (if kind = .enum then [route] else [])) := by
  have hg := grows_addEnum c place candidate values
  cases kind with
  | interface => exact h.grow hg (declared_interface_addEnum _ _ _)
  | enum =>
    exact h.declare hg (hw.addEnum _ _ _) (nameAt?_addEnum hp _ _) (declared_addEnum _ _ _)

theorem Lists.openInterface (h : c.Lists kind routes) (hw : c.WellNamed) {route : Route}
    {place : Int} (hp : c.placeAt? route = some place) (candidate : String) :
    (c.openInterface place candidate).2.Lists kind
      (Distinct.addAll id routes (if kind = .interface then [route] else [])) := by
  have hg := grows_openInterface c place candidate
  cases kind with
  | interface =>
    exact h.declare hg (hw.openInterface _ _) (nameAt?_openInterface hp _)
      (declared_openInterface _ _)
  | enum => exact h.grow hg (declared_enum_openInterface _ _)

end Catalog

/-! ## Walks -/

open Json in
theorem lists_rules (o : Options) (kind : Kind) : Walk.Rules o
    (fun _ place c v _ c' => ∀ route routes, c.WellNamed → c.placeAt? route = some place →
      c.Lists kind routes →
      c'.Lists kind (Distinct.addAll id routes (routesOf o kind (v.nodes route))))
    (fun _ place c items _ c' => ∀ route routes, c.WellNamed → c.placeAt? route = some place →
      c.Lists kind routes →
      c'.Lists kind (Distinct.addAll id routes (routesOf o kind (nodesOfItems route items))))
    (fun _ place c members _ c' => ∀ route routes, c.WellNamed →
      c.placeAt? route = some place → c.Lists kind routes →
      c'.Lists kind
        (Distinct.addAll id routes (routesOf o kind (nodesOfMembers route members)))) where
  leaf ht route routes _ _ h := by
    rw [routesOf_leaf ht]
    exact h
  strings hne hv route routes hw hp h := by
    rw [routesOf_array_of_some hne hv]
    exact h.addEnum hw hp _ _
  array {_ place c _ _ _} hne hv _ ih route routes hw hp h := by
    rw [routesOf_array_of_none hne hv]
    exact ih _ routes (hw.place place .item) (placeAt?_place hp .item)
      (h.grow (grows_place c place .item) (declared_place place .item))
  object {name place c _ _ _} hmembers ih route routes hw hp h := by
    have hg := grows_openInterface c place (Text.typeName name)
    have he := (edits_rules o).of_typesOfMembers hmembers
    have hw₀ := hw.openInterface place (Text.typeName name)
    have hname := he.grows.nameAt? (nameAt?_openInterface hp (Text.typeName name))
    rw [routesOf_object, Distinct.addAll_append]
    refine (ih route _ hw₀ (hg.placeAt? hp) (h.openInterface hw hp _)).grow
      (grows_setProperties _ _ _) ?_
    exact declared_setProperties (hw₀.edits he) hname _
  noItems _ _ _ _ h := h
  item hv hrest ihv ihrest route routes hw hp h := by
    have he := (edits_rules o).of_typeAt hv
    rw [nodesOfItems, routesOf_append, Distinct.addAll_append]
    exact ihrest route _ (hw.edits he) (he.grows.placeAt? hp) (ihv route routes hw hp h)
  noMembers _ _ _ _ h := h
  member {_ place c key _ _ _ _ _ _} hv hrest ihv ihrest route routes hw hp h := by
    have he := (edits_rules o).of_typeAt hv
    have hg := grows_place c place (.member key)
    have hw₀ := hw.place place (.member key)
    rw [nodesOfMembers, routesOf_append, Distinct.addAll_append]
    exact ihrest route _ (hw₀.edits he) (he.grows.placeAt? (hg.placeAt? hp))
      (ihv _ routes hw₀ (placeAt?_place hp _) (h.grow hg (declared_place place _)))

/-! ## Objects before what is inside them -/

namespace Json

/-- Where the values of two parts stand. -/
theorem append_eq_split {α : Type*} {xs ys before after : List α} {x : α}
    (h : xs ++ ys = before ++ x :: after) :
    (∃ after', xs = before ++ x :: after') ∨ ∃ before', before = xs ++ before' ∧
      ys = before' ++ x :: after := by
  rcases List.append_eq_append_iff.1 h with ⟨zs, hb, hy⟩ | ⟨zs, hx, hzs⟩
  · exact Or.inr ⟨zs, hb, hy⟩
  · cases zs with
    | nil => exact Or.inr ⟨[], by rw [hx, List.append_nil, List.append_nil], hzs.symm⟩
    | cons z zs =>
      obtain ⟨rfl, -⟩ := List.cons.inj hzs
      exact Or.inl ⟨zs, hx⟩

/-- A route that goes on from a longer one, or from the same one by a member. -/
theorem prefix_of_prefix_append {route above rest : Route} {step : Step} {key : Text}
    (h : route ++ [step] <+: above ++ .member key :: rest) (habove : route <+: above) :
    (step = .member key ∧ above = route) ∨ route ++ [step] <+: above := by
  obtain ⟨more, rfl⟩ := habove
  rw [List.append_assoc, List.prefix_append_right_inj] at h
  cases more with
  | nil =>
    obtain ⟨rfl, -⟩ := List.cons_prefix_cons.1 h
    exact Or.inl ⟨rfl, List.append_nil route⟩
  | cons s more =>
    obtain ⟨rfl, -⟩ := List.cons_prefix_cons.1 h
    refine Or.inr ?_
    rw [List.prefix_append_right_inj]
    exact ⟨more, rfl⟩

/-- A value at a route stands before those inside it. -/
theorem exists_eq_cons_of_prefix {route above rest : Route} {step : Step} {v w : Json}
    {inner before after : List (Route × Json)} (habove : route <+: above)
    (h : (route, v) :: inner = before ++ (above ++ step :: rest, w) :: after) :
    ∃ before', before = (route, v) :: before' ∧
      inner = before' ++ (above ++ step :: rest, w) :: after := by
  cases before with
  | nil =>
    obtain ⟨he, -⟩ := Prod.mk.inj (List.cons.inj h).1
    have hlen := habove.length_le
    rw [he, List.length_append, List.length_cons] at hlen
    omega
  | cons value before' =>
    obtain ⟨rfl, hinner⟩ := List.cons.inj h
    exact ⟨before', rfl, hinner⟩

mutual

/-- Before a value whose route goes through a member there is an object at the route up to
there. -/
theorem exists_object_before {route : Route} {v : Json} {before after : List (Route × Json)}
    {above rest : Route} {key : Text} {w : Json} (habove : route <+: above)
    (h : v.nodes route = before ++ (above ++ .member key :: rest, w) :: after) :
    ∃ members, (above, .object members) ∈ before := by
  match v with
  | .null | .bool _ | .number _ | .string _ | .other =>
    obtain ⟨before', -, hinner⟩ := exists_eq_cons_of_prefix habove h
    simp at hinner
  | .array items =>
    obtain ⟨before', rfl, hinner⟩ := exists_eq_cons_of_prefix habove h
    have hroute := prefix_of_mem_nodesOfItems (hinner ▸ List.mem_append_cons_self)
    obtain ⟨hstep, -⟩ | hinside := prefix_of_prefix_append hroute habove
    · cases hstep
    · obtain ⟨members, hm⟩ := exists_object_before_items hinside hinner
      exact ⟨members, List.mem_cons_of_mem _ hm⟩
  | .object members =>
    obtain ⟨before', rfl, hinner⟩ := exists_eq_cons_of_prefix habove h
    obtain rfl | ⟨members', hm⟩ := exists_object_before_members habove hinner
    · exact ⟨members, List.mem_cons_self⟩
    · exact ⟨members', List.mem_cons_of_mem _ hm⟩

theorem exists_object_before_items {route : Route} {items : List Json}
    {before after : List (Route × Json)} {above rest : Route} {key : Text} {w : Json}
    (habove : route <+: above)
    (h : nodesOfItems route items = before ++ (above ++ .member key :: rest, w) :: after) :
    ∃ members, (above, .object members) ∈ before := by
  match items with
  | [] => simp [nodesOfItems] at h
  | item :: others =>
    obtain ⟨after', hfirst⟩ | ⟨before', rfl, hothers⟩ := append_eq_split h
    · exact exists_object_before habove hfirst
    · obtain ⟨members, hm⟩ := exists_object_before_items habove hothers
      exact ⟨members, List.mem_append_right _ hm⟩

/-- Among the members of an object the object itself may be the one. -/
theorem exists_object_before_members {route : Route} {members : List (Text × Json)}
    {before after : List (Route × Json)} {above rest : Route} {key : Text} {w : Json}
    (habove : route <+: above)
    (h : nodesOfMembers route members = before ++ (above ++ .member key :: rest, w) :: after) :
    above = route ∨ ∃ members, (above, .object members) ∈ before := by
  match members with
  | [] => simp [nodesOfMembers] at h
  | (name, v) :: others =>
    obtain ⟨after', hfirst⟩ | ⟨before', rfl, hothers⟩ := append_eq_split h
    · have hroute := prefix_of_mem_nodes (hfirst ▸ List.mem_append_cons_self)
      obtain ⟨-, he⟩ | hinside := prefix_of_prefix_append hroute habove
      · exact Or.inl he
      · exact Or.inr (exists_object_before hinside hfirst)
    · obtain he | ⟨members', hm⟩ := exists_object_before_members habove hothers
      · exact Or.inl he
      · exact Or.inr ⟨members', List.mem_append_right _ hm⟩

end

/-- The first object at a route stands before the first one of every route that goes on from there
by a member. -/
theorem sublist_ofList_routesOf {o : Options} {v : Json} {route rest : Route} {key : Text}
    (h : route ++ .member key :: rest ∈ routesOf o .interface (v.nodes [])) :
    [route, route ++ .member key :: rest].Sublist
      (Distinct.ofList id (routesOf o .interface (v.nodes []))) := by
  refine Distinct.sublist_ofList h fun before after hsplit => ?_
  obtain ⟨earlier, later, hfilter, rfl, hlater⟩ := List.map_eq_append_iff.1 hsplit
  obtain ⟨values, others, hnodes, rfl, hothers⟩ := List.filter_eq_append_iff.1 hfilter
  obtain ⟨value, more, rfl, hroute, -⟩ := List.map_eq_cons_iff.1 hlater
  obtain ⟨between, behind, rfl, hbetween, -, -⟩ := List.filter_eq_cons_iff.1 hothers
  obtain ⟨route', w⟩ := value
  cases hroute
  rw [← List.append_assoc] at hnodes
  obtain ⟨members, hm⟩ := exists_object_before (List.nil_prefix) hnodes
  rcases List.mem_append.1 hm with hm | hm
  · exact mem_routesOf.2 ⟨_, hm, rfl⟩
  · exact absurd rfl (hbetween _ hm)

end Json

/-! ## Empty sketches -/

theorem intercalate_eq_nil_iff {α : Type*} {sep : List α} {xs : List (List α)}
    (h : ∀ x ∈ xs, x ≠ []) : sep.intercalate xs = [] ↔ xs = [] := by
  cases xs with
  | nil => exact ⟨fun _ => rfl, fun _ => rfl⟩
  | cons x rest =>
    rw [TypeExpr.intercalate_cons_eq]
    simp [h x List.mem_cons_self]

theorem text_ne_nil (o : Options) (block : Block) : block.text o ≠ [] := by
  intro he
  have hhead := head_prefix_text o block
  rw [he, List.prefix_nil, Text.ofString_eq_nil_iff] at hhead
  cases block <;> simp [Block.head] at hhead

theorem text_eq_nil_iff (c : Catalog) (o : Options) : c.text o = [] ↔ c.blocks o = [] := by
  rw [Catalog.text, declarations_eq_map_text, intercalate_eq_nil_iff, List.map_eq_nil_iff]
  intro x hx
  obtain ⟨block, -, rfl⟩ := List.mem_map.1 hx
  exact text_ne_nil o block

/-! ## Whole documents -/

section

variable (o : Options) (v : Json) (name : String)

theorem wellNamed_typeOf : (typeOf o v name {}).2.WellNamed := by
  rw [Walk.typeOf_eq_typeAt]
  exact wellNamed_empty.edits ((edits_rules o).value _ _ _ _)

open Json in
theorem lists_typeOf (kind : Kind) : (typeOf o v name {}).2.Lists kind
    (Distinct.ofList id (routesOf o kind (v.nodes []))) := by
  have hempty : Catalog.Lists {} kind [] := by cases kind <;> rfl
  rw [Walk.typeOf_eq_typeAt]
  exact (lists_rules o kind).value name rootPlace {} v [] [] wellNamed_empty rfl hempty

end

theorem Catalog.WellNamed.mem_declared {c : Catalog} (hw : c.WellNamed) {kind : Kind}
    {route : Route} {name : String} (h : c.nameAt? kind route = some name) :
    name ∈ c.declared kind := by
  obtain ⟨place, -, hp⟩ := Option.bind_eq_some_iff.1 h
  cases kind with
  | interface => exact hw.interfaces.2 ⟨place, hp⟩
  | enum => exact hw.enums.2 ⟨place, hp⟩

open Json in
theorem sketch_eq_nil_iff (o : Options) (wanted : Text) (v : Json) :
    sketch o wanted v = [] ↔ ∀ kind, routesOf o kind (v.nodes []) = [] := by
  have hlists := lists_typeOf o v (RootName.ofText wanted)
  have hblocks : ((typeOf o v (RootName.ofText wanted) {}).2.blocks o).map Block.name = _ :=
    map_name_blocks fun ho => by
      rw [Walk.typeOf_eq_typeAt]
      exact (enums_rules ho).value _ _ _ _
  rw [sketch, declare, text_eq_nil_iff, ← List.map_eq_nil_iff (f := Block.name), hblocks,
    List.append_eq_nil_iff]
  have hkind (kind : Kind) := (hlists kind).eq_nil_iff.trans Distinct.ofList_eq_nil_iff
  exact ⟨fun h kind => (hkind kind).1 (by cases kind <;> simp [declared, h]),
    fun h => ⟨(hkind .enum).2 (h _), (hkind .interface).2 (h _)⟩⟩

open Json in
/-- **The order of declarations.** After a walk the declarations of a kind are those of the routes
that need one, each route once, in the order in which they are first met in the document. No other
route has a name of that kind. An interface stands before those of all routes that go on from its
own by a member. A sketch is empty only if the document has no object in it and, when enums are
wanted, no array of strings. -/
theorem declared_in_order (o : Options) (v : Json) (name : String) :
    let c := (typeOf o v name {}).2
    (∀ kind, (c.declared kind).Nodup ∧ (c.declared kind).map some =
      (Distinct.ofList id (routesOf o kind (v.nodes []))).map (c.nameAt? kind)) ∧
    (∀ kind route, (∃ n, c.nameAt? kind route = some n) ↔ route ∈ routesOf o kind (v.nodes [])) ∧
    (∀ route key rest outer inner, c.nameAt? .interface route = some outer →
      c.nameAt? .interface (route ++ .member key :: rest) = some inner →
      [outer, inner].Sublist (c.declared .interface)) ∧
    ∀ wanted, sketch o wanted v = [] ↔ (∀ value ∈ v.nodes [], value.2.isObject = false) ∧
      (o.detectEnums = false ∨ ∀ value ∈ v.nodes [], value.2.isStringArray = false) := by
  intro c
  have hw : c.WellNamed := wellNamed_typeOf o v name
  have hlists (kind : Kind) : c.Lists kind _ := lists_typeOf o v name kind
  have hnamed (kind : Kind) (route : Route) :
      (∃ n, c.nameAt? kind route = some n) ↔ route ∈ routesOf o kind (v.nodes []) := by
    constructor
    · rintro ⟨n, hn⟩
      obtain ⟨route', hr, hn'⟩ := (hlists kind).exists_route (hw.mem_declared hn)
      rw [hw.nameAt?_inj hn hn']
      exact (Distinct.mem_addAll.1 hr).resolve_left List.not_mem_nil
    · intro hr
      obtain ⟨n, -, hn⟩ := (hlists kind).exists_name (Distinct.mem_addAll.2 (Or.inr hr))
      exact ⟨n, hn⟩
  have hnodup (kind : Kind) : (c.declared kind).Nodup := by
    cases kind with
    | interface => exact c.interfaces.nodup
    | enum => exact c.enums.nodup
  refine ⟨fun kind => ⟨hnodup kind, hlists kind⟩, hnamed, ?_, fun wanted => ?_⟩
  · intro route key rest outer inner houter hinner
    have hroutes := (sublist_ofList_routesOf ((hnamed .interface _).1 ⟨inner, hinner⟩)).map
      (c.nameAt? .interface)
    rw [← hlists .interface, List.map_cons, List.map_singleton, houter, hinner] at hroutes
    obtain ⟨names, hnames, he⟩ := List.sublist_map_iff.1 hroutes
    rw [← List.map_singleton, ← List.map_cons, List.map_inj_right fun _ _ => Option.some.inj] at he
    exact he ▸ hnames
  · simp only [sketch_eq_nil_iff, routesOf_eq_nil_iff]
    constructor
    · intro h
      refine ⟨h .interface, ?_⟩
      cases ho : o.detectEnums with
      | false => exact Or.inl rfl
      | true => exact Or.inr fun value hm => by simpa [declares, ho] using h .enum value hm
    · rintro ⟨hobjects, henums⟩ kind value hm
      cases kind with
      | interface => exact hobjects value hm
      | enum =>
        rcases henums with ho | harrays
        · simp [declares, ho]
        · simp [declares, harrays value hm]

/-- An array with an object in it and then an object, as the items of one array. -/
def layered : Json := .array [.array [.object []], .object []]

/-- The route of the second object leads on to that of the first one, which is declared before. -/
theorem inner_before_outer :
    let c := (typeOf {} layered "Root" {}).2
    c.nameAt? .interface [.item] = some "RootItem" ∧
    c.nameAt? .interface ([.item] ++ [.item]) = some "RootItemItem" ∧
    c.declared .interface = ["RootItemItem", "RootItem"] ∧
    ¬["RootItem", "RootItemItem"].Sublist (c.declared .interface) := by
  decide +kernel

end TypeSketch
