import TypeSketch.Proofs.ValuesAt

/-!
# The order of members

The members of an object come in some order, and so do the declarations and the properties of an
interface. Nothing else depends on it: a route goes through a member by its key, so the values at a
route stand in the order of the arrays alone (`Reordered.valuesAt`).

Names are another matter. Of two routes that want one name the first gets it, and which is the first
may depend on the order of members. So documents are compared in which no name needs a number.

**Theorem** (`typeOf_reordered`). Documents that only differ in the order of members have the same
type and the same declarations, apart from their order and that of their properties.
-/

namespace TypeSketch

open Catalog Json

namespace Json

variable {v : Json} {route : Route}

/-! ## Reordered documents -/

/-- The keys of an object. Any other value has none. -/
def keys : Json → List Text
  | .object members => members.map Prod.fst
  | _ => []

/-- In no object of a document do two members have one key. -/
def KeysDistinct (v : Json) : Prop := ∀ value ∈ v.nodes [], value.2.keys.Nodup

instance : Decidable v.KeysDistinct :=
  inferInstanceAs (Decidable (∀ value ∈ v.nodes [], value.2.keys.Nodup))

theorem keysDistinct_iff : v.KeysDistinct ↔ ∀ route, ∀ u ∈ v.valuesAt route, u.keys.Nodup := by
  simp only [KeysDistinct, Prod.forall, mem_valuesAt]

theorem KeysDistinct.nodup (h : v.KeysDistinct) : v.keys.Nodup :=
  keysDistinct_iff.1 h [] v (List.mem_singleton_self v)

theorem KeysDistinct.of_mem_children (h : v.KeysDistinct) {step : Step} {u : Json}
    (hu : u ∈ v.children step) : u.KeysDistinct :=
  keysDistinct_iff.2 fun route _ hw =>
    keysDistinct_iff.1 h (step :: route) _ (List.mem_flatMap.2 ⟨u, hu, hw⟩)

/-- Documents that only differ in the order of the members of their objects, at any depth. -/
inductive Reordered : Json → Json → Prop
  | refl (v : Json) : Reordered v v
  | array {items items' : List Json} (hitems : List.Forall₂ Reordered items items') :
      Reordered (.array items) (.array items')
  | object {members middle members' : List (Text × Json)}
      (hkeys : middle.map Prod.fst = members.map Prod.fst)
      (hvalues : List.Forall₂ Reordered (members.map Prod.snd) (middle.map Prod.snd))
      (hperm : middle.Perm members') : Reordered (.object members) (.object members')

/-- Of members with different keys those with one key do not depend on the order. -/
theorem filter_key_eq_of_perm {members members' : List (Text × Json)}
    (hn : (members.map Prod.fst).Nodup) (h : members.Perm members') (key : Text) :
    members.filter (·.1 = key) = members'.filter (·.1 = key) := by
  have hkeys : (members.filter (·.1 = key)).map Prod.fst =
      .replicate (members.filter (·.1 = key)).length key := by
    rw [List.eq_replicate_iff]
    simp
  have hlen : (members.filter (·.1 = key)).length ≤ 1 := by
    rw [← List.nodup_replicate (a := key), ← hkeys]
    exact hn.sublist (List.filter_sublist.map _)
  have hperm := h.filter (·.1 = key)
  generalize members.filter (·.1 = key) = found at hlen hperm ⊢
  match found with
  | [] => exact hperm.nil_eq
  | [m] => exact List.singleton_perm.1 hperm
  | _ :: _ :: _ => simp at hlen

/-- Members with the same keys and reordered values, and those of them with one key. -/
theorem forall₂_children_member {members middle : List (Text × Json)}
    (h : List.Forall₂ (fun m m' => m'.1 = m.1 ∧ Reordered m.2 m'.2) members middle) (key : Text) :
    List.Forall₂ Reordered ((Json.object members).children (.member key))
      ((Json.object middle).children (.member key)) := by
  induction h with
  | nil => exact .nil
  | cons hm _ ih =>
    simp only [children, List.filter_cons, hm.1] at ih ⊢
    split
    · exact .cons hm.2 ih
    · exact ih

/-- **One step.** What is below reordered values is reordered, and stands in the same order. -/
theorem Reordered.children {w : Json} (h : v.Reordered w) (hk : v.keys.Nodup) (step : Step) :
    List.Forall₂ Reordered (v.children step) (w.children step) := by
  cases h with
  | refl => exact List.forall₂_same.2 fun u _ => .refl u
  | array hitems =>
    cases step with
    | item => exact hitems
    | member => exact .nil
  | @object members middle members' hkeys hvalues hperm =>
    cases step with
    | item => exact .nil
    | member key =>
      have hmiddle : (middle.map Prod.fst).Nodup := hkeys ▸ hk
      have hsame : (Json.object members').children (.member key) =
          (Json.object middle).children (.member key) :=
        congrArg (List.map Prod.snd) (filter_key_eq_of_perm hmiddle hperm key).symm
      rw [hsame]
      exact forall₂_children_member (forall₂_of_keys hkeys hvalues) key

/-- **All steps.** The values at a route of reordered values are reordered, and stand in the same
order. -/
theorem forall₂_flatMap_valuesAt {vs ws : List Json} (h : List.Forall₂ Reordered vs ws)
    (hk : ∀ v ∈ vs, v.KeysDistinct) (route : Route) :
    List.Forall₂ Reordered (vs.flatMap (valuesAt route)) (ws.flatMap (valuesAt route)) := by
  induction route generalizing vs ws with
  | nil => simpa [valuesAt] using h
  | cons step rest ih =>
    have hbelow :
        List.Forall₂ Reordered (vs.flatMap (children step)) (ws.flatMap (children step)) := by
      induction h with
      | nil => exact .nil
      | cons hvw _ ihs =>
        rw [List.forall_mem_cons] at hk
        exact List.rel_append (hvw.children hk.1.nodup step) (ihs hk.2)
    simp only [valuesAt, ← List.flatMap_assoc]
    refine ih hbelow fun u hu => ?_
    obtain ⟨v, hv, hu⟩ := List.mem_flatMap.1 hu
    exact (hk v hv).of_mem_children hu

theorem Reordered.valuesAt {w : Json} (h : v.Reordered w) (hk : v.KeysDistinct) (route : Route) :
    List.Forall₂ Reordered (v.valuesAt route) (w.valuesAt route) := by
  simpa using forall₂_flatMap_valuesAt (.cons h .nil) (by simpa using hk) route

/-! ## What does not depend on the order -/

section

variable {o : Options} {names : Kind → Route → String}

/-- Strings have no members, so an array of them stays the same. -/
theorem enumValues?_eq_of_reordered {items items' : List Json}
    (h : List.Forall₂ Reordered items items') :
    Walk.enumValues? o items' = Walk.enumValues? o items := by
  have hstrings : Walk.strings? items' = Walk.strings? items := by
    induction h with
    | nil => rfl
    | @cons v w _ _ hvw _ ih =>
      cases hvw with
      | refl => cases v <;> simp only [Walk.strings?, ih]
      | array | object => rfl
  rw [Walk.enumValues?, hstrings, Walk.enumValues?]

theorem Reordered.enumStrings_eq {w : Json} (h : v.Reordered w) :
    w.enumStrings o = v.enumStrings o := by
  cases h with
  | refl | object => rfl
  | array hitems => rw [enumStrings, enumStrings, enumValues?_eq_of_reordered hitems]

theorem Reordered.declares_eq {w : Json} (h : v.Reordered w) (kind : Kind) :
    declares o kind w = declares o kind v := by
  cases h with
  | refl => rfl
  | object => cases kind <;> rfl
  | @array items items' hitems =>
    cases kind with
    | interface => rfl
    | enum =>
      by_cases hne : items = []
      · subst hne
        rw [List.forall₂_nil_left_iff.1 hitems]
      · rw [declares_enum_array hne, declares_enum_array (ne_nil_of_forall₂ hitems hne),
          enumValues?_eq_of_reordered hitems]

mutual

theorem Reordered.typeUnder_eq {v w : Json} (h : v.Reordered w) (route : Route) :
    typeUnder o names route w = typeUnder o names route v := by
  match v with
  | .null | .bool _ | .number _ | .string _ | .other => cases h; rfl
  | .object _ => cases h <;> rfl
  | .array [] =>
    cases h with
    | refl => rfl
    | array hitems => rw [List.forall₂_nil_left_iff.1 hitems]
  | .array (item :: rest) =>
    cases h with
    | refl => rfl
    | array hitems =>
      have hne := List.cons_ne_nil item rest
      rw [typeUnder_array hne, typeUnder_array (ne_nil_of_forall₂ hitems hne),
        enumValues?_eq_of_reordered hitems, map_typeUnder_eq_of_reordered hitems]

theorem map_typeUnder_eq_of_reordered {items items' : List Json}
    (h : List.Forall₂ Reordered items items') (route : Route) :
    items'.map (typeUnder o names route) = items.map (typeUnder o names route) := by
  match items with
  | [] => rw [List.forall₂_nil_left_iff.1 h]
  | item :: rest =>
    cases h with
    | cons hv hrest =>
      rw [List.map_cons, List.map_cons, hv.typeUnder_eq route,
        map_typeUnder_eq_of_reordered hrest route]

end

theorem propertiesUnder_eq_of_reordered {members middle : List (Text × Json)}
    (h : List.Forall₂ (fun m m' => m'.1 = m.1 ∧ Reordered m.2 m'.2) members middle)
    (route : Route) :
    propertiesUnder o names route middle = propertiesUnder o names route members := by
  induction h with
  | nil => rfl
  | cons hm _ ih =>
    rw [propertiesUnder, List.map_cons, hm.1, hm.2.typeUnder_eq]
    exact congrArg _ ih

/-- The properties of an object come in the order of its members. -/
theorem perm_propertiesUnder {members members' : List (Text × Json)}
    (h : Reordered (.object members) (.object members')) (route : Route) :
    (propertiesUnder o names route members').Perm (propertiesUnder o names route members) := by
  cases h with
  | refl => exact .refl _
  | object hkeys hvalues hperm =>
    rw [← propertiesUnder_eq_of_reordered (forall₂_of_keys hkeys hvalues)]
    exact (hperm.map _).symm

theorem Reordered.needs_iff {w : Json} (h : v.Reordered w) (hk : v.KeysDistinct) {kind : Kind} :
    w.Needs o kind route ↔ v.Needs o kind route := by
  have hvalues := h.valuesAt hk route
  have key {vs ws : List Json} (hvs : List.Forall₂ Reordered vs ws) :
      (∃ u ∈ ws, declares o kind u = true) ↔ ∃ u ∈ vs, declares o kind u = true := by
    induction hvs with
    | nil => rfl
    | cons hu _ ih => simp only [List.exists_mem_cons_iff, hu.declares_eq, ih]
  rw [Json.needs_iff, Json.needs_iff, key hvalues]

theorem Reordered.stringsAt_eq {w : Json} (h : v.Reordered w) (hk : v.KeysDistinct) :
    stringsAt o route (w.nodes []) = stringsAt o route (v.nodes []) := by
  have key {vs ws : List Json} (hvs : List.Forall₂ Reordered vs ws) :
      ws.flatMap (enumStrings o) = vs.flatMap (enumStrings o) := by
    induction hvs with
    | nil => rfl
    | cons hu _ ih => rw [List.flatMap_cons, List.flatMap_cons, hu.enumStrings_eq, ih]
  rw [stringsAt_nodes, stringsAt_nodes, key (h.valuesAt hk route)]

/-- The last objects at a route are reordered, too. -/
theorem Reordered.exists_getLast? {w : Json} (h : v.Reordered w) (hk : v.KeysDistinct)
    {members : List (Text × Json)}
    (hlast : (objectsAt route (v.nodes [])).getLast? = some members) :
    ∃ members', (objectsAt route (w.nodes [])).getLast? = some members' ∧
      Reordered (.object members) (.object members') := by
  have hobjects : List.Forall₂ (fun m m' => Reordered (.object m) (.object m'))
      (objectsAt route (v.nodes [])) (objectsAt route (w.nodes [])) := by
    rw [objectsAt_nodes, objectsAt_nodes]
    have hvalues := h.valuesAt hk route
    generalize v.valuesAt route = vs, w.valuesAt route = ws at hvalues
    induction hvalues with
    | nil => exact .nil
    | @cons v w _ _ hu _ ih =>
      cases hu with
      | refl =>
        cases v with
        | object => exact .cons (.refl _) ih
        | _ => exact ih
      | array => exact ih
      | object hkeys hvalues hperm => exact .cons (.object hkeys hvalues hperm) ih
  obtain ⟨before, hsplit⟩ := List.getLast?_eq_some_iff.1 hlast
  rw [hsplit] at hobjects
  obtain ⟨before', members', after', hsplit', hm, hafter⟩ := exists_split_of_forall₂ hobjects
  rw [List.forall₂_nil_left_iff.1 hafter] at hsplit'
  exact ⟨members', List.getLast?_eq_some_iff.2 ⟨before', hsplit'⟩, hm⟩

end

end Json

/-! ## Whole documents -/

/-- Pairs with different keys stand in a table as they came. -/
theorem Table.entries_ofList {α β : Type*} [DecidableEq α] {l : List (α × β)}
    (h : (l.map Prod.fst).Nodup) : (Table.ofList l).entries = l := by
  induction l using List.reverseRecOn with
  | nil => rfl
  | append_singleton l e ih =>
    rw [List.map_append, List.nodup_append] at h
    have hl := ih h.1
    have hput : Table.ofList (l ++ [e]) = (Table.ofList l).put e.1 e.2 := List.foldl_concat ..
    rw [hput, Table.entries_put_of_not_mem, hl]
    rw [Table.keys, hl]
    exact fun hm => h.2.2 _ hm _ List.mem_cons_self rfl

section

variable {o : Options} {v : Json} {root : String}

theorem Json.KeysDistinct.nodup_of_getLast? (hk : v.KeysDistinct) {route : Route}
    {members : List (Text × Json)} (h : (objectsAt route (v.nodes [])).getLast? = some members) :
    (members.map Prod.fst).Nodup :=
  keysDistinct_iff.1 hk route _ (mem_valuesAt_of_getLast? h)

variable {w : Json} (h : v.Reordered w) (hk : v.KeysDistinct)
  (hplain : Unnumbered o root (typeOf o v root {}).2)

include h hk hplain

theorem Unnumbered.of_reordered : Unnumbered o root (typeOf o w root {}).2 := by
  rw [unnumbered_iff] at hplain ⊢
  intro kind route kind' route' hr hr'
  exact hplain _ _ _ _ ((h.needs_iff hk).1 hr) ((h.needs_iff hk).1 hr')

theorem nameAt?_eq_of_reordered (kind : Kind) (route : Route) :
    (typeOf o w root {}).2.nameAt? kind route = (typeOf o v root {}).2.nameAt? kind route := by
  by_cases hr : v.Needs o kind route
  · rw [hplain.nameAt? hr, (hplain.of_reordered h hk).nameAt? ((h.needs_iff hk).2 hr)]
  · have hnone {u : Json} (hu : ¬u.Needs o kind route) :
        (typeOf o u root {}).2.nameAt? kind route = none := by
      rw [← exists_nameAt?_iff o u root] at hu
      exact Option.eq_none_iff_forall_ne_some.2 fun n hn => hu ⟨n, hn⟩
    rw [hnone hr, hnone (mt (h.needs_iff hk).1 hr)]

theorem named_eq_of_reordered : (typeOf o w root {}).2.named = (typeOf o v root {}).2.named := by
  funext kind route
  rw [Catalog.named, nameAt?_eq_of_reordered h hk hplain, Catalog.named]

theorem perm_declared_of_reordered (kind : Kind) :
    ((typeOf o w root {}).2.declared kind).Perm ((typeOf o v root {}).2.declared kind) := by
  have hnodup (c : Catalog) : (c.declared kind).Nodup := by
    cases kind with
    | interface => exact c.interfaces.nodup
    | enum => exact c.enums.nodup
  rw [List.perm_ext_iff_of_nodup (hnodup _) (hnodup _)]
  intro name
  simp only [mem_declared_typeOf, nameAt?_eq_of_reordered h hk hplain]

theorem perm_properties_of_reordered {name : String} {properties : Properties}
    (hp : (typeOf o v root {}).2.interfaces.find? name = some properties) : ∃ properties',
      (typeOf o w root {}).2.interfaces.find? name = some properties' ∧
      properties'.entries.Perm properties.entries := by
  obtain ⟨route, hn⟩ : ∃ route, (typeOf o v root {}).2.nameAt? .interface route = some name :=
    (mem_declared_typeOf _ _ _).1 (List.mem_map_of_mem (Table.mem_of_find? hp))
  have hn' := (nameAt?_eq_of_reordered h hk hplain .interface route).trans hn
  rw [interfaces_typeOf hn] at hp
  obtain ⟨members, hlast, rfl⟩ := Option.map_eq_some_iff.1 hp
  obtain ⟨members', hlast', hmembers⟩ := h.exists_getLast? hk hlast
  set names := (typeOf o v root {}).2.named with hnames
  have hperm : (propertiesUnder o names route members').Perm
      (propertiesUnder o names route members) := perm_propertiesUnder hmembers route
  have hnodup : ((propertiesUnder o names route members).map Prod.fst).Nodup := by
    rw [propertiesUnder, List.map_map]
    exact hk.nodup_of_getLast? hlast
  refine ⟨_, (interfaces_typeOf hn').trans (congrArg (Option.map _) hlast'), ?_⟩
  rw [named_eq_of_reordered h hk hplain, ← hnames, Table.entries_ofList hnodup,
    Table.entries_ofList ((hperm.map Prod.fst).nodup_iff.2 hnodup)]
  exact hperm

theorem enums_eq_of_reordered (name : String) :
    (typeOf o w root {}).2.enums.find? name = (typeOf o v root {}).2.enums.find? name := by
  by_cases hd : ∃ route, (typeOf o v root {}).2.nameAt? .enum route = some name
  · obtain ⟨route, hn⟩ := hd
    have hn' := (nameAt?_eq_of_reordered h hk hplain .enum route).trans hn
    rw [enums_typeOf hn, enums_typeOf hn', h.stringsAt_eq hk]
  · have hnone (u : Json) (hu : ¬∃ route, (typeOf o u root {}).2.nameAt? .enum route = some name) :
        (typeOf o u root {}).2.enums.find? name = none :=
      (Table.find?_eq_none_iff _ _).2 fun hm => hu ((mem_declared_typeOf _ _ _).1 hm)
    rw [hnone v hd, hnone w]
    simpa only [nameAt?_eq_of_reordered h hk hplain] using hd

end

/-- **The order of members.** Of two documents one is the other with the members of its objects in
another order, and no object has a key twice. If no name in the walk through the first has a number,
then none has one in the walk through the second. Both have the same type, the same interfaces with
the same properties, and the same enums with the same values in the same order. Only the order of
the declarations and of the properties may be another. -/
theorem typeOf_reordered (o : Options) (v w : Json) (root : String) (hk : v.KeysDistinct)
    (h : v.Reordered w) (hplain : Unnumbered o root (typeOf o v root {}).2) :
    let found := typeOf o v root {}
    let found' := typeOf o w root {}
    Unnumbered o root found'.2 ∧ found'.1 = found.1 ∧
    found'.2.interfaces.keys.Perm found.2.interfaces.keys ∧
    (∀ name properties, found.2.interfaces.find? name = some properties → ∃ properties',
      found'.2.interfaces.find? name = some properties' ∧
      properties'.entries.Perm properties.entries) ∧
    found'.2.enums.keys.Perm found.2.enums.keys ∧
    ∀ name, found'.2.enums.find? name = found.2.enums.find? name := by
  intro found found'
  refine ⟨hplain.of_reordered h hk, ?_, perm_declared_of_reordered h hk hplain .interface,
    fun _ _ => perm_properties_of_reordered h hk hplain,
    perm_declared_of_reordered h hk hplain .enum, enums_eq_of_reordered h hk hplain⟩
  calc found'.1 = typeUnder o found'.2.named [] w := typeOf_eq_typeUnder o w root
    _ = typeUnder o found.2.named [] w := by rw [named_eq_of_reordered h hk hplain]
    _ = typeUnder o found.2.named [] v := h.typeUnder_eq []
    _ = found.1 := (typeOf_eq_typeUnder o v root).symm

/-- Two objects at one route, with an array of strings each, and an object elsewhere. -/
def shelf : Json :=
  .object [("books", .array [
      .object [("id", .number (.integer 1)), ("tags", .array [.string "old"])],
      .object [("tags", .array [.string "red", .string "old"]), ("id", .null)]]),
    ("room", .object [("floor", .bool true), ("name", .string "A")])]

/-- The shelf with the members of all its objects the other way round. -/
def shelfTurned : Json :=
  .object [("room", .object [("name", .string "A"), ("floor", .bool true)]),
    ("books", .array [
      .object [("tags", .array [.string "old"]), ("id", .number (.integer 1))],
      .object [("id", .null), ("tags", .array [.string "red", .string "old"])]])]

/-- The turned shelf declares the same, with the room in front of the books. -/
theorem typeOf_reordered_shelf :
    let o : Options := { detectEnums := true }
    let found := typeOf o shelf "Shelf" {}
    let found' := typeOf o shelfTurned "Shelf" {}
    shelf.KeysDistinct ∧ shelf.Reordered shelfTurned ∧ Unnumbered o "Shelf" found.2 ∧
    (Unnumbered o "Shelf" found'.2 ∧ found'.1 = found.1 ∧
      found'.2.interfaces.keys.Perm found.2.interfaces.keys ∧
      (∀ name properties, found.2.interfaces.find? name = some properties → ∃ properties',
        found'.2.interfaces.find? name = some properties' ∧
        properties'.entries.Perm properties.entries) ∧
      found'.2.enums.keys.Perm found.2.enums.keys ∧
      ∀ name, found'.2.enums.find? name = found.2.enums.find? name) ∧
    found.2.interfaces.keys = ["Shelf", "ShelfBooksItem", "ShelfRoom"] ∧
    found'.2.interfaces.keys = ["Shelf", "ShelfRoom", "ShelfBooksItem"] ∧
    found.2.enums.find? "ShelfBooksItemTagsEnum" = some (["old", "red"].map Text.ofString) := by
  intro o found found'
  have hk : shelf.KeysDistinct := by decide +kernel
  have h : shelf.Reordered shelfTurned := by
    refine @Reordered.object _ (List.reverse _) _ rfl
      (.cons (.array (.cons ?_ (.cons ?_ .nil))) (.cons ?_ .nil)) (List.reverse_perm _)
    all_goals exact .object rfl (List.forall₂_same.2 fun u _ => .refl u) (.swap _ _ [])
  have hapart : ∀ kind kind', ∀ r ∈ routesOf o kind (shelf.nodes []),
      ∀ r' ∈ routesOf o kind' (shelf.nodes []),
      plainName o "Shelf" kind r = plainName o "Shelf" kind' r' → kind = kind' ∧ r = r' := by
    intro kind kind'
    cases kind <;> cases kind' <;> decide +kernel
  have hplain : Unnumbered o "Shelf" found.2 := (unnumbered_iff o shelf "Shelf").2
    fun kind route kind' route' hr hr' => hapart kind kind' route hr route' hr'
  exact ⟨hk, h, hplain, typeOf_reordered o shelf shelfTurned "Shelf" hk h hplain,
    by decide +kernel⟩

end TypeSketch
