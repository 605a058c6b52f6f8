import TypeSketch.Proofs.NameForm
import TypeSketch.Proofs.Routes

/-!
# Values and their types

A type is an expression, and its atoms are names of declarations. What it says about a value
depends on the catalog, which tells the names of every route and the values of every enum
(`Conforms`).

**Arrays.** The items of an array have one route. Every item is of one of the types that the array
is made of, and every one of these is the type of some item.

**Objects.** An object has the interface of its route. What that interface holds is another matter,
because a later object at the same route replaces it.

**Theorem** (`Conforms.mono`). A value stays of its type, however the catalog grows. In particular
it stays so while enums get more values.

**Theorem** (`conforms_rules`). A walk gives every value a type that the value has.
-/

namespace TypeSketch

open Catalog

/-! ## Conformance -/

/-- Whether a value at a route is of a type. -/
def Conforms (o : Options) (c : Catalog) (route : Route) (v : Json) (t : TypeExpr) : Prop :=
  match v with
  | .null => t = if o.strictNulls then .null else .any
  | .bool _ => t = .boolean
  | .number _ => t = .number
  | .string _ => t = .string
  | .array [] => t = .array .any
  | .array items =>
    if o.detectEnums && items.all Json.isString then
      ∃ enum values, c.nameAt? .enum route = some enum ∧ c.enums.find? enum = some values ∧
        t = .array (.atom enum) ∧ ∀ s, .string s ∈ items → s ∈ values
    else
      ∃ types, t = .ofItems types ∧
        (∀ (item : Json) (_ : item ∈ items),
          ∃ u ∈ TypeExpr.distinct types, Conforms o c (route ++ [.item]) item u) ∧
        ∀ u ∈ TypeExpr.distinct types,
          ∃ (item : Json) (_ : item ∈ items), Conforms o c (route ++ [.item]) item u
  | .object _ => ∃ interface, c.nameAt? .interface route = some interface ∧ t = .atom interface
  | .other => t = .any
termination_by v.size
decreasing_by
  all_goals
    have := Json.size_le_of_mem ‹_ ∈ _›
    rw [Json.size]
    omega

variable {o : Options} {c c' : Catalog}

theorem conforms_array {route : Route} {items : List Json} {t : TypeExpr} (hne : items ≠ []) :
    Conforms o c route (.array items) t ↔
    if o.detectEnums && items.all Json.isString then
      ∃ enum values, c.nameAt? .enum route = some enum ∧ c.enums.find? enum = some values ∧
        t = .array (.atom enum) ∧ ∀ s, .string s ∈ items → s ∈ values
    else
      ∃ types, t = .ofItems types ∧
        (∀ item ∈ items,
          ∃ u ∈ TypeExpr.distinct types, Conforms o c (route ++ [.item]) item u) ∧
        ∀ u ∈ TypeExpr.distinct types,
          ∃ item ∈ items, Conforms o c (route ++ [.item]) item u := by
  cases items with
  | nil => exact absurd rfl hne
  | cons item rest => rw [Conforms]; simp only [exists_prop]; simp

theorem Conforms.mono (hg : Grows c c') {route : Route} {v : Json} {t : TypeExpr}
    (h : Conforms o c route v t) : Conforms o c' route v t := by
  match v with
  | .null | .bool _ | .number _ | .string _ | .array [] | .other =>
    rw [Conforms] at h ⊢
    exact h
  | .object members =>
    rw [Conforms] at h ⊢
    obtain ⟨interface, hn, ht⟩ := h
    exact ⟨interface, hg.nameAt? hn, ht⟩
  | .array (item :: rest) =>
    rw [conforms_array (List.cons_ne_nil _ _)] at h ⊢
    split at h
    · next hs =>
      obtain ⟨enum, values, hn, hv, ht, hall⟩ := h
      obtain ⟨more, hmore⟩ := hg.values hv
      rw [if_pos hs]
      exact ⟨enum, values ++ more, hg.nameAt? hn, hmore, ht,
        fun s hs => List.mem_append_left _ (hall s hs)⟩
    · next hs =>
      obtain ⟨types, ht, hitems, hmembers⟩ := h
      rw [if_neg hs]
      refine ⟨types, ht, ?_, ?_⟩
      · intro item hi
        obtain ⟨u, hu, hc⟩ := hitems item hi
        exact ⟨u, hu, hc.mono hg⟩
      · intro u hu
        obtain ⟨item, hi, hc⟩ := hmembers u hu
        exact ⟨item, hi, hc.mono hg⟩
termination_by v.size
decreasing_by
  all_goals
    have := Json.size_le_of_mem hi
    rw [Json.size]
    omega

/-! ## Enums -/

theorem isSome_strings? (items : List Json) :
    (Walk.strings? items).isSome = items.all Json.isString := by
  induction items with
  | nil => rfl
  | cons item rest ih =>
    cases item <;> simp [Walk.strings?, Json.isString, ih]

theorem isSome_enumValues? (o : Options) (items : List Json) :
    (Walk.enumValues? o items).isSome = (o.detectEnums && items.all Json.isString) := by
  rw [Walk.enumValues?, ← isSome_strings?]
  cases o.detectEnums <;> rfl

/-- The values of an enum are the items of its array. -/
theorem mem_of_enumValues? {items : List Json} {values : List Text}
    (h : Walk.enumValues? o items = some values) : items = values.map .string := by
  have key {items : List Json} {values : List Text} (h : Walk.strings? items = some values) :
      items = values.map .string := by
    induction items generalizing values with
    | nil => cases h; rfl
    | cons item rest ih =>
      cases item with
      | string s =>
        obtain ⟨others, ho, rfl⟩ := Option.map_eq_some_iff.1 h
        rw [ih ho, List.map_cons]
      | null | bool | number | array | object | other => cases h
  unfold Walk.enumValues? at h
  split at h
  · exact key h
  · cases h

/-! ## Lists related one by one -/

theorem exists_split_of_forall₂ {α β : Type*} {r : α → β → Prop} {before after : List α} {x : α}
    {ys : List β} (h : List.Forall₂ r (before ++ x :: after) ys) : ∃ before' y after',
      ys = before' ++ y :: after' ∧ r x y ∧ List.Forall₂ r after after' := by
  induction before generalizing ys with
  | nil =>
    cases h with
    | cons hxy hrest => exact ⟨[], _, _, rfl, hxy, hrest⟩
  | cons z before ih =>
    cases h with
    | cons _ hrest =>
      obtain ⟨before', y, after', rfl, hxy, hafter⟩ := ih hrest
      exact ⟨_ :: before', y, after', rfl, hxy, hafter⟩

theorem exists_of_forall₂_of_mem {α β : Type*} {r : α → β → Prop} {xs : List α} {ys : List β}
    (h : List.Forall₂ r xs ys) {x : α} (hx : x ∈ xs) : ∃ y ∈ ys, r x y := by
  obtain ⟨before, after, rfl⟩ := List.append_of_mem hx
  obtain ⟨before', y, after', rfl, hxy, -⟩ := exists_split_of_forall₂ h
  exact ⟨y, by simp, hxy⟩

theorem ne_nil_of_forall₂ {α β : Type*} {r : α → β → Prop} {xs : List α} {ys : List β}
    (h : List.Forall₂ r xs ys) (hne : xs ≠ []) : ys ≠ [] := by
  rintro rfl
  exact hne (List.forall₂_nil_right_iff.1 h)

theorem forall₂_of_keys {α β γ : Type*} {r : β → γ → Prop} {xs : List (α × β)} {ys : List (α × γ)}
    (hkeys : ys.map Prod.fst = xs.map Prod.fst)
    (hvalues : List.Forall₂ r (xs.map Prod.snd) (ys.map Prod.snd)) :
    List.Forall₂ (fun x y => y.1 = x.1 ∧ r x.2 y.2) xs ys := by
  induction xs generalizing ys with
  | nil => rw [List.map_eq_nil_iff.1 hkeys]; exact .nil
  | cons x rest ih =>
    obtain ⟨y, rest', rfl, hkey, hrest⟩ := List.map_eq_cons_iff.1 hkeys
    cases hvalues with
    | cons hv hvs => exact .cons ⟨hkey, hv⟩ (ih hrest hvs)

/-! ## Walks -/

/-- A value that has been walked from a route is of its type there. -/
theorem conforms_rules (o : Options) : Walk.Rules o
    (fun _ place c v t c' => ∀ route, c.NamesHave WalkName → c.placeAt? route = some place →
      Conforms o c' route v t)
    (fun _ place c items types c' => ∀ route, c.NamesHave WalkName →
      c.placeAt? route = some place → List.Forall₂ (Conforms o c' route) items types)
    (fun interface place c members properties c' => ∀ route, WalkName .interface interface →
      c.NamesHave WalkName → c.placeAt? route = some place → List.Forall₂ (fun m e =>
        e.1 = m.1 ∧ Conforms o c' (route ++ [.member m.1]) m.2 e.2) members properties) where
  leaf {_ _ _ v _} ht route _ _ := by
    cases v with
    | null | bool | number | string | other => cases ht; rw [Conforms]
    | array items =>
      cases items with
      | nil => cases ht; rw [Conforms]
      | cons => cases ht
    | object => cases ht
  strings {name place c items values} hne hv route _ hp := by
    obtain ⟨members, hm, hall⟩ :=
      exists_find?_addEnum c place (Text.typeName (name ++ "Enum")) values
    rw [conforms_array hne, if_pos (by rw [← isSome_enumValues?, hv]; rfl)]
    refine ⟨_, members, nameAt?_addEnum hp _ _, hm, rfl, ?_⟩
    intro s hs
    rw [mem_of_enumValues? hv] at hs
    obtain ⟨_, hs, he⟩ := List.mem_map.1 hs
    cases he
    exact hall s hs
  array {name place c items types c'} hne hv hitems ih route hn hp := by
    have hplace := hn.place place .item
    have hconf := ih (route ++ [.item]) hplace (placeAt?_place hp .item)
    obtain ⟨-, hwf⟩ := (walkName_rules o).of_typesOfItems hitems hplace
    have hmem {t : TypeExpr} : t ∈ TypeExpr.distinct types ↔ t ∈ types :=
      TypeExpr.mem_distinct hwf
    rw [conforms_array hne, if_neg (by rw [← isSome_enumValues?, hv]; simp)]
    refine ⟨types, rfl, ?_, ?_⟩
    · intro item hi
      obtain ⟨u, hu, hc⟩ := exists_of_forall₂_of_mem hconf hi
      exact ⟨u, hmem.2 hu, hc⟩
    · intro u hu
      obtain ⟨item, hi, hc⟩ := exists_of_forall₂_of_mem hconf.flip (hmem.1 hu)
      exact ⟨item, hi, hc⟩
  object {name place c members properties c'} hmembers _ route _ hp := by
    have hg := ((edits_rules o).of_typesOfMembers hmembers).grows
    rw [Conforms]
    refine ⟨_, ?_, rfl⟩
    rw [nameAt?_setProperties]
    exact hg.nameAt? (nameAt?_openInterface hp _)
  noItems route _ _ := .nil
  item {name place c v rest t types c₁ c₂} hv hrest ihv ihrest route hn hp := by
    have hg := ((edits_rules o).of_typeAt hv).grows
    have hg' := ((edits_rules o).of_typesOfItems hrest).grows
    have hn₁ := ((walkName_rules o).of_typeAt hv hn).1
    exact .cons ((ihv route hn hp).mono hg') (ihrest route hn₁ (hg.placeAt? hp))
  noMembers route _ _ _ := .nil
  member {interface place c key v rest t properties c₁ c₂} hv hrest ihv ihrest route hi hn hp := by
    have hg := ((edits_rules o).of_typeAt hv).grows
    have hg' := ((edits_rules o).of_typesOfMembers hrest).grows
    have hplace := hn.place place (.member key)
    have hn₁ := ((walkName_rules o).of_typeAt hv hplace).1
    refine .cons ⟨rfl, ?_⟩ (ihrest route hi hn₁ ?_)
    · exact (ihv _ hplace (placeAt?_place hp _)).mono hg'
    · exact hg.placeAt? ((grows_place c place (.member key)).placeAt? hp)

end TypeSketch
