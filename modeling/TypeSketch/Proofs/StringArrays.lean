import TypeSketch.Proofs.Renaming
import TypeSketch.Proofs.Replay
import TypeSketch.Proofs.ValuesAt

/-!
# String arrays with and without enums

With enum detection an array of strings is an array of its enum, and the walk does not look at its
items. Without enum detection the walk goes through the items like those of any other array, and
finds an array of strings. All other declarations are the same, as long as no name has a number: an
enum could have taken a name from an interface.

**Theorem** (`typeUnder_withoutEnums`). The type of a value without enum detection is its type with
enum detection, with `string` in place of the names of enums (`TypeExpr.spellOut`). Two items of an
array may get one type then, and the array around them changes too.

**Theorem** (`typeOf_withoutEnums`). So does the walk through a whole document. It declares the same
interfaces with the same keys, in the same order, and no enums.
-/

namespace TypeSketch

open Catalog Json

/-! ## Types with strings for enums -/

namespace TypeExpr

/-- The type with `string` in place of the names of some enums. What becomes the same in an array
counts once. -/
def spellOut (enums : List String) : TypeExpr → TypeExpr :=
  rename fun name => if name ∈ enums then "string" else name

variable {enums : List String}

theorem spellOut_enum {name : String} (h : name ∈ enums) : (atom name).spellOut enums = string := by
  rw [spellOut, rename_atom, if_pos h, string]

theorem spellOut_atom {name : String} (h : name ∉ enums) :
    (atom name).spellOut enums = atom name := by
  rw [spellOut, rename_atom, if_neg h]

theorem spellOut_array (item : TypeExpr) :
    (array item).spellOut enums = array (item.spellOut enums) :=
  rename_array _ item

/-- Items that all have one type make an array of that type. -/
theorem ofItems_of_forall_eq {types : List TypeExpr} {t : TypeExpr} (hne : types ≠ [])
    (h : ∀ s ∈ types, s = t) : ofItems types = array t := by
  have hdistinct (n : Nat) : distinct (.replicate (n + 1) t) = [t] := by
    induction n with
    | zero => rfl
    | succ n ih =>
      rw [List.replicate_succ', distinct, Distinct.ofList_concat, ← distinct, ih]
      exact Distinct.add_of_mem (List.mem_singleton_self _)
  obtain ⟨n, hn⟩ := Nat.exists_eq_succ_of_ne_zero (mt List.length_eq_zero_iff.1 hne)
  rw [List.eq_replicate_of_mem h, hn, ofItems, hdistinct, ofDistinct]

end TypeExpr

/-! ## Types that are read off -/

section

variable (o : Options)

/-- The options with enum detection, or without. -/
abbrev Options.withEnums (wanted : Bool) : Options := { o with detectEnums := wanted }

variable {o} {v : Json} {names names' : Kind → Route → String} {enums : List String}

/-- Types that are read off with words for names are well-formed. -/
theorem wellFormed_typeUnder (h : ∀ kind route, IsWord (names kind route)) (v : Json)
    (route : Route) : (typeUnder o names route v).WellFormed IsWord := by
  have hbuiltin {name : String} (hb : name ∈ TypeExpr.builtins) :
      (TypeExpr.atom name).WellFormed IsWord := .atom (isWord_of_mem_builtins hb)
  match v with
  | .null =>
    rw [typeUnder]
    split <;> exact hbuiltin (by decide)
  | .bool _ | .number _ | .string _ | .other => exact hbuiltin (by decide)
  | .object _ => exact .atom (h _ _)
  | .array [] => exact .array (hbuiltin (by decide))
  | .array (item :: rest) =>
    have hne := List.cons_ne_nil item rest
    rw [typeUnder_array hne]
    split
    · exact .array (.atom (h _ _))
    · refine TypeExpr.wellFormed_ofItems (List.map_eq_nil_iff.not.2 hne) fun t ht => ?_
      obtain ⟨w, hw, rfl⟩ := List.mem_map.1 ht
      exact wellFormed_typeUnder h w _
termination_by v.size
decreasing_by
  have := Json.size_le_of_mem hw
  simp only [Json.size]
  omega

/-- What the names with enum detection and those without have to do with each other. -/
structure SpelledOut (o : Options) (v : Json) (names names' : Kind → Route → String)
    (enums : List String) : Prop where
  word kind route : IsWord (names kind route)
  builtin {name : String} (h : name ∈ TypeExpr.builtins) : name ∉ enums
  enum {route : Route} (h : v.Needs (o.withEnums true) .enum route) : names .enum route ∈ enums
  interface route : names' .interface route = names .interface route
  not_mem route : names .interface route ∉ enums

theorem leafType?_withoutEnums (hb : ∀ name ∈ TypeExpr.builtins, name ∉ enums) {t : TypeExpr}
    (h : Walk.leafType? (o.withEnums true) v = some t) :
    Walk.leafType? (o.withEnums false) v = some (t.spellOut enums) := by
  obtain ⟨name, hname, ht⟩ := Walk.builtin_of_leafType? h
  have hsame : t.spellOut enums = t := by
    obtain rfl | rfl := ht
    · exact TypeExpr.spellOut_atom (hb name hname)
    · rw [TypeExpr.spellOut_array, TypeExpr.spellOut_atom (hb name hname)]
  rw [hsame]
  exact h

/-- Without enum detection a value has the type with strings for enums. -/
theorem typeUnder_withoutEnums (h : SpelledOut o v names names' enums) {route : Route} (u : Json)
    (hu : u ∈ v.valuesAt route) : typeUnder (o.withEnums false) names' route u =
      (typeUnder (o.withEnums true) names route u).spellOut enums := by
  have hleaf {t : TypeExpr} (ht : Walk.leafType? (o.withEnums true) u = some t) :
      typeUnder (o.withEnums false) names' route u =
        (typeUnder (o.withEnums true) names route u).spellOut enums := by
    rw [typeUnder_of_leafType? ht,
      typeUnder_of_leafType? (leafType?_withoutEnums (fun _ => h.builtin) ht)]
  match u with
  | .null | .bool _ | .number _ | .string _ | .other | .array [] => exact hleaf rfl
  | .object members =>
    rw [typeUnder, typeUnder, TypeExpr.spellOut_atom (h.not_mem route), h.interface]
  | .array (item :: rest) =>
    have hne := List.cons_ne_nil item rest
    rw [typeUnder_array hne, typeUnder_array hne, if_neg (by simp [Walk.enumValues?])]
    cases hv : Walk.enumValues? (o.withEnums true) (item :: rest) with
    | some values =>
      have hneeds : v.Needs (o.withEnums true) .enum route := needs_iff.2
        ⟨_, hu, by rw [declares_enum_array hne, hv]; rfl⟩
      rw [if_pos Option.isSome_some, TypeExpr.spellOut_array,
        TypeExpr.spellOut_enum (h.enum hneeds)]
      refine TypeExpr.ofItems_of_forall_eq (List.map_eq_nil_iff.not.2 hne) fun t ht => ?_
      rw [mem_of_enumValues? hv, List.map_map] at ht
      obtain ⟨s, -, rfl⟩ := List.mem_map.1 ht
      rfl
    | none =>
      rw [if_neg (by simp), TypeExpr.spellOut, TypeExpr.rename_ofItems, List.map_map]
      · refine congrArg TypeExpr.ofItems (List.map_congr_left fun w hw => ?_)
        exact typeUnder_withoutEnums h w (mem_valuesAt_concat hu hw)
      · intro t ht
        obtain ⟨w, -, rfl⟩ := List.mem_map.1 ht
        exact wellFormed_typeUnder h.word w _
termination_by u.size
decreasing_by
  have := Json.size_le_of_mem hw
  simp only [Json.size]
  omega

theorem propertiesUnder_withoutEnums (h : SpelledOut o v names names' enums) {route : Route}
    {members : List (Text × Json)} (hm : Json.object members ∈ v.valuesAt route) :
    propertiesUnder (o.withEnums false) names' route members =
      (propertiesUnder (o.withEnums true) names route members).map
        (Prod.map id (TypeExpr.spellOut enums)) := by
  rw [propertiesUnder, propertiesUnder, List.map_map]
  refine List.map_congr_left fun member hmember => congrArg (Prod.mk member.1) ?_
  refine typeUnder_withoutEnums h _ (mem_valuesAt_concat hm ?_)
  exact List.mem_map_of_mem (List.mem_filter.2 ⟨hmember, decide_eq_true rfl⟩)

end

/-! ## Whole documents -/

/-- What holds of no name at all and of the name of a route holds of what the route is called. -/
theorem named_induction {c : Catalog} {kind : Kind} {route : Route} {p : String → Prop}
    (hempty : p "") (h : ∀ n, c.nameAt? kind route = some n → p n) : p (c.named kind route) := by
  rw [Catalog.named]
  cases hn : c.nameAt? kind route with
  | none => exact hempty
  | some n => exact h n hn

section

variable {o : Options} {v : Json} {root : String}

/-- Enum detection has nothing to do with plain names. -/
theorem plainName_withEnums (wanted wanted' : Bool) :
    plainName (o.withEnums wanted) root = plainName (o.withEnums wanted') root := by
  have key (steps : List Step) :
      plainUp (o.withEnums wanted) root steps = plainUp (o.withEnums wanted') root steps := by
    induction steps with
    | nil => rfl
    | cons step above ih =>
      cases step with
      | item => rw [plainUp, ih, plainUp]
      | member key =>
        rw [plainUp, ih, plainUp]
        rfl
  funext kind route
  rw [plainName, plainHanded, key, plainName, plainHanded]

theorem not_needs_enum_withoutEnums (route : Route) : ¬v.Needs (o.withEnums false) .enum route := by
  intro h
  obtain ⟨u, -, hu⟩ := needs_iff.1 h
  cases hu

variable (hplain : Unnumbered (o.withEnums true) root (typeOf (o.withEnums true) v root {}).2)

include hplain

theorem Unnumbered.withoutEnums :
    Unnumbered (o.withEnums false) root (typeOf (o.withEnums false) v root {}).2 := by
  rw [unnumbered_iff] at hplain ⊢
  intro kind route kind' route' hr hr' he
  cases kind with
  | enum => exact absurd hr (not_needs_enum_withoutEnums route)
  | interface =>
    cases kind' with
    | enum => exact absurd hr' (not_needs_enum_withoutEnums route')
    | interface => exact hplain _ _ _ _ hr hr' (plainName_withEnums true false ▸ he)

/-- An interface has the same name with and without enum detection. -/
theorem nameAt?_withoutEnums (route : Route) :
    (typeOf (o.withEnums false) v root {}).2.nameAt? .interface route =
      (typeOf (o.withEnums true) v root {}).2.nameAt? .interface route := by
  by_cases hr : v.Needs (o.withEnums true) .interface route
  · have hr' : v.Needs (o.withEnums false) .interface route := hr
    rw [hplain.nameAt? hr, hplain.withoutEnums.nameAt? hr', plainName_withEnums true false]
  · have hnone (wanted : Bool) :
        (typeOf (o.withEnums wanted) v root {}).2.nameAt? .interface route = none :=
      Option.eq_none_iff_forall_ne_some.2 fun n hn =>
        hr ((exists_nameAt?_iff (o.withEnums wanted) v root).1 ⟨n, hn⟩)
    rw [hnone, hnone]

theorem spelledOut_typeOf : SpelledOut o v (typeOf (o.withEnums true) v root {}).2.named
    (typeOf (o.withEnums false) v root {}).2.named
    (typeOf (o.withEnums true) v root {}).2.enums.keys := by
  have hw := wellNamed_typeOf (o.withEnums true) v root
  have hnames := namesHave_typeOf (o.withEnums true) v root
  exact {
    word := fun kind route => named_induction (fun d hd => by cases hd) fun n hn => by
      obtain ⟨place, -, hp⟩ := Option.bind_eq_some_iff.1 hn
      exact (hnames _ _ _ hp).1
    builtin := not_mem_enums_of_mem_builtins hw hnames
    enum := fun hr => by
      obtain ⟨n, hn⟩ := (exists_nameAt?_iff (o.withEnums true) v root).2 hr
      rw [named_of_nameAt? hn]
      exact hw.mem_declared hn
    interface := fun route => by
      rw [Catalog.named, nameAt?_withoutEnums hplain, Catalog.named]
    not_mem := fun route => named_induction (p := (· ∉ _)) (fun hm => by
      obtain ⟨place, hp⟩ := hw.enums.1 hm
      cases (hnames _ _ _ hp).2 rfl) fun n hn => hw.not_mem_enums (hw.mem_declared hn) }

theorem keys_interfaces_withoutEnums : (typeOf (o.withEnums false) v root {}).2.interfaces.keys =
    (typeOf (o.withEnums true) v root {}).2.interfaces.keys := by
  have hlists (wanted : Bool) := lists_typeOf (o.withEnums wanted) v root .interface
  refine (List.map_inj_right fun _ _ => Option.some.inj).1 ?_
  calc (typeOf (o.withEnums false) v root {}).2.interfaces.keys.map some
      = (Distinct.ofList id (routesOf (o.withEnums false) .interface (v.nodes []))).map
          ((typeOf (o.withEnums false) v root {}).2.nameAt? .interface) := hlists false
    _ = (Distinct.ofList id (routesOf (o.withEnums true) .interface (v.nodes []))).map
          ((typeOf (o.withEnums true) v root {}).2.nameAt? .interface) := by
        rw [funext (nameAt?_withoutEnums hplain)]
        rfl
    _ = (typeOf (o.withEnums true) v root {}).2.interfaces.keys.map some := (hlists true).symm

/-- The interfaces are the same up to the types of their properties. -/
theorem interfaces_withoutEnums : (typeOf (o.withEnums false) v root {}).2.interfaces =
    (typeOf (o.withEnums true) v root {}).2.interfaces.mapValues (Table.mapValues
      (TypeExpr.spellOut (typeOf (o.withEnums true) v root {}).2.enums.keys)) := by
  have hkeys := keys_interfaces_withoutEnums hplain
  refine Table.ext_find? (hkeys.trans (Table.keys_mapValues _ _).symm) fun name => ?_
  rw [Table.find?_mapValues]
  by_cases hd : ∃ route,
      (typeOf (o.withEnums true) v root {}).2.nameAt? .interface route = some name
  · obtain ⟨route, hn⟩ := hd
    rw [interfaces_typeOf hn, interfaces_typeOf ((nameAt?_withoutEnums hplain route).trans hn),
      Option.map_map]
    cases hlast : (objectsAt route (v.nodes [])).getLast? with
    | none => rfl
    | some members =>
      have hm : Json.object members ∈ v.valuesAt route := mem_valuesAt_of_getLast? hlast
      rw [Option.map_some, Option.map_some,
        propertiesUnder_withoutEnums (spelledOut_typeOf hplain) hm, Table.ofList_mapValues]
      rfl
  · have hnone : (typeOf (o.withEnums true) v root {}).2.interfaces.find? name = none :=
      (Table.find?_eq_none_iff _ _).2 fun hm => hd ((mem_declared_typeOf _ _ _).1 hm)
    rw [hnone, Option.map_none, Table.find?_eq_none_iff, hkeys, ← Table.find?_eq_none_iff, hnone]

end

/-- **Enum detection.** If no name of a walk with enum detection has a number, the walk without it
declares the same interfaces with the same keys, in the same order, and no enums. The type of the
document and the types of all properties have `string` in place of the names of enums. -/
theorem typeOf_withoutEnums (o : Options) (v : Json) (root : String)
    (hplain : Unnumbered { o with detectEnums := true } root
      (typeOf { o with detectEnums := true } v root {}).2) :
    let found := typeOf { o with detectEnums := true } v root {}
    let found' := typeOf { o with detectEnums := false } v root {}
    let spellOut := TypeExpr.spellOut found.2.enums.keys
    found'.2.enums = ∅ ∧ found'.1 = spellOut found.1 ∧
      found'.2.interfaces = found.2.interfaces.mapValues (Table.mapValues spellOut) := by
  intro found found' spellOut
  refine ⟨?_, ?_, interfaces_withoutEnums hplain⟩
  · have henums := (enums_rules (o := o.withEnums false) rfl).value root rootPlace {} v
    rwa [← Walk.typeOf_eq_typeAt] at henums
  · calc found'.1 = typeUnder (o.withEnums false) found'.2.named [] v :=
          typeOf_eq_typeUnder (o.withEnums false) v root
      _ = spellOut (typeUnder (o.withEnums true) found.2.named [] v) :=
          typeUnder_withoutEnums (spelledOut_typeOf hplain) v (List.mem_singleton_self v)
      _ = spellOut found.1 := by rw [← typeOf_eq_typeUnder (o.withEnums true) v root]

/-- A document with strings in an array, and with an array of strings beside other arrays. -/
def board : Json :=
  .object [("tags", .array [.string "x", .string "y"]),
    ("rows", .array [.array [.string "a"], .array [], .null, .array [.string "b"]])]

theorem values_board (enums : Bool) :
    let tags := if enums then .array (.atom "BoardTagsEnum") else .ofItems [.string, .string]
    let row := if enums then .array (.atom "BoardRowsItemEnum") else .ofItems [.string]
    let c := (typeOf { detectEnums := enums } board "Board" {}).2
    c.interfaces.values.map Table.values =
      [[tags, TypeExpr.ofItems [row, .array .any, .null, row]]] := by
  intro tags row c
  have hkeys : c.interfaces.keys = ["Board"] := by cases enums <;> decide +kernel
  have hname : c.nameAt? .interface [] = some "Board" := by cases enums <;> decide +kernel
  rw [Table.values_of_keys hkeys (interfaces_typeOf hname)]
  cases enums with
  | false => rfl
  | true =>
    have htags : c.named .enum [.member "tags"] = "BoardTagsEnum" := by decide +kernel
    have hrows : c.named .enum [.member "rows", .item] = "BoardRowsItemEnum" := by decide +kernel
    simp only [tags, row, ← htags, ← hrows]
    rfl

/-- The board has two enums, one of them inside an array of several types. -/
theorem typeOf_withoutEnums_board :
    let found := typeOf { detectEnums := true } board "Board" {}
    let found' := typeOf { detectEnums := false } board "Board" {}
    let spellOut := TypeExpr.spellOut found.2.enums.keys
    Unnumbered { detectEnums := true } "Board" found.2 ∧
    (found'.2.enums = ∅ ∧ found'.1 = spellOut found.1 ∧
      found'.2.interfaces = found.2.interfaces.mapValues (Table.mapValues spellOut)) ∧
    found.2.interfaces.values.map (fun p => p.values.map TypeExpr.text) =
      [["BoardTagsEnum[]", "(BoardRowsItemEnum[] | any[] | null)[]"]] ∧
    found'.2.interfaces.values.map (fun p => p.values.map TypeExpr.text) =
      [["string[]", "(string[] | any[] | null)[]"]] := by
  intro found found' spellOut
  have hapart : ∀ kind kind', ∀ r ∈ routesOf { detectEnums := true } kind (board.nodes []),
      ∀ r' ∈ routesOf { detectEnums := true } kind' (board.nodes []),
      plainName { detectEnums := true } "Board" kind r =
        plainName { detectEnums := true } "Board" kind' r' → kind = kind' ∧ r = r' := by
    intro kind kind'
    cases kind <;> cases kind' <;> decide +kernel
  have hplain : Unnumbered { detectEnums := true } "Board" found.2 :=
    (unnumbered_iff _ board "Board").2 fun kind route kind' route' hr hr' =>
      hapart kind kind' route hr route' hr'
  refine ⟨hplain, typeOf_withoutEnums {} board "Board" hplain, ?_, ?_⟩
  · refine (List.map_map.symm.trans (congrArg _ (values_board true))).trans ?_
    simp [TypeExpr.ofItems, TypeExpr.distinct, Distinct.ofList, Distinct.addAll, Distinct.add,
      TypeExpr.ofDistinct, TypeExpr.text, TypeExpr.null, TypeExpr.any]
  · refine (List.map_map.symm.trans (congrArg _ (values_board false))).trans ?_
    simp [TypeExpr.ofItems, TypeExpr.distinct, Distinct.ofList, Distinct.addAll, Distinct.add,
      TypeExpr.ofDistinct, TypeExpr.text, TypeExpr.null, TypeExpr.any, TypeExpr.string]

end TypeSketch
