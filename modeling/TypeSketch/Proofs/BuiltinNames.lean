import TypeSketch.Proofs.NameOrigin

/-!
# Declarations that read like built-in types

Nothing keeps a declaration from having the name of a built-in type, where the root name and the
keys spell it (`string_captured`). But the names of built-in types have no digits and no capital
letters in them (`IsSmall`). A name that was made from a step to an item, for an enum or with a
number has one, so it cannot be one of them.

**Theorem** (`Traced.spelled`). A small name is that of an interface. It consists of the root name
and of what names can hold of the keys on its route, which has no items.

**Theorem** (`builtin_names_spelled`). This says which declarations can read like a built-in type.
There are none if no built-in type begins with the root name.
-/

namespace TypeSketch

open Catalog

/-! ## Small names -/

/-- Whether a string has no digits and no capital letters of ASCII. -/
def IsSmall (s : String) : Prop := ∀ c ∈ s.toList, c.isDigit = false ∧ c.isUpper = false

theorem isSmall_of_mem_builtins {name : String} (h : name ∈ TypeExpr.builtins) : IsSmall name := by
  have key : (TypeExpr.builtins.all fun name =>
      name.toList.all fun c => !c.isDigit && !c.isUpper) = true := by decide
  intro c hc
  simpa using List.all_eq_true.1 (List.all_eq_true.1 key name h) c hc

theorem isSmall_append_iff {s t : String} : IsSmall (s ++ t) ↔ IsSmall s ∧ IsSmall t := by
  rw [IsSmall, String.toList_append, List.forall_mem_append]
  rfl

theorem not_isSmall_toString (n : Nat) : ¬IsSmall (toString n) := by
  intro h
  have hlist : (toString n).toList = Nat.toDigits 10 n := by
    rw [Nat.toString_eq_repr, Nat.toList_repr]
  obtain ⟨c, hc⟩ := List.exists_mem_of_ne_nil _ (Nat.toDigits_ne_nil (b := 10) (n := n))
  have hdigit : c.isDigit = true := Nat.isDigit_of_mem_toDigits (by decide) (by decide) hc
  rw [(h c (hlist ▸ hc)).1] at hdigit
  cases hdigit

theorem not_isSmall_item : ¬IsSmall "Item" := fun h => by simpa using (h 'I' (by decide)).2

theorem not_isSmall_enum : ¬IsSmall "Enum" := fun h => by simpa using (h 'E' (by decide)).2

theorem item_not_mem_of_isSmall {o : Options} {tail : Route} (h : IsSmall (Step.texts o tail)) :
    .item ∉ tail := by
  induction tail with
  | nil => exact List.not_mem_nil
  | cons step rest ih =>
    obtain ⟨hstep, hrest⟩ := isSmall_append_iff.1 h
    rw [List.mem_cons, not_or]
    refine ⟨?_, ih hrest⟩
    rintro rfl
    exact not_isSmall_item hstep

/-! ## Small names in a walk -/

section

variable {o : Options} {root : String} {c : Catalog}

/-- No number was put behind it. -/
theorem Catalog.NamedAfter.eq_of_isSmall {wanted name : String} (h : c.NamedAfter wanted name)
    (hs : IsSmall name) : name = wanted := by
  obtain he | ⟨n, -, rfl, -⟩ := h
  · exact he
  · exact absurd (isSmall_append_iff.1 hs).2 (not_isSmall_toString n)

/-- A small name is spelled by the root name and the keys of its route. The induction is on the
length of the route: what the name begins with is the name of a shorter one. -/
theorem Catalog.Traced.spelled (h : Traced o root c) (hroot : IsIdentifier root)
    (hnames : c.NamesHave fun _ name => IsIdentifier name) {kind : Kind} {route : Route}
    {name : String} (hn : c.nameAt? kind route = some name) (hs : IsSmall name) :
    kind = .interface ∧ .item ∉ route ∧ name = root ++ Step.texts o route := by
  induction hlen : route.length using Nat.strongRecOn generalizing kind route name with
  | ind _ ih =>
    obtain ⟨owner, tail, hstem, hafter⟩ := h.exists_stem hroot hnames hn
    obtain rfl := hafter.eq_of_isSmall hs
    obtain ⟨hsmall, hending⟩ := isSmall_append_iff.1 hs
    obtain ⟨howner, htail⟩ := isSmall_append_iff.1 hsmall
    have hkind : kind = .interface := by
      cases kind with
      | interface => rfl
      | enum => exact absurd hending not_isSmall_enum
    have hitem := item_not_mem_of_isSmall htail
    refine ⟨hkind, ?_⟩
    rw [hkind, show Kind.interface.ending = "" from rfl, String.append_empty]
    cases hstem with
    | root m => exact ⟨hitem, rfl⟩
    | @member above _ hi key m =>
      have hlt : above.length < (above ++ Step.member key :: .replicate m .item).length := by
        rw [List.length_append, List.length_cons]
        omega
      obtain ⟨-, habove, rfl⟩ := ih _ (hlen ▸ hlt) hi howner rfl
      refine ⟨fun hm => (List.mem_append.1 hm).elim habove hitem, ?_⟩
      rw [Step.texts_append, String.append_assoc]

end

/-! ## Whole documents -/

/-- A name is the root name with the texts of the keys on the way to an object, and there is no
array on that way. -/
structure Spells (o : Options) (v : Json) (root : String) (route : Route) (name : String) :
    Prop where
  mem : route ∈ Json.routesOf o .interface (v.nodes [])
  item_not_mem : .item ∉ route
  eq : name = root ++ Step.texts o route

section

variable {o : Options} {v : Json}

/-- What has a name is there in the document. -/
theorem mem_routesOf_of_nameAt? {root : String} {kind : Kind} {route : Route} {name : String}
    (h : (typeOf o v root {}).2.nameAt? kind route = some name) :
    route ∈ Json.routesOf o kind (v.nodes []) := by
  have hw := wellNamed_typeOf o v root
  obtain ⟨route', hr, h'⟩ := (lists_typeOf o v root kind).exists_route (hw.mem_declared h)
  rw [hw.nameAt?_inj h h']
  exact (Distinct.mem_addAll.1 hr).resolve_left List.not_mem_nil

theorem exists_spells {wanted : Text} {kind : Kind} {place : Int} {name : String}
    (h : (typeOf o v (RootName.ofText wanted) {}).2.names.find? (kind, place) = some name)
    (hb : name ∈ TypeExpr.builtins) : kind = .interface ∧ ∃ route,
      (typeOf o v (RootName.ofText wanted) {}).2.placeAt? route = some place ∧
      Spells o v (RootName.ofText wanted) route name := by
  have hroot := isIdentifier_rootName wanted
  have htraced : Traced o (RootName.ofText wanted) (typeOf o v (RootName.ofText wanted) {}).2 :=
    traced_typeOf o v
  obtain ⟨_, route, _, _, hreaches, _⟩ := htraced.exists_made h
  have hn : (typeOf o v (RootName.ofText wanted) {}).2.nameAt? kind route = some name := by
    rw [nameAt?, hreaches.place, Option.bind_some, h]
  obtain ⟨rfl, hitem, he⟩ := htraced.spelled hroot (namesHave_identifier_typeOf o v hroot) hn
    (isSmall_of_mem_builtins hb)
  exact ⟨rfl, route, hreaches.place, mem_routesOf_of_nameAt? hn, hitem, he⟩

theorem mem_builtins_or_declared {root : String} {e : String × Properties}
    (he : e ∈ (typeOf o v root {}).2.interfaces.entries)
    {property : Text × TypeExpr} (hp : property ∈ e.2.entries) {word : String}
    {rest : List Char} (hm : (word, rest) ∈ words property.2.text.toList) :
    word ∈ TypeExpr.builtins ∨ ∃ kind, word ∈ (typeOf o v root {}).2.declared kind := by
  have hw := wellNamed_typeOf o v root
  have hn := namesHave_typeOf o v root
  have hrefers := closed_typeOf o v root e he property hp
  have hends : EndsWord [] := fun d hd => by cases hd
  rw [← List.append_nil property.2.text.toList] at hm
  rcases resolved_of_mem_words hw hn hrefers hends hm with ⟨hword, -⟩ | hm
  · refine hword.imp_right fun hd => ?_
    exact (List.mem_append.1 hd).elim (fun h => ⟨.enum, h⟩) fun h => ⟨.interface, h⟩
  · rw [words] at hm
    cases hm

end

/-- **Declarations that read like built-in types.** A name in use that is that of a built-in type
belongs to an interface, at a route without items, and the root name with the keys of this route
spells it. If no built-in type begins with the root name, there is no such name. A word in the type
of a property is built in or declared, and it is both only where it is spelled in this way. -/
theorem builtin_names_spelled (o : Options) (wanted : Text) (v : Json) :
    let root := RootName.ofText wanted
    let c := (typeOf o v root {}).2
    (∀ kind place name, c.names.find? (kind, place) = some name → name ∈ TypeExpr.builtins →
      kind = .interface ∧ ∃ route, c.placeAt? route = some place ∧ Spells o v root route name) ∧
    ((∀ name ∈ TypeExpr.builtins, ¬root.toList <+: name.toList) →
      ∀ kind place name, c.names.find? (kind, place) = some name → name ∉ TypeExpr.builtins) ∧
    ∀ e ∈ c.interfaces.entries, ∀ property ∈ e.2.entries, ∀ word rest,
      (word, rest) ∈ words property.2.text.toList →
        (word ∈ TypeExpr.builtins ∨ ∃ kind, word ∈ c.declared kind) ∧
        ∀ kind, word ∈ TypeExpr.builtins → word ∈ c.declared kind →
          kind = .interface ∧ ∃ route, Spells o v root route word := by
  intro root c
  refine ⟨fun kind place name => exists_spells, fun hroot kind place name h hb => ?_,
    fun e he property hp word rest hm => ⟨mem_builtins_or_declared he hp hm, ?_⟩⟩
  · obtain ⟨-, route, -, hspells⟩ := exists_spells h hb
    refine hroot name hb ?_
    rw [hspells.eq, String.toList_append]
    exact List.prefix_append _ _
  · intro kind hb hd
    obtain ⟨route, -, hn⟩ := (lists_typeOf o v root kind).exists_route hd
    obtain ⟨place, -, hf⟩ := Option.bind_eq_some_iff.1 hn
    obtain ⟨hkind, route', -, hspells⟩ := exists_spells hf hb
    exact ⟨hkind, route', hspells⟩

/-- An interface with the name of its own property's type, which the root name alone spells. Further
inside, a key without a letter at its beginning may spell the rest of such a name. -/
theorem string_captured :
    let inner : Json := .object [("a", .string "x")]
    let c := (typeOf {} inner (RootName.ofText "string") {}).2
    let c' := (typeOf {} (.object [("-ing", inner)]) (RootName.ofText "str") {}).2
    "string" ∈ TypeExpr.builtins ∧ c.names.find? (.interface, rootPlace) = some "string" ∧
      (c.interfaces.find? "string").map Table.values = some [TypeExpr.string] ∧
      c'.nameAt? .interface [.member "-ing"] = some "string" ∧
      ¬∀ kind place name, c.names.find? (kind, place) = some name →
        name ∉ TypeExpr.builtins := by
  intro inner c c'
  have hb : "string" ∈ TypeExpr.builtins := by decide
  have hn : c.names.find? (.interface, rootPlace) = some "string" := by decide +kernel
  exact ⟨hb, hn, by decide +kernel, by decide +kernel, fun h => h _ _ _ hn hb⟩

end TypeSketch
