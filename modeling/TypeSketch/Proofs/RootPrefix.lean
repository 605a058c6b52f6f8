import TypeSketch.Proofs.Outline

/-!
# The root name in front

All names begin with the root name, and nothing else in a catalog depends on it. A walk under one
root name is in step with a walk under another, down to the numbers behind names.

**In step** (`Visits`, `Inside`). What is known of a walk so far is known of the walk under the
shortest root name: where it is, and how every name was made. So a name that is found again at a
place holds the letters of what is handed down to that place.

**Theorem** (`exists_value`). From an outline on, the walks under all root names come to one form
and one outline.

**Theorem** (`root_name_in_front`). So do the walks through a whole document. At every route they
have the same name behind the root name.
-/

namespace TypeSketch

open Catalog Outline

/-! ## Walks in step -/

/-- An outline that walks under the shortest root name come to. -/
structure Outline.Sound (o : Options) (k : Outline) : Prop where
  traced : Traced o bareRoot (k.under bareRoot)
  names : (k.under bareRoot).NamesHave WalkName

/-- A walk has come to a value: its route, its place, and the ending that is handed down to it. -/
structure Visits (o : Options) (k : Outline) (route : Route) (place : Int) (ending : String) :
    Prop where
  sound : k.Sound o
  reaches : Reaches o bareRoot (k.under bareRoot) route place (bareRoot ++ ending)

/-- A walk is among the members of an object: the route and the place of the object, and the ending
of its interface. -/
structure Inside (o : Options) (k : Outline) (route : Route) (place : Int) (ending : String) :
    Prop where
  sound : k.Sound o
  place : (k.under bareRoot).placeAt? route = some place
  name : (k.under bareRoot).nameAt? .interface route = some (bareRoot ++ ending)

theorem sound_empty (o : Options) : Outline.Sound o {} where
  traced := traced_empty
  names := namesHave_empty WalkName

theorem memberName_append (o : Options) (root ending : String) (key : Text) :
    Walk.memberName o (root ++ ending) key = root ++ Walk.memberName o ending key :=
  String.append_assoc

theorem isWord_of_append {s t : String} (h : IsWord (s ++ t)) : IsWord t := fun c hc =>
  h c (by rw [String.toList_append]; exact List.mem_append_right _ hc)

/-- A character other than the underscore that stands behind the shortest root name. -/
theorem mem_of_mem_bareRoot_append {c : Char} {ending : String} (hc : c ≠ '_')
    (h : c ∈ (bareRoot ++ ending).toList) : c ∈ ending.toList := by
  rw [String.toList_append, List.mem_append] at h
  exact h.resolve_left fun hm => hc (List.mem_singleton.1 hm)

section

variable {o : Options} {k k' : Outline} {route : Route} {place : Int} {ending : String}

/-- Under every root name the names are of the form that walks give them. -/
theorem Outline.Sound.namesHave (h : k.Sound o) {root : String} (hroot : IsIdentifier root) :
    (k.under root).NamesHave WalkName := by
  have hfind (root : String) (key : Kind × Int) :
      (k.under root).names.find? key = (k.names.find? key).map (root ++ ·) :=
    Table.find?_map Function.injective_id (root ++ ·) k.names key
  intro kind place name hn
  rw [hfind] at hn
  obtain ⟨ending, he, rfl⟩ := Option.map_eq_some_iff.1 hn
  obtain ⟨hword, hletter⟩ := h.names kind place (bareRoot ++ ending) (by rw [hfind, he]; rfl)
  refine ⟨isWord_append hroot.word (isWord_of_append hword), fun hk => ?_⟩
  rw [String.toList_append]
  exact List.mem_append_right _ (mem_of_mem_bareRoot_append (by decide) (hletter hk))

theorem Outline.Sound.walk (h : k.Sound o) (hr : Reaches o bareRoot (k.under bareRoot) route place
    (bareRoot ++ ending)) {v : Json} {t : TypeExpr}
    (hv : Walk.typeAt o (bareRoot ++ ending) place (k.under bareRoot) v =
      (t, under bareRoot k')) : k'.Sound o where
  traced := (traced_rules o bareRoot).of_typeAt hv route hr h.traced
  names := ((walkName_rules o).of_typeAt hv h.names).1

/-- The steps that a walk enters do not change what is sound. -/
theorem Outline.Sound.enter (h : k.Sound o) {parent below : Int} {step : Step}
    (hplace : ∀ root, (k.under root).place parent step = (below, under root k')) :
    k'.Sound o := by
  have hk : under bareRoot k' = ((k.under bareRoot).place parent step).2 := by rw [hplace]
  exact ⟨hk ▸ h.traced.place parent step, hk ▸ h.names.place parent step⟩

theorem Visits.item (h : Visits o k route place ending) {below : Int}
    (hplace : ∀ root, (k.under root).place place .item = (below, under root k')) :
    Visits o k' (route ++ [.item]) below (ending ++ "Item") where
  sound := h.sound.enter hplace
  reaches := by
    have hr := h.reaches.item
    rwa [hplace, String.append_assoc] at hr

theorem Visits.walk (h : Visits o k route place ending) {v : Json} {t : TypeExpr}
    (hv : Walk.typeAt o (bareRoot ++ ending) place (k.under bareRoot) v =
      (t, under bareRoot k')) : Visits o k' route place ending where
  sound := h.sound.walk h.reaches hv
  reaches := h.reaches.mono ((edits_rules o).of_typeAt hv).grows

theorem Inside.member (h : Inside o k route place ending) {key : Text} {below : Int}
    (hplace : ∀ root, (k.under root).place place (.member key) = (below, under root k')) :
    Visits o k' (route ++ [.member key]) below (Walk.memberName o ending key) where
  sound := h.sound.enter hplace
  reaches := by
    have hr : Reaches o bareRoot _ _ _ _ := reaches_member h.place h.name key
    rwa [hplace, memberName_append] at hr

theorem Inside.grow (h : Inside o k route place ending) (hs : k'.Sound o)
    (hg : Grows (k.under bareRoot) (k'.under bareRoot)) : Inside o k' route place ending where
  sound := hs
  place := hg.placeAt? h.place
  name := hg.nameAt? h.name

theorem typeName_bareRoot (ending : String) :
    Text.typeName (bareRoot ++ ending : String) = bareRoot ++ clean ending :=
  typeName_append isIdentifier_bareRoot ending

theorem Visits.inside (h : Visits o k route place ending) {ending' : String}
    (hopen : ∀ root, (k.under root).openInterface place (root ++ clean ending) =
      (root ++ ending', under root k')) : Inside o k' route place ending' := by
  have htraced := h.sound.traced.openInterface h.reaches
  rw [typeName_bareRoot] at htraced
  have hform : WalkName .interface (bareRoot ++ clean ending) :=
    typeName_bareRoot ending ▸ (naming_walkName o).interface trivial
  have hnames : NamesHave WalkName
      ((k.under bareRoot).openInterface place (bareRoot ++ clean ending)).2 :=
    (h.sound.names.nameFor (naming_walkName o) hform place).1
  have hplace := (grows_openInterface (k.under bareRoot) place
    (bareRoot ++ clean ending)).placeAt? h.reaches.place
  have hname := nameAt?_openInterface h.reaches.place (bareRoot ++ clean ending)
  rw [hopen] at htraced hnames hplace hname
  exact ⟨⟨htraced, hnames⟩, hplace, hname⟩

/-- An interface keeps the letters of what is handed down to it, also where its name is found. -/
theorem Visits.letter_mem (h : Visits o k route place ending) {ending' : String}
    (hopen : ∀ root, (k.under root).openInterface place (root ++ clean ending) =
      (root ++ ending', under root k')) (hm : 'I' ∈ ending.toList) : 'I' ∈ ending'.toList := by
  have hcandidate : Kind.candidate .interface (bareRoot ++ ending) = bareRoot ++ clean ending :=
    typeName_bareRoot ending
  obtain ⟨taken, hfresh⟩ := h.sound.traced.exists_fresh .interface h.reaches
  rw [hcandidate, ← openInterface_fst, hopen] at hfresh
  have hletter : 'I' ∈ (bareRoot ++ clean ending).toList :=
    typeName_bareRoot ending ▸ mem_typeName rfl (by simp [hm])
  have hgiven : bareRoot ++ ending' = Fresh.name taken (bareRoot ++ clean ending) := hfresh
  exact mem_of_mem_bareRoot_append (by decide) (hgiven ▸ mem_freshName hletter taken)

end

/-! ## Walks under all root names -/

theorem exists_leaf {o : Options} {v : Json} {t : TypeExpr} (h : Walk.leafType? o v = some t) :
    ∃ form : Form, form.Clear ∧ ∀ root, form.under root = t := by
  obtain ⟨name, hname, rfl | rfl⟩ := Walk.builtin_of_leafType? h
  · exact ⟨.builtin name, .builtin hname, fun _ => by rw [Form.under]⟩
  · exact ⟨.array (.builtin name), .array (.builtin hname), fun _ => by rw [Form.under, Form.under]⟩

section

variable {o : Options} {k : Outline} {route : Route} {place : Int} {ending : String}

theorem exists_value_of_leaf {v : Json} {t : TypeExpr} (h : Walk.leafType? o v = some t) :
    ∃ (form : Form) (k' : Outline), ('I' ∈ ending.toList → form.Clear) ∧
      ∀ root, IsIdentifier root → Walk.typeAt o (root ++ ending) place (k.under root) v =
        (form.under root, under root k') := by
  obtain ⟨form, hclear, hform⟩ := exists_leaf h
  refine ⟨form, k, fun _ => hclear, fun root _ => ?_⟩
  rw [Walk.typeAt_of_leafType? h, hform]

theorem exists_value_of_strings (h : Visits o k route place ending) {items : List Json}
    {values : List Text} (hne : items ≠ []) (hv : Walk.enumValues? o items = some values) :
    ∃ (form : Form) (k' : Outline), ('I' ∈ ending.toList → form.Clear) ∧
      ∀ root, IsIdentifier root →
        Walk.typeAt o (root ++ ending) place (k.under root) (.array items) =
          (form.under root, under root k') := by
  obtain ⟨ending', k', hadd⟩ := k.exists_addEnum place (clean ending ++ "Enum") values
  have hcandidate {root : String} (hroot : IsIdentifier root) :
      Text.typeName (↑(root ++ ending) ++ ↑"Enum") = root ++ (clean ending ++ "Enum") :=
    (candidate_append hroot ending .enum).trans String.append_assoc
  refine ⟨.array (.declared ending'), k', fun _ => .array (.declared (Or.inr ?_)),
    fun root hroot => ?_⟩
  · have hform : WalkName .enum (bareRoot ++ (clean ending ++ "Enum")) :=
      hcandidate isIdentifier_bareRoot ▸ (naming_walkName o).enum trivial
    have hgiven := (h.sound.names.nameFor (naming_walkName o) hform place).2
    rw [← addEnum_fst _ _ _ values, hadd] at hgiven
    exact mem_of_mem_bareRoot_append (by decide) (hgiven.2 rfl)
  · rw [Walk.typeAt_of_enumValues? hne hv, hcandidate hroot, hadd]
    simp only [Form.under]

end

mutual

/-- **Walks in step.** From a value on, the walks under all root names come to one form and one
outline. The form is clear if the ending that is handed down holds the capital letter of an item. -/
theorem exists_value (o : Options) {k : Outline} {route : Route} {place : Int} {ending : String}
    (h : Visits o k route place ending) (v : Json) :
    ∃ (form : Form) (k' : Outline), ('I' ∈ ending.toList → form.Clear) ∧
      ∀ root, IsIdentifier root → Walk.typeAt o (root ++ ending) place (k.under root) v =
        (form.under root, under root k') := by
  match v with
  | .null | .bool _ | .number _ | .string _ | .array [] | .other => exact exists_value_of_leaf rfl
  | .array (item :: rest) =>
    have hne := List.cons_ne_nil item rest
    cases hv : Walk.enumValues? o (item :: rest) with
    | some values => exact exists_value_of_strings h hne hv
    | none =>
      obtain ⟨below, k₁, hplace⟩ := k.exists_place place .item
      have hitem := h.item hplace
      -- what is handed down to items holds a capital letter, so their forms are clear
      have hletter : 'I' ∈ (ending ++ "Item").toList := by simp
      obtain ⟨forms, k', hclear, hitems⟩ := exists_items o hitem hletter (item :: rest)
      refine ⟨.ofItems forms, k', fun _ => Form.clear_ofItems hclear, fun root hroot => ?_⟩
      have hwell (root : String) (hroot : IsIdentifier root) (form : Form) (hf : form ∈ forms) :
          (form.under root).WellFormed IsWord :=
        ((walkName_rules o).of_typesOfItems (hitems root hroot)
          (hitem.sound.namesHave hroot)).2 _ (List.mem_map_of_mem hf)
      rw [Walk.typeAt_array hne hv, hplace, String.append_assoc]
      simp only [hitems root hroot]
      rw [Form.under_ofItems hclear hwell hroot]
  | .object members =>
    obtain ⟨ending', k₁, hopen⟩ := k.exists_openInterface place (clean ending)
    obtain ⟨properties, k₂, hmembers⟩ := exists_members o (h.inside hopen) members
    obtain ⟨k', hset⟩ := k₂.exists_setProperties ending' properties
    refine ⟨.declared ending', k', fun hm => .declared (Or.inl (h.letter_mem hopen hm)),
      fun root hroot => ?_⟩
    simp only [Walk.typeAt, typeName_append hroot, hopen, hmembers root hroot, hset, Form.under]

theorem exists_items (o : Options) {k : Outline} {route : Route} {place : Int} {ending : String}
    (h : Visits o k route place ending) (hletter : 'I' ∈ ending.toList) (items : List Json) :
    ∃ (forms : List Form) (k' : Outline), (∀ form ∈ forms, form.Clear) ∧
      ∀ root, IsIdentifier root →
        Walk.typesOfItems o (root ++ ending) place (k.under root) items =
          (forms.map (Form.under root), under root k') := by
  match items with
  | [] => exact ⟨[], k, by simp, fun root _ => by simp only [Walk.typesOfItems, List.map_nil]⟩
  | item :: rest =>
    obtain ⟨form, k₁, hclear, hv⟩ := exists_value o h item
    obtain ⟨forms, k', hclears, hrest⟩ :=
      exists_items o (h.walk (hv bareRoot isIdentifier_bareRoot)) hletter rest
    refine ⟨form :: forms, k', List.forall_mem_cons.2 ⟨hclear hletter, hclears⟩,
      fun root hroot => ?_⟩
    simp only [Walk.typesOfItems, hv root hroot, hrest root hroot, List.map_cons]

theorem exists_members (o : Options) {k : Outline} {route : Route} {place : Int} {ending : String}
    (h : Inside o k route place ending) (members : List (Text × Json)) :
    ∃ (properties : List (Text × Form)) (k' : Outline), ∀ root, IsIdentifier root →
      Walk.typesOfMembers o (root ++ ending) place (k.under root) members =
        (properties.map (Prod.map id (Form.under root)), under root k') := by
  match members with
  | [] => exact ⟨[], k, fun root _ => by simp only [Walk.typesOfMembers, List.map_nil]⟩
  | (key, v) :: rest =>
    obtain ⟨below, k₁, hplace⟩ := k.exists_place place (.member key)
    obtain ⟨form, k₂, -, hv⟩ := exists_value o (h.member hplace) v
    have hvisited := (h.member hplace).walk (hv bareRoot isIdentifier_bareRoot)
    have hplaced := grows_place (k.under bareRoot) place (.member key)
    rw [hplace] at hplaced
    have hg := hplaced.trans ((edits_rules o).of_typeAt (hv bareRoot isIdentifier_bareRoot)).grows
    obtain ⟨properties, k', hrest⟩ := exists_members o (h.grow hvisited.sound hg) rest
    refine ⟨(key, form) :: properties, k', fun root hroot => ?_⟩
    simp only [Walk.typesOfMembers, hplace, memberName_append, hv root hroot, hrest root hroot,
      List.map_cons, Prod.map_apply, id]

end

/-! ## Whole documents -/

namespace Outline

/-- What follows the root name in the name of a route. -/
def endingAt? (k : Outline) (kind : Kind) (route : Route) : Option String :=
  ((k.under bareRoot).placeAt? route).bind fun place => k.names.find? (kind, place)

theorem nameAt?_under (k : Outline) (root : String) (kind : Kind) (route : Route) :
    (k.under root).nameAt? kind route = (k.endingAt? kind route).map (root ++ ·) := by
  have hfollow (place : Int) :
      (k.under root).follow? place route = (k.under bareRoot).follow? place route := by
    induction route generalizing place with
    | nil => rfl
    | cons step rest ih =>
      rw [follow?, follow?]
      exact congrArg _ (funext ih)
  rw [nameAt?, endingAt?, placeAt?, placeAt?, hfollow, Option.map_bind]
  exact congrArg _ (funext fun place =>
    Table.find?_map Function.injective_id (root ++ ·) k.names (kind, place))

end Outline

/-- **The root name in front.** A document has one form and one outline, and under every root name
its type is that form and its catalog that outline with the root name in front. So there are the
same declarations at the same routes in the same order, and at every route the name is the root name
with what follows it under all root names alike. -/
theorem root_name_in_front (o : Options) (v : Json) :
    ∃ (form : Form) (k : Outline), ∀ wanted : Text,
      let root := RootName.ofText wanted
      typeOf o v root {} = (form.under root, k.under root) ∧
      ∀ kind route, (typeOf o v root {}).2.nameAt? kind route =
        (k.endingAt? kind route).map (root ++ ·) := by
  have hvisits : Visits o {} [] rootPlace "" := ⟨sound_empty o, rfl, by
    rw [String.append_empty]
    rfl⟩
  obtain ⟨form, k, -, hwalk⟩ := exists_value o hvisits v
  refine ⟨form, k, fun wanted => ?_⟩
  intro root
  have htype : typeOf o v root {} = (form.under root, k.under root) := by
    have h := hwalk root (isIdentifier_rootName wanted)
    rwa [String.append_empty, under_empty, ← Walk.typeOf_eq_typeAt] at h
  exact ⟨htype, fun kind route => by rw [htype, nameAt?_under]⟩

end TypeSketch
