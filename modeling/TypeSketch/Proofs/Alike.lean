import TypeSketch.Sketch
import TypeSketch.Proofs.Conformance

/-!
# Documents that are built alike

A sketch says how a document is built and nothing about what stands in it. Two documents are built
alike (`Json.Alike`) if they have the same containers with the same keys in the same order, and
leaves of the same kinds. Only enums have values of the document in them, so when enums are wanted
the arrays of nothing but strings have to be the same.

**Theorem** (`alike_rules`). Walks through values that are built alike find the same type and enter
the same things into a catalog.

**Theorem** (`typeOf_eq_of_alike`). Documents that are built alike have the same type, the same
declarations and the same text. So without enums no truth value, number or string of a document has
a part in its sketch.
-/

namespace TypeSketch

namespace Json

/-- Documents that are built alike. Where arrays of strings make enums, these are the same in
both. -/
inductive Alike (enums : Bool) : Json → Json → Prop
  | null : Alike enums .null .null
  | bool (b b' : Bool) : Alike enums (.bool b) (.bool b')
  | number (n n' : Number) : Alike enums (.number n) (.number n')
  | string (s s' : Text) : Alike enums (.string s) (.string s')
  | array {items items' : List Json} (hitems : List.Forall₂ (Alike enums) items items')
      (hstrings : enums = true → items.all isString = true → items' = items) :
      Alike enums (.array items) (.array items')
  | object {members members' : List (Text × Json)}
      (hkeys : members'.map Prod.fst = members.map Prod.fst)
      (hvalues : List.Forall₂ (Alike enums) (members.map Prod.snd) (members'.map Prod.snd)) :
      Alike enums (.object members) (.object members')
  | other : Alike enums .other .other

/-! ## Leaves and strings -/

theorem Alike.isString_eq {enums : Bool} {v w : Json} (h : Alike enums v w) :
    w.isString = v.isString := by
  cases h <;> rfl

theorem Alike.leafType?_eq {enums : Bool} {v w : Json} (h : Alike enums v w) (o : Options) :
    Walk.leafType? o w = Walk.leafType? o v := by
  cases h with
  | null | bool | number | string | object | other => rfl
  | array hitems =>
    cases hitems with
    | nil => rfl
    | cons => rfl

theorem all_isString_of_forall₂ {enums : Bool} {items items' : List Json}
    (h : List.Forall₂ (Alike enums) items items') :
    items'.all isString = items.all isString := by
  induction h with
  | nil => rfl
  | cons hv _ ih => rw [List.all_cons, List.all_cons, hv.isString_eq, ih]

/-- Items that are alike make the same enum, or none. -/
theorem enumValues?_eq_of_alike {o : Options} {items items' : List Json}
    (hitems : List.Forall₂ (Alike o.detectEnums) items items')
    (hstrings : o.detectEnums = true → items.all isString = true → items' = items) :
    Walk.enumValues? o items' = Walk.enumValues? o items := by
  by_cases h : o.detectEnums = true ∧ items.all isString = true
  · rw [hstrings h.1 h.2]
  · have hnone {l : List Json} (hl : l.all isString = items.all isString) :
        Walk.enumValues? o l = none := by
      rw [← Option.not_isSome_iff_eq_none, isSome_enumValues?, hl, Bool.and_eq_true]
      exact h
    rw [hnone (all_isString_of_forall₂ hitems), hnone rfl]

end Json

/-! ## Walks -/

open Json in
/-- A walk through something that is built alike comes to the same end. -/
theorem alike_rules (o : Options) : Walk.Rules o
    (fun name place c v t c' => ∀ w, Alike o.detectEnums v w →
      Walk.typeAt o name place c w = (t, c'))
    (fun name place c items types c' => ∀ items', List.Forall₂ (Alike o.detectEnums) items items' →
      Walk.typesOfItems o name place c items' = (types, c'))
    (fun interface place c members properties c' => ∀ members',
      members'.map Prod.fst = members.map Prod.fst →
      List.Forall₂ (Alike o.detectEnums) (members.map Prod.snd) (members'.map Prod.snd) →
      Walk.typesOfMembers o interface place c members' = (properties, c')) where
  leaf ht w h := Walk.typeAt_of_leafType? ((h.leafType?_eq o).trans ht) _ _ _
  strings {name place c items values} hne hv w h := by
    cases h with
    | @array _ items' hitems hstrings =>
      have hitems' : Walk.enumValues? o items' = some values := by
        rw [enumValues?_eq_of_alike hitems hstrings, hv]
      exact Walk.typeAt_of_enumValues? (ne_nil_of_forall₂ hitems hne) hitems' name place c
  array {name place c items types c'} hne hv _ ih w h := by
    cases h with
    | @array _ items' hitems hstrings =>
      have hitems' : Walk.enumValues? o items' = none := by
        rw [enumValues?_eq_of_alike hitems hstrings, hv]
      rw [Walk.typeAt_array (ne_nil_of_forall₂ hitems hne) hitems']
      simp only [ih items' hitems]
  object {name place c members properties c'} _ ih w h := by
    cases h with
    | @object _ members' hkeys hvalues => simp only [Walk.typeAt, ih members' hkeys hvalues]
  noItems items' h := by
    rw [List.forall₂_nil_left_iff.1 h, Walk.typesOfItems]
  item _ _ ihv ihrest items' h := by
    cases h with
    | cons hv hrest => simp only [Walk.typesOfItems, ihv _ hv, ihrest _ hrest]
  noMembers members' hkeys _ := by
    rw [List.map_eq_nil_iff.1 hkeys, Walk.typesOfMembers]
  member _ _ ihv ihrest members' hkeys hvalues := by
    obtain ⟨⟨key', w⟩, rest', rfl, hkey, hrest⟩ := List.map_eq_cons_iff.1 hkeys
    cases hkey
    cases hvalues with
    | cons hv hvs => simp only [Walk.typesOfMembers, ihv w hv, ihrest rest' hrest hvs]

/-! ## Blank documents -/

namespace Json

mutual

/-- A document with every truth value, number and string replaced by one of its kind. -/
def blank : Json → Json
  | .bool _ => .bool false
  | .number _ => .number (.integer 0)
  | .string _ => .string []
  | .array items => .array (blankItems items)
  | .object members => .object (blankMembers members)
  | .null => .null
  | .other => .other

def blankItems : List Json → List Json
  | [] => []
  | item :: rest => item.blank :: blankItems rest

def blankMembers : List (Text × Json) → List (Text × Json)
  | [] => []
  | (key, value) :: rest => (key, value.blank) :: blankMembers rest

end

mutual

theorem alike_blank (v : Json) : Alike false v v.blank := by
  match v with
  | .null => exact .null
  | .bool b => exact .bool b false
  | .number n => exact .number n _
  | .string s => exact .string s []
  | .array items =>
    rw [blank]
    exact .array (forall₂_blankItems items) (by simp)
  | .object members =>
    rw [blank]
    exact .object (alike_blankMembers members).1 (alike_blankMembers members).2
  | .other => exact .other

theorem forall₂_blankItems (items : List Json) :
    List.Forall₂ (Alike false) items (blankItems items) := by
  match items with
  | [] => exact .nil
  | item :: rest => exact .cons (alike_blank item) (forall₂_blankItems rest)

theorem alike_blankMembers (members : List (Text × Json)) :
    (blankMembers members).map Prod.fst = members.map Prod.fst ∧
    List.Forall₂ (Alike false) (members.map Prod.snd) ((blankMembers members).map Prod.snd) := by
  match members with
  | [] => exact ⟨rfl, .nil⟩
  | (key, value) :: rest =>
    obtain ⟨hkeys, hvalues⟩ := alike_blankMembers rest
    exact ⟨congrArg (key :: ·) hkeys, .cons (alike_blank value) hvalues⟩

end

end Json

/-! ## Whole documents -/

theorem typeOf_congr_alike {o : Options} {v w : Json} (h : v.Alike o.detectEnums w) (name : String)
    (c : Catalog) : typeOf o w name c = typeOf o v name c := by
  rw [Walk.typeOf_eq_typeAt, Walk.typeOf_eq_typeAt]
  exact (alike_rules o).value name rootPlace c v w h

/-- **Only the build counts.** Documents that are built alike have the same type, leave the same
catalog behind, whatever it was before, and have the same sketch. Without enums all truth values,
numbers and strings of a document can be replaced. -/
theorem typeOf_eq_of_alike (o : Options) :
    (∀ v w, v.Alike o.detectEnums w → (∀ name c, typeOf o v name c = typeOf o w name c) ∧
      ∀ wanted, sketch o wanted v = sketch o wanted w) ∧
    (o.detectEnums = false → ∀ v, (∀ name c, typeOf o v name c = typeOf o v.blank name c) ∧
      ∀ wanted, sketch o wanted v = sketch o wanted v.blank) := by
  have key (v w : Json) (h : v.Alike o.detectEnums w) :
      (∀ name c, typeOf o v name c = typeOf o w name c) ∧
        ∀ wanted, sketch o wanted v = sketch o wanted w := by
    have htype (name : String) (c : Catalog) : typeOf o v name c = typeOf o w name c :=
      (typeOf_congr_alike h name c).symm
    refine ⟨htype, fun wanted => ?_⟩
    rw [sketch, sketch, declare, declare, htype]
  exact ⟨key, fun ho v => key v v.blank (ho ▸ v.alike_blank)⟩

/-- An order with an address, a list of marks and a list of prices. -/
def orderOf (paid : Bool) (price : Number) (city : Text) : Json :=
  .object [("paid", .bool paid), ("marks", .array [.string "new", .string "gift", .string "new"]),
    ("prices", .array [.number price, .string city]), ("to", .object [("city", .string city)])]

/-- Two orders with one list of marks have the same declarations, and the marks are in them. -/
theorem typeOf_eq_of_alike_orders :
    let o : Options := { detectEnums := true }
    let v := orderOf true (.integer 7) "Rome"
    let w := orderOf false .notANumber "new"
    v.Alike o.detectEnums w ∧ typeOf o v "Order" {} = typeOf o w "Order" {} ∧
      sketch o "Order" v = sketch o "Order" w ∧
      (typeOf o v "Order" {}).2.enums.values = [["new", "gift"].map Text.ofString] ∧
      typeOf {} v "Order" {} = typeOf {} v.blank "Order" {} := by
  intro o v w
  have h : v.Alike o.detectEnums w := by
    refine .object rfl (.cons (.bool _ _) (.cons (.array ?_ fun _ _ => rfl)
      (.cons (.array ?_ fun _ h => absurd h (by decide)) (.cons (.object rfl ?_) .nil))))
    · exact .cons (.string _ _) (.cons (.string _ _) (.cons (.string _ _) .nil))
    · exact .cons (.number _ _) (.cons (.string _ _) .nil)
    · exact .cons (.string _ _) .nil
  obtain ⟨htype, hsketch⟩ := (typeOf_eq_of_alike o).1 v w h
  exact ⟨h, htype "Order" {}, hsketch "Order", by decide +kernel,
    ((typeOf_eq_of_alike {}).2 rfl v).1 "Order" {}⟩

end TypeSketch
