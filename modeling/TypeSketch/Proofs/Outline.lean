import TypeSketch.Proofs.NameOrigin
import Mathlib.Logic.Function.Basic

/-!
# Outlines

An outline is a catalog without its root name. In place of a name it has what follows the root name
in it, the ending, and its types tell declarations from built-in types (`Form`). An outline can be
put under any root name (`Outline.under`).

**Operations.** What an operation does to an outline under a root name can be said without the root
name: it does the same to the outline, under all root names at once. A name is fresh under one root
name just if it is under another (`Fresh.name_map`).

**Theorem** (`under_ofItems`). The same goes for the type of an array, if no name that its items
refer to can be mistaken for a built-in type (`Form.Clear`). Otherwise two types might read the same
under one root name and not under another.
-/

namespace TypeSketch

open Numbered (numbered)

/-! ## Other names in lists and tables -/

namespace Table

variable {α α' β β' : Type*}

def map (f : α → α') (hf : Function.Injective f) (g : β → β') (t : Table α β) : Table α' β' where
  entries := t.entries.map (Prod.map f g)
  nodup := by
    have hkeys : (t.entries.map (Prod.map f g)).map Prod.fst = (t.entries.map Prod.fst).map f := by
      simp
    rw [hkeys]
    exact t.nodup.map hf

variable [DecidableEq α] [DecidableEq α'] {f : α → α'} (hf : Function.Injective f) (g : β → β')

include hf

theorem putPair_map (k : α) (v : β) (l : List (α × β)) :
    putPair (f k) (g v) (l.map (Prod.map f g)) = (putPair k v l).map (Prod.map f g) := by
  induction l with
  | nil => rfl
  | cons e rest ih =>
    obtain ⟨a, b⟩ := e
    by_cases h : a = k
    · simp [putPair, h]
    · simp [putPair, h, hf.eq_iff, ih]

theorem findPair_map (k : α) (l : List (α × β)) :
    findPair (f k) (l.map (Prod.map f g)) = (findPair k l).map g := by
  induction l with
  | nil => rfl
  | cons e rest ih =>
    obtain ⟨a, b⟩ := e
    by_cases h : a = k
    · simp [findPair, h]
    · simp [findPair, h, hf.eq_iff, ih]

theorem find?_map (t : Table α β) (k : α) : (t.map f hf g).find? (f k) = (t.find? k).map g :=
  findPair_map hf g k t.entries

theorem put_map (t : Table α β) (k : α) (v : β) :
    (t.map f hf g).put (f k) (g v) = (t.put k v).map f hf g :=
  Table.ext (putPair_map hf g k v t.entries)

theorem putNew_map (t : Table α β) (k : α) (v : β) :
    (t.map f hf g).putNew (f k) (g v) = (t.putNew k v).map f hf g := by
  rw [putNew, putNew, contains, contains, find?_map, Option.isSome_map, put_map]
  split <;> rfl

theorem ofList_map (l : List (α × β)) :
    ofList (l.map (Prod.map f g)) = (ofList l).map f hf g := by
  have key (t : Table α β) : (l.map (Prod.map f g)).foldl (fun t e => t.put e.1 e.2)
      (t.map f hf g) = (l.foldl (fun t e => t.put e.1 e.2) t).map f hf g := by
    induction l generalizing t with
    | nil => rfl
    | cons e rest ih =>
      rw [List.map_cons, List.foldl_cons, List.foldl_cons, ← ih, ← put_map]
      rfl
  exact key empty

end Table

/-- A fresh name stays fresh when all names are changed in one way that numbers do not notice. -/
theorem Fresh.name_map {α : Type} [Numbered α] [DecidableEq α] {f : α → α}
    (hf : Function.Injective f) (hnumbered : ∀ base n, f (numbered base n) = numbered (f base) n)
    (taken : List α) (base : α) : name (taken.map f) (f base) = f (name taken base) := by
  have hmem (a : α) : f a ∈ taken.map f ↔ a ∈ taken := List.mem_map_of_injective hf
  by_cases h : base ∈ taken
  · obtain ⟨m, hm, hname, hfree, hleast⟩ := exists_name_of_mem h
    obtain ⟨n, hn, hname', hfree', hleast'⟩ := exists_name_of_mem ((hmem base).2 h)
    rw [← hnumbered, hmem] at hfree'
    rw [hname, hname', ← hnumbered]
    rcases Nat.lt_trichotomy m n with hlt | rfl | hlt
    · have htaken := hleast' m hm hlt
      rw [← hnumbered, hmem] at htaken
      exact absurd htaken hfree
    · rfl
    · exact absurd (hleast n hn hlt) hfree'
  · rw [name_of_not_mem h, name_of_not_mem (mt (hmem base).1 h)]

/-! ## Forms -/

/-- The shortest root name. -/
def bareRoot : String := "_"

theorem isIdentifier_bareRoot : IsIdentifier bareRoot where
  word := fun c hc => List.all_eq_true.1 (by decide : _ = true) c hc
  ne_nil := by decide
  start := by decide

/-- The type of a place, with the names of declarations as what follows the root name in them. -/
inductive Form where
  | builtin (name : String)
  | declared (ending : String)
  | array (item : Form)
  | arrayOfUnion (members : List Form)

namespace Form

def under (root : String) : Form → TypeExpr
  | .builtin name => .atom name
  | .declared ending => .atom (root ++ ending)
  | .array item => .array (item.under root)
  | .arrayOfUnion members => .arrayOfUnion (members.map (under root))

/-- What follows the root name in the name of a declaration for an item or in that of an enum. Steps
to items add `Item`, and enums are put behind with `Enum`. No built-in type has a capital letter. -/
def Capital (ending : String) : Prop := 'I' ∈ ending.toList ∨ 'E' ∈ ending.toList

theorem append_not_mem_builtins {ending : String} (h : Capital ending) (root : String) :
    root ++ ending ∉ TypeExpr.builtins := by
  have key : ∀ name ∈ TypeExpr.builtins, 'I' ∉ name.toList ∧ 'E' ∉ name.toList := by decide
  intro hm
  have hnone := key _ hm
  rw [String.toList_append, List.mem_append, List.mem_append, not_or, not_or] at hnone
  exact h.elim hnone.1.2 hnone.2.2

/-- A form in which no declaration can be mistaken for a built-in type, whatever the root name. -/
inductive Clear : Form → Prop
  | builtin {name : String} (h : name ∈ TypeExpr.builtins) : Clear (.builtin name)
  | declared {ending : String} (h : Capital ending) : Clear (.declared ending)
  | array {item : Form} (h : Clear item) : Clear (.array item)
  | arrayOfUnion {members : List Form} (h : ∀ m ∈ members, Clear m) : Clear (.arrayOfUnion members)

/-- Under one root name, clear forms are different types. -/
theorem under_inj {root : String} {a b : Form} (ha : a.Clear) (hb : b.Clear)
    (h : a.under root = b.under root) : a = b := by
  induction ha generalizing b with
  | @builtin name hname =>
    cases hb with
    | builtin _ =>
      rw [under, under] at h
      rw [TypeExpr.atom.inj h]
    | declared hc =>
      rw [under, under] at h
      exact absurd (TypeExpr.atom.inj h ▸ hname) (append_not_mem_builtins hc root)
    | array _ => simp [under] at h
    | arrayOfUnion _ => simp [under] at h
  | declared hc =>
    cases hb with
    | builtin hname =>
      rw [under, under] at h
      exact absurd (TypeExpr.atom.inj h ▸ hname) (append_not_mem_builtins hc root)
    | declared _ =>
      rw [under, under] at h
      rw [(String.append_right_inj root).1 (TypeExpr.atom.inj h)]
    | array _ => simp [under] at h
    | arrayOfUnion _ => simp [under] at h
  | array _ ih =>
    cases hb with
    | builtin _ => simp [under] at h
    | declared _ => simp [under] at h
    | array hi =>
      rw [under, under] at h
      rw [ih hi (TypeExpr.array.inj h)]
    | arrayOfUnion _ => simp [under] at h
  | @arrayOfUnion ms _ ih =>
    cases hb with
    | builtin _ => simp [under] at h
    | declared _ => simp [under] at h
    | array _ => simp [under] at h
    | @arrayOfUnion ns hns =>
      rw [under, under] at h
      exact congrArg arrayOfUnion
        (TypeExpr.eq_of_map_eq (fun m hm n hn => ih m hm (hns n hn)) (TypeExpr.arrayOfUnion.inj h))

theorem text_under_eq_iff {root : String} {a b : Form} (ha : a.Clear) (hb : b.Clear)
    (hwa : (a.under root).WellFormed IsWord) (hwb : (b.under root).WellFormed IsWord) :
    (a.under root).text = (b.under root).text ↔ a = b :=
  ⟨fun h => under_inj ha hb (TypeExpr.text_inj hwa hwb h), fun h => h ▸ rfl⟩

/-- The forms that are different, each where it was first seen. Which root name tells them apart
does not matter. -/
def distinct (forms : List Form) : List Form :=
  Distinct.ofList (fun form => (form.under bareRoot).text) forms

/-- The array over different forms. -/
def ofDistinct : List Form → Form
  | [item] => .array item
  | members => .arrayOfUnion members

/-- The form of an array whose items have the given forms. -/
def ofItems (forms : List Form) : Form := ofDistinct (distinct forms)

theorem under_ofDistinct (root : String) (forms : List Form) :
    (ofDistinct forms).under root = TypeExpr.ofDistinct (forms.map (under root)) := by
  match forms with
  | [] | [_] | _ :: _ :: _ => simp [ofDistinct, TypeExpr.ofDistinct, under]

theorem clear_ofItems {forms : List Form} (h : ∀ form ∈ forms, form.Clear) :
    (ofItems forms).Clear := by
  have hmem {form : Form} (hf : form ∈ distinct forms) : form.Clear :=
    h form ((Distinct.mem_of_mem_addAll hf).resolve_left List.not_mem_nil)
  unfold ofItems
  generalize distinct forms = ds at hmem
  match ds with
  | [d] => exact .array (hmem List.mem_cons_self)
  | [] | _ :: _ :: _ => exact .arrayOfUnion fun _ hm => hmem hm

/-- The type of an array has one form under all root names. -/
theorem under_ofItems {forms : List Form} (hclear : ∀ form ∈ forms, form.Clear)
    (hwell : ∀ root, IsIdentifier root → ∀ form ∈ forms, (form.under root).WellFormed IsWord)
    {root : String} (hroot : IsIdentifier root) :
    (ofItems forms).under root = TypeExpr.ofItems (forms.map (under root)) := by
  have hsame (a b : Form) (ha : a ∈ forms) (hb : b ∈ forms) :
      (a.under root).text = (b.under root).text ↔
        (a.under bareRoot).text = (b.under bareRoot).text := by
    have heq {root : String} (hroot : IsIdentifier root) :=
      text_under_eq_iff (hclear a ha) (hclear b hb) (hwell root hroot a ha) (hwell root hroot b hb)
    rw [heq hroot, heq isIdentifier_bareRoot]
  have hdistinct : TypeExpr.distinct (forms.map (under root)) = (distinct forms).map (under root) :=
    Distinct.addAll_map hsame (fun _ h => absurd h List.not_mem_nil) fun _ h => h
  rw [ofItems, under_ofDistinct, TypeExpr.ofItems, hdistinct]

end Form

/-! ## Outlines of catalogs -/

/-- A catalog without its root name. -/
structure Outline where
  interfaces : Table String (Table Text Form) := ∅
  enums : Table String (List Text) := ∅
  places : List (Int × Step) := []
  names : Table (Kind × Int) String := ∅
  taken : List String := []

namespace Outline

theorem append_injective (root : String) : Function.Injective (root ++ ·) := fun _ _ =>
  (String.append_right_inj root).1

def under (root : String) (k : Outline) : Catalog where
  interfaces := k.interfaces.map (root ++ ·) (append_injective root)
    (Table.map id Function.injective_id (Form.under root))
  enums := k.enums.map (root ++ ·) (append_injective root) id
  places := k.places
  names := k.names.map id Function.injective_id (root ++ ·)
  taken := k.taken.map (root ++ ·)

theorem under_empty (root : String) : under root {} = {} := rfl

variable (k : Outline)

theorem exists_place (parent : Int) (step : Step) :
    ∃ below k', ∀ root, (k.under root).place parent step = (below, under root k') := by
  cases h : k.places.findIdx? (· = (parent, step)) with
  | some i =>
    refine ⟨i + 1, k, fun root => ?_⟩
    have hfound : (k.under root).places.findIdx? (· = (parent, step)) = some i := h
    simp only [Catalog.place, hfound]
  | none =>
    refine ⟨k.places.length + 1, { k with places := k.places ++ [(parent, step)] }, fun root => ?_⟩
    have hfound : (k.under root).places.findIdx? (· = (parent, step)) = none := h
    simp only [Catalog.place, hfound]
    rfl

theorem exists_nameFor (kind : Kind) (place : Int) (ending : String) :
    ∃ ending' names taken, ∀ root, (k.under root).nameFor kind place (root ++ ending) =
      (root ++ ending', under root { k with names := names, taken := taken }) := by
  have hfind (root : String) : (k.under root).names.find? (kind, place) =
      (k.names.find? (kind, place)).map (root ++ ·) :=
    Table.find?_map Function.injective_id (root ++ ·) k.names (kind, place)
  cases h : k.names.find? (kind, place) with
  | some ending' =>
    refine ⟨ending', k.names, k.taken, fun root => ?_⟩
    simp only [Catalog.nameFor, hfind, h, Option.map_some]
  | none =>
    set fresh := Fresh.name k.taken ending with hfresh
    refine ⟨fresh, k.names.put (kind, place) fresh, fresh :: k.taken, fun root => ?_⟩
    have hname : Fresh.name (k.under root).taken (root ++ ending) = root ++ fresh :=
      Fresh.name_map (append_injective root) (fun _ _ => String.append_assoc.symm) k.taken ending
    have hput : (k.under root).names.put (kind, place) (root ++ fresh) =
        (k.names.put (kind, place) fresh).map id Function.injective_id (root ++ ·) :=
      Table.put_map Function.injective_id (root ++ ·) k.names (kind, place) fresh
    simp only [Catalog.nameFor, hfind, h, Option.map_none, hname, hput]
    rfl

theorem exists_openInterface (place : Int) (ending : String) :
    ∃ ending' k', ∀ root, (k.under root).openInterface place (root ++ ending) =
      (root ++ ending', under root k') := by
  obtain ⟨ending', names, taken, hname⟩ := k.exists_nameFor .interface place ending
  refine ⟨ending', { k with
    interfaces := k.interfaces.putNew ending' ∅, names := names, taken := taken }, fun root => ?_⟩
  have hput := Table.putNew_map (append_injective root)
    (Table.map id Function.injective_id (Form.under root)) k.interfaces ending' ∅
  simp only [Catalog.openInterface, hname]
  exact congrArg (fun interfaces => (root ++ ending', { under root
    { k with names := names, taken := taken } with interfaces := interfaces })) hput

theorem exists_addEnum (place : Int) (ending : String) (values : List Text) :
    ∃ ending' k', ∀ root, (k.under root).addEnum place (root ++ ending) values =
      (root ++ ending', under root k') := by
  obtain ⟨ending', names, taken, hname⟩ := k.exists_nameFor .enum place ending
  set members := Distinct.addAll id ((k.enums.find? ending').getD []) values with hmembers
  refine ⟨ending', { k with
    enums := k.enums.put ending' members, names := names, taken := taken }, fun root => ?_⟩
  have hfind : (k.under root).enums.find? (root ++ ending') = (k.enums.find? ending').map id :=
    Table.find?_map (append_injective root) id k.enums ending'
  have hput := Table.put_map (append_injective root) id k.enums ending' members
  rw [Option.map_id_fun, id] at hfind
  simp only [Catalog.addEnum, hname]
  rw [show (under root { k with names := names, taken := taken }).enums = (k.under root).enums
    from rfl, hfind]
  exact congrArg (fun enums => (root ++ ending', { under root
    { k with names := names, taken := taken } with enums := enums })) hput

theorem exists_setProperties (ending : String) (properties : List (Text × Form)) :
    ∃ k', ∀ root, (k.under root).setProperties (root ++ ending)
      (Table.ofList (properties.map (Prod.map id (Form.under root)))) = under root k' := by
  refine ⟨{ k with interfaces := k.interfaces.put ending (Table.ofList properties) },
    fun root => ?_⟩
  rw [Table.ofList_map Function.injective_id]
  have hput := Table.put_map (append_injective root)
    (Table.map id Function.injective_id (Form.under root)) k.interfaces ending
    (Table.ofList properties)
  exact congrArg (fun interfaces => { k.under root with interfaces := interfaces }) hput

end Outline

end TypeSketch
