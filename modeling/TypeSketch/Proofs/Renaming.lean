import TypeSketch.Proofs.Outline

/-!
# Types with other atoms

When atoms of a type are replaced, types that were different may become the same. An array then has
one type less, and an array of two types may become an array of one (`TypeExpr.rename`).

**Theorem** (`rename_ofItems`). It does not matter whether atoms are replaced before the type of an
array is made of the types of its items, or afterwards.

**Catalogs** (`Catalog.mapTypes`). The types of all properties can be replaced in a catalog. The
operations on catalogs do not look at these types.
-/

namespace TypeSketch

/-! ## Repetitions -/

namespace Distinct

variable {α α' β β' : Type*} [DecidableEq β] [DecidableEq β']

theorem ofList_concat (key : α → β) (ys : List α) (y : α) :
    ofList key (ys ++ [y]) = add key (ofList key ys) y := List.foldl_append

theorem mem_map_ofList {key : α → β} {ys : List α} {b : β} :
    b ∈ (ofList key ys).map key ↔ b ∈ ys.map key := by
  rw [ofList, mem_map_addAll, List.map_nil]
  simp only [List.not_mem_nil, false_or]

/-- Repetitions may go before elements are changed, if the changed ones are then the same. -/
theorem ofList_map_ofList {key : α → β} {key' : α' → β'} {g : α → α'} {ys : List α}
    (h : ∀ a ∈ ys, ∀ b ∈ ys, key a = key b → key' (g a) = key' (g b)) :
    ofList key' ((ofList key ys).map g) = ofList key' (ys.map g) := by
  induction ys using List.reverseRecOn with
  | nil => rfl
  | append_singleton ys y ih =>
    have hold := ih fun a ha b hb =>
      h a (List.mem_append_left _ ha) b (List.mem_append_left _ hb)
    rw [List.map_append, List.map_singleton, ofList_concat, ofList_concat]
    by_cases hy : key y ∈ (ofList key ys).map key
    · obtain ⟨x, hx, he⟩ := List.mem_map.1 (mem_map_ofList.1 hy)
      have hsame := h x (List.mem_append_left _ hx) y (by simp) he
      have hmem : key' (g y) ∈ (ofList key' (ys.map g)).map key' := by
        rw [mem_map_ofList, ← hsame]
        exact List.mem_map_of_mem (List.mem_map_of_mem hx)
      rw [add_of_mem hy, hold, add_of_mem hmem]
    · rw [add, if_neg hy, List.map_append, List.map_singleton, ofList_concat, hold]

end Distinct

/-! ## Types -/

namespace TypeExpr

/-- The type with other atoms. What becomes the same in an array counts once. -/
def rename (f : String → String) : TypeExpr → TypeExpr
  | .atom name => .atom (f name)
  | .array item => ofItems [item.rename f]
  | .arrayOfUnion members => ofItems (members.map (rename f))

theorem ofItems_singleton (t : TypeExpr) : ofItems [t] = .array t := rfl

variable (f : String → String)

@[simp] theorem rename_atom (name : String) : (atom name).rename f = .atom (f name) := by
  rw [rename]

@[simp] theorem rename_array (item : TypeExpr) :
    (array item).rename f = .array (item.rename f) := by
  rw [rename, ofItems_singleton]

/-- Members of a union that become the same are counted once. -/
theorem rename_ofDistinct (types : List TypeExpr) :
    (ofDistinct types).rename f = ofItems (types.map (rename f)) := by
  match types with
  | [t] => rw [ofDistinct, rename, List.map_singleton]
  | [] | _ :: _ :: _ => rw [ofDistinct, rename]; simp

/-- The type of an array has other atoms if the types of its items have them. -/
theorem rename_ofItems {types : List TypeExpr} (h : ∀ t ∈ types, t.WellFormed IsWord) :
    (ofItems types).rename f = ofItems (types.map (rename f)) := by
  rw [ofItems, rename_ofDistinct, ofItems, ofItems]
  refine congrArg ofDistinct (Distinct.ofList_map_ofList fun s hs t ht he => ?_)
  rw [text_inj (h s hs) (h t ht) he]

end TypeExpr

/-! ## Catalogs -/

namespace Table

variable {α β γ : Type*}

/-- The table with other values at its keys. -/
def mapValues (g : β → γ) (t : Table α β) : Table α γ := t.map id Function.injective_id g

theorem keys_mapValues (g : β → γ) (t : Table α β) : (t.mapValues g).keys = t.keys := by
  simp [keys, mapValues, Table.map]

variable [DecidableEq α]

theorem find?_mapValues (g : β → γ) (t : Table α β) (k : α) :
    (t.mapValues g).find? k = (t.find? k).map g :=
  find?_map Function.injective_id g t k

theorem put_mapValues (g : β → γ) (t : Table α β) (k : α) (v : β) :
    (t.mapValues g).put k (g v) = (t.put k v).mapValues g :=
  put_map Function.injective_id g t k v

theorem putNew_mapValues (g : β → γ) (t : Table α β) (k : α) (v : β) :
    (t.mapValues g).putNew k (g v) = (t.putNew k v).mapValues g :=
  putNew_map Function.injective_id g t k v

theorem ofList_mapValues (g : β → γ) (l : List (α × β)) :
    ofList (l.map (Prod.map id g)) = (ofList l).mapValues g :=
  ofList_map Function.injective_id g l

end Table

namespace Catalog

/-- The catalog with other types in its interfaces. -/
def mapTypes (g : TypeExpr → TypeExpr) (c : Catalog) : Catalog :=
  { c with interfaces := c.interfaces.mapValues (Table.mapValues g) }

variable (g : TypeExpr → TypeExpr) (c : Catalog)

/-- A place is found or entered whatever the types are. -/
theorem place_mapTypes (parent : Int) (step : Step) : (c.mapTypes g).place parent step =
    ((c.place parent step).1, (c.place parent step).2.mapTypes g) := by
  have hplaces : (c.mapTypes g).places = c.places := rfl
  unfold Catalog.place
  rw [hplaces]
  cases c.places.findIdx? (· = (parent, step)) with
  | some i => rfl
  | none => rfl

theorem nameFor_mapTypes (kind : Kind) (place : Int) (candidate : String) :
    (c.mapTypes g).nameFor kind place candidate =
      ((c.nameFor kind place candidate).1, (c.nameFor kind place candidate).2.mapTypes g) := by
  have hnames : (c.mapTypes g).names = c.names := rfl
  unfold nameFor
  rw [hnames]
  cases c.names.find? (kind, place) with
  | some name => rfl
  | none => rfl

theorem openInterface_mapTypes (place : Int) (candidate : String) :
    (c.mapTypes g).openInterface place candidate =
      ((c.openInterface place candidate).1, (c.openInterface place candidate).2.mapTypes g) := by
  have hput := Table.putNew_mapValues (Table.mapValues g)
    (c.nameFor .interface place candidate).2.interfaces
    (c.nameFor .interface place candidate).1 ∅
  simp only [openInterface, nameFor_mapTypes]
  exact congrArg (fun interfaces => ((c.nameFor .interface place candidate).1,
    { (c.nameFor .interface place candidate).2 with interfaces := interfaces })) hput

theorem addEnum_mapTypes (place : Int) (candidate : String) (values : List Text) :
    (c.mapTypes g).addEnum place candidate values =
      ((c.addEnum place candidate values).1, (c.addEnum place candidate values).2.mapTypes g) := by
  simp only [addEnum, nameFor_mapTypes]
  rfl

theorem setProperties_mapTypes (name : String) (properties : List (Text × TypeExpr)) :
    (c.mapTypes g).setProperties name (Table.ofList (properties.map (Prod.map id g))) =
      (c.setProperties name (Table.ofList properties)).mapTypes g := by
  rw [Table.ofList_mapValues]
  exact congrArg (fun interfaces => { c with interfaces := interfaces })
    (Table.put_mapValues (Table.mapValues g) c.interfaces name _)

end Catalog

end TypeSketch
