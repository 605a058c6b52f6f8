import TypeSketch.Proofs.Growth
import Mathlib.Data.List.Induction

/-!
# Walking again

A walk enters the places, names and enum values that a document needs. When the same document is
walked again, all of them are found, so the name that is handed down does not matter any more.

What interfaces hold is not constant on the way: of several objects at one route each replaces what
the one before has set, and so it goes a second time. But the same properties are given to the same
interfaces in the same order, and every interface ends with what was given to it last.

**Theorem** (`Table.putAll_eq_self`). A table in which every key has the value that was put there
last does not change when all of them are put again.

**Theorem** (`again_rules`). In every catalog that has grown from the end of a walk, the walk finds
the same types and gives the same properties.

**Theorem** (`typeOf_again`). A second walk through a document, under whatever name, finds the type
of the first and changes nothing.
-/

namespace TypeSketch

/-! ## Putting many values -/

namespace Table

variable {α : Type*} {β : Type*} [DecidableEq α]

def putAll (t : Table α β) (l : List (α × β)) : Table α β :=
  l.foldl (fun t e => t.put e.1 e.2) t

theorem putAll_append (t : Table α β) (l l' : List (α × β)) :
    t.putAll (l ++ l') = (t.putAll l).putAll l' := List.foldl_append

theorem putAll_concat (t : Table α β) (l : List (α × β)) (k : α) (v : β) :
    t.putAll (l ++ [(k, v)]) = (t.putAll l).put k v := putAll_append t l [(k, v)]

/-- What is put last at a key stands there, and the rest is left. -/
theorem find?_putAll (t : Table α β) (l : List (α × β)) (k : α) :
    (t.putAll l).find? k = ((ofList l).find? k).or (t.find? k) := by
  induction l using List.reverseRecOn with
  | nil => rfl
  | append_singleton l e ih =>
    have hlast :
        (ofList (l ++ [e])).find? k = if k = e.1 then some e.2 else (ofList l).find? k := by
      rw [← find?_put]
      exact congrArg (find? · k) (putAll_concat empty l e.1 e.2)
    rw [hlast, putAll_concat, find?_put, ih]
    split <;> rfl

/-- Keys that are there stay as they are. -/
theorem keys_putAll {t : Table α β} {l : List (α × β)} (h : ∀ e ∈ l, e.1 ∈ t.keys) :
    (t.putAll l).keys = t.keys := by
  induction l using List.reverseRecOn with
  | nil => rfl
  | append_singleton l e ih =>
    have hl := ih fun e he => h e (List.mem_append_left _ he)
    have he : e.1 ∈ (t.putAll l).keys := by
      rw [hl]
      exact h e (List.mem_append_right _ List.mem_cons_self)
    rw [putAll_concat, keys_put, if_pos he, hl]

theorem mem_keys_putAll {t : Table α β} {l : List (α × β)} {k : α} :
    k ∈ (t.putAll l).keys ↔ k ∈ t.keys ∨ k ∈ l.map Prod.fst := by
  induction l using List.reverseRecOn with
  | nil => simp [putAll]
  | append_singleton l e ih =>
    rw [putAll_concat, mem_keys_put, ih, List.map_append, List.mem_append, List.map_singleton,
      List.mem_singleton, or_assoc]

theorem keys_prefix_putAll (t : Table α β) (l : List (α × β)) : t.keys <+: (t.putAll l).keys := by
  induction l using List.reverseRecOn with
  | nil => exact List.prefix_refl _
  | append_singleton l e ih =>
    rw [putAll_concat]
    exact ih.trans (keys_prefix_put _ _ _)

/-- Tables with the same keys in the same order and the same values are the same. -/
theorem ext_find? {s t : Table α β} (hk : s.keys = t.keys) (h : ∀ k, s.find? k = t.find? k) :
    s = t := by
  have key (l l' : List (α × β)) (hn : (l.map Prod.fst).Nodup)
      (hk : l.map Prod.fst = l'.map Prod.fst) (h : ∀ k, findPair k l = findPair k l') :
      l = l' := by
    induction l generalizing l' with
    | nil => exact (List.map_eq_nil_iff.1 hk.symm).symm
    | cons e rest ih =>
      obtain ⟨k, v⟩ := e
      obtain ⟨⟨k', v'⟩, rest', rfl⟩ := List.exists_cons_of_ne_nil (l := l') (by
        rintro rfl
        cases hk)
      obtain ⟨rfl, hrest⟩ := List.cons.inj hk
      obtain ⟨hnot, hn⟩ := List.nodup_cons.1 hn
      have hv := h k
      simp only [findPair, ↓reduceIte, Option.some.injEq] at hv
      subst hv
      refine congrArg _ (ih rest' hn hrest fun a => ?_)
      by_cases ha : k = a
      · -- the key in front is in neither rest
        have hnone (l : List (α × β)) (hl : l.map Prod.fst = rest.map Prod.fst) :
            findPair a l = none := by
          rw [← Option.not_isSome_iff_eq_none, findPair_isSome, hl, ← ha]
          exact hnot
        rw [hnone rest rfl, hnone rest' hrest.symm]
      · have hrest := h a
        simpa only [findPair, ha, ↓reduceIte] using hrest
  exact Table.ext (key s.entries t.entries s.nodup hk h)

/-- Putting again what was put last changes nothing. -/
theorem putAll_eq_self {s t : Table α β} {l : List (α × β)}
    (h : ∀ k, t.find? k = (s.putAll l).find? k) : t.putAll l = t := by
  refine ext_find? (keys_putAll fun e he => ?_) fun k => ?_
  · have hmem : e.1 ∈ (s.putAll l).keys := mem_keys_putAll.2 (Or.inr (List.mem_map_of_mem he))
    rwa [← contains_iff, contains, ← h, ← contains, contains_iff] at hmem
  · rw [find?_putAll, h, find?_putAll, ← Option.or_assoc, Option.or_self]

end Table

/-! ## Finding again

What an operation has entered is found by the same operation from then on, and the candidate does
not count.
-/

theorem Distinct.addAll_of_subset {α : Type*} [DecidableEq α] {xs ys : List α}
    (h : ∀ y ∈ ys, y ∈ xs) : addAll id xs ys = xs := by
  induction ys with
  | nil => rfl
  | cons y rest ih =>
    rw [List.forall_mem_cons] at h
    have hadd : add id xs y = xs := add_of_mem (by rw [List.map_id]; exact h.1)
    show addAll id (add id xs y) rest = xs
    rw [hadd, ih h.2]

namespace Catalog

variable {c d : Catalog}

theorem Grows.place_again {parent : Int} {step : Step} (h : Grows (c.place parent step).2 d) :
    d.place parent step = ((c.place parent step).1, d) :=
  place_of_child? (h.child? (child?_place c parent step))

theorem Grows.openInterface_again {place : Int} {candidate : String}
    (h : Grows (c.openInterface place candidate).2 d) (candidate' : String) :
    d.openInterface place candidate' = ((c.openInterface place candidate).1, d) := by
  have hname := nameFor_of_find? (h.find? (find?_nameFor c .interface place candidate)) candidate'
  have hmem : (c.nameFor .interface place candidate).1 ∈ d.interfaces.keys :=
    h.interfaces.subset (mem_keys_openInterface c place candidate)
  simp only [openInterface, hname, Table.putNew_of_mem hmem]

theorem Grows.addEnum_again {place : Int} {candidate : String} {values : List Text}
    (h : Grows (c.addEnum place candidate values).2 d) (candidate' : String) :
    d.addEnum place candidate' values = ((c.addEnum place candidate values).1, d) := by
  have hname := nameFor_of_find? (h.find? (find?_nameFor c .enum place candidate)) candidate'
  obtain ⟨members, hm, hall⟩ := exists_find?_addEnum c place candidate values
  obtain ⟨more, hd⟩ := h.values hm
  rw [addEnum_fst] at hd
  have hadd : Distinct.addAll id (members ++ more) values = members ++ more :=
    Distinct.addAll_of_subset fun s hs => List.mem_append_left more (hall s hs)
  simp only [addEnum, hname, hd, Option.getD_some, hadd, Table.put_eq_self hd]

/-- The catalog with interfaces given properties, one after the other. -/
def setAll (c : Catalog) (given : List (String × Properties)) : Catalog :=
  { c with interfaces := c.interfaces.putAll given }

theorem setAll_append (given given' : List (String × Properties)) :
    (c.setAll given).setAll given' = c.setAll (given ++ given') := by
  simp only [setAll, Table.putAll_append]

theorem setProperties_setAll (given : List (String × Properties)) (name : String)
    (properties : Properties) :
    (c.setAll given).setProperties name properties = c.setAll (given ++ [(name, properties)]) := by
  simp only [setAll, setProperties, Table.putAll_concat]

theorem grows_setAll (c : Catalog) (given : List (String × Properties)) :
    Grows c (c.setAll given) :=
  { Grows.refl c with interfaces := Table.keys_prefix_putAll _ _ }

end Catalog

/-! ## Walks -/

open Catalog

/-- A walk that can be taken again. On its way from one catalog to another it has given properties
to interfaces, and wherever everything is there that it entered, it only gives them once more and
finds the same. -/
structure Again {α : Type} (c c' : Catalog) (given : List (String × Properties))
    (walk : Catalog → α × Catalog) (found : α) : Prop where
  left (name : String) : c'.interfaces.find? name = (c.interfaces.putAll given).find? name
  again {d : Catalog} (h : Grows c' d) : walk d = (found, d.setAll given)

section

variable {α β γ : Type} {c c₁ c₂ : Catalog} {given given' : List (String × Properties)}

/-- Nothing is given. -/
theorem again_of_find {walk : Catalog → α × Catalog} {found : α}
    (hi : ∀ name, c₁.interfaces.find? name = c.interfaces.find? name)
    (h : ∀ {d}, Grows c₁ d → walk d = (found, d)) : Again c c₁ [] walk found where
  left := hi
  again hd := h hd

/-- Walks one after the other. -/
theorem Again.append {walk : Catalog → α × Catalog} {walk' : Catalog → β × Catalog} {a : α} {b : β}
    (h : Again c c₁ given walk a) (h' : Again c₁ c₂ given' walk' b) (hg : Grows c₁ c₂)
    (f : α → β → γ) : Again c c₂ (given ++ given')
      (fun d => (f (walk d).1 (walk' (walk d).2).1, (walk' (walk d).2).2)) (f a b) where
  left name := by
    rw [h'.left, Table.find?_putAll, h.left, ← Table.find?_putAll, Table.putAll_append]
  again {d} hd := by
    rw [h.again (hg.trans hd), h'.again (hd.trans (grows_setAll d given)), setAll_append]

end

theorem again_rules (o : Options) : Walk.Rules o
    (fun _ place c v t c' => ∃ given, ∀ name,
      Again c c' given (fun d => Walk.typeAt o name place d v) t)
    (fun _ place c items types c' => ∃ given, ∀ name,
      Again c c' given (fun d => Walk.typesOfItems o name place d items) types)
    (fun interface place c members properties c' => ∃ given,
      Again c c' given (fun d => Walk.typesOfMembers o interface place d members) properties) where
  leaf ht := ⟨[], fun name => again_of_find (fun _ => rfl) fun _ =>
    Walk.typeAt_of_leafType? ht name _ _⟩
  strings {name place c items values} hne hv := by
    refine ⟨[], fun name' => again_of_find (fun _ => ?_) fun hd => ?_⟩
    · rw [addEnum_interfaces]
    · rw [Walk.typeAt_of_enumValues? hne hv, hd.addEnum_again]
  array {name place c items types c'} hne hv hitems ih := by
    obtain ⟨given, h⟩ := ih
    have hg := ((edits_rules o).of_typesOfItems hitems).grows
    refine ⟨given, fun name' => ⟨fun n => ?_, fun {d} hd => ?_⟩⟩
    · rw [(h name').left, place_interfaces]
    · rw [Walk.typeAt_array hne hv, (hg.trans hd).place_again]
      simp only [(h (name' ++ "Item")).again hd]
  object {name place c members properties c'} hmembers ih := by
    obtain ⟨given, h⟩ := ih
    have hg := ((edits_rules o).of_typesOfMembers hmembers).grows
    have hset := grows_setProperties c' (c.openInterface place (Text.typeName name)).1
      (Table.ofList properties)
    refine ⟨given ++ [((c.openInterface place (Text.typeName name)).1, Table.ofList properties)],
      fun name' => ⟨fun n => ?_, fun {d} hd => ?_⟩⟩
    · rw [Table.putAll_concat, setProperties, Table.find?_put, Table.find?_put]
      split
      · rfl
      · next hn =>
        rw [h.left, Table.find?_putAll, Table.find?_putAll, find?_openInterface_of_ne hn]
    · have hd' := hset.trans hd
      simp only [Walk.typeAt, (hg.trans hd').openInterface_again, h.again hd',
        setProperties_setAll]
  noItems := ⟨[], fun name => again_of_find (fun _ => rfl) fun _ => rfl⟩
  item hv hrest ihv ihrest := by
    obtain ⟨given, h⟩ := ihv
    obtain ⟨given', h'⟩ := ihrest
    have hg := ((edits_rules o).of_typesOfItems hrest).grows
    exact ⟨given ++ given', fun name => (h name).append (h' name) hg List.cons⟩
  noMembers := ⟨[], again_of_find (fun _ => rfl) fun _ => rfl⟩
  member {interface place c key v rest t properties c₁ c₂} hv hrest ihv ihrest := by
    obtain ⟨given, h⟩ := ihv
    obtain ⟨given', h'⟩ := ihrest
    have hg := ((edits_rules o).of_typeAt hv).grows
    have hg' := ((edits_rules o).of_typesOfMembers hrest).grows
    have hboth := (h (Walk.memberName o interface key)).append h' hg' fun t rest => (key, t) :: rest
    refine ⟨given ++ given', ⟨fun n => ?_, fun {d} hd => ?_⟩⟩
    · rw [hboth.left, Table.find?_putAll, Table.find?_putAll, place_interfaces]
    · rw [← hboth.again hd, Walk.typesOfMembers, ((hg.trans hg').trans hd).place_again]

/-- **Walking again.** A document that is walked a second time, with the same options and under
whatever name, has the type that was found for it, and the catalog stays as it is. -/
theorem typeOf_again (o : Options) (v : Json) (name name' : String) (c : Catalog) :
    typeOf o v name' (typeOf o v name c).2 = typeOf o v name c := by
  obtain ⟨given, hagain⟩ := (again_rules o).value name rootPlace c v
  rw [Walk.typeOf_eq_typeAt, Walk.typeOf_eq_typeAt, (hagain name').again (.refl _), setAll,
    Table.putAll_eq_self (hagain name').left]

end TypeSketch
