import TypeSketch.Proofs.NameOrigin

/-!
# Names without numbers

A name gets a number only if the wanted name was given before. Where that never happens
(`Unnumbered`), the name of a route does not depend on what else is in the document or on the order
in which it was met (`plainName`).

**Theorem** (`plain_rules`). If the routes that need a declaration have different plain names, a
walk gives them these names. A plain name is then taken only by its own route.

**Theorem** (`unnumbered_iff`). No name of a walk has a number just if the plain names of the routes
that need a declaration are different.
-/

namespace TypeSketch

open Catalog Json

/-! ## Plain names -/

section

variable (o : Options) (root : String)

/-- The name that is handed down along some steps, the last one first, if no name has a number. -/
def plainUp : List Step → String
  | [] => root
  | .item :: above => plainUp above ++ "Item"
  | .member key :: above => Walk.memberName o (Kind.interface.candidate (plainUp above)) key

/-- The name that is handed down to a route, if no name has a number. -/
def plainHanded (route : Route) : String := plainUp o root route.reverse

/-- The name of a route, if no name has a number. -/
def plainName (kind : Kind) (route : Route) : String := kind.candidate (plainHanded o root route)

/-- No name has a number: each is the wanted one, where a name is handed down. -/
def Unnumbered (c : Catalog) : Prop :=
  ∀ kind route handed name, handed? o root c route = some handed →
    c.nameAt? kind route = some name → name = kind.candidate handed

end

section

variable {o : Options} {root : String} {c c' : Catalog}

theorem plainHanded_item (route : Route) :
    plainHanded o root (route ++ [.item]) = plainHanded o root route ++ "Item" := by
  rw [plainHanded, List.reverse_append]
  rfl

theorem plainHanded_member (route : Route) (key : Text) :
    plainHanded o root (route ++ [.member key]) =
      Walk.memberName o (plainName o root .interface route) key := by
  rw [plainHanded, List.reverse_append]
  rfl

/-- A route that has a name is reached by what is handed down. -/
theorem Catalog.Traced.exists_handed (h : Traced o root c) {kind : Kind} {route : Route}
    {name : String} (hn : c.nameAt? kind route = some name) :
    ∃ handed, handed? o root c route = some handed := by
  obtain ⟨place, hp, hf⟩ := Option.bind_eq_some_iff.1 hn
  obtain ⟨-, route', handed, -, hr, -⟩ := h.exists_made hf
  exact ⟨handed, placeAt?_inj hr.place hp ▸ hr.handed⟩

/-- What is handed down is plain, if every interface has its plain name as soon as what is handed
down to it is plain. The induction is on the route: a member gets the name of an interface that is
one step above. -/
theorem eq_plainHanded (h : ∀ route interface, c.nameAt? .interface route = some interface →
      (∀ handed, handed? o root c route = some handed → handed = plainHanded o root route) →
      interface = plainName o root .interface route) {route : Route} {handed : String}
    (hh : handed? o root c route = some handed) : handed = plainHanded o root route := by
  induction route using List.reverseRecOn generalizing handed with
  | nil => exact (Option.some.inj hh).symm
  | append_singleton route step ih =>
    cases step with
    | item =>
      rw [handed?_item] at hh
      obtain ⟨above, ha, rfl⟩ := Option.map_eq_some_iff.1 hh
      rw [ih ha, plainHanded_item]
    | member key =>
      rw [handed?_member] at hh
      obtain ⟨interface, hi, rfl⟩ := Option.map_eq_some_iff.1 hh
      rw [h route interface hi fun _ => ih, plainHanded_member]

/-- Names have no numbers just if they are plain. -/
theorem unnumbered_iff_plain (ht : Traced o root c) : Unnumbered o root c ↔
    ∀ kind route name, c.nameAt? kind route = some name → name = plainName o root kind route := by
  constructor
  · intro h
    have hplain {kind : Kind} {route : Route} {name : String}
        (hn : c.nameAt? kind route = some name)
        (hh : ∀ handed, handed? o root c route = some handed → handed = plainHanded o root route) :
        name = plainName o root kind route := by
      obtain ⟨handed, ha⟩ := ht.exists_handed hn
      rw [h kind route handed name ha hn, plainName, hh handed ha]
    exact fun kind route name hn => hplain hn fun _ => eq_plainHanded fun _ _ => hplain
  · intro h kind route handed name hh hn
    rw [h kind route name hn, plainName, eq_plainHanded (fun r i hi _ => h .interface r i hi) hh]

end

/-! ## Catalogs with plain names -/

/-- All names are plain, and they belong to routes of a given set. -/
structure Plain (o : Options) (root : String) (among : Kind → Route → Prop) (c : Catalog) :
    Prop where
  wellNamed : c.WellNamed
  names {kind : Kind} {place : Int} {name : String} (h : c.names.find? (kind, place) = some name) :
    ∃ route, c.placeAt? route = some place ∧ among kind route ∧ name = plainName o root kind route

/-- Different routes of a set have different plain names. -/
def PlainApart (o : Options) (root : String) (among : Kind → Route → Prop) : Prop :=
  ∀ kind route kind' route', among kind route → among kind' route' →
    plainName o root kind route = plainName o root kind' route' → kind = kind' ∧ route = route'

section

variable {o : Options} {root : String} {among : Kind → Route → Prop} {c c' : Catalog}

theorem plain_empty : Plain o root among {} where
  wellNamed := wellNamed_empty
  names h := by simp at h

theorem Plain.grow (h : Plain o root among c) (hg : Grows c c') (hw : c'.WellNamed)
    (hn : c'.names = c.names) : Plain o root among c' where
  wellNamed := hw
  names hf := by
    rw [hn] at hf
    obtain ⟨route, hp, hr, hname⟩ := h.names hf
    exact ⟨route, hg.placeAt? hp, hr, hname⟩

theorem Plain.nameAt? (h : Plain o root among c) {kind : Kind} {route : Route} {name : String}
    (hn : c.nameAt? kind route = some name) : name = plainName o root kind route := by
  obtain ⟨place, hp, hf⟩ := Option.bind_eq_some_iff.1 hn
  obtain ⟨route', hp', -, hname⟩ := h.names hf
  rw [hname, placeAt?_inj hp' hp]

/-- A route of the set gets its plain name, or has it. -/
theorem Plain.fst_nameFor (h : Plain o root among c) (hapart : PlainApart o root among)
    {kind : Kind} {route : Route} {place : Int} (hp : c.placeAt? route = some place)
    (hr : among kind route) :
    (c.nameFor kind place (plainName o root kind route)).1 = plainName o root kind route := by
  cases hf : c.names.find? (kind, place) with
  | some name =>
    rw [nameFor_of_find? hf]
    exact h.nameAt? (Option.bind_eq_some_iff.2 ⟨place, hp, hf⟩)
  | none =>
    rw [nameFor_of_find?_eq_none hf]
    refine Fresh.name_of_not_mem fun hm => ?_
    obtain ⟨⟨kind', place'⟩, hf'⟩ := h.wellNamed.taken.1 hm
    obtain ⟨route', hp', hr', hname⟩ := h.names hf'
    obtain ⟨rfl, rfl⟩ := hapart _ _ _ _ hr hr' hname
    cases hp.symm.trans hp'
    cases hf.symm.trans hf'

/-- A route of the set is given its name. -/
theorem Plain.name (h : Plain o root among c) (hapart : PlainApart o root among) {kind : Kind}
    {route : Route} {place : Int} (hp : c.placeAt? route = some place) (hr : among kind route)
    (hg : Grows c c') (hw : c'.WellNamed)
    (hn : c'.names = (c.nameFor kind place (plainName o root kind route)).2.names) :
    Plain o root among c' := by
  have hname := h.fst_nameFor hapart hp hr
  cases hf : c.names.find? (kind, place) with
  | some name =>
    rw [nameFor_of_find? hf] at hn
    exact h.grow hg hw hn
  | none =>
    rw [nameFor_of_find?_eq_none hf] at hn hname
    refine ⟨hw, fun {kind' place' name'} hf' => ?_⟩
    rw [hn, find?_claim] at hf'
    split at hf'
    · next he =>
      cases he
      cases hf'
      exact ⟨route, hg.placeAt? hp, hr, hname⟩
    · obtain ⟨route', hp', hr', hname'⟩ := h.names hf'
      exact ⟨route', hg.placeAt? hp', hr', hname'⟩

theorem Plain.place (h : Plain o root among c) (parent : Int) (step : Step) :
    Plain o root among (c.place parent step).2 := by
  refine h.grow (grows_place c parent step) (h.wellNamed.place parent step) ?_
  unfold Catalog.place
  split <;> rfl

theorem Plain.openInterface (h : Plain o root among c) (hapart : PlainApart o root among)
    {route : Route} {place : Int} (hp : c.placeAt? route = some place)
    (hr : among .interface route) :
    Plain o root among (c.openInterface place (plainName o root .interface route)).2 :=
  h.name hapart hp hr (grows_openInterface _ _ _) (h.wellNamed.openInterface _ _)
    (by rw [openInterface_snd])

theorem Plain.addEnum (h : Plain o root among c) (hapart : PlainApart o root among)
    {route : Route} {place : Int} (hp : c.placeAt? route = some place) (hr : among .enum route)
    (values : List Text) :
    Plain o root among (c.addEnum place (plainName o root .enum route) values).2 :=
  h.name hapart hp hr (grows_addEnum _ _ _ _) (h.wellNamed.addEnum _ _ _) (by rw [addEnum_snd])

end

/-! ## Walks -/

theorem plain_rules (o : Options) {root : String} {among : Kind → Route → Prop}
    (hapart : PlainApart o root among) : Walk.Rules o
    (fun name place c v _ c' => ∀ route, c.placeAt? route = some place →
      name = plainHanded o root route →
      (∀ kind, ∀ r ∈ routesOf o kind (v.nodes route), among kind r) →
      Plain o root among c → Plain o root among c')
    (fun name place c items _ c' => ∀ route, c.placeAt? route = some place →
      name = plainHanded o root route →
      (∀ kind, ∀ r ∈ routesOf o kind (nodesOfItems route items), among kind r) →
      Plain o root among c → Plain o root among c')
    (fun interface place c members _ c' => ∀ route, c.placeAt? route = some place →
      interface = plainName o root .interface route →
      (∀ kind, ∀ r ∈ routesOf o kind (nodesOfMembers route members), among kind r) →
      Plain o root among c → Plain o root among c') where
  leaf _ _ _ _ _ h := h
  strings hne hv route hp hname hr h := by
    subst hname
    refine h.addEnum hapart hp (hr .enum route ?_) _
    rw [routesOf_array_of_some hne hv, if_pos rfl]
    exact List.mem_singleton_self route
  array {_ place c _ _ _} hne hv _ ih route hp hname hr h := by
    refine ih _ (placeAt?_place hp .item) ?_ (fun kind => ?_) (h.place place .item)
    · rw [hname, plainHanded_item]
    · rw [← routesOf_array_of_none hne hv]
      exact hr kind
  object {name place c members _ _} hmembers ih route hp hname hr h := by
    subst hname
    have he := (edits_rules o).of_typesOfMembers hmembers
    have hown : among .interface route := hr .interface route (by
      rw [routesOf_object, if_pos rfl]
      exact List.mem_cons_self)
    have hopened := h.openInterface hapart hp hown
    have hwalked := ih route ((grows_openInterface c place _).placeAt? hp)
      (h.fst_nameFor hapart hp hown) (fun kind r hm => hr kind r (by
        rw [routesOf_object]
        exact List.mem_append_right _ hm)) hopened
    have hn := he.grows.find? (find?_nameFor c .interface place _)
    exact hwalked.grow (grows_setProperties _ _ _) (hwalked.wellNamed.setProperties hn _) rfl
  noItems _ _ _ _ h := h
  item hv _ ihv ihrest route hp hname hr h := by
    have hg := ((edits_rules o).of_typeAt hv).grows
    simp only [nodesOfItems, routesOf_append, List.mem_append] at hr
    exact ihrest route (hg.placeAt? hp) hname (fun kind r hm => hr kind r (Or.inr hm))
      (ihv route hp hname (fun kind r hm => hr kind r (Or.inl hm)) h)
  noMembers _ _ _ _ h := h
  member {_ place c key _ _ _ _ _ _} hv _ ihv ihrest route hp hname hr h := by
    have hg := (grows_place c place (.member key)).trans ((edits_rules o).of_typeAt hv).grows
    simp only [nodesOfMembers, routesOf_append, List.mem_append] at hr
    refine ihrest route (hg.placeAt? hp) hname (fun kind r hm => hr kind r (Or.inr hm)) ?_
    refine ihv _ (placeAt?_place hp _) ?_ (fun kind r hm => hr kind r (Or.inl hm)) (h.place _ _)
    rw [hname, plainHanded_member]

/-! ## Whole documents -/

section

variable (o : Options) (v : Json) (root : String)

/-- The routes of a document that need a declaration. -/
def Json.Needs (kind : Kind) (route : Route) : Prop := route ∈ routesOf o kind (v.nodes [])

theorem mem_declared_typeOf {kind : Kind} {name : String} :
    name ∈ (typeOf o v root {}).2.declared kind ↔
      ∃ route, (typeOf o v root {}).2.nameAt? kind route = some name := by
  constructor
  · intro hd
    obtain ⟨route, -, hn⟩ := (lists_typeOf o v root kind).exists_route hd
    exact ⟨route, hn⟩
  · rintro ⟨route, hn⟩
    exact (wellNamed_typeOf o v root).mem_declared hn

theorem exists_nameAt?_iff {kind : Kind} {route : Route} :
    (∃ n, (typeOf o v root {}).2.nameAt? kind route = some n) ↔ v.Needs o kind route := by
  have hw := wellNamed_typeOf o v root
  have hlists := lists_typeOf o v root kind
  constructor
  · rintro ⟨n, hn⟩
    obtain ⟨route', hr, hn'⟩ := hlists.exists_route (hw.mem_declared hn)
    rw [hw.nameAt?_inj hn hn']
    exact (Distinct.mem_addAll.1 hr).resolve_left List.not_mem_nil
  · intro hr
    obtain ⟨n, -, hn⟩ := hlists.exists_name (Distinct.mem_addAll.2 (Or.inr hr))
    exact ⟨n, hn⟩

/-- No name of a walk has a number just if the routes that need a declaration have different plain
names. -/
theorem unnumbered_iff :
    Unnumbered o root (typeOf o v root {}).2 ↔ PlainApart o root (v.Needs o) := by
  have ht : Traced o root (typeOf o v root {}).2 := traced_typeOf o v
  have hw := wellNamed_typeOf o v root
  rw [unnumbered_iff_plain ht]
  constructor
  · intro h kind route kind' route' hr hr' heq
    obtain ⟨n, hn⟩ := (exists_nameAt?_iff o v root).2 hr
    obtain ⟨n', hn'⟩ := (exists_nameAt?_iff o v root).2 hr'
    have hsame : n = n' := (h _ _ _ hn).trans (heq.trans (h _ _ _ hn').symm)
    subst hsame
    obtain ⟨place, hp, hf⟩ := Option.bind_eq_some_iff.1 hn
    obtain ⟨place', hp', hf'⟩ := Option.bind_eq_some_iff.1 hn'
    cases hw.injective hf hf'
    exact ⟨rfl, placeAt?_inj hp hp'⟩
  · intro hapart kind route name hn
    have hplain : Plain o root (v.Needs o) (typeOf o v root {}).2 := by
      rw [Walk.typeOf_eq_typeAt]
      exact (plain_rules o hapart).value root rootPlace {} v [] rfl rfl (fun _ _ h => h) plain_empty
    exact hplain.nameAt? hn

variable {o v root}

/-- Where no name has a number, the routes that need a declaration have their plain names. -/
theorem Unnumbered.nameAt? (h : Unnumbered o root (typeOf o v root {}).2) {kind : Kind}
    {route : Route} (hr : v.Needs o kind route) :
    (typeOf o v root {}).2.nameAt? kind route = some (plainName o root kind route) := by
  obtain ⟨n, hn⟩ := (exists_nameAt?_iff o v root).2 hr
  rw [hn, (unnumbered_iff_plain (traced_typeOf o v)).1 h _ _ _ hn]

end

end TypeSketch
