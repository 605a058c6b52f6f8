import TypeSketch.Proofs.Order
import TypeSketch.Sketch

/-!
# Where names come from

A name is handed down from the root name through all items, and from the name of an interface to the
members of its objects (`handed?`). What is handed down is made a type name wherever a declaration
is needed, and gets a number if that name was given before.

**Theorem** (`traced_rules`). In a walk every name is fresh from the name that is handed down to its
route, among the names given before (`Traced`).

**Theorem** (`typeName_append`). Behind an identifier, a type name only loses characters. So the
characters that a name cannot hold may go away step by step, or all at the end.

**Theorem** (`names_follow_routes`). After a walk a name is that of the interface above with the
texts of the steps from there on (`Stem`), with a number behind it if that name was given before.
-/

namespace TypeSketch

open Catalog
open Numbered (numbered)

/-! ## Identifiers -/

/-- A word that is not empty and does not begin with a digit. -/
structure IsIdentifier (s : String) : Prop where
  word : IsWord s
  ne_nil : s.toList ≠ []
  start : Text.startsWithDigit s.toList = false

/-- The part of a string that a name can hold. -/
def clean (s : String) : String := String.ofList (s.toList.filter Text.isWordChar)

theorem clean_append (s t : String) : clean (s ++ t) = clean s ++ clean t := by
  rw [clean, String.toList_append, List.filter_append, String.ofList_append, clean, clean]

theorem isWord_clean (s : String) : IsWord (clean s) := by
  intro c hc
  rw [clean, String.toList_ofList] at hc
  exact (List.mem_filter.1 hc).2

theorem isWord_append {s t : String} (hs : IsWord s) (ht : IsWord t) : IsWord (s ++ t) := by
  intro c hc
  rw [String.toList_append, List.mem_append] at hc
  exact hc.elim (hs c) (ht c)

theorem startsWithDigit_append {cs : List Char} (h : cs ≠ []) (ds : List Char) :
    Text.startsWithDigit (cs ++ ds) = Text.startsWithDigit cs := by
  cases cs with
  | nil => exact absurd rfl h
  | cons c rest => rfl

theorem IsIdentifier.append {s t : String} (hs : IsIdentifier s) (ht : IsWord t) :
    IsIdentifier (s ++ t) where
  word := isWord_append hs.word ht
  ne_nil := by
    rw [String.toList_append]
    exact List.append_ne_nil_of_left_ne_nil hs.ne_nil _
  start := by
    rw [String.toList_append, startsWithDigit_append hs.ne_nil, hs.start]

theorem isWord_toString (n : Nat) : IsWord (toString n) := by
  intro c hc
  rw [Nat.toString_eq_repr, Nat.toList_repr] at hc
  have hd := Nat.isDigit_of_mem_toDigits (by decide) (by decide) hc
  simp [Text.isWordChar, Char.isAlphanum, hd]

theorem startsWithDigit_guardDigit (cs : List Char) :
    Text.startsWithDigit (Text.guardDigit cs) = false := by
  unfold Text.guardDigit
  split
  · rfl
  · next h => exact Bool.not_eq_true _ ▸ h

/-- A root name is an identifier. -/
theorem isIdentifier_rootName (wanted : Text) : IsIdentifier (RootName.ofText wanted) := by
  unfold RootName.ofText RootName.orStandard
  split
  · exact ⟨fun c hc => List.all_eq_true.1 (by decide : _ = true) c hc, by decide, by decide⟩
  · next h =>
    refine ⟨isWord_typeName wanted, ?_, ?_⟩
    · rwa [Ne, String.toList_eq_nil_iff, ← String.isEmpty_iff]
    · rw [Text.typeName, String.toList_ofList, startsWithDigit_guardDigit]

/-- Behind an identifier only those characters go away that no name can hold. -/
theorem typeName_append {s : String} (h : IsIdentifier s) (t : String) :
    Text.typeName (s ++ t : String) = s ++ clean t := by
  have hs : s.toList.filter Text.isWordChar = s.toList := List.filter_eq_self.2 h.word
  rw [Text.typeName, Text.chars_ofString, String.toList_append, List.filter_append, hs,
    Text.guardDigit, startsWithDigit_append h.ne_nil, h.start, if_neg Bool.false_ne_true,
    String.ofList_append, String.ofList_toList, clean]

/-! ## What is handed down -/

/-- The name that is wanted for a declaration of a kind, where a name is handed down. -/
def Kind.candidate : Kind → String → String
  | .interface, name => Text.typeName name
  | .enum, name => Text.typeName (name ++ "Enum")

namespace Catalog

section

variable (o : Options) (root : String) (c : Catalog)

/-- The name that is handed down along some steps, the last one first. -/
def handedUp? : List Step → Option String
  | [] => some root
  | .item :: above => (handedUp? above).map (· ++ "Item")
  | .member key :: above =>
    (c.nameAt? .interface above.reverse).map fun interface => Walk.memberName o interface key

/-- The name that is handed down to a route. -/
def handed? (route : Route) : Option String := handedUp? o root c route.reverse

theorem handed?_item (route : Route) :
    handed? o root c (route ++ [.item]) = (handed? o root c route).map (· ++ "Item") := by
  rw [handed?, List.reverse_append]
  rfl

theorem handed?_member (route : Route) (key : Text) :
    handed? o root c (route ++ [.member key]) =
      (c.nameAt? .interface route).map fun interface => Walk.memberName o interface key := by
  rw [handed?, List.reverse_append]
  show (c.nameAt? .interface route.reverse.reverse).map _ = _
  rw [List.reverse_reverse]

/-- A walk comes to a route: it is a place, and a name is handed down to it. -/
structure Reaches (route : Route) (place : Int) (name : String) : Prop where
  place : c.placeAt? route = some place
  handed : handed? o root c route = some name

/-- Every name was made fresh from what is handed down to its route, when those before it had been
given. -/
structure Traced : Prop where
  taken : c.taken = c.names.values.reverse
  made {before : List ((Kind × Int) × String)} {kind : Kind} {place : Int} {name : String}
    (h : before ++ [((kind, place), name)] <+: c.names.entries) : ∃ route handed,
      Reaches o root c route place handed ∧
      name = Fresh.name (before.map Prod.snd).reverse (kind.candidate handed)

end

variable {o : Options} {root : String} {c c' : Catalog}

theorem handed?_mono (hg : Grows c c') {route : Route} {name : String}
    (h : handed? o root c route = some name) : handed? o root c' route = some name := by
  unfold handed? at h ⊢
  generalize route.reverse = steps at h ⊢
  induction steps generalizing name with
  | nil => exact h
  | cons step above ih =>
    cases step with
    | item =>
      obtain ⟨handed, hh, rfl⟩ := Option.map_eq_some_iff.1 h
      rw [handedUp?, ih hh, Option.map_some]
    | member key =>
      obtain ⟨interface, hi, rfl⟩ := Option.map_eq_some_iff.1 h
      rw [handedUp?, hg.nameAt? hi, Option.map_some]

section

variable {route : Route} {place : Int} {name : String}

theorem reaches_root : Reaches o root c [] rootPlace root := ⟨rfl, rfl⟩

theorem Reaches.mono (hg : Grows c c') (h : Reaches o root c route place name) :
    Reaches o root c' route place name :=
  ⟨hg.placeAt? h.place, handed?_mono hg h.handed⟩

theorem Reaches.item (h : Reaches o root c route place name) :
    Reaches o root (c.place place .item).2 (route ++ [.item]) (c.place place .item).1
      (name ++ "Item") where
  place := placeAt?_place h.place .item
  handed := by
    rw [handed?_item, (h.mono (grows_place c place .item)).handed, Option.map_some]

theorem reaches_member (hp : c.placeAt? route = some place) {interface : String}
    (hn : c.nameAt? .interface route = some interface) (key : Text) :
    Reaches o root (c.place place (.member key)).2 (route ++ [.member key])
      (c.place place (.member key)).1 (Walk.memberName o interface key) where
  place := placeAt?_place hp _
  handed := by
    rw [handed?_member, (grows_place c place _).nameAt? hn, Option.map_some]

/-- What reaches one place is the same. -/
theorem Reaches.unique (h : Reaches o root c route place name) {route' : Route} {name' : String}
    (h' : Reaches o root c route' place name') : route = route' ∧ name = name' := by
  obtain rfl := placeAt?_inj h.place h'.place
  exact ⟨rfl, Option.some.inj (h.handed.symm.trans h'.handed)⟩

end

/-! ## Traces -/

theorem traced_empty : Traced o root {} where
  taken := rfl
  made h :=
    absurd (List.prefix_nil.1 h) (List.append_ne_nil_of_right_ne_nil _ (List.cons_ne_nil _ _))

/-- No name is given. -/
theorem Traced.grow (h : Traced o root c) (hg : Grows c c') (hn : c'.names = c.names)
    (ht : c'.taken = c.taken) : Traced o root c' where
  taken := by rw [ht, h.taken, hn]
  made hm := by
    rw [hn] at hm
    obtain ⟨route, handed, hr, hname⟩ := h.made hm
    exact ⟨route, handed, hr.mono hg, hname⟩

/-- A name is given where one is handed down, unless the place has one. -/
theorem Traced.name (h : Traced o root c) (kind : Kind) {route : Route} {place : Int}
    {handed : String} (hr : Reaches o root c route place handed) (hg : Grows c c')
    (hn : c'.names = (c.nameFor kind place (kind.candidate handed)).2.names)
    (ht : c'.taken = (c.nameFor kind place (kind.candidate handed)).2.taken) :
    Traced o root c' := by
  cases hf : c.names.find? (kind, place) with
  | some name =>
    rw [nameFor_of_find? hf] at hn ht
    exact h.grow hg hn ht
  | none =>
    rw [nameFor_of_find?_eq_none hf] at hn ht
    have hentries : c'.names.entries = c.names.entries ++
        [((kind, place), Fresh.name c.taken (kind.candidate handed))] := by
      rw [hn]
      exact Table.entries_put_of_not_mem ((Table.find?_eq_none_iff _ _).1 hf) _
    constructor
    · rw [ht, Table.values, hentries, List.map_append, List.reverse_append, claim, h.taken]
      rfl
    · intro before kind' place' name hm
      rw [hentries, List.prefix_concat_iff] at hm
      rcases hm with hm | hm
      · obtain ⟨rfl, he⟩ := List.append_inj' hm rfl
        cases he
        exact ⟨route, handed, hr.mono hg, by rw [h.taken]; rfl⟩
      · obtain ⟨route', handed', hr', hname⟩ := h.made hm
        exact ⟨route', handed', hr'.mono hg, hname⟩

theorem Traced.openInterface (h : Traced o root c) {route : Route} {place : Int} {name : String}
    (hr : Reaches o root c route place name) :
    Traced o root (c.openInterface place (Text.typeName name)).2 :=
  h.name .interface hr (grows_openInterface c place _) (by rw [openInterface_snd]; rfl)
    (by rw [openInterface_snd]; rfl)

theorem Traced.addEnum (h : Traced o root c) {route : Route} {place : Int} {name : String}
    (hr : Reaches o root c route place name) (values : List Text) :
    Traced o root (c.addEnum place (Text.typeName (name ++ "Enum")) values).2 :=
  h.name .enum hr (grows_addEnum c place _ _) (by rw [addEnum_snd]; rfl)
    (by rw [addEnum_snd]; rfl)

/-- How the name of a place was made. -/
theorem Traced.exists_made (h : Traced o root c) {kind : Kind} {place : Int} {name : String}
    (hn : c.names.find? (kind, place) = some name) : ∃ before route handed,
      before ++ [((kind, place), name)] <+: c.names.entries ∧
      Reaches o root c route place handed ∧
      name = Fresh.name (before.map Prod.snd).reverse (kind.candidate handed) := by
  obtain ⟨before, after, hentries⟩ := List.append_of_mem (Table.mem_of_find? hn)
  have hprefix : before ++ [((kind, place), name)] <+: c.names.entries :=
    ⟨after, by rw [hentries, List.append_assoc]; rfl⟩
  obtain ⟨route, handed, hr, hname⟩ := h.made hprefix
  exact ⟨before, route, handed, hprefix, hr, hname⟩

/-- The name that a place gets or has is fresh from what is handed down to it. -/
theorem Traced.exists_fresh (h : Traced o root c) (kind : Kind) {route : Route} {place : Int}
    {handed : String} (hr : Reaches o root c route place handed) : ∃ taken,
      (c.nameFor kind place (kind.candidate handed)).1 =
        Fresh.name taken (kind.candidate handed) := by
  cases hf : c.names.find? (kind, place) with
  | some name =>
    obtain ⟨before, route', handed', -, hr', hname⟩ := h.exists_made hf
    obtain ⟨-, rfl⟩ := hr.unique hr'
    exact ⟨_, by rw [nameFor_of_find? hf, hname]⟩
  | none => exact ⟨c.taken, by rw [nameFor_of_find?_eq_none hf]⟩

theorem Traced.place (h : Traced o root c) (parent : Int) (step : Step) :
    Traced o root (c.place parent step).2 := by
  refine h.grow (grows_place c parent step) ?_ ?_
  all_goals
    unfold Catalog.place
    split <;> rfl

end Catalog

theorem traced_rules (o : Options) (root : String) : Walk.Rules o
    (fun name place c _ _ c' => ∀ route, Reaches o root c route place name →
      Traced o root c → Traced o root c')
    (fun name place c _ _ c' => ∀ route, Reaches o root c route place name →
      Traced o root c → Traced o root c')
    (fun interface place c _ _ c' => ∀ route, c.placeAt? route = some place →
      c.nameAt? .interface route = some interface → Traced o root c → Traced o root c') where
  leaf _ _ _ h := h
  strings _ _ route hr h := h.addEnum hr _
  array _ _ _ ih route hr h := ih _ hr.item (h.place _ _)
  object {name place c _ _ _} _ ih route hr h := by
    have hg := grows_openInterface c place (Text.typeName name)
    have hopened := ih route (hg.placeAt? hr.place) (nameAt?_openInterface hr.place _)
      (h.openInterface hr)
    exact hopened.grow (grows_setProperties _ _ _) rfl rfl
  noItems _ _ h := h
  item hv _ ihv ihrest route hr h := by
    have hg := ((edits_rules o).of_typeAt hv).grows
    exact ihrest route (hr.mono hg) (ihv route hr h)
  noMembers _ _ _ h := h
  member {_ place c key _ _ _ _ _ _} hv _ ihv ihrest route hp hn h := by
    have hg₀ := grows_place c place (.member key)
    have hg := ((edits_rules o).of_typeAt hv).grows
    refine ihrest route (hg.placeAt? (hg₀.placeAt? hp)) (hg.nameAt? (hg₀.nameAt? hn)) ?_
    exact ihv _ (reaches_member hp hn key) (h.place _ _)

/-! ## Names as they are -/

/-- Identifiers of a form that is not spoilt by words behind them. What one of them begins can be
handed down through a whole walk. -/
theorem naming_of_append (o : Options) {form : String → Prop} (hform : ∀ s, form s → IsIdentifier s)
    (happend : ∀ s t, form s → IsWord t → form (s ++ t)) : Naming o
      (fun name => ∃ owner more, form owner ∧ name = owner ++ more) (fun _ name => form name) where
  interface := by
    rintro _ ⟨owner, more, h, rfl⟩
    rw [typeName_append (hform _ h)]
    exact happend _ _ h (isWord_clean more)
  enum := by
    rintro _ ⟨owner, more, h, rfl⟩
    rw [← Text.ofString_append, String.append_assoc, typeName_append (hform _ h)]
    exact happend _ _ h (isWord_clean _)
  numbered h n := happend _ _ h (isWord_toString n)
  item := by
    rintro _ ⟨owner, more, h, rfl⟩
    exact ⟨owner, more ++ "Item", h, String.append_assoc⟩
  member h key := ⟨_, _, h, rfl⟩

theorem naming_identifier (o : Options) : Naming o
    (fun name => ∃ owner more, IsIdentifier owner ∧ name = owner ++ more)
    (fun _ name => IsIdentifier name) :=
  naming_of_append o (fun _ h => h) fun _ _ h ht => h.append ht

/-- The text that a step adds to a name. -/
def Step.text (o : Options) : Step → String
  | .item => "Item"
  | .member key => clean (Text.upperFirst (o.writtenName key)).legible

def Step.texts (o : Options) : Route → String
  | [] => ""
  | step :: rest => step.text o ++ texts o rest

/-- What is put behind a name for a declaration of a kind. -/
def Kind.ending : Kind → String
  | .interface => ""
  | .enum => "Enum"

theorem Step.texts_append (o : Options) (route route' : Route) :
    Step.texts o (route ++ route') = Step.texts o route ++ Step.texts o route' := by
  induction route with
  | nil => exact String.empty_append.symm
  | cons step rest ih => rw [List.cons_append, texts, texts, ih, String.append_assoc]

/-- The name that a route goes back to, with the steps from there on. Where all steps are items it
is the root name, and else that of the interface whose member is the last one on the route. -/
inductive Stem (root : String) (c : Catalog) : Route → String → Route → Prop
  | root (m : Nat) : Stem root c (.replicate m .item) root (.replicate m .item)
  | member {route : Route} {interface : String} (h : c.nameAt? .interface route = some interface)
      (key : Text) (m : Nat) : Stem root c (route ++ .member key :: .replicate m .item) interface
        (.member key :: .replicate m .item)

section

variable {o : Options} {root : String} {c : Catalog}

theorem Stem.item {route tail : Route} {owner : String} (h : Stem root c route owner tail) :
    Stem root c (route ++ [.item]) owner (tail ++ [.item]) := by
  cases h with
  | root m =>
    rw [← List.replicate_succ']
    exact .root (m + 1)
  | member h key m =>
    rw [List.append_assoc, List.cons_append, ← List.replicate_succ']
    exact .member h key (m + 1)

/-- What is handed down is what its stem says, as far as a name can hold it. -/
theorem exists_stem (hroot : IsIdentifier root)
    (hnames : c.NamesHave fun _ name => IsIdentifier name) {route : Route} {handed : String}
    (h : handed? o root c route = some handed) : ∃ owner tail more, Stem root c route owner tail ∧
      IsIdentifier owner ∧ handed = owner ++ more ∧ clean more = Step.texts o tail := by
  induction route using List.reverseRecOn generalizing handed with
  | nil =>
    cases h
    exact ⟨root, [], "", .root 0, hroot, String.append_empty.symm, rfl⟩
  | append_singleton route step ih =>
    cases step with
    | item =>
      rw [handed?_item] at h
      obtain ⟨above, ha, rfl⟩ := Option.map_eq_some_iff.1 h
      obtain ⟨owner, tail, more, hstem, howner, rfl, hmore⟩ := ih ha
      refine ⟨owner, tail ++ [.item], more ++ "Item", hstem.item, howner, String.append_assoc, ?_⟩
      rw [clean_append, hmore, Step.texts_append]
      rfl
    | member key =>
      rw [handed?_member] at h
      obtain ⟨interface, hi, rfl⟩ := Option.map_eq_some_iff.1 h
      obtain ⟨place, -, hp⟩ := Option.bind_eq_some_iff.1 hi
      refine ⟨interface, [.member key], _, .member hi key 0, hnames _ _ _ hp, rfl, ?_⟩
      exact String.append_empty.symm

/-- The wanted name is the stem, with what is put behind it. -/
theorem candidate_append {owner : String} (h : IsIdentifier owner) (more : String) (kind : Kind) :
    kind.candidate (owner ++ more) = owner ++ clean more ++ kind.ending := by
  cases kind with
  | interface => exact (typeName_append h more).trans String.append_empty.symm
  | enum =>
    rw [Kind.candidate, ← Text.ofString_append, String.append_assoc, typeName_append h,
      clean_append, String.append_assoc]
    rfl

end

/-- A name is the wanted one, or that one with a number behind it, if it was given before. -/
def Catalog.NamedAfter (c : Catalog) (wanted name : String) : Prop :=
  name = wanted ∨ ∃ n, 2 ≤ n ∧ name = wanted ++ toString n ∧ [wanted, name].Sublist c.names.values

theorem namedAfter_of_prefix {c : Catalog} {before : List ((Kind × Int) × String)}
    {key : Kind × Int} {wanted : String}
    (h : before ++ [(key, Fresh.name (before.map Prod.snd).reverse wanted)] <+:
      c.names.entries) : c.NamedAfter wanted (Fresh.name (before.map Prod.snd).reverse wanted) := by
  by_cases hm : wanted ∈ (before.map Prod.snd).reverse
  · obtain ⟨n, hn, he, -, -⟩ := Fresh.exists_name_of_mem hm
    refine Or.inr ⟨n, hn, he, ?_⟩
    have hbefore : [wanted].Sublist (before.map Prod.snd) :=
      List.singleton_sublist.2 (List.mem_reverse.1 hm)
    have hvalues := (h.map Prod.snd).sublist
    rw [List.map_append] at hvalues
    exact (hbefore.append (.refl _)).trans hvalues
  · exact Or.inl (Fresh.name_of_not_mem hm)

/-! ## Whole walks -/

section

variable (o : Options) (v : Json) {root : String}

theorem traced_typeOf : Traced o root (typeOf o v root {}).2 := by
  rw [Walk.typeOf_eq_typeAt]
  exact (traced_rules o root).value root rootPlace {} v [] reaches_root traced_empty

theorem namesHave_identifier_typeOf (hroot : IsIdentifier root) :
    (typeOf o v root {}).2.NamesHave fun _ name => IsIdentifier name := by
  have hrules := (naming_identifier o).rules (p := fun _ => True) (fun _ _ _ => trivial)
    fun _ _ => trivial
  rw [Walk.typeOf_eq_typeAt]
  exact (hrules.value root rootPlace {} v ⟨root, "", hroot, String.append_empty.symm⟩
    (namesHave_empty _)).1

end

section

variable {o : Options} {root : String} {c : Catalog}

/-- A name comes from the stem of its route. -/
theorem Catalog.Traced.exists_stem (h : Traced o root c) (hroot : IsIdentifier root)
    (hnames : c.NamesHave fun _ name => IsIdentifier name) {kind : Kind} {route : Route}
    {name : String} (hn : c.nameAt? kind route = some name) : ∃ owner tail,
      Stem root c route owner tail ∧
      c.NamedAfter (owner ++ Step.texts o tail ++ kind.ending) name := by
  obtain ⟨place, hp, hf⟩ := Option.bind_eq_some_iff.1 hn
  obtain ⟨before, route', handed, hprefix, hr, hname⟩ := h.exists_made hf
  obtain rfl := placeAt?_inj hr.place hp
  obtain ⟨owner, tail, more, hstem, howner, rfl, hmore⟩ :=
    TypeSketch.exists_stem hroot hnames hr.handed
  refine ⟨owner, tail, hstem, ?_⟩
  rw [candidate_append howner, hmore] at hname
  subst hname
  exact namedAfter_of_prefix hprefix

theorem Catalog.NamedAfter.begins {owner more name : String}
    (h : c.NamedAfter (owner ++ more) name) : owner.toList <+: name.toList := by
  obtain rfl | ⟨n, -, rfl, -⟩ := h
  · rw [String.toList_append]
    exact List.prefix_append _ _
  · rw [String.append_assoc, String.toList_append]
    exact List.prefix_append _ _

/-- Where interfaces have the names of their stems, a stem says the same as its whole route. The
induction is on the length of the route: the interface of a stem is at a shorter one. -/
theorem Stem.texts_eq
    (h : ∀ route interface, c.nameAt? .interface route = some interface → ∃ owner tail,
      Stem root c route owner tail ∧ interface = owner ++ Step.texts o tail)
    {route tail : Route} {owner : String} (hstem : Stem root c route owner tail) :
    owner ++ Step.texts o tail = root ++ Step.texts o route := by
  cases hstem with
  | root m => rfl
  | @member above interface hi key m =>
    obtain ⟨owner', tail', hstem', rfl⟩ := h above _ hi
    rw [hstem'.texts_eq h, Step.texts_append, String.append_assoc]
termination_by route.length
decreasing_by
  rw [List.length_append, List.length_cons]
  omega

end

/-- **Names follow their routes.** After a walk a name is that of its stem with the texts of the
steps from there on, and with a number behind it if that one was given before. It is an identifier
and begins with the name of its stem. If no name had to get a number, every name is the root name
with the texts of all steps of its route. -/
theorem names_follow_routes (o : Options) (wanted : Text) (v : Json) :
    let root := RootName.ofText wanted
    let c := (typeOf o v root {}).2
    (∀ kind, ∀ name ∈ c.declared kind, ∃ route, c.nameAt? kind route = some name) ∧
    (∀ kind route name, c.nameAt? kind route = some name → ∃ owner tail,
      Stem root c route owner tail ∧
      c.NamedAfter (owner ++ Step.texts o tail ++ kind.ending) name ∧
      IsIdentifier name ∧ owner.toList <+: name.toList) ∧
    ((∀ kind route name owner tail, c.nameAt? kind route = some name →
        Stem root c route owner tail → name = owner ++ Step.texts o tail ++ kind.ending) →
      ∀ kind route name, c.nameAt? kind route = some name →
        name = root ++ Step.texts o route ++ kind.ending) := by
  intro root c
  have hroot : IsIdentifier root := isIdentifier_rootName wanted
  have hnames : c.NamesHave _ := namesHave_identifier_typeOf o v hroot
  have hstem {kind : Kind} {route : Route} {name : String}
      (h : c.nameAt? kind route = some name) := (traced_typeOf o v).exists_stem hroot hnames h
  refine ⟨fun kind name hd => ?_, fun kind route name h => ?_, fun hplain kind route name h => ?_⟩
  · obtain ⟨route, -, hn⟩ := (lists_typeOf o v root kind).exists_route hd
    exact ⟨route, hn⟩
  · obtain ⟨owner, tail, hs, hafter⟩ := hstem h
    obtain ⟨place, -, hp⟩ := Option.bind_eq_some_iff.1 h
    refine ⟨owner, tail, hs, hafter, hnames _ _ _ hp, ?_⟩
    rw [String.append_assoc] at hafter
    exact hafter.begins
  · have hinterface (route : Route) (interface : String)
        (h : c.nameAt? .interface route = some interface) : ∃ owner tail,
          Stem root c route owner tail ∧ interface = owner ++ Step.texts o tail := by
      obtain ⟨owner, tail, hs, -⟩ := hstem h
      exact ⟨owner, tail, hs, (hplain _ _ _ _ _ h hs).trans String.append_empty⟩
    obtain ⟨owner, tail, hs, -⟩ := hstem h
    rw [hplain kind route name owner tail h hs, hs.texts_eq hinterface]

end TypeSketch
