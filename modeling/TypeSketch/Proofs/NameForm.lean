import TypeSketch.Proofs.Growth
import TypeSketch.Proofs.TypeText

/-!
# The form of names

A walk makes its names from candidates, and from numbers behind them. The candidates come from the
name that is handed down to a value. So a form of names holds throughout a walk if it holds of every
candidate, if a number does not spoil it, and if the names that are handed down stay such that this
goes on (`Naming`).

**Theorem** (`Naming.rules`). A walk keeps to such a form, and its types are well-formed, with atoms
of that form or built-in ones.

**Theorem** (`naming_walkName`). In every walk, names are words, and the name of an enum holds a
capital `E`, so it is no built-in type.
-/

namespace TypeSketch

open Numbered (numbered)

/-! ## Words -/

theorem isWord_typeName (s : Text) : IsWord (Text.typeName s) := by
  intro c hc
  rw [Text.typeName, String.toList_ofList] at hc
  unfold Text.guardDigit at hc
  split at hc
  · rcases List.mem_cons.1 hc with rfl | hc
    · rfl
    · exact (List.mem_filter.1 hc).2
  · exact (List.mem_filter.1 hc).2

theorem toList_numbered (base : String) (n : Nat) :
    (numbered base n).toList = base.toList ++ Nat.toDigits 10 n := by
  rw [← Nat.toList_repr, ← Nat.toString_eq_repr]
  exact String.toList_append

theorem isWord_numbered {base : String} (h : IsWord base) (n : Nat) :
    IsWord (numbered base n) := by
  intro c hc
  rw [toList_numbered, List.mem_append] at hc
  rcases hc with hc | hc
  · exact h c hc
  · have hd := Nat.isDigit_of_mem_toDigits (by decide) (by decide) hc
    simp [Text.isWordChar, Char.isAlphanum, hd]

theorem mem_freshName {base : String} {c : Char} (h : c ∈ base.toList) (taken : List String) :
    c ∈ (Fresh.name taken base).toList := by
  have hnumbered (n : Nat) : c ∈ (numbered base n).toList := by
    rw [toList_numbered]
    exact List.mem_append_left _ h
  exact Fresh.name_induction (p := fun name => c ∈ name.toList) h hnumbered taken

theorem mem_guardDigit {c : Char} {cs : List Char} (h : c ∈ cs) : c ∈ Text.guardDigit cs := by
  unfold Text.guardDigit
  split
  · exact List.mem_cons_of_mem _ h
  · exact h

theorem mem_typeName {s : Text} {c : Char} (hw : Text.isWordChar c = true) (h : c ∈ s.chars) :
    c ∈ (Text.typeName s).toList := by
  rw [Text.typeName, String.toList_ofList]
  exact mem_guardDigit (List.mem_filter.2 ⟨h, hw⟩)

/-- The candidate for an enum keeps the letters that are put behind the name. -/
theorem mem_typeName_enum (name : String) : 'E' ∈ (Text.typeName (name ++ "Enum")).toList :=
  mem_typeName rfl (by simp [Text.chars, Text.ofString, CodePoint.legible])

/-! ## Forms of names -/

/-- A form of names that goes on through a walk, as long as what is handed down as a name is of a
given form too. -/
structure Naming (o : Options) (handed : String → Prop) (form : Kind → String → Prop) : Prop where
  interface {name : String} (h : handed name) : form .interface (Text.typeName name)
  enum {name : String} (h : handed name) : form .enum (Text.typeName (name ++ "Enum"))
  numbered {kind : Kind} {base : String} (h : form kind base) (n : Nat) :
    form kind (numbered base n)
  item {name : String} (h : handed name) : handed (name ++ "Item")
  member {name : String} (h : form .interface name) (key : Text) :
    handed (Walk.memberName o name key)

namespace Catalog

/-- All names in use have a form. -/
def NamesHave (form : Kind → String → Prop) (c : Catalog) : Prop :=
  ∀ kind place name, c.names.find? (kind, place) = some name → form kind name

theorem namesHave_empty (form : Kind → String → Prop) : NamesHave form {} := by
  intro kind place name h
  simp at h

section

variable {o : Options} {handed : String → Prop} {form : Kind → String → Prop} {c : Catalog}

theorem NamesHave.place (h : c.NamesHave form) (parent : Int) (step : Step) :
    (c.place parent step).2.NamesHave form := by
  cases hc : c.child? parent step with
  | some below => rw [place_of_child? hc]; exact h
  | none => rw [place_of_child?_eq_none hc]; exact h

/-- A name that a place gets is of the form of its candidate, and so is a name found there. -/
theorem NamesHave.nameFor (r : Naming o handed form) (h : c.NamesHave form) {kind : Kind}
    {candidate : String} (hc : form kind candidate) (place : Int) :
    (c.nameFor kind place candidate).2.NamesHave form ∧
      form kind (c.nameFor kind place candidate).1 := by
  cases hn : c.names.find? (kind, place) with
  | some name => rw [nameFor_of_find? hn]; exact ⟨h, h _ _ _ hn⟩
  | none =>
    rw [nameFor_of_find?_eq_none hn]
    have hfresh : form kind (Fresh.name c.taken candidate) :=
      Fresh.name_induction hc (r.numbered hc) c.taken
    refine ⟨?_, hfresh⟩
    intro kind' place' name hk
    rw [find?_claim] at hk
    split at hk
    · next e =>
      cases e
      cases hk
      exact hfresh
    · exact h _ _ _ hk

end

end Catalog

open Catalog TypeExpr in
/-- The form goes on from a value to those inside it and to those that come later, and types are put
together from atoms of that form. -/
theorem Naming.rules {o : Options} {handed : String → Prop} {form : Kind → String → Prop}
    (r : Naming o handed form) {p : String → Prop} (hp : ∀ kind name, form kind name → p name)
    (hb : ∀ name ∈ builtins, p name) : Walk.Rules o
      (fun name _ c _ t c' => handed name → c.NamesHave form →
        c'.NamesHave form ∧ WellFormed p t)
      (fun name _ c _ types c' => handed name → c.NamesHave form →
        c'.NamesHave form ∧ ∀ t ∈ types, WellFormed p t)
      (fun interface _ c _ properties c' => form .interface interface → c.NamesHave form →
        c'.NamesHave form ∧ ∀ e ∈ properties, WellFormed p e.2) where
  leaf ht _ hc := by
    obtain ⟨name, hm, rfl | rfl⟩ := Walk.builtin_of_leafType? ht
    · exact ⟨hc, .atom (hb name hm)⟩
    · exact ⟨hc, .array (.atom (hb name hm))⟩
  strings _ _ hname hc := by
    obtain ⟨hnames, hform⟩ := hc.nameFor r (r.enum hname) _
    exact ⟨hnames, .array (.atom (hp _ _ hform))⟩
  array hne _ hitems ih hname hc := by
    obtain ⟨hnames, htypes⟩ := ih (r.item hname) (hc.place _ _)
    exact ⟨hnames, wellFormed_ofItems (Walk.types_ne_nil hne hitems) htypes⟩
  object _ ih hname hc := by
    obtain ⟨hnames, hform⟩ := hc.nameFor r (r.interface hname) _
    exact ⟨(ih hform hnames).1, .atom (hp _ _ hform)⟩
  noItems _ hc := ⟨hc, by simp⟩
  item _ _ ihv ihrest hname hc := by
    obtain ⟨hc₁, ht⟩ := ihv hname hc
    obtain ⟨hc₂, hts⟩ := ihrest hname hc₁
    exact ⟨hc₂, List.forall_mem_cons.2 ⟨ht, hts⟩⟩
  noMembers _ hc := ⟨hc, by simp⟩
  member _ _ ihv ihrest hform hc := by
    obtain ⟨hc₁, ht⟩ := ihv (r.member hform _) (hc.place _ _)
    obtain ⟨hc₂, hts⟩ := ihrest hform hc₁
    exact ⟨hc₂, List.forall_mem_cons.2 ⟨ht, hts⟩⟩

/-! ## The names of a walk -/

/-- A word, with a capital `E` in the name of an enum. -/
def WalkName (kind : Kind) (name : String) : Prop :=
  IsWord name ∧ (kind = .enum → 'E' ∈ name.toList)

theorem naming_walkName (o : Options) : Naming o (fun _ => True) WalkName where
  interface _ := ⟨isWord_typeName _, fun h => by cases h⟩
  enum _ := ⟨isWord_typeName _, fun _ => mem_typeName_enum _⟩
  numbered h n := ⟨isWord_numbered h.1 n, fun hk => by
    rw [toList_numbered]
    exact List.mem_append_left _ (h.2 hk)⟩
  item _ := trivial
  member _ _ := trivial

theorem isWord_of_mem_builtins {name : String} (h : name ∈ TypeExpr.builtins) : IsWord name := by
  have key : (TypeExpr.builtins.all fun name => name.toList.all Text.isWordChar) = true := by
    decide
  exact List.all_eq_true.1 (List.all_eq_true.1 key name h)

/-- Names of walks stay such in a walk, and the types are well-formed over words. -/
theorem walkName_rules (o : Options) : Walk.Rules o
    (fun _ _ c _ t c' => c.NamesHave WalkName → c'.NamesHave WalkName ∧ t.WellFormed IsWord)
    (fun _ _ c _ types c' => c.NamesHave WalkName →
      c'.NamesHave WalkName ∧ ∀ t ∈ types, t.WellFormed IsWord)
    (fun interface _ c _ properties c' => WalkName .interface interface → c.NamesHave WalkName →
      c'.NamesHave WalkName ∧ ∀ e ∈ properties, e.2.WellFormed IsWord) := by
  simpa using (naming_walkName o).rules (fun _ _ h => h.1) (fun _ => isWord_of_mem_builtins)

theorem namesHave_typeOf (o : Options) (v : Json) (name : String) :
    (typeOf o v name {}).2.NamesHave WalkName := by
  rw [Walk.typeOf_eq_typeAt]
  exact ((walkName_rules o).value _ _ _ _ (Catalog.namesHave_empty _)).1

/-! ## What the interfaces hold -/

namespace Catalog

/-- The types of all properties have something in common. -/
def TypesHave (p : TypeExpr → Prop) (c : Catalog) : Prop :=
  ∀ e ∈ c.interfaces.entries, ∀ property ∈ e.2.entries, p property.2

variable {p : TypeExpr → Prop} {c c' : Catalog}

theorem typesHave_empty (p : TypeExpr → Prop) : TypesHave p {} := fun _ he => by cases he

theorem TypesHave.congr (h : c.TypesHave p) (hi : c'.interfaces = c.interfaces) :
    c'.TypesHave p := by
  rwa [TypesHave, hi]

/-- A new interface has no properties yet. -/
theorem TypesHave.openInterface (h : c.TypesHave p) (place : Int) (candidate : String) :
    (c.openInterface place candidate).2.TypesHave p := by
  intro e he
  rw [openInterface_snd] at he
  rcases Table.mem_of_mem_putNew he with rfl | he
  · intro property hp
    cases hp
  · exact h e he

theorem TypesHave.setProperties (h : c.TypesHave p) (name : String)
    {properties : List (Text × TypeExpr)} (hp : ∀ property ∈ properties, p property.2) :
    (c.setProperties name (Table.ofList properties)).TypesHave p := by
  intro e he
  rcases Table.mem_of_mem_put he with rfl | he
  · exact fun property hm => hp property (Table.mem_of_mem_ofList hm)
  · exact h e he

end Catalog

open Catalog TypeExpr in
/-- The types that a walk gives to interfaces are put together from atoms of the form too. -/
theorem Naming.typesHave_rules {o : Options} {handed : String → Prop}
    {form : Kind → String → Prop} (r : Naming o handed form) {p : String → Prop}
    (hp : ∀ kind name, form kind name → p name) (hb : ∀ name ∈ builtins, p name) : Walk.Rules o
      (fun name _ c _ _ c' => handed name → c.NamesHave form → c.TypesHave (WellFormed p) →
        c'.TypesHave (WellFormed p))
      (fun name _ c _ _ c' => handed name → c.NamesHave form → c.TypesHave (WellFormed p) →
        c'.TypesHave (WellFormed p))
      (fun interface _ c _ _ c' => form .interface interface → c.NamesHave form →
        c.TypesHave (WellFormed p) → c'.TypesHave (WellFormed p)) where
  leaf _ _ _ h := h
  strings {name place c _ values} _ _ _ _ h :=
    h.congr (addEnum_interfaces c place (Text.typeName (name ++ "Enum")) values)
  array {_ place c _ _ _} _ _ _ ih hname hn h :=
    ih (r.item hname) (hn.place _ _) (h.congr (place_interfaces c place .item))
  object {_ place _ _ _ _} hmembers ih hname hn h := by
    obtain ⟨hnames, hform⟩ := hn.nameFor r (r.interface hname) place
    exact (ih hform hnames (h.openInterface _ _)).setProperties _
      ((r.rules hp hb).of_typesOfMembers hmembers hform hnames).2
  noItems _ _ h := h
  item hv _ ihv ihrest hname hn h :=
    ihrest hname ((r.rules hp hb).of_typeAt hv hname hn).1 (ihv hname hn h)
  noMembers _ _ h := h
  member {_ place c key _ _ _ _ _ _} hv _ ihv ihrest hi hn h := by
    have hplace := hn.place place (.member key)
    exact ihrest hi ((r.rules hp hb).of_typeAt hv (r.member hi key) hplace).1
      (ihv (r.member hi key) hplace (h.congr (place_interfaces c place _)))

/-- The types that a walk finds and those that it gives to interfaces are well-formed over words. -/
theorem formed_rules (o : Options) : Walk.Rules o
    (fun _ _ c _ _ c' => c.NamesHave WalkName → c.TypesHave (TypeExpr.WellFormed IsWord) →
      c'.TypesHave (TypeExpr.WellFormed IsWord))
    (fun _ _ c _ _ c' => c.NamesHave WalkName → c.TypesHave (TypeExpr.WellFormed IsWord) →
      c'.TypesHave (TypeExpr.WellFormed IsWord))
    (fun interface _ c _ _ c' => WalkName .interface interface → c.NamesHave WalkName →
      c.TypesHave (TypeExpr.WellFormed IsWord) →
      c'.TypesHave (TypeExpr.WellFormed IsWord)) := by
  simpa using (naming_walkName o).typesHave_rules (fun _ _ h => h.1)
    (fun _ => isWord_of_mem_builtins)

end TypeSketch
