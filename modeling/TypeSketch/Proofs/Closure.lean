import TypeSketch.Sketch
import TypeSketch.Proofs.NameForm
import TypeSketch.Proofs.Naming

/-!
# Closed sketches

A reference is made when a type is found, its declaration may be given other contents later, and
enums are only written when they are wanted. In the end every name that is referred to is declared
all the same.

**Theorem** (`closed_rules`). A walk only makes types out of built-in ones, interfaces and arrays of
enums that are in the catalog, and gives interfaces only such types.

**Theorem** (`sketch_closed`). In the text of a sketch no two blocks have one name. Every word in
the type of a property is a built-in type or the name of a block, and where it is an enum, brackets
follow.
-/

namespace TypeSketch

open Catalog

/-! ## References -/

/-- A type that refers only to what is in a catalog, and to an enum only as the items of an
array. -/
inductive Refers (c : Catalog) : TypeExpr → Prop
  | builtin {name : String} (h : name ∈ TypeExpr.builtins) : Refers c (.atom name)
  | interface {name : String} (h : name ∈ c.interfaces.keys) : Refers c (.atom name)
  | enum {name : String} (h : name ∈ c.enums.keys) : Refers c (.array (.atom name))
  | array {item : TypeExpr} (h : Refers c item) : Refers c (.array item)
  | arrayOfUnion {members : List TypeExpr} (h : ∀ m ∈ members, Refers c m) :
      Refers c (.arrayOfUnion members)

variable {o : Options} {c c' : Catalog}

theorem Refers.mono (hg : Grows c c') {t : TypeExpr} (h : Refers c t) : Refers c' t := by
  induction h with
  | builtin h => exact .builtin h
  | interface h => exact .interface (hg.interfaces.subset h)
  | enum h => exact .enum (hg.enums.subset h)
  | array _ ih => exact .array ih
  | arrayOfUnion _ ih => exact .arrayOfUnion ih

theorem refers_ofItems {types : List TypeExpr} (h : ∀ t ∈ types, Refers c t) :
    Refers c (.ofItems types) := by
  have hmem {u : TypeExpr} (hu : u ∈ TypeExpr.distinct types) : Refers c u :=
    h u ((Distinct.mem_of_mem_addAll hu).resolve_left List.not_mem_nil)
  unfold TypeExpr.ofItems
  generalize TypeExpr.distinct types = ds at hmem
  match ds with
  | [d] => exact .array (hmem List.mem_cons_self)
  | [] | _ :: _ :: _ => exact .arrayOfUnion fun m hm => hmem hm

/-- Every property of every interface has such a type. -/
def Catalog.Closed (c : Catalog) : Prop :=
  ∀ e ∈ c.interfaces.entries, ∀ property ∈ e.2.entries, Refers c property.2

/-- A catalog stays closed when it grows, if the interfaces that change do so by such types. -/
theorem Catalog.Closed.grow (h : c.Closed) (hg : Grows c c')
    (hi : ∀ e ∈ c'.interfaces.entries,
      e ∈ c.interfaces.entries ∨ ∀ property ∈ e.2.entries, Refers c' property.2) :
    c'.Closed := by
  intro e he property hp
  rcases hi e he with he | hall
  · exact (h e he property hp).mono hg
  · exact hall property hp

theorem Catalog.Closed.place (h : c.Closed) (parent : Int) (step : Step) :
    (c.place parent step).2.Closed := by
  apply h.grow (grows_place c parent step)
  intro e he
  rw [place_interfaces] at he
  exact Or.inl he

/-- A new interface has no properties yet. -/
theorem Catalog.Closed.openInterface (h : c.Closed) (place : Int) (candidate : String) :
    (c.openInterface place candidate).2.Closed ∧
      Refers (c.openInterface place candidate).2
        (.atom (c.openInterface place candidate).1) := by
  refine ⟨h.grow (grows_openInterface c place candidate) fun e he => ?_,
    .interface (mem_keys_openInterface c place candidate)⟩
  rw [openInterface_snd] at he
  refine (Table.mem_of_mem_putNew he).symm.imp_right ?_
  rintro rfl property hp
  cases hp

/-! ## Walks -/

theorem closed_rules (o : Options) : Walk.Rules o
    (fun _ _ c _ t c' => c.Closed → c'.Closed ∧ Refers c' t)
    (fun _ _ c _ types c' => c.Closed → c'.Closed ∧ ∀ t ∈ types, Refers c' t)
    (fun _ _ c _ properties c' => c.Closed → c'.Closed ∧ ∀ e ∈ properties, Refers c' e.2) where
  leaf ht hc := by
    obtain ⟨name, hm, rfl | rfl⟩ := Walk.builtin_of_leafType? ht
    · exact ⟨hc, .builtin hm⟩
    · exact ⟨hc, .array (.builtin hm)⟩
  strings {name place c items values} _ _ hc := by
    have hg := grows_addEnum c place (Text.typeName (name ++ "Enum")) values
    refine ⟨hc.grow hg fun e he => Or.inl ?_, .enum (mem_keys_addEnum c place _ values)⟩
    rwa [addEnum_interfaces] at he
  array {_ place _ _ _ _} _ _ _ ih hc := by
    obtain ⟨hc', htypes⟩ := ih (hc.place place .item)
    exact ⟨hc', refers_ofItems htypes⟩
  object {name place c members properties c'} hmembers ih hc := by
    obtain ⟨hopen, hname⟩ := hc.openInterface place (Text.typeName name)
    obtain ⟨hc', hproperties⟩ := ih hopen
    have hg := ((edits_rules o).of_typesOfMembers hmembers).grows
    have hset := grows_setProperties c' (c.openInterface place (Text.typeName name)).1
      (Table.ofList properties)
    refine ⟨hc'.grow hset fun e he => (Table.mem_of_mem_put he).symm.imp_right ?_,
      (hname.mono hg).mono hset⟩
    rintro rfl property hp
    exact (hproperties property (Table.mem_of_mem_ofList hp)).mono hset
  noItems hc := ⟨hc, by simp⟩
  item {name place c v rest t types c₁ c₂} _ hrest ihv ihrest hc := by
    obtain ⟨hc₁, ht⟩ := ihv hc
    obtain ⟨hc₂, hts⟩ := ihrest hc₁
    have hg := ((edits_rules o).of_typesOfItems hrest).grows
    exact ⟨hc₂, List.forall_mem_cons.2 ⟨ht.mono hg, hts⟩⟩
  noMembers hc := ⟨hc, by simp⟩
  member {interface place c key v rest t properties c₁ c₂} _ hrest ihv ihrest hc := by
    obtain ⟨hc₁, ht⟩ := ihv (hc.place place (.member key))
    obtain ⟨hc₂, hts⟩ := ihrest hc₁
    have hg := ((edits_rules o).of_typesOfMembers hrest).grows
    exact ⟨hc₂, List.forall_mem_cons.2 ⟨ht.mono hg, hts⟩⟩

theorem closed_typeOf (o : Options) (v : Json) (name : String) :
    (typeOf o v name {}).2.Closed := by
  rw [Walk.typeOf_eq_typeAt]
  exact ((closed_rules o).value _ _ _ _ fun _ he => by cases he).1

/-- Without enum detection no enum is entered. -/
theorem enums_rules (h : o.detectEnums = false) : Walk.Rules o
    (fun _ _ c _ _ c' => c'.enums = c.enums) (fun _ _ c _ _ c' => c'.enums = c.enums)
    (fun _ _ c _ _ c' => c'.enums = c.enums) where
  leaf _ := rfl
  strings _ hv := by
    rw [Walk.enumValues?, h] at hv
    cases hv
  array {_ place c _ _ _} _ _ _ ih := ih.trans (place_enums c place .item)
  object {_ place c _ _ _} _ ih := ih.trans (openInterface_enums c place _)
  noItems := rfl
  item _ _ ihv ihrest := ihrest.trans ihv
  noMembers := rfl
  member {_ place c key _ _ _ _ _ _} _ _ ihv ihrest :=
    ihrest.trans (ihv.trans (place_enums c place (.member key)))

/-! ## Words -/

/-- The words of some characters, as long as they go, each with what follows it. -/
def words : List Char → List (String × List Char)
  | [] => []
  | c :: rest =>
    if Text.isWordChar c then
      (String.ofList (c :: rest.takeWhile Text.isWordChar), rest.dropWhile Text.isWordChar) ::
        words (rest.dropWhile Text.isWordChar)
    else words rest
termination_by cs => cs.length
decreasing_by
  · have := (List.dropWhile_sublist Text.isWordChar (l := rest)).length_le
    rw [List.length_cons]
    omega
  · exact Nat.lt_succ_self _

/-- Characters before which a word ends. -/
def EndsWord (cs : List Char) : Prop := ∀ c ∈ cs.head?, Text.isWordChar c = false

theorem words_cons_of_not_wordChar {c : Char} (h : Text.isWordChar c = false) (cs : List Char) :
    words (c :: cs) = words cs := by
  rw [words, h]
  rfl

theorem endsWord_cons {c : Char} (h : Text.isWordChar c = false) (cs : List Char) :
    EndsWord (c :: cs) := by
  intro d hd
  cases hd
  exact h

theorem endsWord_brackets (cs : List Char) : EndsWord (['[', ']'] ++ cs) := endsWord_cons rfl _

theorem words_append_of_not_wordChar {xs : List Char} (h : xs.any Text.isWordChar = false)
    (cs : List Char) : words (xs ++ cs) = words cs := by
  induction xs with
  | nil => rfl
  | cons c rest ih =>
    rw [List.any_cons, Bool.or_eq_false_iff] at h
    rw [List.cons_append, words_cons_of_not_wordChar h.1, ih h.2]

theorem TypeExpr.tailChars_cons (m : TypeExpr) (ms : List TypeExpr) :
    tailChars (m :: ms) = [' ', '|', ' '] ++ (m.text.toList ++ tailChars ms) := rfl

theorem endsWord_tailChars (ms : List TypeExpr) (cs : List Char) :
    EndsWord (TypeExpr.tailChars ms ++ ([')', '[', ']'] ++ cs)) := by
  cases ms <;> exact endsWord_cons rfl _

/-- A word and what ends it. -/
theorem mem_words_append {name : String} (h : IsWord name) {cs : List Char} (hcs : EndsWord cs)
    {word : String} {rest : List Char} (hm : (word, rest) ∈ words (name.toList ++ cs)) :
    (word = name ∧ rest = cs) ∨ (word, rest) ∈ words cs := by
  have htake : cs.takeWhile Text.isWordChar = [] := by
    cases cs with
    | nil => rfl
    | cons c cs => rw [List.takeWhile_cons, hcs c rfl]; rfl
  have hdrop : cs.dropWhile Text.isWordChar = cs := by
    cases cs with
    | nil => rfl
    | cons c cs => rw [List.dropWhile_cons, hcs c rfl]; rfl
  cases hn : name.toList with
  | nil => rw [hn] at hm; exact Or.inr hm
  | cons c tail =>
    have hall : ∀ d ∈ c :: tail, Text.isWordChar d = true := by rw [← hn]; exact h
    have htail : ∀ d ∈ tail, Text.isWordChar d = true := fun d hd =>
      hall d (List.mem_cons_of_mem _ hd)
    rw [hn, List.cons_append, words, if_pos (hall c List.mem_cons_self),
      List.takeWhile_append_of_pos htail, List.dropWhile_append_of_pos htail, htake, hdrop,
      List.append_nil, ← hn, String.ofList_toList] at hm
    exact (List.mem_cons.1 hm).imp_left Prod.mk.inj

example : words "(AEnum[] | null)[]".toList =
    [("AEnum", "[] | null)[]".toList), ("null", ")[]".toList)] := by decide +kernel

/-- What is known of the words of every member is known of those of a union. Behind a member stands
a blank or the closing parenthesis, so its last word ends there. -/
theorem of_mem_words_union {p : Prop} {word : String} {rest cs : List Char} {m : TypeExpr}
    {ms : List TypeExpr}
    (ih : ∀ n ∈ m :: ms, ∀ {cs}, EndsWord cs → (word, rest) ∈ words (n.text.toList ++ cs) →
      p ∨ (word, rest) ∈ words cs)
    (hm : (word, rest) ∈
      words (m.text.toList ++ (TypeExpr.tailChars ms ++ ([')', '[', ']'] ++ cs)))) :
    p ∨ (word, rest) ∈ words cs := by
  induction ms generalizing m with
  | nil =>
    rcases ih m List.mem_cons_self (endsWord_tailChars [] cs) hm with hp | hm
    · exact Or.inl hp
    · rw [TypeExpr.tailChars, List.flatMap_nil, List.nil_append,
        words_append_of_not_wordChar rfl] at hm
      exact Or.inr hm
  | cons n ms ihms =>
    rcases ih m List.mem_cons_self (endsWord_tailChars (n :: ms) cs) hm with hp | hm
    · exact Or.inl hp
    · rw [TypeExpr.tailChars_cons, List.append_assoc, List.append_assoc,
        words_append_of_not_wordChar rfl] at hm
      exact ihms (fun k hk => ih k (List.mem_cons_of_mem _ hk)) hm

/-- A word of a type that is declared in the catalog, if it is not built in, and that has brackets
behind it, if it is an enum. -/
def Resolved (c : Catalog) (word : String) (rest : List Char) : Prop :=
  (word ∈ TypeExpr.builtins ∨ word ∈ c.enums.keys ++ c.interfaces.keys) ∧
    (word ∈ c.enums.keys → ['[', ']'] <+: rest)

theorem not_mem_enums_of_mem_builtins (hw : c.WellNamed) (hn : c.NamesHave WalkName)
    {name : String} (h : name ∈ TypeExpr.builtins) : name ∉ c.enums.keys := by
  intro he
  obtain ⟨place, hp⟩ := hw.enums.1 he
  have hletter : 'E' ∈ name.toList := (hn _ _ _ hp).2 rfl
  have key : ∀ name ∈ TypeExpr.builtins, 'E' ∉ name.toList := by decide
  exact key name h hletter

/-- The words of a type, and those of what follows it. -/
theorem resolved_of_mem_words (hw : c.WellNamed) (hn : c.NamesHave WalkName) {t : TypeExpr}
    (h : Refers c t) {cs : List Char} (hcs : EndsWord cs) {word : String} {rest : List Char}
    (hm : (word, rest) ∈ words (t.text.toList ++ cs)) :
    Resolved c word rest ∨ (word, rest) ∈ words cs := by
  induction h generalizing cs with
  | @builtin name h =>
    rw [TypeExpr.toList_text_atom] at hm
    refine (mem_words_append (isWord_of_mem_builtins h) hcs hm).imp_left ?_
    rintro ⟨rfl, rfl⟩
    exact ⟨Or.inl h, fun he => absurd he (not_mem_enums_of_mem_builtins hw hn h)⟩
  | @interface name h =>
    obtain ⟨place, hp⟩ := hw.interfaces.1 h
    rw [TypeExpr.toList_text_atom] at hm
    refine (mem_words_append (hn _ _ _ hp).1 hcs hm).imp_left ?_
    rintro ⟨rfl, rfl⟩
    exact ⟨Or.inr (List.mem_append_right _ h), fun he => absurd he (hw.not_mem_enums h)⟩
  | @enum name h =>
    obtain ⟨place, hp⟩ := hw.enums.1 h
    rw [TypeExpr.toList_text_array, TypeExpr.toList_text_atom, List.append_assoc] at hm
    rcases mem_words_append (hn _ _ _ hp).1 (endsWord_brackets cs) hm with ⟨rfl, rfl⟩ | hm
    · exact Or.inl ⟨Or.inr (List.mem_append_left _ h), fun _ => List.prefix_append _ _⟩
    · exact Or.inr (by rwa [words_append_of_not_wordChar rfl] at hm)
  | @array item h ih =>
    rw [TypeExpr.toList_text_array, List.append_assoc] at hm
    refine (ih (endsWord_brackets cs) hm).imp_right fun hm => ?_
    rwa [words_append_of_not_wordChar rfl] at hm
  | @arrayOfUnion members h ih =>
    cases members with
    | nil =>
      have hempty : (TypeExpr.arrayOfUnion []).text.toList = ['(', ')', '[', ']'] := by
        simp [TypeExpr.text]
      rw [hempty, words_append_of_not_wordChar rfl] at hm
      exact Or.inr hm
    | cons m ms =>
      rw [TypeExpr.toList_text_arrayOfUnion, List.cons_append, List.append_assoc,
        List.append_assoc, words_cons_of_not_wordChar rfl] at hm
      exact of_mem_words_union ih hm

/-! ## Blocks -/

/-- A declaration with the name that it defines. -/
inductive Block where
  | enum (name : String) (values : List Text)
  | interface (name : String) (properties : Properties)

def Block.name : Block → String
  | .enum name _ => name
  | .interface name _ => name

/-- The head of a block, which tells its kind and its name. -/
def Block.head : Block → String
  | .enum name _ => "enum " ++ name ++ " \x7b\n"
  | .interface name _ => "interface " ++ name ++ " \x7b\n"

def Block.text (o : Options) : Block → Text
  | .enum name values => Declaration.enum name values
  | .interface name properties => Declaration.interface o name properties.entries

theorem head_prefix_text (o : Options) (block : Block) :
    Text.ofString block.head <+: block.text o := by
  cases block with
  | enum name values =>
    rw [Block.text, Block.head, Declaration.enum, Declaration.block, Text.ofString_append,
      List.append_assoc]
    exact List.prefix_append _ _
  | interface name properties =>
    rw [Block.text, Block.head, Declaration.interface, Declaration.block, Text.ofString_append,
      List.append_assoc]
    exact List.prefix_append _ _

def Catalog.blocks (c : Catalog) (o : Options) : List Block :=
  (if o.detectEnums then c.enums.entries.map fun e => .enum e.1 e.2 else []) ++
    c.interfaces.entries.map fun e => .interface e.1 e.2

theorem declarations_eq_map_text (c : Catalog) (o : Options) :
    c.declarations o = (c.blocks o).map (Block.text o) := by
  unfold Catalog.declarations Catalog.blocks
  split <;> simp [Block.text, Function.comp_def]

theorem mem_of_interface_mem_blocks {name : String} {properties : Properties}
    (h : .interface name properties ∈ c.blocks o) : (name, properties) ∈ c.interfaces.entries := by
  rcases List.mem_append.1 h with h | h
  · split at h
    · obtain ⟨_, _, he⟩ := List.mem_map.1 h
      cases he
    · cases h
  · obtain ⟨_, hm, he⟩ := List.mem_map.1 h
    cases he
    exact hm

theorem mem_of_enum_mem_blocks {name : String} {values : List Text}
    (h : .enum name values ∈ c.blocks o) : (name, values) ∈ c.enums.entries := by
  rcases List.mem_append.1 h with h | h
  · split at h
    · obtain ⟨_, hm, he⟩ := List.mem_map.1 h
      cases he
      exact hm
    · cases h
  · obtain ⟨_, _, he⟩ := List.mem_map.1 h
    cases he

/-- All names of a catalog are written, since without enum detection it has no enums. -/
theorem map_name_blocks (h : o.detectEnums = false → c.enums = ∅) :
    (c.blocks o).map Block.name = c.enums.keys ++ c.interfaces.keys := by
  have henums : (if o.detectEnums then c.enums.entries.map fun e => Block.enum e.1 e.2
      else []).map Block.name = c.enums.keys := by
    cases ho : o.detectEnums with
    | true => simp [Table.keys, Block.name]
    | false => rw [h ho]; rfl
  rw [Catalog.blocks, List.map_append, henums, List.map_map]
  rfl

/-- **Closed sketches.** The text of a sketch consists of blocks, each with its name in its head.
They define the names of the catalog, enums before interfaces, and none of them twice. Every word in
the type of a property is a built-in type or defined by a block, and where an enum is meant,
brackets follow. -/
theorem sketch_closed (o : Options) (name : Text) (v : Json) :
    let c := (typeOf o v (RootName.ofText name) {}).2
    let names := (c.blocks o).map Block.name
    sketch o name v = ("\n\n" : Text).intercalate ((c.blocks o).map (Block.text o)) ∧
    (∀ block ∈ c.blocks o, Text.ofString block.head <+: block.text o) ∧
    names = c.enums.keys ++ c.interfaces.keys ∧ names.Nodup ∧
    ∀ interface properties, .interface interface properties ∈ c.blocks o →
      ∀ property ∈ properties.entries, ∀ word rest,
        (word, rest) ∈ words property.2.text.toList →
          (word ∈ TypeExpr.builtins ∨ word ∈ names) ∧
          ∀ values, .enum word values ∈ c.blocks o → ['[', ']'] <+: rest := by
  intro c names
  have hc : c = (Walk.typeAt o (RootName.ofText name) rootPlace {} v).2 := by
    rw [← Walk.typeOf_eq_typeAt]
  have hw : c.WellNamed := wellNamed_empty.edits (hc ▸ (edits_rules o).value _ _ _ _)
  have hn : c.NamesHave WalkName := hc ▸ ((walkName_rules o).value _ _ _ _ (namesHave_empty _)).1
  have hclosed : c.Closed := hc ▸ ((closed_rules o).value _ _ _ _ (fun _ he => by cases he)).1
  have hnames : names = c.enums.keys ++ c.interfaces.keys :=
    map_name_blocks fun ho => hc ▸ (enums_rules ho).value _ _ _ _
  refine ⟨?_, fun block _ => head_prefix_text o block, hnames, ?_, ?_⟩
  · rw [← declarations_eq_map_text]
    rfl
  · rw [hnames, List.nodup_append]
    exact ⟨c.enums.nodup, c.interfaces.nodup, fun a ha b hb he => hw.not_mem_enums hb (he ▸ ha)⟩
  · intro interface properties hb property hp word rest hm
    have hrefers := hclosed _ (mem_of_interface_mem_blocks hb) property hp
    have hends : EndsWord [] := fun d hd => by cases hd
    rw [← List.append_nil property.2.text.toList] at hm
    rcases resolved_of_mem_words hw hn hrefers hends hm with ⟨hword, hrest⟩ | hm
    · refine ⟨hnames ▸ hword, fun values he => hrest ?_⟩
      exact List.mem_map_of_mem (mem_of_enum_mem_blocks he)
    · rw [words] at hm
      cases hm

end TypeSketch
