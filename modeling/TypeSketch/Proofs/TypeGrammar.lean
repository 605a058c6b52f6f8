import TypeSketch.Proofs.NameOrigin
import Mathlib.Data.List.Chain

/-!
# The grammar of types

In a declaration a type is only a string. `Expression` says which strings these are, without going
back to the types that they were made from.

**Theorem** (`expression_iff`). The expressions are the texts of the well-formed types over
identifiers.

**Theorem** (`text_ofItems`). The text of an array type depends only on the texts of its items, each
counted once.

**Theorem** (`types_readable`). All types of a sketch are expressions, an expression is the text of
one type only, and two lists of expressions make the same array type just if they hold the same
expressions in the same order of first occurrence.
-/

namespace TypeSketch

open TypeExpr

/-! ## Expressions -/

/-- An identifier, an array of an expression, or an array of at least two different expressions. -/
inductive Expression : String → Prop
  | atom {name : String} (h : IsIdentifier name) : Expression name
  | array {item : String} (h : Expression item) : Expression (item ++ "[]")
  | arrayOfUnion {members : List String} (hlen : 2 ≤ members.length) (hnodup : members.Nodup)
      (h : ∀ m ∈ members, Expression m) :
      Expression ("(" ++ " | ".intercalate members ++ ")[]")

/-- A type whose text is meant by the grammar: well-formed, with identifiers as atoms. -/
abbrev Regular (t : TypeExpr) : Prop := WellFormed IsIdentifier t

theorem Regular.isWord {t : TypeExpr} (h : Regular t) : WellFormed IsWord t :=
  h.mono fun _ => IsIdentifier.word

theorem Regular.text_inj {s t : TypeExpr} (hs : Regular s) (ht : Regular t)
    (h : s.text = t.text) : s = t :=
  TypeExpr.text_inj hs.isWord ht.isWord h

/-- Different members of a union also read differently. -/
theorem Regular.expression {t : TypeExpr} (h : Regular t) : Expression t.text := by
  induction h with
  | atom h => rw [text]; exact .atom h
  | array _ ih => rw [text]; exact .array ih
  | arrayOfUnion hlen hnodup hm ih =>
    rw [text]
    refine .arrayOfUnion (by rwa [List.length_map]) (hnodup.map_on ?_) (List.forall_mem_map.2 ih)
    exact fun s hs t ht e => Regular.text_inj (hm s hs) (hm t ht) e

theorem exists_map_text {p : TypeExpr → Prop} {members : List String}
    (h : ∀ m ∈ members, ∃ t, p t ∧ t.text = m) :
    ∃ types : List TypeExpr, (∀ t ∈ types, p t) ∧ types.map text = members := by
  induction members with
  | nil => exact ⟨[], fun _ ht => absurd ht List.not_mem_nil, rfl⟩
  | cons m rest ih =>
    obtain ⟨⟨t, ht, rfl⟩, hrest⟩ := List.forall_mem_cons.1 h
    obtain ⟨types, htypes, rfl⟩ := ih hrest
    exact ⟨t :: types, List.forall_mem_cons.2 ⟨ht, htypes⟩, rfl⟩

theorem Expression.exists_regular {s : String} (h : Expression s) :
    ∃ t, Regular t ∧ t.text = s := by
  induction h with
  | @atom name h => exact ⟨.atom name, .atom h, by rw [text]⟩
  | array _ ih =>
    obtain ⟨t, ht, rfl⟩ := ih
    exact ⟨.array t, .array ht, by rw [text]⟩
  | arrayOfUnion hlen hnodup _ ih =>
    obtain ⟨types, htypes, rfl⟩ := exists_map_text ih
    rw [List.length_map] at hlen
    exact ⟨.arrayOfUnion types, .arrayOfUnion hlen hnodup.of_map htypes, by rw [text]⟩

theorem expression_iff {s : String} : Expression s ↔ ∃ t, Regular t ∧ t.text = s :=
  ⟨Expression.exists_regular, fun ⟨_, ht, hs⟩ => hs ▸ ht.expression⟩

/-! ## Parentheses -/

/-- Characters with something between parentheses, also when more is put in front or behind. -/
structure Gapless (cs : List Char) : Prop where
  chain : cs.IsChain fun a b => a = '(' → b ≠ ')'
  head : ∀ c ∈ cs.head?, c ≠ ')'
  last : ∀ c ∈ cs.getLast?, c ≠ '('

theorem gapless_of_forall {cs : List Char} (h : ∀ c ∈ cs, c ≠ '(' ∧ c ≠ ')') : Gapless cs where
  chain := by
    refine (List.pairwise_iff_forall_sublist.2 fun hsub _ => ?_).isChain
    exact (h _ (hsub.subset (List.mem_cons_of_mem _ List.mem_cons_self))).2
  head c hc := (h c (List.mem_of_mem_head? hc)).2
  last c hc := (h c (List.mem_of_mem_getLast? hc)).1

theorem gapless_word {s : String} (h : IsWord s) : Gapless s.toList :=
  gapless_of_forall fun _ hc =>
    ⟨fun e => not_mem_of_isWord h rfl (e ▸ hc), fun e => not_mem_of_isWord h rfl (e ▸ hc)⟩

theorem Gapless.append {xs ys : List Char} (hx : Gapless xs) (hy : Gapless ys) :
    Gapless (xs ++ ys) where
  chain := hx.chain.append hy.chain fun a ha b _ e => absurd e (hx.last a ha)
  head c hc := by
    rw [List.head?_append, Option.mem_def, Option.or_eq_some_iff] at hc
    exact hc.elim (hx.head c) fun h => hy.head c h.2
  last c hc := by
    rw [List.getLast?_append, Option.mem_def, Option.or_eq_some_iff] at hc
    exact hc.elim (hy.last c) fun h => hx.last c h.2

theorem Gapless.parenthesize {cs : List Char} (h : Gapless cs) (hne : cs ≠ []) :
    Gapless ('(' :: (cs ++ [')', '[', ']'])) where
  chain := by
    have hclosed : (cs ++ [')', '[', ']']).IsChain fun a b => a = '(' → b ≠ ')' :=
      h.chain.append (by simp) fun a ha b _ e => absurd e (h.last a ha)
    refine hclosed.cons fun c hc _ => h.head c ?_
    rwa [List.head?_append_of_ne_nil _ hne] at hc
  head := by simp
  last := by simp [List.getLast?_cons, List.getLast?_append]

theorem gapless_tailChars {members : List TypeExpr} (h : ∀ m ∈ members, Gapless m.text.toList) :
    Gapless (tailChars members) := by
  induction members with
  | nil => exact gapless_of_forall (by simp [tailChars])
  | cons m rest ih =>
    have hbar : Gapless [' ', '|', ' '] := gapless_of_forall (by simp)
    have hm := hbar.append (h m List.mem_cons_self)
    exact hm.append (ih fun m hm => h m (List.mem_cons_of_mem _ hm))

theorem Regular.gapless {t : TypeExpr} (h : Regular t) : Gapless t.text.toList := by
  induction h with
  | atom h => rw [toList_text_atom]; exact gapless_word h.word
  | array _ ih =>
    rw [toList_text_array]
    exact ih.append (gapless_of_forall (by simp))
  | @arrayOfUnion members hlen _ _ ih =>
    match members, hlen with
    | m :: m' :: rest, _ =>
      -- With two members there is a bar between them, so the parentheses hold something.
      rw [toList_text_arrayOfUnion, ← List.append_assoc]
      have htail := gapless_tailChars fun m hm => ih m (List.mem_cons_of_mem _ hm)
      exact ((ih m List.mem_cons_self).append htail).parenthesize (by simp [tailChars])

/-- There is something between the parentheses of an expression. -/
theorem Expression.not_infix {s : String} (h : Expression s) : ¬['(', ')'] <:+: s.toList := by
  obtain ⟨t, ht, rfl⟩ := h.exists_regular
  intro hin
  have hchain := ht.gapless.chain.infix hin
  simp at hchain

/-- The members of a union stand inside parentheses. -/
theorem Expression.exists_depthAfter {s : String} (h : Expression s) {before after : List Char}
    (hs : s.toList = before ++ [' ', '|', ' '] ++ after) :
    ∃ d, depthAfter 0 before = some (d + 1) := by
  obtain ⟨t, ht, rfl⟩ := h.exists_regular
  have hdepth := depthAfter_text ht.isWord 0
  rw [hs, List.append_assoc, depthAfter_append] at hdepth
  obtain ⟨d, hd, hrest⟩ := Option.bind_eq_some_iff.1 hdepth
  cases d with
  | zero => simp [depthAfter] at hrest
  | succ d => exact ⟨d, hd⟩

/-! ## The types of items -/

/-- The text of an array whose items have some texts, all of them different. -/
def arrayText : List String → String
  | [item] => item ++ "[]"
  | members => "(" ++ " | ".intercalate members ++ ")[]"

theorem text_ofDistinct (types : List TypeExpr) :
    (ofDistinct types).text = arrayText (types.map text) := by
  match types with
  | [] | [_] | _ :: _ :: _ => simp [ofDistinct, text, arrayText]

theorem map_text_distinct (types : List TypeExpr) :
    (distinct types).map text = Distinct.ofList id (types.map text) := by
  have hsame (s t : TypeExpr) (_ : True) (_ : True) : id s.text = id t.text ↔ s.text = t.text :=
    Iff.rfl
  exact (Distinct.addAll_map hsame (fun _ _ => trivial) fun _ _ => trivial).symm

/-- Only the texts of the items count. -/
theorem text_ofItems (types : List TypeExpr) :
    (ofItems types).text = arrayText (Distinct.ofList id (types.map text)) := by
  rw [ofItems, text_ofDistinct, map_text_distinct]

theorem ofDistinct_inj {types types' : List TypeExpr} (h : ofDistinct types = ofDistinct types') :
    types = types' := by
  match types, types' with
  | [], [] => rfl
  | [_], [_] => simpa [ofDistinct] using h
  | _ :: _ :: _, _ :: _ :: _ => simpa [ofDistinct] using h
  | [], [_] | [], _ :: _ :: _ | [_], [] | [_], _ :: _ :: _ | _ :: _ :: _, [] | _ :: _ :: _, [_] =>
    simp [ofDistinct] at h

/-- Arrays that read the same come from items that do so, each counted once. -/
theorem text_ofItems_eq_iff {xs ys : List TypeExpr} (hx : xs ≠ []) (hy : ys ≠ [])
    (hxs : ∀ t ∈ xs, Expression t.text) (hys : ∀ t ∈ ys, Expression t.text) :
    (ofItems xs).text = (ofItems ys).text ↔
      Distinct.ofList id (xs.map text) = Distinct.ofList id (ys.map text) := by
  rw [text_ofItems, text_ofItems]
  refine ⟨fun h => ?_, congrArg arrayText⟩
  -- The items need not be well-formed themselves, so others with the same texts take their place.
  have hread {types : List TypeExpr} (ht : ∀ t ∈ types, Expression t.text) :
      ∃ types' : List TypeExpr, (∀ t ∈ types', Regular t) ∧
        types'.map text = types.map text :=
    exists_map_text (List.forall_mem_map.2 fun t hm => (ht t hm).exists_regular)
  obtain ⟨xs', hxs', hx'⟩ := hread hxs
  obtain ⟨ys', hys', hy'⟩ := hread hys
  rw [← hx', ← hy'] at h ⊢
  have hne {types types' : List TypeExpr} (ht : types ≠ [])
      (he : types'.map text = types.map text) : types' ≠ [] := by
    rintro rfl
    exact ht (List.map_eq_nil_iff.1 he.symm)
  have hitems : ofItems xs' = ofItems ys' :=
    Regular.text_inj (wellFormed_ofItems (hne hx hx') hxs') (wellFormed_ofItems (hne hy hy') hys')
      (by rw [text_ofItems, text_ofItems, h])
  rw [← map_text_distinct, ← map_text_distinct, ofDistinct_inj hitems]

/-! ## Whole documents -/

theorem isIdentifier_of_mem_builtins {name : String} (h : name ∈ builtins) :
    IsIdentifier name where
  word := isWord_of_mem_builtins h
  ne_nil := by
    have key : (builtins.all fun name => !name.toList.isEmpty) = true := by decide
    simpa using List.all_eq_true.1 key name h
  start := by
    have key : (builtins.all fun name => !Text.startsWithDigit name.toList) = true := by decide
    simpa using List.all_eq_true.1 key name h

/-- The type of a document and the types of all properties. -/
theorem regular_typeOf (o : Options) (v : Json) {root : String} (hroot : IsIdentifier root) :
    Regular (typeOf o v root {}).1 ∧ (typeOf o v root {}).2.TypesHave Regular := by
  have hhanded : ∃ owner more, IsIdentifier owner ∧ root = owner ++ more :=
    ⟨root, "", hroot, String.append_empty.symm⟩
  have hform (kind : Kind) (name : String) (h : IsIdentifier name) : IsIdentifier name := h
  have hrules := (naming_identifier o).rules hform fun _ => isIdentifier_of_mem_builtins
  have htypes := (naming_identifier o).typesHave_rules hform fun _ => isIdentifier_of_mem_builtins
  rw [Walk.typeOf_eq_typeAt]
  have hnames := Catalog.namesHave_empty fun _ name => IsIdentifier name
  exact ⟨(hrules.value root rootPlace {} v hhanded hnames).2,
    htypes.value root rootPlace {} v hhanded hnames (Catalog.typesHave_empty _)⟩

/-- **Types are readable.** The type of a document and the types of all properties are expressions.
An expression is the text of exactly one well-formed type, it has something between its parentheses,
and the members of a union stand inside of some. Items whose types read like expressions, for
example atoms, make arrays that read the same just if their texts are the same, each counted once
and in the order in which they are first seen. -/
theorem types_readable (o : Options) (wanted : Text) (v : Json) :
    let walked := typeOf o v (RootName.ofText wanted) {}
    (Expression walked.1.text ∧ ∀ e ∈ walked.2.interfaces.entries,
      ∀ property ∈ e.2.entries, Expression property.2.text) ∧
    (∀ s, Expression s → (∃! t, Regular t ∧ t.text = s) ∧ ¬['(', ')'] <:+: s.toList ∧
      ∀ before after, s.toList = before ++ [' ', '|', ' '] ++ after →
        ∃ d, depthAfter 0 before = some (d + 1)) ∧
    ∀ xs ys : List TypeExpr, xs ≠ [] → ys ≠ [] → (∀ t ∈ xs, Expression t.text) →
      (∀ t ∈ ys, Expression t.text) → ((ofItems xs).text = (ofItems ys).text ↔
        Distinct.ofList id (xs.map text) = Distinct.ofList id (ys.map text)) := by
  obtain ⟨htype, htypes⟩ := regular_typeOf o v (isIdentifier_rootName wanted)
  refine ⟨⟨htype.expression, fun e he property hp => (htypes e he property hp).expression⟩,
    fun s hs => ⟨?_, hs.not_infix, fun _ _ => hs.exists_depthAfter⟩,
    fun _ _ => text_ofItems_eq_iff⟩
  obtain ⟨t, ht, rfl⟩ := hs.exists_regular
  exact ⟨t, ⟨ht, rfl⟩, fun t' h => h.1.text_inj ht h.2⟩

/-- An atom that reads like an array counts as that array. -/
theorem types_readable_atoms :
    let xs : List TypeExpr := [.atom "string[]", number, .array string]
    let ys : List TypeExpr := [.array string, number, number]
    (∀ t ∈ xs, Expression t.text) ∧ (∀ t ∈ ys, Expression t.text) ∧
      (ofItems xs).text = (ofItems ys).text ∧ (ofItems ys).text = "(string[] | number)[]" := by
  intro xs ys
  have hstring : IsIdentifier "string" := isIdentifier_of_mem_builtins (by decide)
  have hnumber : IsIdentifier "number" := isIdentifier_of_mem_builtins (by decide)
  have hx : xs.map text = ["string[]", "number", "string[]"] := by
    simp only [xs, List.map, text, number, string]
    rfl
  have hy : ys.map text = ["string[]", "number", "number"] := by
    simp only [ys, List.map, text, number, string]
    rfl
  have hread : ∀ s ∈ ["string[]", "number"], Expression s := by
    simpa using ⟨Expression.array (.atom hstring), Expression.atom hnumber⟩
  have hxs : ∀ t ∈ xs, Expression t.text :=
    List.forall_mem_map.1 (hx ▸ fun s hs => hread s (by grind))
  have hys : ∀ t ∈ ys, Expression t.text :=
    List.forall_mem_map.1 (hy ▸ fun s hs => hread s (by grind))
  obtain ⟨-, -, hiff⟩ := types_readable {} [] .null
  refine ⟨hxs, hys, (hiff xs ys (by simp [xs]) (by simp [ys]) hxs hys).2 ?_, ?_⟩
  · rw [hx, hy]
    decide +kernel
  · rw [text_ofItems, hy]
    decide +kernel

end TypeSketch
