import TypeSketch.Walk

/-!
# The walk as a recursion

The walk keeps the containers it is inside of in a list of frames. The same result can be said by
recursion on the document (`typeAt`): a leaf has its type, an array of strings enters its enum, any
other array enters the place of its items and then goes through them, and an object takes its name,
goes through its members and sets its properties at the end.

**Theorem** (`typeOf_eq_typeAt`). The walk and the recursion give the same type and the same
catalog, from every catalog on.

**Theorem** (`walk_eq_recursion`). The walk ends, after at most two turns for every value, with the
result of the recursion.

A frame is a recursive call that has been carried out in part, and `Frame.finish` is what is left of
it. A turn changes the frames and the catalog, but never what is left of all of them (`finishAll`).

Proofs about the walk go through the recursion, with one rule for each of its cases (`Rules`).
-/

namespace TypeSketch.Walk

/-! ## The recursion -/

mutual

/-- The type of a value at a place, and the catalog with all declarations that the value needs. -/
def typeAt (o : Options) (name : String) (place : Int) (c : Catalog) : Json → TypeExpr × Catalog
  | .null => (if o.strictNulls then .null else .any, c)
  | .bool _ => (.boolean, c)
  | .number _ => (.number, c)
  | .string _ => (.string, c)
  | .array [] => (.array .any, c)
  | .array items =>
    match enumValues? o items with
    | some values =>
      let (enum, c) := c.addEnum place (Text.typeName (name ++ "Enum")) values
      (.array (.atom enum), c)
    | none =>
      let (below, c) := c.place place .item
      let (types, c) := typesOfItems o (name ++ "Item") below c items
      (.ofItems types, c)
  | .object members =>
    let (interface, c) := c.openInterface place (Text.typeName name)
    let (properties, c) := typesOfMembers o interface place c members
    (.atom interface, c.setProperties interface (Table.ofList properties))
  | .other => (.any, c)

def typesOfItems (o : Options) (name : String) (place : Int) (c : Catalog) :
    List Json → List TypeExpr × Catalog
  | [] => ([], c)
  | item :: rest =>
    let (type, c) := typeAt o name place c item
    let (types, c) := typesOfItems o name place c rest
    (type :: types, c)

/-- The keys of an object with the types of their values, in their order. -/
def typesOfMembers (o : Options) (interface : String) (place : Int) (c : Catalog) :
    List (Text × Json) → List (Text × TypeExpr) × Catalog
  | [] => ([], c)
  | (key, value) :: rest =>
    let (below, c) := c.place place (.member key)
    let (type, c) := typeAt o (memberName o interface key) below c value
    let (properties, c) := typesOfMembers o interface place c rest
    ((key, type) :: properties, c)

end

theorem map_fst_typesOfMembers (o : Options) (interface : String) (place : Int) (c : Catalog)
    (members : List (Text × Json)) :
    (typesOfMembers o interface place c members).1.map Prod.fst = members.map Prod.fst := by
  induction members generalizing c with
  | nil => rfl
  | cons member rest ih =>
    obtain ⟨key, value⟩ := member
    rw [typesOfMembers]
    simp only [List.map_cons, ih]

theorem length_typesOfItems (o : Options) (name : String) (place : Int) (c : Catalog)
    (items : List Json) : (typesOfItems o name place c items).1.length = items.length := by
  induction items generalizing c with
  | nil => rfl
  | cons item rest ih =>
    rw [typesOfItems]
    simp only [List.length_cons, ih]

theorem types_ne_nil {o : Options} {name : String} {place : Int} {c c' : Catalog}
    {items : List Json} {types : List TypeExpr} (hne : items ≠ [])
    (h : typesOfItems o name place c items = (types, c')) : types ≠ [] := by
  have hlen := length_typesOfItems o name place c items
  rw [h] at hlen
  rintro rfl
  exact hne (List.length_eq_zero_iff.1 hlen.symm)

/-! ## Rules

What holds of every value of a document is proved along the recursion, with one rule for each of its
cases. The rules speak about a value, its type and the catalogs before and after it, and likewise
about a list of items and a list of members.
-/

/-- The type of a value that needs no place of its own and no declaration. -/
def leafType? (o : Options) : Json → Option TypeExpr
  | .null => some (if o.strictNulls then .null else .any)
  | .bool _ => some .boolean
  | .number _ => some .number
  | .string _ => some .string
  | .array [] => some (.array .any)
  | .other => some .any
  | _ => none

theorem typeAt_of_leafType? {o : Options} {v : Json} {t : TypeExpr} (h : leafType? o v = some t)
    (name : String) (place : Int) (c : Catalog) : typeAt o name place c v = (t, c) := by
  cases v with
  | null | bool | number | string | other => cases h; rfl
  | array items =>
    cases items with
    | nil => cases h; rfl
    | cons => cases h
  | object => cases h

theorem typeAt_of_enumValues? {o : Options} {items : List Json} {values : List Text}
    (hne : items ≠ []) (h : enumValues? o items = some values) (name : String) (place : Int)
    (c : Catalog) : typeAt o name place c (.array items) =
      let found := c.addEnum place (Text.typeName (name ++ "Enum")) values
      (.array (.atom found.1), found.2) := by
  obtain ⟨item, rest, rfl⟩ := List.exists_cons_of_ne_nil hne
  simp only [typeAt, h]

theorem typeAt_array {o : Options} {items : List Json} (hne : items ≠ [])
    (h : enumValues? o items = none) (name : String) (place : Int) (c : Catalog) :
    typeAt o name place c (.array items) =
      let below := c.place place .item
      let found := typesOfItems o (name ++ "Item") below.1 below.2 items
      (.ofItems found.1, found.2) := by
  obtain ⟨item, rest, rfl⟩ := List.exists_cons_of_ne_nil hne
  simp only [typeAt, h]

/-- A leaf has a built-in type, or it is an array of one. -/
theorem builtin_of_leafType? {o : Options} {v : Json} {t : TypeExpr}
    (h : leafType? o v = some t) :
    ∃ name ∈ TypeExpr.builtins, t = .atom name ∨ t = .array (.atom name) := by
  cases v with
  | null =>
    cases h
    by_cases ho : o.strictNulls
    · exact ⟨"null", by decide, Or.inl (if_pos ho)⟩
    · exact ⟨"any", by decide, Or.inl (if_neg ho)⟩
  | bool => cases h; exact ⟨"boolean", by decide, Or.inl rfl⟩
  | number => cases h; exact ⟨"number", by decide, Or.inl rfl⟩
  | string => cases h; exact ⟨"string", by decide, Or.inl rfl⟩
  | array items =>
    cases items with
    | nil => cases h; exact ⟨"any", by decide, Or.inr rfl⟩
    | cons => cases h
  | object => cases h
  | other => cases h; exact ⟨"any", by decide, Or.inl rfl⟩

/-- One rule for each case of the recursion. A rule may use what the walks inside come to. -/
structure Rules (o : Options)
    (Value : String → Int → Catalog → Json → TypeExpr → Catalog → Prop)
    (Items : String → Int → Catalog → List Json → List TypeExpr → Catalog → Prop)
    (Members : String → Int → Catalog → List (Text × Json) → List (Text × TypeExpr) → Catalog →
      Prop) : Prop where
  leaf {name place c v t} (ht : leafType? o v = some t) : Value name place c v t c
  strings {name place c items values} (hne : items ≠ []) (hv : enumValues? o items = some values) :
    let found := c.addEnum place (Text.typeName (name ++ "Enum")) values
    Value name place c (.array items) (.array (.atom found.1)) found.2
  array {name place c items types c'} (hne : items ≠ []) (hv : enumValues? o items = none)
    (hitems : typesOfItems o (name ++ "Item") (c.place place .item).1 (c.place place .item).2
      items = (types, c'))
    (ih : Items (name ++ "Item") (c.place place .item).1 (c.place place .item).2 items types c') :
    Value name place c (.array items) (.ofItems types) c'
  object {name place c members properties c'}
    (hmembers : typesOfMembers o (c.openInterface place (Text.typeName name)).1 place
      (c.openInterface place (Text.typeName name)).2 members = (properties, c'))
    (ih : Members (c.openInterface place (Text.typeName name)).1 place
      (c.openInterface place (Text.typeName name)).2 members properties c') :
    let interface := (c.openInterface place (Text.typeName name)).1
    Value name place c (.object members) (.atom interface)
      (c'.setProperties interface (Table.ofList properties))
  noItems {name place c} : Items name place c [] [] c
  item {name place c v rest t types c₁ c₂} (hv : typeAt o name place c v = (t, c₁))
    (hrest : typesOfItems o name place c₁ rest = (types, c₂)) (ihv : Value name place c v t c₁)
    (ihrest : Items name place c₁ rest types c₂) :
    Items name place c (v :: rest) (t :: types) c₂
  noMembers {interface place c} : Members interface place c [] [] c
  member {interface place c key v rest t properties c₁ c₂}
    (hv : typeAt o (memberName o interface key) (c.place place (.member key)).1
      (c.place place (.member key)).2 v = (t, c₁))
    (hrest : typesOfMembers o interface place c₁ rest = (properties, c₂))
    (ihv : Value (memberName o interface key) (c.place place (.member key)).1
      (c.place place (.member key)).2 v t c₁)
    (ihrest : Members interface place c₁ rest properties c₂) :
    Members interface place c ((key, v) :: rest) ((key, t) :: properties) c₂

section

variable {o : Options} {Value : String → Int → Catalog → Json → TypeExpr → Catalog → Prop}
  {Items : String → Int → Catalog → List Json → List TypeExpr → Catalog → Prop}
  {Members : String → Int → Catalog → List (Text × Json) → List (Text × TypeExpr) → Catalog → Prop}

mutual

theorem Rules.value (r : Rules o Value Items Members) (name : String) (place : Int) (c : Catalog)
    (v : Json) : Value name place c v (typeAt o name place c v).1 (typeAt o name place c v).2 := by
  match v with
  | .null | .bool _ | .number _ | .string _ | .array [] | .other => exact r.leaf rfl
  | .array (item :: rest) =>
    have hne := List.cons_ne_nil item rest
    cases hv : enumValues? o (item :: rest) with
    | some values =>
      rw [typeAt_of_enumValues? hne hv]
      exact r.strings hne hv
    | none =>
      rw [typeAt_array hne hv]
      exact r.array hne hv rfl (r.items _ _ _ (item :: rest))
  | .object members =>
    simp only [Walk.typeAt]
    exact r.object rfl (r.members _ _ _ members)

theorem Rules.items (r : Rules o Value Items Members) (name : String) (place : Int)
    (c : Catalog) (items : List Json) : Items name place c items
      (typesOfItems o name place c items).1 (typesOfItems o name place c items).2 := by
  match items with
  | [] => exact r.noItems
  | item :: rest =>
    simp only [Walk.typesOfItems]
    exact r.item rfl rfl (r.value name place c item) (r.items name place _ rest)

theorem Rules.members (r : Rules o Value Items Members) (interface : String) (place : Int)
    (c : Catalog) (members : List (Text × Json)) : Members interface place c members
      (typesOfMembers o interface place c members).1
      (typesOfMembers o interface place c members).2 := by
  match members with
  | [] => exact r.noMembers
  | (key, v) :: rest =>
    simp only [Walk.typesOfMembers]
    exact r.member rfl rfl (r.value _ _ _ v) (r.members interface place _ rest)

end

variable (r : Rules o Value Items Members) {name interface : String} {place : Int} {c c' : Catalog}

include r

theorem Rules.of_typeAt {v : Json} {t : TypeExpr} (h : typeAt o name place c v = (t, c')) :
    Value name place c v t c' := by
  have hv := r.value name place c v
  rwa [h] at hv

theorem Rules.of_typesOfItems {items : List Json} {types : List TypeExpr}
    (h : typesOfItems o name place c items = (types, c')) : Items name place c items types c' := by
  have hi := r.items name place c items
  rwa [h] at hi

theorem Rules.of_typesOfMembers {members : List (Text × Json)}
    {properties : List (Text × TypeExpr)}
    (h : typesOfMembers o interface place c members = (properties, c')) :
    Members interface place c members properties c' := by
  have hm := r.members interface place c members
  rwa [h] at hm

end

/-! ## What is left of the frames -/

/-- What is left of a frame, said by recursion. -/
def Frame.finish (o : Options) (c : Catalog) : Frame → TypeExpr × Catalog
  | .array _ _ _ [] types => (.ofItems types.reverse, c)
  | .array name place below waiting types =>
    let (below, c) := itemPlace c place below
    let (found, c) := typesOfItems o name below c waiting
    (.ofItems (types.reverse ++ found), c)
  | .object name place keys waiting types =>
    let (found, c) := typesOfMembers o name place c waiting
    (.atom name,
      c.setProperties name (Table.ofList (keys.zip (types.reverse ++ found.map Prod.snd))))

/-- What is left of the frames outside, once the innermost container has its type. -/
def finishAll (o : Options) : TypeExpr × Catalog → List Frame → TypeExpr × Catalog
  | found, [] => found
  | (t, c), frame :: outside => finishAll o ((frame.gather t).finish o c) outside

def Visit.finish (o : Options) : Visit × Catalog → TypeExpr × Catalog
  | (.done t, c) => (t, c)
  | (.opened frame, c) => frame.finish o c

/-- A visit does what the recursion does first. -/
theorem finish_visit (o : Options) (value : Json) (name : String) (place : Int) (c : Catalog) :
    Visit.finish o (visit o ⟨value, name, place⟩ c) = typeAt o name place c value := by
  cases value with
  | null | bool | number | string | other => rfl
  | array items =>
    cases items with
    | nil => rfl
    | cons item rest =>
      cases hv : enumValues? o (item :: rest) with
      | some values => simp only [visit, hv, Visit.finish, typeAt]
      | none =>
        simp only [visit, hv, Visit.finish, Frame.finish, Frame.itemPlace, typeAt,
          List.reverse_nil, List.nil_append]
  | object members =>
    simp only [visit, Visit.finish, Frame.finish, typeAt, List.reverse_nil, List.nil_append]
    rw [← List.zip_of_prod (map_fst_typesOfMembers o _ place _ members) rfl]

/-- A frame that gives a child has the type of that child and what is then left of it before it. -/
theorem finish_of_next? {o : Options} {c c' : Catalog} {frame frame' : Frame} {child : Child}
    (h : frame.next? o c = some (child, frame', c')) :
    frame.finish o c =
      finishAll o (typeAt o child.name child.place c' child.value) [frame'] := by
  cases frame with
  | array name place below waiting types =>
    cases waiting with
    | nil => simp [Frame.next?] at h
    | cons value waiting =>
      simp only [Frame.next?, Option.some.injEq, Prod.mk.injEq] at h
      obtain ⟨rfl, rfl, rfl⟩ := h
      cases waiting <;>
        simp [Frame.finish, finishAll, Frame.gather, typesOfItems, Frame.itemPlace]
  | object name place keys waiting types =>
    cases waiting with
    | nil => simp [Frame.next?] at h
    | cons member waiting =>
      obtain ⟨key, value⟩ := member
      simp only [Frame.next?, Option.some.injEq, Prod.mk.injEq] at h
      obtain ⟨rfl, rfl, rfl⟩ := h
      simp [Frame.finish, finishAll, Frame.gather, typesOfMembers]

/-- A frame that gives no child is closed. -/
theorem finish_of_next?_eq_none {o : Options} {c : Catalog} {frame : Frame}
    (h : frame.next? o c = none) : frame.finish o c = frame.close c := by
  cases frame with
  | array name place below waiting types =>
    cases waiting with
    | nil => rfl
    | cons => simp [Frame.next?] at h
  | object name place keys waiting types =>
    cases waiting with
    | nil => simp [Frame.finish, Frame.close, typesOfMembers]
    | cons => simp [Frame.next?] at h

/-! ## The simulation -/

def Turn.finish (o : Options) : Turn → TypeExpr × Catalog
  | .walking frame outside c => finishAll o (frame.finish o c) outside
  | .finished t c => (t, c)

/-- **The step.** A turn does not change what is left. -/
theorem finish_turn (o : Options) (frame : Frame) (outside : List Frame) (c : Catalog) :
    (turn o frame outside c).finish o = finishAll o (frame.finish o c) outside := by
  unfold turn
  cases hn : frame.next? o c with
  | some next =>
    obtain ⟨child, frame', c'⟩ := next
    have hv := finish_visit o child.value child.name child.place c'
    rw [finish_of_next? hn]
    simp only
    cases h : visit o child c' with
    | mk found c'' =>
      rw [h] at hv
      cases found with
      | done t => rw [← hv]; rfl
      | opened inner => rw [← hv]; rfl
  | none =>
    rw [finish_of_next?_eq_none hn]
    cases outside <;> rfl

/-- **The run.** The loop ends with what was left of its frames. -/
theorem run_eq_finishAll (o : Options) (frame : Frame) (outside : List Frame) (c : Catalog) :
    run o frame outside c = finishAll o (frame.finish o c) outside := by
  fun_induction run o frame outside c with
  | case1 frame outside c t c' h => rw [← finish_turn, h]; rfl
  | case2 frame outside c frame' outside' c' h ih => rw [ih, ← finish_turn o frame, h]; rfl

theorem typeOf_eq_typeAt (o : Options) (value : Json) (name : String) (c : Catalog) :
    typeOf o value name c = typeAt o name rootPlace c value := by
  rw [← finish_visit]
  unfold typeOf
  cases h : visit o ⟨value, name, rootPlace⟩ c with
  | mk found c' =>
    cases found with
    | done t => rfl
    | opened frame => exact run_eq_finishAll o frame [] c'

/-! ## The number of turns -/

/-- The walk before its first turn. -/
def start (o : Options) (value : Json) (name : String) (c : Catalog) : Turn :=
  match visit o ⟨value, name, rootPlace⟩ c with
  | (.done t, c) => .finished t c
  | (.opened frame, c) => .walking frame [] c

/-- The walk some turns later. A finished walk stays as it is. -/
def Turn.after (o : Options) : Nat → Turn → Turn
  | 0, t => t
  | n + 1, .walking frame outside c => Turn.after o n (turn o frame outside c)
  | _ + 1, .finished t c => .finished t c

/-- The walk is finished after as many turns as its frames have pending. -/
theorem exists_after_eq_finished (o : Options) (frame : Frame) (outside : List Frame)
    (c : Catalog) : ∃ n ≤ pending (frame :: outside),
      Turn.after o n (.walking frame outside c) =
        .finished (run o frame outside c).1 (run o frame outside c).2 := by
  fun_induction run o frame outside c with
  | case1 frame outside c t c' h =>
    refine ⟨1, ?_, ?_⟩
    · have := frame.pending_pos
      rw [pending]
      omega
    · simp only [Turn.after, h]
  | case2 frame outside c frame' outside' c' h ih =>
    obtain ⟨n, hn, ih⟩ := ih
    have := pending_of_turn h
    exact ⟨n + 1, by omega, by simp only [Turn.after, h, ih]⟩

/-- **The walk is the recursion.** From every catalog on, the walk through a document ends after at
most two turns for every value of it. Its type and the catalog that it leaves are those of the
recursion. -/
theorem walk_eq_recursion (o : Options) (value : Json) (name : String) (c : Catalog) :
    (∃ n ≤ 2 * value.size, (start o value name c).after o n =
      .finished (typeAt o name rootPlace c value).1 (typeAt o name rootPlace c value).2) ∧
    typeOf o value name c = typeAt o name rootPlace c value := by
  refine ⟨?_, typeOf_eq_typeAt o value name c⟩
  rw [← typeOf_eq_typeAt]
  unfold start typeOf
  cases h : visit o ⟨value, name, rootPlace⟩ c with
  | mk found c' =>
    cases found with
    | done t => exact ⟨0, Nat.zero_le _, rfl⟩
    | opened frame =>
      obtain ⟨n, hn, hrun⟩ := exists_after_eq_finished o frame [] c'
      have hlt : frame.pending < 2 * value.size := pending_of_visit h
      rw [pending, pending] at hn
      exact ⟨n, by omega, hrun⟩

end TypeSketch.Walk
