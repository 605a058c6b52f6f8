import TypeSketch.Proofs.Recursion

/-!
# Frames lose no type

A container is walked in a frame that gives its children one by one and gathers their types. When it
is closed, the keys of an object are put together with the types by position, and a type that was
lost would move all later ones to the wrong key.

**Theorem** (`frames_complete`). Whenever the walk is between two turns, the innermost frame has one
type for each child that it has given. Every other frame has given one child more, which is the
container of the frame directly inside it. So a frame is closed with one type for each child of its
container (`Closes`), and the keys of an object lose no type and get none that is not theirs.

How a frame stands is said by the recursion (`Partway`): the types that it has gathered are those
that the recursion finds for the children given so far, and the catalog is the one that it leaves.
This also tells which type belongs to which key. The frames outside are a chain of such calls, each
waiting for the type of the next one (`Nested`).
-/

namespace TypeSketch.Walk

variable {o : Options}

/-! ## One more child -/

theorem length_eq_of_typesOfItems {name : String} {place : Int} {c c₁ : Catalog}
    {items : List Json} {types : List TypeExpr}
    (h : typesOfItems o name place c items = (types, c₁)) : types.length = items.length := by
  have hlen := length_typesOfItems o name place c items
  rwa [h] at hlen

theorem map_fst_eq_of_typesOfMembers {interface : String} {place : Int} {c c₁ : Catalog}
    {members : List (Text × Json)} {properties : List (Text × TypeExpr)}
    (h : typesOfMembers o interface place c members = (properties, c₁)) :
    properties.map Prod.fst = members.map Prod.fst := by
  have hkeys := map_fst_typesOfMembers o interface place c members
  rwa [h] at hkeys

theorem typesOfItems_concat {name : String} {place : Int} {c c₁ c₂ : Catalog} {items : List Json}
    {types : List TypeExpr} {v : Json} {t : TypeExpr}
    (hitems : typesOfItems o name place c items = (types, c₁))
    (hv : typeAt o name place c₁ v = (t, c₂)) :
    typesOfItems o name place c (items ++ [v]) = (types ++ [t], c₂) := by
  induction items generalizing c types with
  | nil =>
    obtain ⟨rfl, rfl⟩ := Prod.mk.inj hitems
    simp only [List.nil_append, typesOfItems, hv]
  | cons item items ih =>
    simp only [typesOfItems, Prod.mk.injEq] at hitems
    obtain ⟨rfl, hc⟩ := hitems
    simp only [List.cons_append, typesOfItems, ih (Prod.ext rfl hc)]

theorem typesOfMembers_concat {interface : String} {place : Int} {c c₁ c₂ : Catalog}
    {members : List (Text × Json)} {properties : List (Text × TypeExpr)} {key : Text} {v : Json}
    {t : TypeExpr} (hmembers : typesOfMembers o interface place c members = (properties, c₁))
    (hv : typeAt o (memberName o interface key) (c₁.place place (.member key)).1
      (c₁.place place (.member key)).2 v = (t, c₂)) :
    typesOfMembers o interface place c (members ++ [(key, v)]) =
      (properties ++ [(key, t)], c₂) := by
  induction members generalizing c properties with
  | nil =>
    obtain ⟨rfl, rfl⟩ := Prod.mk.inj hmembers
    simp only [List.nil_append, typesOfMembers, hv]
  | cons member members ih =>
    obtain ⟨key', v'⟩ := member
    simp only [typesOfMembers, Prod.mk.injEq] at hmembers
    obtain ⟨rfl, hc⟩ := hmembers
    simp only [List.cons_append, typesOfMembers, ih (Prod.ext rfl hc)]

/-! ## A frame in the middle of its container -/

/-- The types that a frame has gathered, in the order in which they came. -/
def Frame.gathered : Frame → List TypeExpr
  | .array _ _ _ _ types => types.reverse
  | .object _ _ _ _ types => types.reverse

/-- A frame walks a container: it has given the first of its children, and the others wait. The
frame of an object has the keys of all members. -/
inductive Frame.Walks : Frame → Json → List Json → Prop
  | array (name : String) (place : Int) (below : Option Int) (given waiting : List Json)
      (types : List TypeExpr) :
      Walks (.array name place below waiting types) (.array (given ++ waiting)) given
  | object (name : String) (place : Int) (given waiting : List (Text × Json))
      (types : List TypeExpr) :
      Walks (.object name place ((given ++ waiting).map Prod.fst) waiting types)
        (.object (given ++ waiting)) (given.map Prod.snd)

/-- What a frame does when it gives a child: the first value that waits leaves it, and the place of
that value is entered. -/
inductive Frame.Gives (o : Options) (c : Catalog) : Frame → Child → Frame → Catalog → Prop
  | item {name : String} {place : Int} {below : Option Int} {v : Json} {waiting : List Json}
      {types : List TypeExpr} :
      Gives o c (.array name place below (v :: waiting) types)
        ⟨v, name, (itemPlace c place below).1⟩
        (.array name place (some (itemPlace c place below).1) waiting types)
        (itemPlace c place below).2
  | member {name : String} {place : Int} {keys : List Text} {key : Text} {v : Json}
      {waiting : List (Text × Json)} {types : List TypeExpr} :
      Gives o c (.object name place keys ((key, v) :: waiting) types)
        ⟨v, memberName o name key, (c.place place (.member key)).1⟩
        (.object name place keys waiting types) (c.place place (.member key)).2

theorem Frame.gives_of_next? {frame frame' : Frame} {inner : Child} {c c' : Catalog}
    (h : frame.next? o c = some (inner, frame', c')) : frame.Gives o c inner frame' c' := by
  unfold next? at h
  split at h <;> simp only [Option.some.injEq, Prod.mk.injEq, reduceCtorEq] at h
  · obtain ⟨rfl, rfl, rfl⟩ := h
    exact .item
  · obtain ⟨rfl, rfl, rfl⟩ := h
    exact .member

/-- How a frame and the catalog stand when the container of a child has given some values and
gathered their types, from the catalog on with which the child was visited. -/
inductive Partway (o : Options) (child : Child) (c : Catalog) :
    List Json → Frame → Catalog → Prop
  /-- An array has no place for its items yet. -/
  | opened {items : List Json} (hv : child.value = .array items) (hne : items ≠ [])
      (hstrings : enumValues? o items = none) :
      Partway o child c [] (.array (child.name ++ "Item") child.place none items []) c
  | array {given waiting : List Json} {types : List TypeExpr} {c' : Catalog}
      (hv : child.value = .array (given ++ waiting)) (hne : given ≠ [])
      (hstrings : enumValues? o (given ++ waiting) = none)
      (htypes : typesOfItems o (child.name ++ "Item") (c.place child.place .item).1
        (c.place child.place .item).2 given = (types, c')) :
      Partway o child c given (.array (child.name ++ "Item") child.place
        (some (c.place child.place .item).1) waiting types.reverse) c'
  | object {given waiting : List (Text × Json)} {properties : List (Text × TypeExpr)}
      {c' : Catalog} (hv : child.value = .object (given ++ waiting))
      (htypes : typesOfMembers o (c.openInterface child.place (Text.typeName child.name)).1
        child.place (c.openInterface child.place (Text.typeName child.name)).2 given =
          (properties, c')) :
      Partway o child c (given.map Prod.snd)
        (.object (c.openInterface child.place (Text.typeName child.name)).1 child.place
          ((given ++ waiting).map Prod.fst) waiting (properties.map Prod.snd).reverse) c'

section

variable {child inner : Child} {c c₁ c₂ c₃ : Catalog} {given : List Json} {frame frame' : Frame}
  {t : TypeExpr}

theorem Partway.walks (h : Partway o child c given frame c₁) : frame.Walks child.value given := by
  cases h with
  | opened hv => rw [hv]; exact .array _ _ none [] _ []
  | array hv => rw [hv]; exact .array _ _ _ given _ _
  | object hv => rw [hv]; exact .object _ _ _ _ _

theorem Partway.length_gathered (h : Partway o child c given frame c₁) :
    frame.gathered.length = given.length := by
  cases h with
  | opened => rfl
  | @array _ _ types _ _ _ _ htypes =>
    rw [Frame.gathered, List.reverse_reverse, length_eq_of_typesOfItems htypes]
  | @object members _ properties _ _ htypes =>
    have hlen := congrArg List.length (map_fst_eq_of_typesOfMembers htypes)
    rw [List.length_map, List.length_map] at hlen
    rw [Frame.gathered, List.reverse_reverse, List.length_map, List.length_map, hlen]

theorem partway_of_visit (h : visit o child c = (.opened frame, c₁)) :
    Partway o child c [] frame c₁ := by
  unfold visit at h
  split at h <;> try (simp at h; done)
  · split at h
    · simp at h
    · next items hne hv _ hstrings =>
      simp only [Prod.mk.injEq, Visit.opened.injEq] at h
      obtain ⟨rfl, rfl⟩ := h
      exact .opened hv hne hstrings
  · next members hv =>
    simp only [Prod.mk.injEq, Visit.opened.injEq] at h
    obtain ⟨rfl, rfl⟩ := h
    have hnone : Partway o child c (([] : List (Text × Json)).map Prod.snd) _ _ :=
      .object hv rfl
    exact hnone

/-- A frame that gives its next child and gathers its type. -/
theorem Partway.gather (h : Partway o child c given frame c₁)
    (hn : frame.next? o c₁ = some (inner, frame', c₂))
    (ht : typeAt o inner.name inner.place c₂ inner.value = (t, c₃)) :
    Partway o child c (given ++ [inner.value]) (frame'.gather t) c₃ := by
  have hgives := Frame.gives_of_next? hn
  cases h with
  | opened hv hne hstrings =>
    cases hgives with
    | @item _ _ _ v =>
      have htypes : typesOfItems o (child.name ++ "Item") (c.place child.place .item).1
          (c.place child.place .item).2 ([] ++ [v]) = ([] ++ [t], c₃) :=
        typesOfItems_concat rfl ht
      exact .array hv (List.cons_ne_nil v []) hstrings htypes
  | array hv hne hstrings htypes =>
    cases hgives with
    | item =>
      rw [List.append_cons] at hv hstrings
      have hmore := Partway.array hv (by simp) hstrings (typesOfItems_concat htypes ht)
      rw [List.reverse_append] at hmore
      exact hmore
  | @object members _ properties _ hv htypes =>
    cases hgives with
    | @member _ _ _ key v =>
      rw [List.append_cons] at hv
      have hmore := Partway.object hv (typesOfMembers_concat htypes ht)
      have hgiven : (members ++ [(key, v)]).map Prod.snd = members.map Prod.snd ++ [v] :=
        List.map_append
      have hgathered : ((properties ++ [(key, t)]).map Prod.snd).reverse =
          t :: (properties.map Prod.snd).reverse := by
        rw [List.map_append, List.reverse_append]
        rfl
      rw [hgiven, hgathered, ← List.append_cons] at hmore
      exact hmore

end

/-! ## A frame that is closed -/

/-- A frame that is about to be closed has one type for each child of its container, at least one
for an array. The keys of an object and its types are equally many, so that neither are cut off, and
each key is put together with the type that the recursion finds for the member of that key. -/
inductive Closes (o : Options) (child : Child) (c : Catalog) : Frame → Catalog → Prop
  | array {items : List Json} {types : List TypeExpr} {below : Option Int} {c' : Catalog}
      (hv : child.value = .array items) (hstrings : enumValues? o items = none)
      (hne : types ≠ []) (hlen : types.length = items.length)
      (htypes : typesOfItems o (child.name ++ "Item") (c.place child.place .item).1
        (c.place child.place .item).2 items = (types.reverse, c')) :
      Closes o child c (.array (child.name ++ "Item") child.place below [] types) c'
  | object {members : List (Text × Json)} {keys : List Text} {types : List TypeExpr}
      {c' : Catalog} (hv : child.value = .object members) (hkeys : keys = members.map Prod.fst)
      (hlen : keys.length = types.length)
      (hfst : (keys.zip types.reverse).map Prod.fst = keys)
      (hsnd : (keys.zip types.reverse).map Prod.snd = types.reverse)
      (htypes : typesOfMembers o (c.openInterface child.place (Text.typeName child.name)).1
        child.place (c.openInterface child.place (Text.typeName child.name)).2 members =
          (keys.zip types.reverse, c')) :
      Closes o child c (.object (c.openInterface child.place (Text.typeName child.name)).1
        child.place keys [] types) c'

section

variable {child inner : Child} {c c₁ c₂ c₃ : Catalog} {given : List Json} {frame frame' : Frame}
  {t : TypeExpr}

/-- A frame that has no child left to give. -/
theorem Partway.closes (h : Partway o child c given frame c₁) (hn : frame.next? o c₁ = none) :
    Closes o child c frame c₁ := by
  cases h with
  | @opened items hv hne =>
    obtain ⟨v, waiting, rfl⟩ := List.exists_cons_of_ne_nil hne
    simp [Frame.next?] at hn
  | @array _ waiting types _ hv hne hstrings htypes =>
    cases waiting with
    | nil =>
      rw [List.append_nil] at hv hstrings
      refine .array hv hstrings (mt List.reverse_eq_nil_iff.1 (types_ne_nil hne htypes)) ?_ ?_
      · rw [List.length_reverse, length_eq_of_typesOfItems htypes]
      · rw [List.reverse_reverse, htypes]
    | cons => simp [Frame.next?] at hn
  | @object members waiting properties _ hv htypes =>
    cases waiting with
    | nil =>
      have hkeys := map_fst_eq_of_typesOfMembers htypes
      have hlen : (members.map Prod.fst).length = (properties.map Prod.snd).length := by
        rw [← hkeys, List.length_map, List.length_map]
      rw [List.append_nil] at hv ⊢
      refine .object hv rfl ?_ ?_ ?_ ?_
      · rw [List.length_reverse, hlen]
      · rw [List.reverse_reverse, List.map_fst_zip (Nat.le_of_eq hlen)]
      · rw [List.reverse_reverse, List.map_snd_zip (Nat.le_of_eq hlen.symm)]
      · rw [List.reverse_reverse, ← List.zip_of_prod hkeys rfl, htypes]
    | cons => simp [Frame.next?] at hn

/-- The type of a frame that is closed is the one that the recursion finds for its container. -/
theorem Closes.typeAt_eq_close (h : Closes o child c frame c₁) :
    typeAt o child.name child.place c child.value = frame.close c₁ := by
  cases h with
  | @array items types below _ hv hstrings hne hlen htypes =>
    have hitems : items ≠ [] := by
      rintro rfl
      exact hne (List.length_eq_zero_iff.1 hlen)
    rw [hv, typeAt_array hitems hstrings]
    simp only [htypes, Frame.close]
  | object hv hkeys hlen hfst hsnd htypes =>
    rw [hv]
    simp only [typeAt, htypes, Frame.close]

/-! ## The frames of a walk -/

/-- A frame walks a container and has given some of its children, and it lacks the types of so many
of them. -/
structure Frame.Lacks (frame : Frame) (missing : Nat) (value : Json) (given : List Json) :
    Prop where
  walks : frame.Walks value given
  count : frame.gathered.length + missing = given.length

theorem Partway.lacks (h : Partway o child c given frame c₁) :
    frame.Lacks 0 child.value given :=
  ⟨h.walks, h.length_gathered⟩

theorem Frame.Walks.next {v : Json} (h : frame.Walks v given)
    (hgives : frame.Gives o c₁ inner frame' c₂) : frame'.Walks v (given ++ [inner.value]) := by
  cases h with
  | array =>
    cases hgives with
    | item =>
      rw [List.append_cons]
      exact .array _ _ _ _ _ _
  | object _ _ members =>
    cases hgives with
    | @member _ _ _ key v =>
      have hmore : (members ++ [(key, v)]).map Prod.snd = members.map Prod.snd ++ [v] :=
        List.map_append
      rw [List.append_cons, ← hmore]
      exact .object _ _ _ _ _

theorem Frame.Gives.gathered (h : frame.Gives o c₁ inner frame' c₂) :
    frame'.gathered = frame.gathered := by
  cases h <;> rfl

/-- A frame that gives its next child lacks the type of that one. -/
theorem Partway.lacks_of_next? (h : Partway o child c given frame c₁)
    (hn : frame.next? o c₁ = some (inner, frame', c₂)) :
    frame'.Lacks 1 child.value (given ++ [inner.value]) where
  walks := h.walks.next (Frame.gives_of_next? hn)
  count := by
    rw [(Frame.gives_of_next? hn).gathered, h.length_gathered, List.length_append]
    rfl

end

/-- The frames outside a container that the walk has come to, with the catalog that it was visited
with. Each frame has given the container of the one directly inside it, and lacks no other type. -/
inductive Nested (o : Options) (root : Child) (c : Catalog) :
    Child → Catalog → List Frame → Prop
  | root : Nested o root c root c []
  | inside {child inner : Child} {c₁ c₂ c₃ : Catalog} {given : List Json} {frame outer : Frame}
      {outside : List Frame} (hout : Nested o root c child c₁ outside)
      (hpart : Partway o child c₁ given frame c₂)
      (hnext : frame.next? o c₂ = some (inner, outer, c₃))
      (hlacks : outer.Lacks 1 child.value (given ++ [inner.value])) :
      Nested o root c inner c₃ (outer :: outside)

/-- How the walk stands between two turns. The innermost frame lacks no type, every frame outside it
lacks one, and the innermost frame is whole when it is about to be closed. -/
inductive Complete (o : Options) (root : Child) (c : Catalog) : Turn → Prop
  | walking {child : Child} {c₁ c₂ : Catalog} {given : List Json} {frame : Frame}
      {outside : List Frame} (hout : Nested o root c child c₁ outside)
      (hpart : Partway o child c₁ given frame c₂) (hlacks : frame.Lacks 0 child.value given)
      (hcloses : frame.next? o c₂ = none → Closes o child c₁ frame c₂) :
      Complete o root c (.walking frame outside c₂)
  | finished {t : TypeExpr} {c₁ : Catalog}
      (htype : typeAt o root.name root.place c root.value = (t, c₁)) :
      Complete o root c (.finished t c₁)

section

variable {root child : Child} {c c₁ c₂ : Catalog} {given : List Json} {frame : Frame}
  {outside : List Frame} {t : TypeExpr}

theorem Nested.complete (hout : Nested o root c child c₁ outside)
    (hpart : Partway o child c₁ given frame c₂) :
    Complete o root c (.walking frame outside c₂) :=
  .walking hout hpart hpart.lacks hpart.closes

/-- The type of a container goes to the frame outside it. -/
theorem Nested.complete_of_typeAt (hout : Nested o root c child c₁ outside)
    (ht : typeAt o child.name child.place c₁ child.value = (t, c₂)) :
    Complete o root c (match outside with
      | [] => .finished t c₂
      | outer :: outside => .walking (outer.gather t) outside c₂) := by
  cases hout with
  | root => exact .finished ht
  | inside hout hpart hnext => exact hout.complete (hpart.gather hnext ht)

/-- **The step.** A type comes in at once, from a visit, or later, from a frame that is closed. -/
theorem Complete.turn (h : Complete o root c (.walking frame outside c₂)) :
    Complete o root c (turn o frame outside c₂) := by
  cases h with
  | @walking child c₁ _ given _ _ hout hpart hlacks hcloses =>
    unfold Walk.turn
    cases hn : frame.next? o c₂ with
    | none =>
      have ht := (hcloses hn).typeAt_eq_close
      have hmore := hout.complete_of_typeAt ht
      cases outside with
      | nil => exact hmore
      | cons => exact hmore
    | some next =>
      obtain ⟨inner, frame', c'⟩ := next
      have hvisit := finish_visit o inner.value inner.name inner.place c'
      -- The frame has given the child and waits for its type, whichever way that one comes.
      have hin := Nested.inside hout hpart hn (hpart.lacks_of_next? hn)
      simp only
      cases h : visit o inner c' with
      | mk found c'' =>
        rw [h] at hvisit
        cases found with
        | done t => exact hin.complete_of_typeAt hvisit.symm
        | opened frame => exact hin.complete (partway_of_visit h)

/-- **The run.** By induction on the turns. -/
theorem Complete.after {t : Turn} (h : Complete o root c t) (n : Nat) :
    Complete o root c (t.after o n) := by
  induction n generalizing t with
  | zero => exact h
  | succ n ih =>
    cases t with
    | walking frame outside c' => exact ih h.turn
    | finished t c' => exact h

end

/-- **Frames lose no type.** After any number of turns of the walk through a document, from every
catalog on, the innermost frame has one type for each child that it has given, and each frame
outside it lacks the type of the container directly inside it and no other. A frame that is about to
be closed has one type for each child of its container. -/
theorem frames_complete (o : Options) (value : Json) (name : String) (c : Catalog) (n : Nat) :
    Complete o ⟨value, name, rootPlace⟩ c ((start o value name c).after o n) := by
  refine Complete.after ?_ n
  have hvisit := finish_visit o value name rootPlace c
  unfold start
  cases h : visit o ⟨value, name, rootPlace⟩ c with
  | mk found c' =>
    rw [h] at hvisit
    cases found with
    | done t => exact .finished hvisit.symm
    | opened frame => exact Nested.root.complete (partway_of_visit h)

-- Inside the array of the second member, before its item is closed.
example : (match (start {} (.object [(.ofString "id", .null),
      (.ofString "rows", .array [.array [.bool true], .null])]) "Data" {}).after {} 4 with
    | .walking frame outside _ => (frame :: outside).map (·.gathered.length)
    | .finished _ _ => []) = [1, 0, 1] := by
  decide +kernel

end TypeSketch.Walk
