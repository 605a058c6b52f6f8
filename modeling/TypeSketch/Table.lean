/-!
# Tables in order of arrival

A table holds pairs of a key and a value. Every key stands once, and the keys keep the order in
which they first came. Putting a value at a key that is there replaces the value and keeps the
place; putting it at a new key appends.

**Theorem** (`keys_put`). Putting at a key leaves the keys alone if the key is there, and appends
it otherwise.

**Theorem** (`find?_put`). After putting a value at a key, the table gives that value there, and at
every other key what it gave before.
-/

namespace TypeSketch

universe u v

/-- Pairs of a key and a value, every key once, in the order in which the keys first came. -/
structure Table (α : Type u) (β : Type v) where
  entries : List (α × β)
  nodup : (entries.map Prod.fst).Nodup

namespace Table

variable {α : Type u} {β : Type v}

def empty : Table α β := ⟨[], List.nodup_nil⟩

instance : EmptyCollection (Table α β) := ⟨empty⟩

instance : Inhabited (Table α β) := ⟨empty⟩

def keys (t : Table α β) : List α := t.entries.map Prod.fst

/-- The values, in the order of their keys. -/
def values (t : Table α β) : List β := t.entries.map Prod.snd

@[simp] theorem keys_empty : (∅ : Table α β).keys = [] := rfl

@[ext] theorem ext {s t : Table α β} (h : s.entries = t.entries) : s = t := by
  cases s; cases t; cases h; rfl

instance [DecidableEq α] [DecidableEq β] : DecidableEq (Table α β) := fun s t =>
  decidable_of_iff (s.entries = t.entries) ⟨Table.ext, fun h => h ▸ rfl⟩

variable [DecidableEq α]

/-! ## Pairs in a list -/

/-- The pairs with `v` at `k`: in its place if `k` is there, else at the end. -/
def putPair (k : α) (v : β) : List (α × β) → List (α × β)
  | [] => [(k, v)]
  | (k', v') :: rest => if k' = k then (k, v) :: rest else (k', v') :: putPair k v rest

/-- The value of the first pair with key `k`. -/
def findPair (k : α) : List (α × β) → Option β
  | [] => none
  | (k', v) :: rest => if k' = k then some v else findPair k rest

theorem map_fst_putPair (k : α) (v : β) (l : List (α × β)) :
    (putPair k v l).map Prod.fst =
      if k ∈ l.map Prod.fst then l.map Prod.fst else l.map Prod.fst ++ [k] := by
  induction l with
  | nil => simp [putPair]
  | cons e rest ih =>
    obtain ⟨k', v'⟩ := e
    by_cases h : k' = k
    · simp [putPair, h]
    · have h' : k ≠ k' := fun e => h e.symm
      simp only [putPair, h, ↓reduceIte, List.map_cons, ih, List.mem_cons, h', false_or]
      split <;> simp

theorem nodup_map_fst_putPair {k : α} {v : β} {l : List (α × β)}
    (h : (l.map Prod.fst).Nodup) : ((putPair k v l).map Prod.fst).Nodup := by
  rw [map_fst_putPair]
  split
  · exact h
  · next hk =>
    rw [List.nodup_append]
    exact ⟨h, by simp, fun a ha b hb e => by simp_all⟩

theorem findPair_putPair (k k' : α) (v : β) (l : List (α × β)) :
    findPair k' (putPair k v l) = if k' = k then some v else findPair k' l := by
  induction l with
  | nil => by_cases h : k = k' <;> simp [putPair, findPair, h, eq_comm]
  | cons e rest ih =>
    obtain ⟨a, b⟩ := e
    by_cases h : a = k <;> by_cases h' : k' = k <;> simp [putPair, findPair, h, h', ih] <;> grind

theorem findPair_append (k : α) (l l' : List (α × β)) :
    findPair k (l ++ l') = (findPair k l).or (findPair k l') := by
  induction l with
  | nil => rfl
  | cons e rest ih =>
    obtain ⟨a, b⟩ := e
    by_cases h : a = k
    · simp [findPair, h]
    · simp [findPair, h, ih]

theorem findPair_isSome (k : α) (l : List (α × β)) :
    (findPair k l).isSome = true ↔ k ∈ l.map Prod.fst := by
  induction l with
  | nil => simp [findPair]
  | cons e rest ih =>
    obtain ⟨a, b⟩ := e
    by_cases h : a = k
    · simp [findPair, h]
    · have h' : k ≠ a := fun e => h e.symm
      simp only [findPair, h, ↓reduceIte, ih, List.map_cons, List.mem_cons, h', false_or]

/-! ## Operations -/

def find? (t : Table α β) (k : α) : Option β := findPair k t.entries

def contains (t : Table α β) (k : α) : Bool := (t.find? k).isSome

def put (t : Table α β) (k : α) (v : β) : Table α β :=
  ⟨putPair k v t.entries, nodup_map_fst_putPair t.nodup⟩

/-- The table with `v` at `k`, unless `k` is there already. -/
def putNew (t : Table α β) (k : α) (v : β) : Table α β :=
  if t.contains k then t else t.put k v

/-- The table of a list of pairs: of coinciding keys the first place and the last value stand. -/
def ofList (l : List (α × β)) : Table α β := l.foldl (fun t e => t.put e.1 e.2) empty

@[simp] theorem find?_put (t : Table α β) (k k' : α) (v : β) :
    (t.put k v).find? k' = if k' = k then some v else t.find? k' :=
  findPair_putPair k k' v t.entries

theorem keys_put (t : Table α β) (k : α) (v : β) :
    (t.put k v).keys = if k ∈ t.keys then t.keys else t.keys ++ [k] :=
  map_fst_putPair k v t.entries

theorem contains_iff (t : Table α β) (k : α) : t.contains k = true ↔ k ∈ t.keys :=
  findPair_isSome k t.entries

@[simp] theorem find?_empty (k : α) : (∅ : Table α β).find? k = none := rfl

theorem find?_eq_none_iff (t : Table α β) (k : α) : t.find? k = none ↔ k ∉ t.keys := by
  rw [← contains_iff, contains, Bool.not_eq_true, Option.isSome_eq_false_iff,
    Option.isNone_iff_eq_none]

/-- A table that goes on where another ends gives what that one gave. -/
theorem find?_of_prefix {s t : Table α β} {k : α} {v : β} (h : s.entries <+: t.entries)
    (hk : s.find? k = some v) : t.find? k = some v := by
  obtain ⟨rest, hrest⟩ := h
  rw [find?, ← hrest, findPair_append, show findPair k s.entries = some v from hk, Option.some_or]

theorem mem_of_find? {t : Table α β} {k : α} {v : β} (h : t.find? k = some v) :
    (k, v) ∈ t.entries := by
  have key (l : List (α × β)) (hl : findPair k l = some v) : (k, v) ∈ l := by
    induction l with
    | nil => cases hl
    | cons e rest ih =>
      obtain ⟨a, b⟩ := e
      by_cases ha : a = k
      · simp only [findPair, ha, ↓reduceIte, Option.some.injEq] at hl
        exact ha ▸ hl ▸ List.mem_cons_self
      · simp only [findPair, ha, ↓reduceIte] at hl
        exact List.mem_cons_of_mem _ (ih hl)
  exact key t.entries h

/-- A table with a single key has the value at that key. -/
theorem values_of_keys {t : Table α β} {k : α} {v : β} (hkeys : t.keys = [k])
    (hv : t.find? k = some v) : t.values = [v] := by
  obtain ⟨entries, hnodup⟩ := t
  obtain ⟨e, rfl, rfl⟩ := List.map_eq_singleton_iff.1 hkeys
  have hfound : some e.2 = some v := (if_pos rfl).symm.trans hv
  exact congrArg (fun v => [v]) (Option.some.inj hfound)

theorem putNew_of_mem {t : Table α β} {k : α} (h : k ∈ t.keys) (v : β) : t.putNew k v = t := by
  rw [putNew, if_pos ((t.contains_iff k).2 h)]

theorem putNew_of_not_mem {t : Table α β} {k : α} (h : k ∉ t.keys) (v : β) :
    t.putNew k v = t.put k v := by
  rw [putNew, if_neg (fun hc => h ((t.contains_iff k).1 hc))]

theorem find?_putNew_of_ne {t : Table α β} {k k' : α} (h : k' ≠ k) (v : β) :
    (t.putNew k v).find? k' = t.find? k' := by
  unfold putNew
  split
  · rfl
  · rw [find?_put, if_neg h]

theorem keys_putNew (t : Table α β) (k : α) (v : β) :
    (t.putNew k v).keys = if k ∈ t.keys then t.keys else t.keys ++ [k] := by
  by_cases h : k ∈ t.keys
  · rw [putNew_of_mem h, if_pos h]
  · rw [putNew_of_not_mem h, keys_put]

theorem mem_keys_put {t : Table α β} {k k' : α} {v : β} :
    k' ∈ (t.put k v).keys ↔ k' ∈ t.keys ∨ k' = k := by
  rw [keys_put]
  split
  · next hk => exact ⟨Or.inl, fun h => h.elim id fun he => he ▸ hk⟩
  · rw [List.mem_append, List.mem_singleton]

theorem mem_keys_putNew {t : Table α β} {k k' : α} {v : β} :
    k' ∈ (t.putNew k v).keys ↔ k' ∈ t.keys ∨ k' = k := by
  rw [keys_putNew, ← keys_put t k v, mem_keys_put]

theorem keys_prefix_put (t : Table α β) (k : α) (v : β) : t.keys <+: (t.put k v).keys := by
  rw [keys_put]
  split
  · exact List.prefix_refl _
  · exact List.prefix_append _ _

theorem keys_prefix_putNew (t : Table α β) (k : α) (v : β) : t.keys <+: (t.putNew k v).keys := by
  by_cases h : k ∈ t.keys
  · exact (putNew_of_mem h v).symm ▸ List.prefix_refl t.keys
  · rw [putNew_of_not_mem h]
    exact t.keys_prefix_put k v

/-- Nothing is made up when a value is put. -/
theorem mem_of_mem_put {t : Table α β} {k : α} {v : β} {e : α × β}
    (h : e ∈ (t.put k v).entries) : e = (k, v) ∨ e ∈ t.entries := by
  have key (l : List (α × β)) (hl : e ∈ putPair k v l) : e = (k, v) ∨ e ∈ l := by
    induction l with
    | nil => exact Or.inl (List.mem_singleton.1 hl)
    | cons e' rest ih =>
      obtain ⟨a, b⟩ := e'
      unfold putPair at hl
      split at hl
      · rcases List.mem_cons.1 hl with h | h
        · exact Or.inl h
        · exact Or.inr (List.mem_cons_of_mem _ h)
      · rcases List.mem_cons.1 hl with h | h
        · exact Or.inr (h ▸ List.mem_cons_self)
        · exact (ih h).imp_right (List.mem_cons_of_mem _)
  exact key t.entries h

theorem mem_of_mem_putNew {t : Table α β} {k : α} {v : β} {e : α × β}
    (h : e ∈ (t.putNew k v).entries) : e = (k, v) ∨ e ∈ t.entries := by
  unfold putNew at h
  split at h
  · exact Or.inr h
  · exact mem_of_mem_put h

theorem mem_of_mem_ofList {l : List (α × β)} {e : α × β} (h : e ∈ (ofList l).entries) :
    e ∈ l := by
  have key (l : List (α × β)) (t : Table α β)
      (ht : e ∈ (l.foldl (fun t e => t.put e.1 e.2) t).entries) : e ∈ l ∨ e ∈ t.entries := by
    induction l generalizing t with
    | nil => exact Or.inr ht
    | cons e' rest ih =>
      rcases ih _ ht with h | h
      · exact Or.inl (List.mem_cons_of_mem _ h)
      · rcases mem_of_mem_put h with h | h
        · exact Or.inl (h ▸ List.mem_cons_self)
        · exact Or.inr h
  exact (key l empty h).resolve_right List.not_mem_nil

/-- Putting the value that a key has changes nothing. -/
theorem put_eq_self {t : Table α β} {k : α} {v : β} (h : t.find? k = some v) : t.put k v = t := by
  have key (l : List (α × β)) (hl : findPair k l = some v) : putPair k v l = l := by
    induction l with
    | nil => simp [findPair] at hl
    | cons e rest ih =>
      obtain ⟨a, b⟩ := e
      by_cases ha : a = k
      · simp_all [findPair, putPair]
      · simp only [findPair, ha, ↓reduceIte] at hl
        simp only [putPair, ha, ↓reduceIte, ih hl]
  exact Table.ext (key t.entries h)

/-- Of the pairs with one key the last one stands. -/
theorem find?_ofList {before after : List (α × β)} {k : α} {v : β}
    (h : k ∉ after.map Prod.fst) : (ofList (before ++ (k, v) :: after)).find? k = some v := by
  have key (t : Table α β) (l : List (α × β)) (hl : k ∉ l.map Prod.fst) :
      (l.foldl (fun t e => t.put e.1 e.2) t).find? k = t.find? k := by
    induction l generalizing t with
    | nil => rfl
    | cons e rest ih =>
      simp only [List.map_cons, List.mem_cons, not_or] at hl
      rw [List.foldl_cons, ih _ hl.2, find?_put, if_neg hl.1]
  rw [ofList, List.foldl_append, List.foldl_cons, key _ _ h, find?_put, if_pos rfl]

/-- A new key goes to the end. -/
theorem entries_put_of_not_mem {t : Table α β} {k : α} (h : k ∉ t.keys) (v : β) :
    (t.put k v).entries = t.entries ++ [(k, v)] := by
  have key (l : List (α × β)) (hl : k ∉ l.map Prod.fst) : putPair k v l = l ++ [(k, v)] := by
    induction l with
    | nil => rfl
    | cons e rest ih =>
      obtain ⟨a, b⟩ := e
      simp only [List.map_cons, List.mem_cons, not_or] at hl
      have ha : a ≠ k := fun e => hl.1 e.symm
      simp only [putPair, ha, ↓reduceIte, ih hl.2, List.cons_append]
  exact key t.entries h

end Table

end TypeSketch
