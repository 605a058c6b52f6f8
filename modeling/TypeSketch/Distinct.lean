/-!
# Lists without repetition

A list grows by elements that it does not hold yet, so that each stands where it was first seen.
Two elements count as the same when a key agrees on them.
-/

namespace TypeSketch.Distinct

universe u v

variable {α : Type u} {β : Type v} [DecidableEq β]

/-- Appends an element unless one of the same key is there. -/
def add (key : α → β) (xs : List α) (x : α) : List α :=
  if key x ∈ xs.map key then xs else xs ++ [x]

/-- Appends those of the elements that are new, in their order. -/
def addAll (key : α → β) (xs ys : List α) : List α := ys.foldl (add key) xs

/-- The elements of a list, each once, in the order in which they first stand. -/
def ofList (key : α → β) (ys : List α) : List α := addAll key [] ys

theorem nodup_map_add {key : α → β} {xs : List α} {x : α} (h : (xs.map key).Nodup) :
    ((add key xs x).map key).Nodup := by
  unfold add
  split
  · exact h
  · next hx =>
    rw [List.map_append, List.nodup_append]
    refine ⟨h, by simp, fun a ha b hb e => hx ?_⟩
    rw [List.map_singleton, List.mem_singleton] at hb
    exact hb ▸ e ▸ ha

theorem nodup_map_addAll {key : α → β} {xs ys : List α} (h : (xs.map key).Nodup) :
    ((addAll key xs ys).map key).Nodup := by
  induction ys generalizing xs with
  | nil => exact h
  | cons y rest ih => exact ih (nodup_map_add h)

theorem add_of_mem {key : α → β} {xs : List α} {x : α} (h : key x ∈ xs.map key) :
    add key xs x = xs := if_pos h

/-- What is there stays, and stands before what is added. -/
theorem exists_addAll_eq_append (key : α → β) (xs ys : List α) :
    ∃ zs, addAll key xs ys = xs ++ zs := by
  induction ys generalizing xs with
  | nil => exact ⟨[], (List.append_nil xs).symm⟩
  | cons y rest ih =>
    obtain ⟨zs, hz⟩ := ih (add key xs y)
    by_cases hy : key y ∈ xs.map key
    · exact ⟨zs, hz.trans (by rw [add_of_mem hy])⟩
    · refine ⟨y :: zs, hz.trans ?_⟩
      rw [add, if_neg hy, List.append_assoc, List.singleton_append]

/-- Nothing is made up. -/
theorem mem_of_mem_addAll {key : α → β} {xs ys : List α} {z : α} (h : z ∈ addAll key xs ys) :
    z ∈ xs ∨ z ∈ ys := by
  induction ys generalizing xs with
  | nil => exact Or.inl h
  | cons y rest ih =>
    rcases (ih h : z ∈ add key xs y ∨ z ∈ rest) with h | h
    · unfold add at h
      split at h
      · exact Or.inl h
      · rcases List.mem_append.1 h with h | h
        · exact Or.inl h
        · exact Or.inr (List.mem_singleton.1 h ▸ List.mem_cons_self)
    · exact Or.inr (List.mem_cons_of_mem _ h)

theorem mem_map_addAll {key : α → β} {xs ys : List α} {b : β} :
    b ∈ (addAll key xs ys).map key ↔ b ∈ xs.map key ∨ b ∈ ys.map key := by
  induction ys generalizing xs with
  | nil => simp [addAll]
  | cons y rest ih =>
    rw [show addAll key xs (y :: rest) = addAll key (add key xs y) rest from rfl, ih]
    unfold add
    split
    · next hy =>
      rw [List.map_cons, List.mem_cons]
      constructor
      · rintro (h | h)
        · exact Or.inl h
        · exact Or.inr (Or.inr h)
      · rintro (h | rfl | h)
        · exact Or.inl h
        · exact Or.inl hy
        · exact Or.inr h
    · rw [List.map_append, List.mem_append, List.map_singleton, List.mem_singleton, List.map_cons,
        List.mem_cons, or_assoc]

end TypeSketch.Distinct
