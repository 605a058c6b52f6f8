/-!
# Fields

A text cut at every place where a separator stands. There is always one field more than there are
separators.

**Theorem** (`intercalate_fields`). The fields with the separator between them give the text back.

**Theorem** (`fields_intercalate`). Texts that do not hold the separator are given back by the
fields of what they make with the separator between them.
-/

namespace TypeSketch.Text

universe u

variable {α : Type u} [DecidableEq α]

/-- The fields of a text between separators. -/
def fields (sep : α) : List α → List (List α)
  | [] => [[]]
  | c :: rest =>
    if c = sep then [] :: fields sep rest
    else
      match fields sep rest with
      | [] => [[c]]
      | field :: more => (c :: field) :: more

theorem fields_ne_nil (sep : α) (s : List α) : fields sep s ≠ [] := by
  cases s with
  | nil => simp [fields]
  | cons c rest =>
    simp only [fields]
    split
    · simp
    · split <;> simp

theorem intercalate_fields (sep : α) (s : List α) : [sep].intercalate (fields sep s) = s := by
  induction s with
  | nil => rfl
  | cons c rest ih =>
    simp only [fields]
    split
    · next h =>
      subst h
      obtain ⟨f, fs, hf⟩ := List.exists_cons_of_ne_nil (fields_ne_nil c rest)
      rw [hf] at ih ⊢
      rw [List.intercalate_cons_cons, ih]
      rfl
    · split
      · next hf => exact absurd hf (fields_ne_nil sep rest)
      · next field more hf =>
        rw [hf] at ih
        cases more with
        | nil => simpa using ih
        | cons g gs =>
          rw [List.intercalate_cons_cons] at ih ⊢
          simp [← ih]

theorem fields_of_not_mem {sep : α} {s : List α} (h : sep ∉ s) : fields sep s = [s] := by
  induction s with
  | nil => rfl
  | cons c rest ih =>
    rw [List.mem_cons, not_or] at h
    rw [fields, if_neg (Ne.symm h.1), ih h.2]

theorem not_mem_of_mem_fields {sep : α} {s field : List α} (h : field ∈ fields sep s) :
    sep ∉ field := by
  induction s generalizing field with
  | nil => rw [List.mem_singleton.1 h]; exact List.not_mem_nil
  | cons c rest ih =>
    simp only [fields] at h
    split at h
    · rcases List.mem_cons.1 h with rfl | h
      · exact List.not_mem_nil
      · exact ih h
    · next hc =>
      obtain ⟨first, more, hf⟩ := List.exists_cons_of_ne_nil (fields_ne_nil sep rest)
      rw [hf] at h ih
      rcases List.mem_cons.1 h with rfl | h
      · rw [List.mem_cons, not_or]
        exact ⟨Ne.symm hc, ih List.mem_cons_self⟩
      · exact ih (List.mem_cons_of_mem _ h)

theorem fields_append_cons (sep : α) (s t : List α) :
    fields sep (s ++ sep :: t) = fields sep s ++ fields sep t := by
  induction s with
  | nil => simp [fields]
  | cons c rest ih =>
    obtain ⟨field, more, hf⟩ := List.exists_cons_of_ne_nil (fields_ne_nil sep rest)
    simp only [List.cons_append, fields, ih, hf]
    split <;> rfl

/-- Lines with a separator behind each of them. -/
theorem fields_lines {sep : α} {lines : List (List α)} (h : ∀ line ∈ lines, sep ∉ line)
    (rest : List α) :
    fields sep ((lines.map (· ++ [sep])).flatten ++ rest) = lines ++ fields sep rest := by
  induction lines with
  | nil => rfl
  | cons line lines ih =>
    rw [List.forall_mem_cons] at h
    rw [List.map_cons, List.flatten_cons, List.append_assoc, List.append_assoc,
      List.singleton_append, fields_append_cons, fields_of_not_mem h.1, ih h.2]
    rfl

theorem fields_replicate_append (sep : α) (n : Nat) (s : List α) :
    fields sep (List.replicate n sep ++ s) = List.replicate n [] ++ fields sep s := by
  induction n with
  | zero => rfl
  | succ n ih => simp [List.replicate_succ, fields, ih]

theorem fields_intercalate {sep : α} {parts : List (List α)} (hne : parts ≠ [])
    (h : ∀ s ∈ parts, sep ∉ s) : fields sep ([sep].intercalate parts) = parts := by
  induction parts with
  | nil => exact absurd rfl hne
  | cons s parts ih =>
    rw [List.forall_mem_cons] at h
    cases parts with
    | nil => rw [List.intercalate_singleton, fields_of_not_mem h.1]
    | cons t parts =>
      rw [List.intercalate_cons_cons, List.append_assoc, List.singleton_append,
        fields_append_cons, fields_of_not_mem h.1, ih (List.cons_ne_nil _ _) h.2,
        List.singleton_append]

end TypeSketch.Text
