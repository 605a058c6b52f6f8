import TypeSketch.Proofs.TypeText
import TypeSketch.Workspace
import Mathlib.Data.List.Flatten

/-!
# Tidy paths

A path is tidied by leaving out the parts that say nothing. What is left stands in the path in the
same order, so it is no longer and can be followed no worse.

**Theorem** (`follow_tidy`). Where a path leads, the tidy path leads too.

**Names** (`IsName`). The name of a file in the working directory is the last part of its absolute
path (`lastPart_pathOf`).
-/

namespace TypeSketch

namespace Path

/-! ## Parts -/

theorem not_mem_of_mem_parts {path part : Text} (h : part ∈ parts path) : .char '/' ∉ part :=
  Text.not_mem_of_mem_fields (List.mem_filter.1 h).1

theorem ne_nil_of_mem_parts {path part : Text} (h : part ∈ parts path) : part ≠ [] := by
  rintro rfl
  cases (List.mem_filter.1 h).2

theorem parts_append_cons (before behind : Text) :
    parts (before ++ .char '/' :: behind) = parts before ++ parts behind := by
  rw [parts, Text.fields_append_cons, List.filter_append]
  rfl

theorem parts_replicate_append (n : Nat) (path : Text) :
    parts (.replicate n (.char '/') ++ path) = parts path := by
  rw [parts, Text.fields_replicate_append, List.filter_append,
    List.filter_replicate_of_neg (by decide)]
  rfl

theorem intercalate_sublist {α : Type*} {sep : List α} {xs ys : List (List α)}
    (h : xs.Sublist ys) : (sep.intercalate xs).Sublist (sep.intercalate ys) := by
  induction h with
  | slnil => exact .slnil
  | @cons xs ys y h ih =>
    cases ys with
    | nil => rw [List.sublist_nil.1 h]; exact List.nil_sublist _
    | cons y' ys =>
      rw [List.intercalate_cons_cons]
      exact ih.trans (List.sublist_append_right _ _)
  | @cons_cons xs ys x h ih =>
    cases xs with
    | nil =>
      cases ys with
      | nil => exact .refl _
      | cons y ys =>
        rw [List.intercalate_cons_cons, List.intercalate_singleton, List.append_assoc]
        exact List.sublist_append_left _ _
    | cons x' xs =>
      cases ys with
      | nil => cases h
      | cons y ys =>
        rw [List.intercalate_cons_cons, List.intercalate_cons_cons]
        exact ih.append_left _

/-! ## Slashes at the beginning -/

theorem exists_eq_slashes (path : Text) : ∃ rest, path = .replicate
    (path.takeWhile (· == .char '/')).length (.char '/') ++ rest := by
  induction path with
  | nil => exact ⟨[], rfl⟩
  | cons p rest ih =>
    by_cases hp : p = .char '/'
    · subst hp
      obtain ⟨tail, htail⟩ := ih
      exact ⟨tail, by simpa [List.replicate_succ] using htail⟩
    · exact ⟨p :: rest, by simp [hp]⟩

theorem isAbsolute_eq (path : Text) :
    isAbsolute path = decide ((path.takeWhile (· == .char '/')).length ≠ 0) := by
  cases path with
  | nil => rfl
  | cons p rest =>
    by_cases hp : p = .char '/'
    · simp [isAbsolute, hp]
    · simp [isAbsolute, hp]

/-- A path begins with slashes, of which its root keeps some, unless there are none. -/
theorem exists_slashes (path : Text) : ∃ kept more rest,
    root path = .replicate kept (.char '/') ∧
    path = .replicate (kept + more) (.char '/') ++ rest ∧ isAbsolute path = decide (kept ≠ 0) := by
  obtain ⟨rest, hpath⟩ := exists_eq_slashes path
  rw [isAbsolute_eq, root]
  revert hpath
  generalize (path.takeWhile (· == .char '/')).length = n
  intro hpath
  match n with
  | 0 => exact ⟨0, 0, rest, rfl, hpath, rfl⟩
  | 1 => exact ⟨1, 0, rest, rfl, hpath, rfl⟩
  | 2 => exact ⟨2, 0, rest, rfl, hpath, rfl⟩
  | m + 3 => exact ⟨1, m + 2, rest, rfl, by rwa [Nat.add_comm 1], rfl⟩

/-! ## Tidy paths -/

/-- What the root and the parts of a path make. -/
def body (path : Text) : Text := root path ++ ("/" : Text).intercalate (parts path)

theorem tidy_eq (path : Text) :
    tidy path = if (body path).isEmpty then Text.ofString "." else body path := rfl

theorem body_sublist (path : Text) : (body path).Sublist path := by
  obtain ⟨kept, more, rest, hroot, hpath, -⟩ := exists_slashes path
  have hparts : parts path = parts rest := by rw [hpath, parts_replicate_append]
  have hrest : (("/" : Text).intercalate (parts rest)).Sublist rest := by
    conv_rhs => rw [← Text.intercalate_fields (.char '/') rest]
    exact intercalate_sublist List.filter_sublist
  rw [body, hroot, hparts, hpath]
  exact (List.replicate_sublist_replicate _ |>.2 (Nat.le_add_right kept more)).append hrest

theorem exists_head_intercalate {path : Text} (h : parts path ≠ []) :
    ∃ p rest, p ≠ .char '/' ∧ ("/" : Text).intercalate (parts path) = p :: rest := by
  obtain ⟨part, more, hparts⟩ := List.exists_cons_of_ne_nil h
  have hpart : part ∈ parts path := hparts ▸ List.mem_cons_self
  obtain ⟨p, rest, rfl⟩ := List.exists_cons_of_ne_nil (ne_nil_of_mem_parts hpart)
  have hslash := not_mem_of_mem_parts hpart
  rw [List.mem_cons, not_or] at hslash
  rw [hparts]
  cases more with
  | nil => exact ⟨p, _, Ne.symm hslash.1, List.intercalate_singleton ..⟩
  | cons next more =>
    rw [List.intercalate_cons_cons]
    exact ⟨p, _, Ne.symm hslash.1, rfl⟩

/-- The tidy path has the parts of the path, behind some that say nothing. -/
theorem exists_fields_tidy (path : Text) : ∃ idle, (∀ part ∈ idle, isIdle part = true) ∧
    Text.fields (.char '/') (tidy path) = idle ++ parts path := by
  obtain ⟨kept, -, -, hroot, -⟩ := exists_slashes path
  have hempty (n : Nat) : ∀ part ∈ List.replicate n ([] : Text), isIdle part = true := by
    intro part hp
    rw [List.eq_of_mem_replicate hp]
    rfl
  by_cases hparts : parts path = []
  -- what is left is a dot or slashes
  · rw [tidy_eq, body, hroot, hparts]
    cases kept with
    | zero => exact ⟨[Text.ofString "."], by decide, rfl⟩
    | succ n =>
      refine ⟨.replicate (n + 2) [], hempty _, ?_⟩
      rw [if_neg (by simp [List.replicate_succ]), List.intercalate_nil,
        Text.fields_replicate_append, List.append_nil, List.replicate_succ' (n := n + 1)]
      rfl
  · obtain ⟨p, rest, -, hhead⟩ := exists_head_intercalate hparts
    refine ⟨.replicate kept [], hempty kept, ?_⟩
    rw [tidy_eq, if_neg (by simp [body, hhead]), body, hroot, Text.fields_replicate_append]
    exact congrArg _ (Text.fields_intercalate hparts fun _ => not_mem_of_mem_parts)

theorem isAbsolute_tidy (path : Text) : isAbsolute (tidy path) = isAbsolute path := by
  obtain ⟨kept, -, -, hroot, -, habsolute⟩ := exists_slashes path
  rw [tidy_eq, body, hroot, habsolute]
  cases kept with
  | succ n => rfl
  | zero =>
    by_cases hparts : parts path = []
    · rw [hparts]
      rfl
    · obtain ⟨p, rest, hp, hhead⟩ := exists_head_intercalate hparts
      simp [hhead, isAbsolute, hp]

theorem tidy_cases (path : Text) : tidy path = Text.ofString "." ∨ (tidy path).Sublist path := by
  rw [tidy_eq]
  split
  · exact .inl rfl
  · exact .inr (body_sublist path)

theorem tidy_ne_nil (path : Text) : tidy path ≠ [] := by
  rw [tidy_eq]
  split
  · decide
  · next h => simpa using h

/-! ## What can be the path of a file -/

theorem unusable?_eq_none_iff {path : Text} : unusable? path = none ↔
    (∀ x, .surrogate x ∈ path → isByte x = true) ∧ .char '\x00' ∉ path := by
  have hbytes : Text.Encoding.unencodable? isByte 0 path = none ↔
      ∀ x, .surrogate x ∈ path → isByte x = true := Text.Encoding.unencodable?_eq_none_iff
  rw [← hbytes, unusable?]
  cases Text.Encoding.unencodable? isByte 0 path <;> simp

theorem unusable?_tidy {path : Text} (h : unusable? path = none) :
    unusable? (tidy path) = none := by
  rcases tidy_cases path with htidy | hsub
  · rw [htidy]
    decide
  · rw [unusable?_eq_none_iff] at h ⊢
    exact ⟨fun x hx => h.1 x (hsub.subset hx), fun hx => h.2 (hsub.subset hx)⟩

theorem byteSize_tidy_le {path : Text} {n : Nat} (hn : 0 < n) (h : byteSize path ≤ n) :
    byteSize (tidy path) ≤ n := by
  rcases tidy_cases path with htidy | hsub
  · rw [htidy]
    exact hn
  · exact Nat.le_trans (hsub.flatMap pointBytes).length_le h

end Path

namespace Workspace

variable {w : Workspace} {l : Location} {e : Entry}

theorem follow_eq_ok_iff {path : Text} : w.follow path = .ok e ↔
    Path.unusable? path = none ∧ path ≠ [] ∧ Path.byteSize path ≤ maxPath ∧
      w.followParts (if Path.isAbsolute path then [] else w.here) .directory
        (Text.fields (.char '/') path) = .ok e := by
  unfold follow
  cases Path.unusable? path with
  | some reason => simp
  | none =>
    by_cases hne : path = []
    · simp [hne]
    · by_cases hsize : maxPath < Path.byteSize path
      · simp [hne, hsize, Nat.not_le_of_lt hsize]
      · simp [hne, hsize, Nat.le_of_not_lt hsize]

/-- A part that says something leads on to what stands there. -/
theorem followParts_cons {part : Text} {rest : List Text}
    (hpart : Path.isIdle part = false ∧ part ≠ Text.ofString ".." ∧ Path.byteSize part ≤ maxPart)
    (hat : w.at? (l ++ [Path.settled part]) = some e) :
    w.followParts l .directory (part :: rest) =
      w.followParts (l ++ [Path.settled part]) e rest := by
  obtain ⟨hidle, hback, hsize⟩ := hpart
  rw [followParts, if_neg (by simp [hidle]), if_neg (by simpa using hback),
    if_neg (Nat.not_lt_of_le hsize)]
  simp only [hat]

/-- Parts that say nothing lead nowhere. -/
theorem followParts_append {idle rest : List Text} (h : ∀ part ∈ idle, Path.isIdle part = true) :
    w.followParts l .directory (idle ++ rest) = w.followParts l .directory rest := by
  induction idle with
  | nil => rfl
  | cons part idle ih =>
    rw [List.forall_mem_cons] at h
    rw [List.cons_append, followParts, if_pos h.1, ih h.2]

/-- Parts that say nothing can be left out. -/
theorem followParts_filter {e' : Entry} {parts : List Text}
    (h : w.followParts l e parts = .ok e') :
    w.followParts l e (parts.filter fun part => !Path.isIdle part) = .ok e' := by
  induction parts generalizing l e with
  | nil => exact h
  | cons part rest ih =>
    cases e with
    -- not even a part that says nothing leads on from a file
    | file bytes => cases h
    | directory =>
      by_cases hidle : Path.isIdle part = true
      · rw [followParts, if_pos hidle] at h
        rw [List.filter_cons_of_neg (by simp [hidle])]
        exact ih h
      · rw [followParts, if_neg hidle] at h
        rw [List.filter_cons_of_pos (by simpa using hidle), followParts, if_neg hidle]
        split at h
        · next hback => rw [if_pos hback]; exact ih h
        · next hback =>
          rw [if_neg hback]
          split at h
          · cases h
          · next hsize =>
            rw [if_neg hsize]
            cases hnext : w.at? (l ++ [Path.settled part]) with
            | none => simp [hnext] at h
            | some next => simp only [hnext] at h ⊢; exact ih h

/-- **Tidying a path.** Where a path leads, the tidy path leads too. -/
theorem follow_tidy {path : Text} (h : w.follow path = .ok e) :
    w.follow (Path.tidy path) = .ok e := by
  obtain ⟨husable, hne, hsize, hparts⟩ := follow_eq_ok_iff.1 h
  obtain ⟨idle, hidle, hfields⟩ := Path.exists_fields_tidy path
  refine follow_eq_ok_iff.2 ⟨Path.unusable?_tidy husable, Path.tidy_ne_nil path,
    Path.byteSize_tidy_le (by decide) hsize, ?_⟩
  rw [Path.isAbsolute_tidy, hfields, followParts_append hidle]
  exact followParts_filter hparts

end Workspace

/-! ## Names -/

/-- A path that is the name of a file in the working directory: one part that says something and
does not lead back. -/
structure Path.IsName (path : Text) : Prop where
  slash_not_mem : .char '/' ∉ path
  ne_nil : path ≠ []
  ne_dot : path ≠ Text.ofString "."
  ne_dots : path ≠ Text.ofString ".."

instance (path : Text) : Decidable (Path.IsName path) :=
  decidable_of_iff (.char '/' ∉ path ∧ path ≠ [] ∧ path ≠ Text.ofString "." ∧
    path ≠ Text.ofString "..") ⟨fun ⟨h₁, h₂, h₃, h₄⟩ => ⟨h₁, h₂, h₃, h₄⟩,
      fun ⟨h₁, h₂, h₃, h₄⟩ => ⟨h₁, h₂, h₃, h₄⟩⟩

namespace Path.IsName

variable {path : Text}

theorem parts_eq (h : IsName path) : parts path = [path] := by
  rw [parts, Text.fields_of_not_mem h.slash_not_mem]
  simp [isIdle, h.ne_nil, h.ne_dot]

theorem isAbsolute_eq_false (h : IsName path) : isAbsolute path = false := by
  cases path with
  | nil => rfl
  | cons p rest =>
    have hp : p ≠ .char '/' := fun hp => h.slash_not_mem (hp ▸ List.mem_cons_self)
    simp [isAbsolute, hp]

theorem locate_eq (h : IsName path) (w : Workspace) : w.locate path = w.here ++ [path] := by
  rw [Workspace.locate, h.parts_eq, h.isAbsolute_eq_false]
  simp [Workspace.stepTo, h.ne_dots]

end Path.IsName

namespace Workspace

theorem exists_pathOf_concat (l : Location) (name : Text) :
    ∃ before, pathOf (l ++ [name]) = before ++ .char '/' :: name := by
  cases l with
  | nil => exact ⟨[], by simp [pathOf, Text.ofString]⟩
  | cons first rest =>
    refine ⟨"/" ++ (first ++ rest.flatMap (("/" : Text) ++ ·)), ?_⟩
    rw [pathOf, List.cons_append, TypeExpr.intercalate_cons_eq, List.flatMap_append]
    simp [Text.ofString]

/-- The absolute path of a file in the working directory has its name for the last part. -/
theorem lastPart_pathOf (w : Workspace) {name : Text} (h : Path.IsName name) :
    Path.lastPart (pathOf (w.locate name)) = name := by
  obtain ⟨before, hpath⟩ := exists_pathOf_concat w.here name
  rw [h.locate_eq, hpath, Path.lastPart, Path.parts_append_cons, h.parts_eq, List.getLast?_concat]
  rfl

end Workspace

end TypeSketch
