import TypeSketch.Fresh
import Mathlib.Data.List.Induction
import Mathlib.Data.List.Basic

/-!
# Names in a row

Things are named one after the other, each by its base if that is still free, else by the base with
a number behind it. A base may be in the way of another one, and so may a name that has got a number
already.

**The next name** (`Next`). What a base becomes behind some names.

**Names in a row** (`Successive`). Every name is the next one behind all those before it.

**Theorem** (`successive_iff`). These are the names that are given out (`assign`), and no others.

**Theorem** (`Successive.exists_twice`). A name that is no base is a base that stands twice, with
numbers behind it. There may be several numbers, because a base with a number can be a base itself.
-/

namespace TypeSketch.Fresh

open Numbered (numbered)

variable {α : Type} [Numbered α]

/-- The name that a base gets behind other names: the base itself, or if that is one of them, the
base with the least number from 2 on that makes it differ from all of them. -/
inductive Next (before : List α) (base : α) : α → Prop
  | plain (h : base ∉ before) : Next before base base
  | suffixed {n : Nat} (h : base ∈ before) (two_le : 2 ≤ n) (free : numbered base n ∉ before)
      (least : ∀ j, 2 ≤ j → j < n → numbered base j ∈ before) : Next before base (numbered base n)

/-- Names for bases, each the next one behind those before it. -/
inductive Successive : List α → List α → Prop
  | nil : Successive [] []
  | concat {bases names : List α} {base name : α} (h : Successive bases names)
      (hname : Next names base name) : Successive (bases ++ [base]) (names ++ [name])

/-! ## The next name -/

theorem Next.unique {before : List α} {base name name' : α} (h : Next before base name)
    (h' : Next before base name') : name = name' := by
  cases h with
  | plain hbase =>
    cases h' with
    | plain => rfl
    | suffixed hmem => exact absurd hmem hbase
  | @suffixed m hbase hm hfree hleast =>
    cases h' with
    | plain hnot => exact absurd hbase hnot
    | @suffixed n _ hn hfree' hleast' =>
      rcases Nat.lt_trichotomy m n with hlt | rfl | hlt
      · exact absurd (hleast' m hm hlt) hfree
      · rfl
      · exact absurd (hleast n hn hlt) hfree'

/-- Only which names there are counts, and not their order. -/
theorem Next.congr {before before' : List α} {base name : α}
    (hsame : ∀ a, a ∈ before ↔ a ∈ before') (h : Next before base name) :
    Next before' base name := by
  cases h with
  | plain hbase => exact .plain (mt (hsame base).2 hbase)
  | suffixed hbase htwo hfree hleast =>
    exact .suffixed ((hsame base).1 hbase) htwo (mt (hsame _).2 hfree)
      fun j hj hlt => (hsame _).1 (hleast j hj hlt)

/-! ## Names in a row -/

section

variable {bases names : List α}

/-- A base is a name, of its own thing or of an earlier one. -/
theorem Successive.subset (h : Successive bases names) : bases ⊆ names := by
  induction h with
  | nil => exact List.nil_subset _
  | @concat bases names base name _ hname ih =>
    intro b hb
    rcases List.mem_append.1 hb with hb | hb
    · exact List.mem_append_left _ (ih hb)
    · rw [List.mem_singleton] at hb
      subst hb
      cases hname with
      | plain => exact List.mem_append_right _ (List.mem_singleton_self _)
      | suffixed hmem => exact List.mem_append_left _ hmem

/-- A name that is no base comes from one that stands twice, by numbers behind it. -/
theorem Successive.exists_twice (h : Successive bases names) {name : α} (hname : name ∈ names)
    (hbase : name ∉ bases) : ∃ twice ns, [twice, twice].Sublist bases ∧ ns ≠ [] ∧
      (∀ n ∈ ns, 2 ≤ n) ∧ name = ns.foldl numbered twice := by
  induction h generalizing name with
  | nil => cases hname
  | @concat bases names base last h hlast ih =>
    have hgrow : bases.Sublist (bases ++ [base]) := List.sublist_append_left bases [base]
    rw [List.mem_append, not_or, List.mem_singleton] at hbase
    rcases List.mem_append.1 hname with hname | hname
    · obtain ⟨twice, ns, htwice, hrest⟩ := ih hname hbase.1
      exact ⟨twice, ns, htwice.trans hgrow, hrest⟩
    · rw [List.mem_singleton] at hname
      subst hname
      cases hlast with
      | plain => exact absurd rfl hbase.2
      | @suffixed n hmem htwo _ _ =>
        by_cases hb : base ∈ bases
        · refine ⟨base, [n], ?_, List.cons_ne_nil _ _, by simpa using htwo, rfl⟩
          exact (List.singleton_sublist.2 hb).append (List.Sublist.refl [base])
        · -- The base is the name of an earlier thing, which has got a number itself.
          obtain ⟨twice, ns, htwice, -, hns, rfl⟩ := ih hmem hb
          refine ⟨twice, ns ++ [n], htwice.trans hgrow, by simp, ?_, by rw [List.foldl_concat]⟩
          intro m hm
          rcases List.mem_append.1 hm with hm | hm
          · exact hns m hm
          · exact List.mem_singleton.1 hm ▸ htwo

end

/-! ## Names that are given out -/

variable [DecidableEq α]

theorem next_name (taken : List α) (base : α) : Next taken base (name taken base) := by
  by_cases h : base ∈ taken
  · obtain ⟨n, htwo, hname, hfree, hleast⟩ := exists_name_of_mem h
    rw [hname]
    exact .suffixed h htwo hfree hleast
  · rw [name_of_not_mem h]
    exact .plain h

/-- The names that are taken stand from the last to the first. -/
theorem next_name_reverse (before : List α) (base : α) :
    Next before base (name before.reverse base) :=
  (next_name before.reverse base).congr fun _ => List.mem_reverse

/-- The names of later bases are free of those of earlier ones. -/
theorem assign_append (taken xs ys : List α) :
    assign taken (xs ++ ys) =
      assign taken xs ++ assign ((assign taken xs).reverse ++ taken) ys := by
  induction xs generalizing taken with
  | nil => rfl
  | cons base rest ih =>
    simp only [List.cons_append, assign, ih, List.reverse_cons, List.append_assoc, List.nil_append]

theorem assign_prefix (taken xs ys : List α) : assign taken xs <+: assign taken (xs ++ ys) := by
  rw [List.prefix_iff_eq_take, length_assign, assign_append_take]

theorem zip_assign_prefix {β : Type*} (taken : List α) {xs : List α} {as : List β}
    (h : as.length = xs.length) (ys : List α) (bs : List β) :
    (assign taken xs).zip as <+: (assign taken (xs ++ ys)).zip (as ++ bs) := by
  rw [assign_append, List.zip_append (by rw [length_assign, h])]
  exact List.prefix_append _ _

theorem successive_assign (bases : List α) : Successive bases (assign [] bases) := by
  induction bases using List.reverseRecOn with
  | nil => exact .nil
  | append_singleton bases base ih =>
    rw [assign_append, List.append_nil]
    exact ih.concat (next_name_reverse _ base)

theorem successive_iff {bases names : List α} :
    Successive bases names ↔ names = assign [] bases := by
  constructor
  · intro h
    induction h with
    | nil => rfl
    | @concat bases names base name _ hname ih =>
      subst ih
      rw [assign_append, List.append_nil, hname.unique (next_name_reverse _ base)]
      rfl
  · rintro rfl
    exact successive_assign bases

/-- What stands at the place of a base is the next name behind those of the bases before it. -/
theorem next_getElem?_assign (xs ys : List α) (base : α) : ∃ name,
    (assign [] (xs ++ base :: ys))[xs.length]? = some name ∧
      Next (assign [] xs) base name := by
  refine ⟨name (assign [] xs).reverse base, ?_, next_name_reverse _ base⟩
  rw [assign_append, List.append_nil, List.getElem?_append_right (by simp)]
  simp [assign]

section

variable {bases names : List α}

theorem Successive.nodup (h : Successive bases names) : names.Nodup := by
  rw [successive_iff.1 h]
  exact (assign_free [] bases).1

/-- Bases are their own names just if they are different. -/
theorem Successive.eq_iff (h : Successive bases names) : names = bases ↔ bases.Nodup := by
  constructor
  · rintro rfl
    exact h.nodup
  · intro hnodup
    rw [successive_iff.1 h]
    exact assign_of_nodup hnodup fun _ _ => List.not_mem_nil

end

end TypeSketch.Fresh
