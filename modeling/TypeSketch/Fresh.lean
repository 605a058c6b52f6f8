import TypeSketch.Text.CodePoint

/-!
# Fresh names

A name that is taken is told apart by a number behind it: `Item`, `Item2`, `Item3` and so on.
Record names, enum names, enum members and property keys all get their names this way. Some of them
are strings and some are texts, so a name is anything to which numbers can be put (`Numbered`).

**The search** (`firstFree`). It tries the numbers upwards. A name that was found taken is struck
off the list, because no other number gives it again. So the list shrinks with every try, and the
search ends after at most one try more than there are taken names. Only names that begin with the
base can be in its way (`rivals`).

**Theorem** (`exists_firstFree`). The search finds the least number whose name is not taken.

**Theorem** (`name_not_mem`). A fresh name is not among the taken ones.
-/

namespace TypeSketch

/-- Names to which numbers can be put. Different numbers give different names, and all of them begin
with the base. -/
class Numbered (α : Type) where
  /-- The base followed by a number. -/
  numbered : α → Nat → α
  numbered_inj {base : α} {m n : Nat} : numbered base m = numbered base n → m = n
  /-- Whether a name begins with a base. -/
  begins : α → α → Bool
  begins_numbered {base : α} {n : Nat} : begins base (numbered base n) = true

theorem toString_nat_inj {m n : Nat} (h : toString m = toString n) : m = n := by
  rw [Nat.toString_eq_repr, Nat.toString_eq_repr] at h
  have hd : Nat.toDigits 10 m = Nat.toDigits 10 n := by
    rw [← Nat.toList_repr, ← Nat.toList_repr, h]
  rw [← Nat.ofDigitChars_ten_toDigits (n := m), hd, Nat.ofDigitChars_ten_toDigits]

theorem toString_nat_ne_empty (n : Nat) : toString n ≠ "" := by
  rw [Nat.toString_eq_repr]
  exact Nat.repr_ne_empty

instance : Numbered String where
  numbered base n := base ++ toString n
  numbered_inj h := toString_nat_inj ((String.append_right_inj _).1 h)
  begins base name := base.utf8ByteSize ≤ name.utf8ByteSize && base.toList.isPrefixOf name.toList
  begins_numbered := by
    intro base n
    rw [Bool.and_eq_true, decide_eq_true_eq, String.utf8ByteSize_append, String.toList_append,
      List.isPrefixOf_iff_prefix]
    exact ⟨Nat.le_add_right .., List.prefix_append ..⟩

instance : Numbered Text where
  numbered base n := base ++ Text.ofString (toString n)
  numbered_inj h := toString_nat_inj (Text.ofString_inj.1 (List.append_cancel_left h))
  begins base name := base.isPrefixOf name
  begins_numbered := List.isPrefixOf_iff_prefix.2 (List.prefix_append ..)

namespace Fresh

open Numbered (numbered begins)

variable {α : Type} [Numbered α]

/-- The taken names that begin with a base, the one taken first in front. The names that are taken
come from the last to the first. -/
def rivals (base : α) (taken : List α) : List α := (taken.filter (begins base)).reverse

theorem numbered_mem_rivals {base : α} {taken : List α} {n : Nat} :
    numbered base n ∈ rivals base taken ↔ numbered base n ∈ taken := by
  rw [rivals, List.mem_reverse, List.mem_filter]
  exact ⟨fun h => h.1, fun h => ⟨h, Numbered.begins_numbered⟩⟩

variable [DecidableEq α]

/-- The base with the least number from `n` on that is not taken. -/
def firstFree (base : α) (taken : List α) (n : Nat) : α :=
  if numbered base n ∈ taken then firstFree base (taken.erase (numbered base n)) (n + 1)
  else numbered base n
termination_by taken.length
decreasing_by
  next h =>
    have := List.length_erase_of_mem h
    have := List.length_pos_of_mem h
    omega

theorem exists_firstFree (base : α) (taken : List α) (n : Nat) :
    ∃ k, n ≤ k ∧ firstFree base taken n = numbered base k ∧ numbered base k ∉ taken ∧
      ∀ j, n ≤ j → j < k → numbered base j ∈ taken := by
  fun_induction firstFree base taken n with
  | case1 taken n h ih =>
    obtain ⟨k, hk, he, hfree, hleast⟩ := ih
    have hne {j : Nat} (hj : n + 1 ≤ j) : numbered base j ≠ numbered base n := fun e => by
      have := Numbered.numbered_inj e
      omega
    refine ⟨k, by omega, he, fun hm => hfree ?_, fun j hj hjk => ?_⟩
    · exact (List.mem_erase_of_ne (hne hk)).2 hm
    · by_cases hjn : j = n
      · exact hjn ▸ h
      · exact List.mem_of_mem_erase (hleast j (by omega) hjk)
  | case2 taken n h => exact ⟨n, Nat.le_refl n, rfl, h, fun j hj hjn => by omega⟩

/-- The base itself if it is not taken, else the base with the least free number from 2 on. -/
def name (taken : List α) (base : α) : α :=
  if base ∈ taken then firstFree base (rivals base taken) 2 else base

theorem name_of_not_mem {taken : List α} {base : α} (h : base ∉ taken) :
    name taken base = base := by
  rw [name, if_neg h]

theorem exists_name_of_mem {taken : List α} {base : α} (h : base ∈ taken) :
    ∃ k, 2 ≤ k ∧ name taken base = numbered base k ∧ numbered base k ∉ taken ∧
      ∀ j, 2 ≤ j → j < k → numbered base j ∈ taken := by
  obtain ⟨k, hk, he, hfree, hleast⟩ := exists_firstFree base (rivals base taken) 2
  refine ⟨k, hk, ?_, mt numbered_mem_rivals.2 hfree, fun j hj hjk => ?_⟩
  · rw [name, if_pos h, he]
  · exact numbered_mem_rivals.1 (hleast j hj hjk)

theorem name_not_mem (taken : List α) (base : α) : name taken base ∉ taken := by
  by_cases h : base ∈ taken
  · obtain ⟨k, -, he, hfree, -⟩ := exists_name_of_mem h
    exact he ▸ hfree
  · exact (name_of_not_mem h).symm ▸ h

/-- What holds of a base with and without a number holds of the name. -/
theorem name_induction {p : α → Prop} {base : α} (h : p base)
    (hnumbered : ∀ n, p (numbered base n)) (taken : List α) : p (name taken base) := by
  by_cases hm : base ∈ taken
  · obtain ⟨n, -, he, -, -⟩ := exists_name_of_mem hm
    exact he ▸ hnumbered n
  · exact (name_of_not_mem hm).symm ▸ h

/-- Names for a list of bases, each free of those taken before and of those given to its
predecessors. -/
def assign (taken : List α) : List α → List α
  | [] => []
  | base :: rest => name taken base :: assign (name taken base :: taken) rest

@[simp] theorem length_assign (taken bases : List α) :
    (assign taken bases).length = bases.length := by
  induction bases generalizing taken with
  | nil => rfl
  | cons base rest ih => simp [assign, ih]

/-- The names given are free, and no two of them are the same. -/
theorem assign_free (taken bases : List α) :
    (assign taken bases).Nodup ∧ ∀ s ∈ assign taken bases, s ∉ taken := by
  induction bases generalizing taken with
  | nil => simp [assign]
  | cons base rest ih =>
    obtain ⟨hnodup, hfree⟩ := ih (name taken base :: taken)
    simp only [List.mem_cons, not_or] at hfree
    refine ⟨List.nodup_cons.2 ⟨fun hm => (hfree _ hm).1 rfl, hnodup⟩, fun s hs => ?_⟩
    rcases List.mem_cons.1 hs with rfl | hs
    · exact name_not_mem taken base
    · exact (hfree s hs).2

theorem assign_append_take (taken xs ys : List α) :
    (assign taken (xs ++ ys)).take xs.length = assign taken xs := by
  induction xs generalizing taken with
  | nil => simp [assign]
  | cons base rest ih => simp [assign, ih]

/-- Bases that are free and different are the names. -/
theorem assign_of_nodup {taken bases : List α} (h : bases.Nodup) (hfree : ∀ b ∈ bases, b ∉ taken) :
    assign taken bases = bases := by
  induction bases generalizing taken with
  | nil => rfl
  | cons base rest ih =>
    obtain ⟨hbase, hrest⟩ := List.nodup_cons.1 h
    rw [assign, name_of_not_mem (hfree base List.mem_cons_self), ih hrest]
    intro b hb
    rw [List.mem_cons, not_or]
    exact ⟨fun e => hbase (e ▸ hb), hfree b (List.mem_cons_of_mem _ hb)⟩

/-- What holds of the bases and is not spoilt by numbers holds of the names. -/
theorem forall_mem_assign {p : α → Prop} (hnumbered : ∀ base n, p base → p (numbered base n))
    {taken bases : List α} (h : ∀ b ∈ bases, p b) : ∀ s ∈ assign taken bases, p s := by
  induction bases generalizing taken with
  | nil => simp [assign]
  | cons base rest ih =>
    rw [List.forall_mem_cons] at h
    exact List.forall_mem_cons.2
      ⟨name_induction h.1 (fun n => hnumbered base n h.1) taken, ih h.2⟩

end Fresh

end TypeSketch
