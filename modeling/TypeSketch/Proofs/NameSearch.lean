import TypeSketch.Proofs.PlaceNumbers
import TypeSketch.Proofs.FreshNames
import Mathlib.Data.Finset.Card

/-!
# The search for a name

A place that has no name tries its candidate, then the candidate with 2 behind it, then with 3, and
so on, until it finds a name that is free. Nothing in these steps bounds them.

**Attempts** (`Tried`). The search step by step: the name that is tried after some others were found
taken, and the number that comes next.

**Theorem** (`Tried.le_card`). All names that are tried are different, and those found taken are
among the taken names. So there cannot be more of them than there are taken names.

**Theorem** (`names_searched`). The search ends with the name that is given out. This is the
candidate if it is free, else the candidate with the least number that makes it free. A place that
has a name keeps it, whatever happens in between.
-/

namespace TypeSketch

namespace Fresh

open Numbered (numbered)

/-! ## Attempts -/

/-- A name that is tried, and the number for the next one. -/
structure Attempt (α : Type) where
  name : α
  number : Nat

section

variable {α : Type} [Numbered α]

/-- What is tried after so many names were found taken. -/
inductive Tried (taken : List α) (base : α) : Nat → Attempt α → Prop
  | first : Tried taken base 0 ⟨base, 2⟩
  | next {n : Nat} {a : Attempt α} (h : Tried taken base n a) (htaken : a.name ∈ taken) :
      Tried taken base (n + 1) ⟨numbered base a.number, a.number + 1⟩

/-- The names in the order in which they are tried. -/
def nthName (base : α) : Nat → α
  | 0 => base
  | n + 1 => numbered base (n + 2)

variable {taken : List α} {base : α} {n : Nat} {a : Attempt α}

/-- The search goes through the names in their order, as long as they are taken. -/
theorem tried_iff : Tried taken base n a ↔
    a = ⟨nthName base n, n + 2⟩ ∧ ∀ i < n, nthName base i ∈ taken := by
  constructor
  · intro h
    induction h with
    | first => exact ⟨rfl, fun i hi => absurd hi (Nat.not_lt_zero i)⟩
    | next h htaken ih =>
      obtain ⟨rfl, hbefore⟩ := ih
      refine ⟨rfl, fun i hi => ?_⟩
      rcases Nat.lt_succ_iff_lt_or_eq.1 hi with hi | rfl
      · exact hbefore i hi
      · exact htaken
  · rintro ⟨rfl, hbefore⟩
    induction n with
    | zero => exact .first
    | succ n ih =>
      have hn : Tried taken base n ⟨nthName base n, n + 2⟩ :=
        ih fun i hi => hbefore i (Nat.lt_succ_of_lt hi)
      exact hn.next (hbefore n (Nat.lt_succ_self n))

theorem Tried.le_of_not_mem (h : Tried taken base n a) (hfree : a.name ∉ taken) {m : Nat}
    {b : Attempt α} (hb : Tried taken base m b) : m ≤ n := by
  by_contra hlt
  obtain ⟨rfl, -⟩ := tried_iff.1 h
  exact hfree ((tried_iff.1 hb).2 n (Nat.lt_of_not_le hlt))

theorem exists_tried_name [DecidableEq α] (taken : List α) (base : α) :
    ∃ n, Tried taken base n ⟨name taken base, n + 2⟩ := by
  have hnext := next_name taken base
  generalize name taken base = found at hnext
  cases hnext with
  | plain => exact ⟨0, .first⟩
  | @suffixed k hbase htwo _ hleast =>
    obtain ⟨m, rfl⟩ := Nat.exists_eq_add_of_le' htwo
    refine ⟨m + 1, tried_iff.2 ⟨rfl, fun i hi => ?_⟩⟩
    cases i with
    | zero => exact hbase
    | succ i => exact hleast (i + 2) (Nat.le_add_left 2 i) (by omega)

end

/-! ## The length of the search -/

section

variable {taken : List String} {base : String} {n : Nat} {a : Attempt String}

theorem numbered_ne (base : String) (n : Nat) : numbered base n ≠ base := by
  intro h
  exact toString_nat_ne_empty n (String.append_eq_left_iff.1 h)

theorem nthName_injective (base : String) : Function.Injective (nthName base) := by
  intro m n h
  cases m with
  | zero =>
    cases n with
    | zero => rfl
    | succ n => exact absurd h.symm (numbered_ne base _)
  | succ m =>
    cases n with
    | zero => exact absurd h (numbered_ne base _)
    | succ n =>
      have hnumber := Numbered.numbered_inj h
      omega

/-- **No more names are found taken than there are taken names.** -/
theorem Tried.le_card (h : Tried taken base n a) : n ≤ taken.toFinset.card := by
  have hsub : (Finset.range n).image (nthName base) ⊆ taken.toFinset := by
    intro name hname
    obtain ⟨i, hi, rfl⟩ := Finset.mem_image.1 hname
    exact List.mem_toFinset.2 ((tried_iff.1 h).2 i (Finset.mem_range.1 hi))
  calc n = (Finset.range n).card := (Finset.card_range n).symm
    _ = ((Finset.range n).image (nthName base)).card :=
        (Finset.card_image_of_injective _ (nthName_injective base)).symm
    _ ≤ taken.toFinset.card := Finset.card_le_card hsub

end

end Fresh

namespace Catalog

open Fresh (Attempt Tried Next)

/-- A place is given its name again, whatever has happened in between and whatever the candidate. -/
theorem nameFor_performAll (c : Catalog) (kind : Kind) (place : Int) (candidate : String)
    (ops : List Operation) (other : String) :
    let later := (c.nameFor kind place candidate).2.performAll ops
    later.nameFor kind place other = ((c.nameFor kind place candidate).1, later) := by
  intro later
  have hname := find?_nameFor c kind place candidate
  exact nameFor_of_find? ((grows_performAll _ ops).find? hname) other

/-- **Names are searched.** Whatever a catalog holds, the search for a free name ends. It finds at
most as many names taken as there are taken names, and so it looks at one more at most. A place
without a name gets what the search ends with: the candidate if it is free, else the candidate with
the least number from 2 on that makes it free. This name is entered, and nothing else is changed. A
place that has a name is given this name, whatever the candidate, and nothing is changed. So a name
that was given once is given again after any operations. -/
theorem names_searched (c : Catalog) (kind : Kind) (place : Int) (candidate : String) :
    (∃ n last, Tried c.taken candidate n last ∧ last.name ∉ c.taken ∧
      n ≤ c.taken.toFinset.card ∧ (∀ m a, Tried c.taken candidate m a → m ≤ n) ∧
      Next c.taken candidate last.name ∧
      (c.names.find? (kind, place) = none →
        c.nameFor kind place candidate = (last.name, c.claim kind place last.name))) ∧
    (∀ name, c.names.find? (kind, place) = some name →
      c.nameFor kind place candidate = (name, c)) ∧
    ∀ ops other,
      let later := (c.nameFor kind place candidate).2.performAll ops
      later.nameFor kind place other = ((c.nameFor kind place candidate).1, later) := by
  refine ⟨?_, fun name h => nameFor_of_find? h candidate, nameFor_performAll c kind place candidate⟩
  obtain ⟨n, hlast⟩ := Fresh.exists_tried_name c.taken candidate
  have hfree := Fresh.name_not_mem c.taken candidate
  exact ⟨n, _, hlast, hfree, hlast.le_card, fun m a h => hlast.le_of_not_mem hfree h,
    Fresh.next_name c.taken candidate, fun h => nameFor_of_find?_eq_none h candidate⟩

end Catalog

end TypeSketch
