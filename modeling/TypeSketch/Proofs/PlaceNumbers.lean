import TypeSketch.Proofs.EnumValues

/-!
# Numbers stand for routes

A catalog numbers the places that it is asked for, and nothing but the number is asked when two
values of a document share a name. Any number may be given as a parent, also one that no place has.

**Answers** (`answers`). The steps that a catalog is asked for during some operations, with the
places that it gives for them.

**Theorem** (`places_numbered`). Along the answers of a catalog one place is the end of one route
only. Different steps get different numbers and one step gets one number, now and later. No number
is that of the root, and new ones are counted up from one.

An answer stays what the catalog says about that step (`child?_of_mem_answers`), since later
operations only add to what is there. So all answers can be compared in the last catalog.
-/

namespace TypeSketch

namespace Catalog

variable {c : Catalog} {ops : List Operation}

/-! ## Answers -/

/-- The step from a parent that an operation asks for, with the place that is given for it. -/
def answer? (c : Catalog) : Operation → Option ((Int × Step) × Int)
  | .place parent step => some ((parent, step), (c.place parent step).1)
  | .openInterface .. | .setProperties .. | .addEnum .. => none

/-- The steps that are asked for during some operations, with the places that are given, from the
first to the last. -/
def answers (c : Catalog) : List Operation → List ((Int × Step) × Int)
  | [] => []
  | op :: ops => (c.answer? op).toList ++ (c.perform op).answers ops

theorem answers_append (c : Catalog) (ops more : List Operation) :
    c.answers (ops ++ more) = c.answers ops ++ (c.performAll ops).answers more := by
  induction ops generalizing c with
  | nil => rfl
  | cons op ops ih =>
    rw [List.cons_append, answers, ih, answers, List.append_assoc]
    rfl

theorem answers_concat (c : Catalog) (ops : List Operation) (op : Operation) :
    c.answers (ops ++ [op]) = c.answers ops ++ ((c.performAll ops).answer? op).toList := by
  rw [answers_append, answers, answers, List.append_nil]

theorem grows_perform (c : Catalog) (op : Operation) : Grows c (c.perform op) := by
  cases op with
  | place parent step => exact grows_place c parent step
  | openInterface place candidate => exact grows_openInterface c place candidate
  | setProperties name properties => exact grows_setProperties c name properties
  | addEnum place candidate values => exact grows_addEnum c place candidate values

theorem grows_performAll (c : Catalog) (ops : List Operation) : Grows c (c.performAll ops) := by
  induction ops generalizing c with
  | nil => exact .refl c
  | cons op ops ih => exact (grows_perform c op).trans (ih (c.perform op))

/-- What was given for a step is still there after all operations. -/
theorem child?_of_mem_answers {parent below : Int} {step : Step}
    (h : ((parent, step), below) ∈ c.answers ops) :
    (c.performAll ops).child? parent step = some below := by
  induction ops generalizing c with
  | nil => cases h
  | cons op ops ih =>
    rw [answers, List.mem_append, Option.mem_toList] at h
    rcases h with h | h
    · cases op with
      | place parent' step' =>
        cases h
        exact (grows_performAll _ ops).child? (child?_place c parent step)
      | openInterface | setProperties | addEnum => cases h
    · exact ih h

/-! ## Routes along answers -/

/-- A route that was followed from the root, one answer for each of its steps. Anything may have
happened between the answers. -/
inductive Leads (given : List ((Int × Step) × Int)) : Route → Int → Prop
  | root : Leads given [] rootPlace
  | step {route : Route} {parent below : Int} {step : Step} (h : Leads given route parent)
      (hmem : ((parent, step), below) ∈ given) : Leads given (route ++ [step]) below

theorem Leads.mono {given given' : List ((Int × Step) × Int)} (hsub : given ⊆ given')
    {route : Route} {place : Int} (h : Leads given route place) : Leads given' route place := by
  induction h with
  | root => exact .root
  | step _ hmem ih => exact ih.step (hsub hmem)

theorem Leads.placeAt? {route : Route} {place : Int} (h : Leads (c.answers ops) route place) :
    (c.performAll ops).placeAt? route = some place := by
  induction h with
  | root => rfl
  | step _ hmem ih => rw [placeAt?_concat, ih, Option.bind_some, child?_of_mem_answers hmem]

/-- Every route can be followed, whatever has happened before. -/
theorem exists_leads (c : Catalog) (ops : List Operation) (route : Route) :
    ∃ more place, Leads (c.answers (ops ++ more)) route place := by
  induction route using List.reverseRecOn with
  | nil => exact ⟨[], rootPlace, .root⟩
  | append_singleton route step ih =>
    obtain ⟨more, parent, h⟩ := ih
    refine ⟨more ++ [.place parent step], ((c.performAll (ops ++ more)).place parent step).1,
      .step (h.mono ?_) ?_⟩
    · rw [← List.append_assoc, answers_concat]
      exact List.subset_append_left _ _
    · rw [← List.append_assoc, answers_concat]
      exact List.mem_append_right _ (Option.mem_toList.2 rfl)

/-! ## The numbers -/

theorem eraseDups_concat {α : Type} [BEq α] [LawfulBEq α] (xs : List α) (x : α) :
    (xs ++ [x]).eraseDups =
      if x ∈ xs.eraseDups then xs.eraseDups else xs.eraseDups ++ [x] := by
  rw [List.eraseDups_append]
  by_cases h : x ∈ xs
  · simp [List.removeAll, h]
  · simp [List.removeAll, h, List.eraseDups_cons]

def numbers (c : Catalog) : List Int :=
  (List.range c.places.length).map fun i : Nat => (i : Int) + 1

theorem numbers_congr {c' : Catalog} (h : c'.places = c.places) : c'.numbers = c.numbers := by
  rw [numbers, h, numbers]

theorem mem_numbers {n : Int} : n ∈ c.numbers ↔ 0 < n ∧ n ≤ c.places.length := by
  rw [numbers, List.mem_map]
  constructor
  · rintro ⟨i, hi, rfl⟩
    rw [List.mem_range] at hi
    omega
  · rintro ⟨hpos, hle⟩
    exact ⟨(n - 1).toNat, List.mem_range.2 (by omega), by omega⟩

theorem child?_eq_none_iff {parent : Int} {step : Step} :
    c.child? parent step = none ↔ (parent, step) ∉ c.places := by
  rw [child?, Option.map_eq_none_iff, List.findIdx?_eq_none_iff]
  constructor
  · intro h hmem
    exact of_decide_eq_false (h _ hmem) rfl
  · intro h entry hentry
    refine decide_eq_false ?_
    rintro rfl
    exact h hentry

theorem mem_numbers_of_child? {parent below : Int} {step : Step}
    (h : c.child? parent step = some below) : below ∈ c.numbers := by
  obtain ⟨i, hi, rfl⟩ := Option.map_eq_some_iff.1 h
  obtain ⟨hlt, -⟩ := List.findIdx?_eq_some_iff_getElem.1 hi
  rw [mem_numbers]
  omega

/-- A new place comes behind the others. -/
theorem places_place (c : Catalog) (parent : Int) (step : Step) :
    (c.place parent step).2.places =
      if (parent, step) ∈ c.places then c.places else c.places ++ [(parent, step)] := by
  cases h : c.child? parent step with
  | some below =>
    have hmem : (parent, step) ∈ c.places := by
      by_contra hnot
      cases (child?_eq_none_iff.2 hnot).symm.trans h
    rw [place_of_child? h, if_pos hmem]
  | none => rw [place_of_child?_eq_none h, if_neg (child?_eq_none_iff.1 h)]

/-- Its number is one more than the last. -/
theorem numbers_place (c : Catalog) (parent : Int) (step : Step) :
    (c.place parent step).2.numbers =
      if (c.place parent step).1 ∈ c.numbers then c.numbers
      else c.numbers ++ [(c.place parent step).1] := by
  cases h : c.child? parent step with
  | some below => rw [place_of_child? h, if_pos (mem_numbers_of_child? h)]
  | none =>
    have hnew : (c.places.length + 1 : Int) ∉ c.numbers := by
      rw [mem_numbers]
      omega
    rw [place_of_child?_eq_none h, if_neg hnew, numbers, List.length_append, List.length_singleton,
      List.range_succ, List.map_append, List.map_singleton, numbers]

/-- An operation that asks for no place enters none. -/
theorem places_perform {op : Operation} (h : c.answer? op = none) :
    (c.perform op).places = c.places := by
  cases op with
  | place => cases h
  | openInterface place candidate => exact nameFor_places c .interface place candidate
  | setProperties => rfl
  | addEnum place candidate values => exact nameFor_places c .enum place candidate

/-- The places are the steps that were asked for, and the numbers are those that were given. Each
stands where it first came. -/
theorem numbered (ops : List Operation) :
    (performAll {} ops).places = ((answers {} ops).map Prod.fst).eraseDups ∧
      (performAll {} ops).numbers = ((answers {} ops).map Prod.snd).eraseDups := by
  induction ops using List.reverseRecOn with
  | nil => exact ⟨rfl, rfl⟩
  | append_singleton ops op ih =>
    obtain ⟨hsteps, hnumbers⟩ := ih
    rw [performAll_append, answers_concat]
    cases hop : (performAll {} ops).answer? op with
    | none =>
      have hplaces := places_perform hop
      rw [Option.toList_none, List.append_nil, ← hsteps, ← hnumbers]
      exact ⟨hplaces, numbers_congr hplaces⟩
    | some answer =>
      cases op with
      | place parent step =>
        cases hop
        rw [Option.toList_some, List.map_append, List.map_append, List.map_singleton,
          List.map_singleton]
        dsimp only
        rw [eraseDups_concat, eraseDups_concat, ← hsteps, ← hnumbers]
        exact ⟨places_place _ parent step, numbers_place _ parent step⟩
      | openInterface | setProperties | addEnum => cases hop

/-- **Numbers stand for routes.** Whatever operations fill a catalog, and in whatever order: two
routes that are followed along the answers end at one place just if they are the same, and every
route can be followed. No answer is the root. Two answers are the same number just if they are for
the same step from the same parent, whenever they were given. The numbers, each where it was first
given, are those from one on, as many as there are different steps. -/
theorem places_numbered (ops : List Operation) :
    let given := answers {} ops
    (∀ route route' place place', Leads given route place → Leads given route' place' →
      (place = place' ↔ route = route')) ∧
    (∀ route, ∃ more place, Leads (answers {} (ops ++ more)) route place) ∧
    (∀ answer ∈ given, 0 < answer.2) ∧
    (∀ answer ∈ given, ∀ answer' ∈ given, answer.2 = answer'.2 ↔ answer.1 = answer'.1) ∧
    (given.map Prod.snd).eraseDups =
      (List.range (given.map Prod.fst).eraseDups.length).map fun i : Nat => (i : Int) + 1 := by
  obtain ⟨hsteps, hnumbers⟩ := numbered ops
  refine ⟨fun route route' place place' h h' => ⟨?_, ?_⟩, exists_leads {} ops, ?_, ?_, ?_⟩
  · rintro rfl
    exact placeAt?_inj h.placeAt? h'.placeAt?
  · rintro rfl
    exact Option.some.inj (h.placeAt?.symm.trans h'.placeAt?)
  · rintro ⟨⟨parent, step⟩, below⟩ hmem
    exact (mem_numbers.1 (mem_numbers_of_child? (child?_of_mem_answers hmem))).1
  · rintro ⟨⟨parent, step⟩, below⟩ hmem ⟨⟨parent', step'⟩, below'⟩ hmem'
    have h := child?_of_mem_answers hmem
    have h' := child?_of_mem_answers hmem'
    constructor
    · rintro rfl
      obtain ⟨rfl, rfl⟩ := child?_inj h h'
      rfl
    · intro he
      cases he
      exact Option.some.inj (h.symm.trans h')
  · rw [← hnumbers, ← hsteps, numbers]

end Catalog

end TypeSketch
