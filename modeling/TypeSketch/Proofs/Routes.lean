import TypeSketch.Proofs.Growth
import Mathlib.Data.List.Induction

/-!
# Routes

A route is the sequence of steps from the root of a document to one of its values, without the index
of an array item. A catalog knows the route by a number, the place to which it leads.

**Routes in a catalog** (`placeAt?`). A route is followed through the list of entered steps. Its
names are those of the place at its end (`nameAt?`).

**Theorem** (`placeAt?_inj`). Routes that lead to one place are the same.

**Routes in a document** (`Json.nodes`). All values of a document with their routes, an enclosing
value before those inside it, and otherwise in the order of the document.
-/

namespace TypeSketch

/-- The steps from the root of a document. -/
abbrev Route := List Step

namespace Catalog

/-! ## Routes in a catalog -/

/-- The place to which a route leads from a place, if all its steps are entered. -/
def follow? (c : Catalog) (place : Int) : Route → Option Int
  | [] => some place
  | step :: rest => (c.child? place step).bind fun below => c.follow? below rest

/-- The place to which a route leads from the root. -/
def placeAt? (c : Catalog) (route : Route) : Option Int := c.follow? rootPlace route

/-- The name that a route has as an interface or as an enum. -/
def nameAt? (c : Catalog) (kind : Kind) (route : Route) : Option String :=
  (c.placeAt? route).bind fun place => c.names.find? (kind, place)

variable {c c' : Catalog}

theorem follow?_concat (place : Int) (route : Route) (step : Step) :
    c.follow? place (route ++ [step]) =
      (c.follow? place route).bind fun below => c.child? below step := by
  induction route generalizing place with
  | nil => simp [follow?]
  | cons s rest ih =>
    simp only [List.cons_append, follow?, ih, Option.bind_assoc]

theorem placeAt?_concat (route : Route) (step : Step) :
    c.placeAt? (route ++ [step]) = (c.placeAt? route).bind fun below => c.child? below step :=
  follow?_concat rootPlace route step

theorem child?_ne_root {parent below : Int} {step : Step} (h : c.child? parent step = some below) :
    below ≠ rootPlace := by
  obtain ⟨i, -, rfl⟩ := Option.map_eq_some_iff.1 h
  simp only [rootPlace]
  omega

/-- A place is below one parent, by one step. -/
theorem child?_inj {parent parent' below : Int} {step step' : Step}
    (h : c.child? parent step = some below) (h' : c.child? parent' step' = some below) :
    parent = parent' ∧ step = step' := by
  obtain ⟨i, hi, rfl⟩ := Option.map_eq_some_iff.1 h
  obtain ⟨j, hj, hij⟩ := Option.map_eq_some_iff.1 h'
  have hij : j = i := by omega
  subst hij
  obtain ⟨_, hp, -⟩ := List.findIdx?_eq_some_iff_getElem.1 hi
  obtain ⟨_, hp', -⟩ := List.findIdx?_eq_some_iff_getElem.1 hj
  have he := (of_decide_eq_true hp).symm.trans (of_decide_eq_true hp')
  exact Prod.mk.inj he

theorem placeAt?_inj {route route' : Route} {place : Int} (h : c.placeAt? route = some place)
    (h' : c.placeAt? route' = some place) : route = route' := by
  induction route using List.reverseRecOn generalizing route' place with
  | nil =>
    cases Option.some.inj h
    rcases List.eq_nil_or_concat route' with rfl | ⟨rest, step, rfl⟩
    · rfl
    · rw [List.concat_eq_append, placeAt?_concat] at h'
      obtain ⟨below, -, hc⟩ := Option.bind_eq_some_iff.1 h'
      exact absurd rfl (child?_ne_root hc)
  | append_singleton rest step ih =>
    rw [placeAt?_concat] at h
    obtain ⟨below, hb, hc⟩ := Option.bind_eq_some_iff.1 h
    rcases List.eq_nil_or_concat route' with rfl | ⟨rest', step', rfl⟩
    · cases Option.some.inj h'
      exact absurd rfl (child?_ne_root hc)
    · rw [List.concat_eq_append, placeAt?_concat] at h'
      obtain ⟨below', hb', hc'⟩ := Option.bind_eq_some_iff.1 h'
      obtain ⟨rfl, rfl⟩ := child?_inj hc hc'
      rw [ih hb hb', List.concat_eq_append]

theorem Grows.placeAt? (h : Grows c c') {route : Route} {place : Int}
    (hp : c.placeAt? route = some place) : c'.placeAt? route = some place := by
  induction route using List.reverseRecOn generalizing place with
  | nil => exact hp
  | append_singleton rest step ih =>
    rw [placeAt?_concat] at hp ⊢
    obtain ⟨below, hb, hc⟩ := Option.bind_eq_some_iff.1 hp
    rw [ih hb, Option.bind_some, h.child? hc]

theorem Grows.nameAt? (h : Grows c c') {kind : Kind} {route : Route} {name : String}
    (hn : c.nameAt? kind route = some name) : c'.nameAt? kind route = some name := by
  obtain ⟨place, hp, hk⟩ := Option.bind_eq_some_iff.1 hn
  rw [Catalog.nameAt?, h.placeAt? hp, Option.bind_some, h.find? hk]

/-- The step below a route leads to the place that is entered for it. -/
theorem placeAt?_place {route : Route} {parent : Int} (h : c.placeAt? route = some parent)
    (step : Step) :
    (c.place parent step).2.placeAt? (route ++ [step]) = some (c.place parent step).1 := by
  rw [placeAt?_concat, (grows_place c parent step).placeAt? h, Option.bind_some, child?_place]

/-- A route has the name that was taken at its place. -/
theorem nameAt?_openInterface {route : Route} {place : Int} (h : c.placeAt? route = some place)
    (candidate : String) : (c.openInterface place candidate).2.nameAt? .interface route =
      some (c.openInterface place candidate).1 := by
  rw [nameAt?, (grows_openInterface c place candidate).placeAt? h, Option.bind_some]
  exact find?_nameFor c .interface place candidate

theorem nameAt?_addEnum {route : Route} {place : Int} (h : c.placeAt? route = some place)
    (candidate : String) (values : List Text) :
    (c.addEnum place candidate values).2.nameAt? .enum route =
      some (c.addEnum place candidate values).1 := by
  rw [nameAt?, (grows_addEnum c place candidate values).placeAt? h, Option.bind_some, addEnum_snd]
  exact find?_nameFor c .enum place candidate

/-- What an interface holds has nothing to do with routes. -/
@[simp] theorem nameAt?_setProperties (name : String) (properties : Properties) (kind : Kind)
    (route : Route) : (c.setProperties name properties).nameAt? kind route =
      c.nameAt? kind route := by
  have key (place : Int) : (c.setProperties name properties).follow? place route =
      c.follow? place route := by
    induction route generalizing place with
    | nil => rfl
    | cons step rest ih =>
      rw [follow?, follow?]
      exact congrArg _ (funext ih)
  rw [nameAt?, placeAt?, key]
  rfl

end Catalog

/-! ## Routes in a document -/

namespace Json

mutual

/-- The values of a document with their routes, when the document itself has a given route. -/
def nodes (route : Route) : Json → List (Route × Json)
  | .array items => (route, .array items) :: nodesOfItems (route ++ [.item]) items
  | .object members => (route, .object members) :: nodesOfMembers route members
  | v => [(route, v)]

def nodesOfItems (route : Route) : List Json → List (Route × Json)
  | [] => []
  | item :: rest => item.nodes route ++ nodesOfItems route rest

def nodesOfMembers (route : Route) : List (Text × Json) → List (Route × Json)
  | [] => []
  | (key, value) :: rest => value.nodes (route ++ [.member key]) ++ nodesOfMembers route rest

end

end Json

end TypeSketch
