import TypeSketch.Proofs.Contents
import TypeSketch.Proofs.PlainNames

/-!
# The values at a route

All items of an array have one route, so there may be many values at a route. They can be found step
by step from the root (`valuesAt`), or by going through all values of the document (`valuesIn`).

**Theorem** (`valuesIn_nodes`). Both ways give the same values in the same order.

What a walk makes of a route is read off these values: the last object, the strings of the arrays,
and whether there is a value that needs a declaration.
-/

namespace TypeSketch

open Catalog

namespace Json

/-! ## Step by step -/

def children : Step → Json → List Json
  | .item, .array items => items
  | .member key, .object members => (members.filter fun m => m.1 = key).map Prod.snd
  | _, _ => []

/-- The values at a route of a document, in their order. -/
def valuesAt : Route → Json → List Json
  | [], v => [v]
  | step :: rest, v => (v.children step).flatMap (valuesAt rest)

theorem valuesAt_append (route rest : Route) (v : Json) :
    v.valuesAt (route ++ rest) = (v.valuesAt route).flatMap (valuesAt rest) := by
  induction route generalizing v with
  | nil => rw [List.nil_append, valuesAt, List.flatMap_singleton]
  | cons step route ih =>
    rw [List.cons_append, valuesAt, valuesAt, List.flatMap_assoc, funext ih]

/-- What is one step below a value at a route is at the route that goes on by that step. -/
theorem mem_valuesAt_concat {v u w : Json} {route : Route} {step : Step}
    (hu : u ∈ v.valuesAt route) (hw : w ∈ u.children step) : w ∈ v.valuesAt (route ++ [step]) := by
  rw [valuesAt_append]
  refine List.mem_flatMap.2 ⟨u, hu, ?_⟩
  rw [valuesAt]
  exact List.mem_flatMap.2 ⟨w, hw, List.mem_singleton_self w⟩

/-! ## Among all values -/

/-- The values at a route among some values. -/
def valuesIn (route : Route) (values : List (Route × Json)) : List Json :=
  values.filterMap fun value => if value.1 = route then some value.2 else none

theorem mem_valuesIn {route : Route} {values : List (Route × Json)} {v : Json} :
    v ∈ valuesIn route values ↔ (route, v) ∈ values := by
  simp [valuesIn, and_comm]

theorem valuesIn_append (route : Route) (values values' : List (Route × Json)) :
    valuesIn route (values ++ values') = valuesIn route values ++ valuesIn route values' :=
  List.filterMap_append

theorem valuesIn_cons_of_ne {route route' : Route} (h : route' ≠ route) (v : Json)
    (values : List (Route × Json)) :
    valuesIn route ((route', v) :: values) = valuesIn route values :=
  List.filterMap_cons_none (if_neg h)

/-- Values below other routes do not count. -/
theorem valuesIn_eq_nil {route : Route} {values : List (Route × Json)}
    (h : ∀ value ∈ values, ∃ above, above <+: value.1 ∧ ¬above <+: route) :
    valuesIn route values = [] := by
  refine List.filterMap_eq_nil_iff.2 fun value hv => if_neg ?_
  rintro rfl
  obtain ⟨above, hp, hn⟩ := h value hv
  exact hn hp

theorem append_cons_ne (base : Route) (step : Step) (rest : Route) : base ≠ base ++ step :: rest :=
  fun h => List.cons_ne_nil _ _ (List.self_eq_append_right.1 h)

theorem prefix_append_cons {base rest : Route} {step step' : Step} :
    base ++ [step] <+: base ++ step' :: rest ↔ step = step' := by
  rw [List.prefix_append_right_inj, List.cons_prefix_cons]
  simp

/-- Behind a value come those inside it, whose routes go on from its own. -/
theorem valuesIn_nodes_self (route : Route) (v : Json) : valuesIn route (v.nodes route) = [v] := by
  have hself (inner : List (Route × Json))
      (h : ∀ value ∈ inner, ∃ step, route ++ [step] <+: value.1) :
      valuesIn route ((route, v) :: inner) = [v] := by
    have hinner : valuesIn route inner = [] := by
      refine valuesIn_eq_nil fun value hv => ?_
      obtain ⟨step, hs⟩ := h value hv
      exact ⟨_, hs, fun hp => absurd hp.length_le (by simp)⟩
    rw [← List.singleton_append, valuesIn_append, hinner]
    simp [valuesIn]
  cases v with
  | null | bool | number | string | other => exact hself [] (by simp)
  | array items => exact hself _ fun value hv => ⟨_, prefix_of_mem_nodesOfItems hv⟩
  | object members =>
    refine hself _ fun value hv => ?_
    obtain ⟨key, hk⟩ := prefix_of_mem_nodesOfMembers hv
    exact ⟨_, hk⟩

mutual

/-- Below a value the values at a route are found step by step. -/
theorem valuesIn_nodes (base rest : Route) (v : Json) :
    valuesIn (base ++ rest) (v.nodes base) = v.valuesAt rest := by
  match rest with
  | [] => rw [List.append_nil, valuesIn_nodes_self, valuesAt]
  | step :: rest =>
    have hne := append_cons_ne base step rest
    match v with
    | .null | .bool _ | .number _ | .string _ | .other =>
      refine (valuesIn_cons_of_ne hne _ []).trans ?_
      cases step <;> rfl
    | .array items =>
      rw [nodes, valuesIn_cons_of_ne hne, valuesAt]
      cases step with
      | item =>
        rw [List.append_cons, valuesIn_nodesOfItems]
        rfl
      | member key =>
        refine valuesIn_eq_nil fun value hv => ⟨_, prefix_of_mem_nodesOfItems hv, fun hp => ?_⟩
        cases prefix_append_cons.1 hp
    | .object members =>
      rw [nodes, valuesIn_cons_of_ne hne, valuesAt]
      cases step with
      | item =>
        refine valuesIn_eq_nil fun value hv => ?_
        obtain ⟨key, hk⟩ := prefix_of_mem_nodesOfMembers hv
        refine ⟨_, hk, fun hp => ?_⟩
        cases prefix_append_cons.1 hp
      | member key => exact valuesIn_nodesOfMembers base key rest members

theorem valuesIn_nodesOfItems (base rest : Route) (items : List Json) :
    valuesIn (base ++ rest) (nodesOfItems base items) = items.flatMap (valuesAt rest) := by
  match items with
  | [] => rfl
  | item :: others =>
    rw [nodesOfItems, valuesIn_append, valuesIn_nodes, valuesIn_nodesOfItems, List.flatMap_cons]

theorem valuesIn_nodesOfMembers (base : Route) (key : Text) (rest : Route)
    (members : List (Text × Json)) :
    valuesIn (base ++ .member key :: rest) (nodesOfMembers base members) =
      ((Json.object members).children (.member key)).flatMap (valuesAt rest) := by
  match members with
  | [] => rfl
  | (name, v) :: others =>
    rw [nodesOfMembers, valuesIn_append, valuesIn_nodesOfMembers, children, children,
      List.filter_cons]
    by_cases hname : name = key
    · subst hname
      rw [List.append_cons base, valuesIn_nodes]
      simp
    · have hnil :
          valuesIn (base ++ .member key :: rest) (v.nodes (base ++ [.member name])) = [] := by
        refine valuesIn_eq_nil fun value hv => ⟨_, prefix_of_mem_nodes hv, fun hp => hname ?_⟩
        exact Step.member.inj (prefix_append_cons.1 hp)
      rw [hnil]
      simp [hname]

end

/-! ## What is at a route -/

variable {v : Json} {route : Route}

theorem mem_valuesAt {u : Json} : u ∈ v.valuesAt route ↔ (route, u) ∈ v.nodes [] := by
  rw [← valuesIn_nodes [] route v, mem_valuesIn]
  rfl

theorem objectsAt_nodes : objectsAt route (v.nodes []) = (v.valuesAt route).filterMap members? := by
  rw [← valuesIn_nodes [] route v, valuesIn, List.filterMap_filterMap]
  refine List.filterMap_congr fun value _ => ?_
  show (if value.1 = route then _ else _) = (if value.1 = route then _ else _ : Option Json).bind _
  split <;> rfl

/-- The last object at a route is one of the values there. -/
theorem mem_valuesAt_of_getLast? {members : List (Text × Json)}
    (h : (objectsAt route (v.nodes [])).getLast? = some members) :
    .object members ∈ v.valuesAt route := by
  have hm := List.mem_of_getLast? h
  rw [objectsAt_nodes, List.mem_filterMap] at hm
  obtain ⟨u, hu, hmembers⟩ := hm
  cases u with
  | object => cases hmembers; exact hu
  | null | bool | number | string | array | other => cases hmembers

theorem stringsAt_nodes {o : Options} :
    stringsAt o route (v.nodes []) = (v.valuesAt route).flatMap (enumStrings o) := by
  rw [← valuesIn_nodes [] route v, valuesIn, stringsAt]
  induction v.nodes [] with
  | nil => rfl
  | cons value rest ih =>
    rw [List.flatMap_cons, ih, List.filterMap_cons]
    by_cases hr : value.1 = route <;> simp [hr]

theorem needs_iff {o : Options} {kind : Kind} :
    v.Needs o kind route ↔ ∃ u ∈ v.valuesAt route, declares o kind u = true := by
  simp only [Needs, mem_routesOf, mem_valuesAt]

end Json

end TypeSketch
