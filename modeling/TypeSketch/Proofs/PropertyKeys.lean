import TypeSketch.Proofs.Blocks
import TypeSketch.Proofs.FreshNames

/-!
# The keys of an interface

The keys of an interface are rewritten one by one, and two of them may become the same. Then the
later one gets a number. Keys are quoted only after that.

**Theorem** (`properties_prepared`). The written keys are different. Each is a rewritten key, with
the least number behind it that makes it differ from those before it, if it has to. Nothing that
comes behind a key changes it.

**Theorem** (`unshared_key`). A key whose rewritten form is that of no other key is written without
a number, unless an earlier key has got a number and reads like it now. So three keys can get in
each other's way (`unshared_key_numbered`).
-/

namespace TypeSketch

open Fresh (Successive)

namespace Declaration

open Text

/-- The names of some keys in an interface, before they are quoted. -/
def propertyNames (o : Options) (keys : List Text) : List Text :=
  Fresh.assign [] (keys.map o.writtenName)

variable (o : Options)

theorem successive_propertyNames (keys : List Text) :
    Successive (keys.map o.writtenName) (propertyNames o keys) := Fresh.successive_assign _

theorem length_propertyNames (keys : List Text) : (propertyNames o keys).length = keys.length := by
  rw [propertyNames, Fresh.length_assign, List.length_map]

theorem map_fst_properties (entries : List (Text × TypeExpr)) :
    (properties o entries).map Prod.fst =
      (propertyNames o (entries.map Prod.fst)).map writtenKey := by
  rw [properties, List.map_fst_zip (by simp), propertyNames, List.map_map]
  rfl

theorem map_snd_properties (entries : List (Text × TypeExpr)) :
    (properties o entries).map Prod.snd = entries.map Prod.snd := by
  rw [properties, List.map_snd_zip (by simp)]

theorem properties_eq_zip (entries : List (Text × TypeExpr)) :
    properties o entries = ((propertyNames o (entries.map Prod.fst)).map writtenKey).zip
      (entries.map Prod.snd) :=
  List.zip_of_prod (map_fst_properties o entries) (map_snd_properties o entries)

theorem writtenKey_inj {s t : Text} : writtenKey s = writtenKey t ↔ s = t := by
  constructor
  · intro h
    have hcolon : writtenKey s ++ [.char ':'] = writtenKey t ++ [.char ':'] := by rw [h]
    exact (writtenKey_append_inj (Or.inl rfl) (Or.inl rfl) hcolon).1
  · rintro rfl
    rfl

/-- Keys that stay as they are stay different. -/
theorem nodup_map_writtenName {o : Options} (h : o.camelCase = false) {keys : List Text}
    (hkeys : keys.Nodup) : (keys.map o.writtenName).Nodup := by
  have hsame : o.writtenName = id := by
    funext key
    simp [Options.writtenName, h]
  rwa [hsame, List.map_id]

theorem properties_prefix (xs ys : List (Text × TypeExpr)) :
    properties o xs <+: properties o (xs ++ ys) := by
  obtain ⟨more, hmore⟩ : propertyNames o (xs.map Prod.fst) <+:
      propertyNames o ((xs ++ ys).map Prod.fst) := by
    rw [List.map_append, propertyNames, propertyNames, List.map_append]
    exact Fresh.assign_prefix [] _ _
  have hlength : ((propertyNames o (xs.map Prod.fst)).map writtenKey).length =
      (xs.map Prod.snd).length := by simp [length_propertyNames]
  rw [properties_eq_zip o (xs ++ ys), ← hmore, List.map_append, List.map_append,
    List.zip_append hlength, ← properties_eq_zip]
  exact List.prefix_append _ _

/-- **The properties of an interface.** There is one for every key, in the order of the keys and
with the types as they are. The written keys are different. Each is the rewritten key, or that with
the least number from 2 on that makes it differ from all names before it, quoted if need be. The
keys are written like single keys just if the rewritten keys are different, as they always are
without camel case. Properties that come behind change nothing. -/
theorem properties_prepared (p : Properties) :
    let written := (properties o p.entries).map Prod.fst
    let rewritten := p.keys.map o.writtenName
    (properties o p.entries).map Prod.snd = p.values ∧
    written.Nodup ∧
    (∃ names, Successive rewritten names ∧ written = names.map writtenKey) ∧
    (written = p.keys.map (propertyKey o) ↔ rewritten.Nodup) ∧
    (o.camelCase = false → rewritten.Nodup) ∧
    ∀ more : Properties, p.entries <+: more.entries →
      properties o p.entries <+: properties o more.entries := by
  intro written rewritten
  have hnames := successive_propertyNames o p.keys
  have hwritten : written = (propertyNames o p.keys).map writtenKey :=
    map_fst_properties o p.entries
  refine ⟨map_snd_properties o p.entries, ?_, ⟨_, hnames, hwritten⟩, ?_, ?_, ?_⟩
  · rw [hwritten]
    exact hnames.nodup.map fun _ _ => writtenKey_inj.1
  · have hsingle : p.keys.map (propertyKey o) = rewritten.map writtenKey := by
      rw [List.map_map]
      rfl
    rw [hwritten, hsingle, List.map_inj_right fun _ _ => writtenKey_inj.1, hnames.eq_iff]
  · intro ho
    exact nodup_map_writtenName ho p.nodup
  · rintro more ⟨rest, hrest⟩
    rw [← hrest]
    exact properties_prefix o p.entries rest

/-! ## Keys that are like no other key -/

section

variable {p : Properties} {before after : List Text} {key : Text}

theorem map_writtenName_split (hp : p.keys = before ++ key :: after) :
    p.keys.map o.writtenName =
      before.map o.writtenName ++ o.writtenName key :: after.map o.writtenName := by
  rw [hp, List.map_append, List.map_cons]

/-- The earlier keys are written as if there were no others. -/
theorem take_map_fst_properties (hp : p.keys = before ++ key :: after) :
    ((properties o p.entries).map Prod.fst).take before.length =
      (propertyNames o before).map writtenKey := by
  have hbefore : propertyNames o before <+: propertyNames o p.keys := by
    rw [propertyNames, propertyNames, map_writtenName_split o hp]
    exact Fresh.assign_prefix [] _ _
  have htake := List.prefix_iff_eq_take.1 (hbefore.map writtenKey)
  rw [List.length_map, length_propertyNames] at htake
  rw [map_fst_properties]
  exact htake.symm

theorem exists_next_properties (hp : p.keys = before ++ key :: after) : ∃ name,
    ((properties o p.entries).map Prod.fst)[before.length]? = some (writtenKey name) ∧
      Fresh.Next (propertyNames o before) (o.writtenName key) name := by
  obtain ⟨name, hname, hnext⟩ := Fresh.next_getElem?_assign (before.map o.writtenName)
    (after.map o.writtenName) (o.writtenName key)
  rw [← map_writtenName_split o hp, List.length_map] at hname
  refine ⟨name, ?_, hnext⟩
  rw [map_fst_properties, List.getElem?_map]
  exact congrArg (Option.map writtenKey) hname

/-- Without camel case no earlier key has the name of a key. -/
theorem writtenName_not_mem_propertyNames {o : Options} (ho : o.camelCase = false)
    (hp : p.keys = before ++ key :: after) : o.writtenName key ∉ propertyNames o before := by
  have hnodup : (p.keys.map o.writtenName).Nodup := nodup_map_writtenName ho p.nodup
  rw [map_writtenName_split o hp, List.nodup_append] at hnodup
  obtain ⟨hbefore, -, hdisjoint⟩ := hnodup
  rw [propertyNames, Fresh.assign_of_nodup hbefore fun _ _ => List.not_mem_nil]
  intro hm
  exact hdisjoint _ hm _ List.mem_cons_self rfl

/-- **Keys whose rewritten form is that of no other key.** Such a key is written as this form,
without a number, unless an earlier key is written so. Then the key gets a number too. Two keys
before it have the same form in that case, and the form of the key is theirs with numbers behind it.
Without camel case the key never gets a number. -/
theorem unshared_key (hp : p.keys = before ++ key :: after)
    (halone : o.writtenName key ∉ (before ++ after).map o.writtenName) :
    let written := (properties o p.entries).map Prod.fst
    (propertyKey o key ∉ written.take before.length →
      written[before.length]? = some (propertyKey o key)) ∧
    (propertyKey o key ∈ written.take before.length →
      (∃ n, 2 ≤ n ∧
        written[before.length]? = some (writtenKey (Numbered.numbered (o.writtenName key) n))) ∧
      ∃ twice ns, [twice, twice].Sublist (before.map o.writtenName) ∧ ns ≠ [] ∧
        (∀ n ∈ ns, 2 ≤ n) ∧ o.writtenName key = ns.foldl Numbered.numbered twice) ∧
    (o.camelCase = false → written[before.length]? = some (propertyKey o key)) := by
  intro written
  obtain ⟨name, hat, hnext⟩ := exists_next_properties o hp
  have hearlier : propertyKey o key ∈ written.take before.length ↔
      o.writtenName key ∈ propertyNames o before := by
    show _ ∈ ((properties o p.entries).map Prod.fst).take before.length ↔ _
    rw [take_map_fst_properties o hp]
    exact List.mem_map_of_injective fun _ _ => writtenKey_inj.1
  refine ⟨fun hfree => ?_, fun htaken => ⟨?_, ?_⟩, fun ho => ?_⟩
  · cases hnext with
    | plain => exact hat
    | suffixed hmem => exact absurd (hearlier.2 hmem) hfree
  · cases hnext with
    | plain hfree => exact absurd (hearlier.1 htaken) hfree
    | suffixed _ htwo _ _ => exact ⟨_, htwo, hat⟩
  · refine (successive_propertyNames o before).exists_twice (hearlier.1 htaken) fun hm => ?_
    rw [List.map_append] at halone
    exact halone (List.mem_append_left _ hm)
  · cases hnext with
    | plain => exact hat
    | suffixed hmem => exact absurd hmem (writtenName_not_mem_propertyNames ho hp)

end

/-- Two keys that become the same in camel case, and a key that reads like the second of them. -/
def displaced : Properties :=
  Table.ofList [("user_name", .number), ("userName", .string), ("userName2", .boolean)]

theorem unshared_key_displaced :
    let o : Options := { camelCase := true }
    let before : List Text := ["user_name", "userName"]
    let key : Text := "userName2"
    let written := (properties o displaced.entries).map Prod.fst
    displaced.keys = before ++ [key] ∧
    o.writtenName key ∉ (before ++ []).map o.writtenName ∧
    (∃ n, 2 ≤ n ∧
      written[before.length]? = some (writtenKey (Numbered.numbered (o.writtenName key) n))) ∧
    ∃ twice ns, [twice, twice].Sublist (before.map o.writtenName) ∧ ns ≠ [] ∧
      (∀ n ∈ ns, 2 ≤ n) ∧ o.writtenName key = ns.foldl Numbered.numbered twice := by
  intro o before key written
  have hp : displaced.keys = before ++ [key] := by decide +kernel
  have halone : o.writtenName key ∉ (before ++ []).map o.writtenName := by decide +kernel
  have htaken : propertyKey o key ∈ written.take before.length := by decide +kernel
  exact ⟨hp, halone, (unshared_key o hp halone).2.1 htaken⟩

/-- A key whose rewritten form is that of no other key, and which gets a number all the same. -/
theorem unshared_key_numbered :
    let o : Options := { camelCase := true }
    let others : List Text := ["user_name", "userName"]
    let key : Text := "userName2"
    displaced.keys = others ++ [key] ∧ o.writtenName key ∉ others.map o.writtenName ∧
    (properties o displaced.entries).map Prod.fst = ["userName", "userName2", "userName22"] ∧
    ((properties o displaced.entries).map Prod.fst)[2]? ≠ some (propertyKey o key) := by
  decide +kernel

end Declaration

end TypeSketch
