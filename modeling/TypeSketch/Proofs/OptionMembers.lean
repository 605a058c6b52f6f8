import TypeSketch.Options
import Mathlib.Data.List.Basic

/-!
# The members of an options file

The members of a document are taken one after the other. Each of them is taken over or at fault, and
at the first fault the reading ends. Only the eight names of the switches should count
(`Switch.spellings`), and only a value that is no truth value should be a fault (`Misfit`).

The reserved names count, too. A value for one of them is at fault if it is no truth value, and for
some of them even if it is one (`Refused`).

**Theorem** (`folded_iff`). Only the names of the switches count, just if nothing is refused before
the first misfit.

**Theorem** (`options_folded`). The same, with the values of the switches, and with the listing of
the options that are read.
-/

namespace TypeSketch

/-! ## Names of switches -/

namespace Switch

/-- The names of the switches in a file. Every switch has two. -/
def spellings : List String := all.flatMap fun w => [w.name, w.camelName]

theorem named?_eq_some_iff {s : Text} {w : Switch} :
    named? s = some w ↔ s = Text.ofString w.name ∨ s = Text.ofString w.camelName := by
  constructor
  · intro h
    simpa using List.find?_some h
  · rintro (rfl | rfl) <;> cases w <;> decide +kernel

theorem mem_spellings_iff {s : Text} :
    s ∈ spellings.map Text.ofString ↔ ∃ w, named? s = some w := by
  have hall (w : Switch) : w ∈ all := by cases w <;> decide
  simp only [spellings, List.mem_map, List.mem_flatMap, List.mem_cons, List.not_mem_nil, or_false,
    named?_eq_some_iff]
  constructor
  · rintro ⟨name, ⟨w, -, rfl | rfl⟩, rfl⟩
    · exact ⟨w, .inl rfl⟩
    · exact ⟨w, .inr rfl⟩
  · rintro ⟨w, rfl | rfl⟩
    · exact ⟨w.name, ⟨w, hall w, .inl rfl⟩, rfl⟩
    · exact ⟨w.camelName, ⟨w, hall w, .inr rfl⟩, rfl⟩

end Switch

namespace Options

/-! ## What the members give -/

/-- The value that a member of an options file gives to a switch. -/
def assigned? (s : Switch) (member : Text × Json) : Option Bool :=
  match member.2 with
  | .bool b => if Switch.named? member.1 = some s then some b else none
  | _ => none

/-- The value that an options file gives to a switch: that of the last member for it, whichever of
the two names it has. -/
def said? (members : List (Text × Json)) (s : Switch) : Option Bool :=
  members.reverse.findSome? (assigned? s)

theorem said?_cons (member : Text × Json) (rest : List (Text × Json)) (s : Switch) :
    said? (member :: rest) s = (said? rest s).or (assigned? s member) := by
  rw [said?, List.reverse_cons, List.findSome?_append, List.findSome?_singleton]
  rfl

/-- A member that names no switch sets nothing. -/
theorem eq_of_assign {o o' : Options} {member : Text × Json}
    (hname : Switch.named? member.1 = none) (h : o.assign member = .ok o') : o' = o := by
  simp only [assign, hname] at h
  split at h
  · split at h
    · cases h
    · exact (Except.ok.inj h).symm
  · cases h
  · exact (Except.ok.inj h).symm

theorem get_of_assign {o o' : Options} {member : Text × Json} (h : o.assign member = .ok o')
    (s : Switch) : o'.get s = (assigned? s member).getD (o.get s) := by
  obtain ⟨key, value⟩ := member
  cases hname : Switch.named? key with
  | none =>
    have hnone : assigned? s (key, value) = none := by
      cases value <;> simp [assigned?, hname]
    rw [eq_of_assign hname h, hnone, Option.getD_none]
  | some w =>
    cases value with
    | bool b =>
      simp only [assign, hname] at h
      rw [← Except.ok.inj h, get_set]
      by_cases hs : s = w
      · simp [assigned?, hname, hs]
      · simp [assigned?, hname, hs, Ne.symm hs]
    | _ =>
      simp only [assign, hname] at h
      cases h

theorem get_of_assignAll {o o' : Options} {members : List (Text × Json)}
    (h : assignAll o members = .ok o') (s : Switch) :
    o'.get s = (said? members s).getD (o.get s) := by
  induction members generalizing o with
  | nil =>
    rw [assignAll] at h
    cases h
    rfl
  | cons member rest ih =>
    rw [assignAll] at h
    split at h
    · next o₁ hfirst =>
      rw [ih h, get_of_assign hfirst, said?_cons]
      cases said? rest s <;> rfl
    · cases h

theorem eq_of_get {o o' : Options} (h : ∀ s, o.get s = o'.get s) : o = o' := by
  have henums := h .detectEnums
  have hcase := h .camelCase
  have hoptional := h .markOptional
  have hnulls := h .strictNulls
  cases o
  cases o'
  simp_all [get]

/-! ## Faults -/

/-- The members that name a switch. -/
def spelled (members : List (Text × Json)) : List (Text × Json) :=
  members.filter fun member => member.1 ∈ Switch.spellings.map Text.ofString

def IsTruth (v : Json) : Prop := ∃ b, v = .bool b

/-- A member that names a switch and has no truth value. -/
structure Misfit (member : Text × Json) : Prop where
  named : member.1 ∈ Switch.spellings.map Text.ofString
  untrue : ¬IsTruth member.2

/-- The reserved names that do not take a truth value either. -/
def unsettable : List String := ["__class__", "__dict__", "__weakref__"]

/-- A member that is not taken over although it names no switch. -/
structure Refused (member : Text × Json) : Prop where
  named : member.1 ∈ reserved.map Text.ofString
  untrue : ¬IsTruth member.2 ∨ member.1 ∈ unsettable.map Text.ofString

/-- Why a member is not taken over, if it is not. -/
def fault? (member : Text × Json) : Option OptionsError :=
  match assign {} member with
  | .ok _ => none
  | .error e => some e

section

variable {member : Text × Json} {o : Options} {e : OptionsError}

/-- Whether a member is at fault does not depend on what was read before. -/
theorem assign_eq_error_iff : o.assign member = .error e ↔ fault? member = some e := by
  obtain ⟨key, value⟩ := member
  have hsame : o.assign (key, value) = .error e ↔ assign {} (key, value) = .error e := by
    simp only [assign]
    split
    · exact iff_of_false nofun nofun
    · exact Iff.rfl
    · split
      · split
        · exact Iff.rfl
        · exact iff_of_false nofun nofun
      · exact Iff.rfl
      · exact iff_of_false nofun nofun
  rw [hsame, fault?]
  split
  · next h => simp [h]
  · next h => simp [h]

theorem fault?_of_named {w : Switch} (h : Switch.named? member.1 = some w) :
    fault? member = some e ↔ ¬IsTruth member.2 ∧ e = .notBoolean w.name member.2 := by
  obtain ⟨key, value⟩ := member
  rw [← assign_eq_error_iff (o := {})]
  simp only [assign, h, IsTruth]
  cases value with
  | bool b => simp
  | _ => simp [eq_comm]

theorem find?_reserved_eq_some_iff {s : Text} {name : String} :
    reserved.find? (fun name => s == Text.ofString name) = some name ↔
      name ∈ reserved ∧ s = Text.ofString name := by
  constructor
  · intro h
    exact ⟨List.mem_of_find?_eq_some h, by simpa using List.find?_some h⟩
  · rintro ⟨hname, rfl⟩
    cases hfound : reserved.find? fun name' => Text.ofString name == Text.ofString name' with
    | none => exact absurd (List.find?_eq_none.1 hfound name hname) (by simp)
    | some name' =>
      have hsame : Text.ofString name = Text.ofString name' := by simpa using List.find?_some hfound
      rw [Text.ofString_inj.1 hsame]

theorem named?_of_mem_reserved {name : String} (h : name ∈ reserved) :
    Switch.named? (Text.ofString name) = none := by
  have hall : ∀ name ∈ reserved, Switch.named? (Text.ofString name) = none := by decide +kernel
  exact hall name h

theorem fault?_of_reserved {name : String} (hname : name ∈ reserved)
    (hmember : member.1 = Text.ofString name) :
    fault? member = some e ↔ ¬IsTruth member.2 ∧ e = .notBoolean name member.2 ∨
      IsTruth member.2 ∧ refusal? name member.2 = some e := by
  obtain ⟨key, value⟩ := member
  obtain rfl : key = Text.ofString name := hmember
  have hfound := find?_reserved_eq_some_iff.2 ⟨hname, rfl⟩
  rw [← assign_eq_error_iff (o := {})]
  simp only [assign, named?_of_mem_reserved hname, hfound, IsTruth]
  cases value with
  | bool b => cases hr : refusal? name (.bool b) <;> simp [hr]
  | _ => simp [eq_comm]

theorem fault?_of_other (hnamed : Switch.named? member.1 = none)
    (hother : member.1 ∉ reserved.map Text.ofString) : fault? member = none := by
  obtain ⟨key, value⟩ := member
  have hnone : reserved.find? (fun name => key == Text.ofString name) = none := by
    refine List.find?_eq_none.2 fun name hname hkey => hother ?_
    exact List.mem_map.2 ⟨name, hname, (beq_iff_eq.1 hkey).symm⟩
  rw [fault?, assign, hnamed, hnone]

theorem exists_refusal?_iff {name : String} {v : Json} :
    (∃ e, refusal? name v = some e) ↔ name ∈ unsettable := by
  simp only [refusal?, unsettable, List.mem_cons, List.not_mem_nil, or_false]
  split
  · next h => simp [h]
  · split
    · next h => simp [h]
    · split
      · next h => simp [h]
      · simp_all

theorem Refused.not_spelled (h : Refused member) :
    member.1 ∉ Switch.spellings.map Text.ofString := by
  intro hspelled
  obtain ⟨name, hname, hmember⟩ := List.mem_map.1 h.named
  obtain ⟨w, hw⟩ := Switch.mem_spellings_iff.1 hspelled
  rw [← hmember, named?_of_mem_reserved hname] at hw
  cases hw

theorem Refused.not_misfit (h : Refused member) : ¬Misfit member := fun hmisfit =>
  h.not_spelled hmisfit.named

/-- **What is at fault.** -/
theorem exists_fault?_iff : (∃ e, fault? member = some e) ↔ Misfit member ∨ Refused member := by
  cases hnamed : Switch.named? member.1 with
  | some w =>
    have hspelled := Switch.mem_spellings_iff.2 ⟨w, hnamed⟩
    simp only [fault?_of_named hnamed, exists_and_left, exists_eq, and_true]
    constructor
    · exact fun h => .inl ⟨hspelled, h⟩
    · exact fun h => (h.resolve_right fun hrefused => hrefused.not_spelled hspelled).untrue
  | none =>
    have hnot : ¬Misfit member := by
      intro h
      obtain ⟨w, hw⟩ := Switch.mem_spellings_iff.1 h.named
      rw [hnamed] at hw
      cases hw
    by_cases hreserved : member.1 ∈ reserved.map Text.ofString
    · obtain ⟨name, hname, hmember⟩ := List.mem_map.1 hreserved
      have hsettable : member.1 ∈ unsettable.map Text.ofString ↔ name ∈ unsettable := by
        rw [← hmember, List.mem_map_of_injective fun _ _ => Text.ofString_inj.1]
      have hfault : (∃ e, fault? member = some e) ↔
          ¬IsTruth member.2 ∨ IsTruth member.2 ∧ name ∈ unsettable := by
        simp only [fault?_of_reserved hname hmember.symm, exists_or, exists_and_left, exists_eq,
          and_true, exists_refusal?_iff]
      rw [hfault, ← hsettable]
      constructor
      · rintro (h | ⟨-, h⟩)
        · exact .inr ⟨hreserved, .inl h⟩
        · exact .inr ⟨hreserved, .inr h⟩
      · intro h
        exact or_and_left.2 ⟨(Classical.em _).symm, (h.resolve_left hnot).untrue⟩
    · rw [fault?_of_other hnamed hreserved]
      exact iff_of_false (by simp) (not_or.2 ⟨hnot, fun h => hreserved h.named⟩)

/-- What is said of a member that is refused is never what is said of a misfit. -/
theorem ne_of_fault?_refused (h : Refused member) (he : fault? member = some e)
    {other : Text × Json} (hother : Misfit other) : fault? other ≠ some e := by
  obtain ⟨name, hname, hmember⟩ := List.mem_map.1 h.named
  obtain ⟨w, hw⟩ := Switch.mem_spellings_iff.1 hother.named
  rw [ne_eq, fault?_of_named hw, not_and]
  rintro - rfl
  rcases (fault?_of_reserved hname hmember.symm).1 he with ⟨-, hsame⟩ | ⟨-, hrefusal⟩
  · obtain rfl : w.name = name := (OptionsError.notBoolean.inj hsame).1
    have hnamed := Switch.named?_eq_some_iff.2 (.inl (rfl : Text.ofString w.name = _))
    rw [named?_of_mem_reserved hname] at hnamed
    cases hnamed
  · simp only [refusal?] at hrefusal
    split at hrefusal
    · cases hrefusal
    · split at hrefusal
      · cases hrefusal
      · split at hrefusal <;> cases hrefusal

end

/-! ## All members -/

section

variable {members : List (Text × Json)}

/-- The reading ends at the first fault. -/
theorem assignAll_eq_error_iff {o : Options} {e : OptionsError} :
    assignAll o members = .error e ↔ members.findSome? fault? = some e := by
  induction members generalizing o with
  | nil => exact iff_of_false nofun nofun
  | cons member rest ih =>
    rw [assignAll, List.findSome?_cons]
    cases hassign : o.assign member with
    | error e' =>
      rw [assign_eq_error_iff.1 hassign]
      simp
    | ok o' =>
      have hnone : fault? member = none := by
        rw [Option.eq_none_iff_forall_ne_some]
        intro e' he'
        rw [assign_eq_error_iff.2 he'] at hassign
        cases hassign
      rw [hnone]
      exact ih

theorem exists_error_iff {o : Options} : (∃ e, assignAll o members = .error e) ↔
    ∃ member ∈ members, Misfit member ∨ Refused member := by
  simp only [assignAll_eq_error_iff, ← exists_fault?_iff, ← Option.isSome_iff_exists]
  rw [List.findSome?_isSome_iff]

theorem mem_spelled_iff {member : Text × Json} : member ∈ spelled members ↔
    member ∈ members ∧ member.1 ∈ Switch.spellings.map Text.ofString := by
  rw [spelled, List.mem_filter, decide_eq_true_iff]

theorem spelled_cons_of_mem {member : Text × Json}
    (h : member.1 ∈ Switch.spellings.map Text.ofString) (rest : List (Text × Json)) :
    spelled (member :: rest) = member :: spelled rest :=
  List.filter_cons_of_pos (decide_eq_true h)

theorem spelled_cons_of_not_mem {member : Text × Json}
    (h : member.1 ∉ Switch.spellings.map Text.ofString) (rest : List (Text × Json)) :
    spelled (member :: rest) = spelled rest :=
  List.filter_cons_of_neg (by rwa [decide_eq_true_iff])

theorem said?_spelled (s : Switch) : said? (spelled members) s = said? members s := by
  induction members with
  | nil => rfl
  | cons member rest ih =>
    by_cases hmem : member.1 ∈ Switch.spellings.map Text.ofString
    · rw [spelled_cons_of_mem hmem, said?_cons, said?_cons, ih]
    · have hnone : assigned? s member = none := by
        rw [assigned?]
        split
        · exact if_neg fun hs => hmem (Switch.mem_spellings_iff.2 ⟨s, hs⟩)
        · rfl
      rw [spelled_cons_of_not_mem hmem, said?_cons, hnone, Option.or_none, ih]

/-- Among the members that name a switch only misfits are at fault. -/
theorem Misfit.of_mem_spelled {member : Text × Json} (hmem : member ∈ spelled members)
    (h : Misfit member ∨ Refused member) : Misfit member :=
  h.resolve_right fun hrefused => hrefused.not_spelled (mem_spelled_iff.1 hmem).2

/-- Members that name no switch can be left out just if that does not change the first fault. -/
theorem assignAll_spelled_iff : assignAll {} members = assignAll {} (spelled members) ↔
    members.findSome? fault? = (spelled members).findSome? fault? := by
  constructor
  · intro h
    refine Option.ext fun e => ?_
    rw [← assignAll_eq_error_iff (o := {}), ← assignAll_eq_error_iff (o := {}), h]
  · intro h
    cases hr : assignAll {} members with
    | error e => rw [eq_comm, assignAll_eq_error_iff, ← h, ← assignAll_eq_error_iff (o := {}), hr]
    | ok o =>
      cases hs : assignAll {} (spelled members) with
      | error e =>
        rw [assignAll_eq_error_iff, ← h, ← assignAll_eq_error_iff (o := {}), hr] at hs
        cases hs
      | ok o' =>
        have hsame : o = o' := eq_of_get fun s => by
          rw [get_of_assignAll hr, get_of_assignAll hs, said?_spelled]
        rw [hsame]

/-- Nothing is refused that names no switch, unless a misfit stands before it. -/
def Undisturbed (members : List (Text × Json)) : Prop :=
  ∀ before member after, members = before ++ member :: after → Refused member →
    ∃ misfit ∈ before, Misfit misfit

theorem undisturbed_cons {member : Text × Json} :
    Undisturbed (member :: members) ↔ Misfit member ∨ ¬Refused member ∧ Undisturbed members := by
  constructor
  · intro h
    by_cases hmisfit : Misfit member
    · exact .inl hmisfit
    · refine .inr ⟨fun hrefused => ?_, fun before refused after hsplit hrefused => ?_⟩
      · obtain ⟨misfit, hmem, -⟩ := h [] member members rfl hrefused
        cases hmem
      · obtain ⟨misfit, hmem, hm⟩ :=
          h (member :: before) refused after (by rw [hsplit]; rfl) hrefused
        rcases List.mem_cons.1 hmem with rfl | hmem
        · exact absurd hm hmisfit
        · exact ⟨misfit, hmem, hm⟩
  · intro h before refused after hsplit hrefused
    cases before with
    | nil =>
      obtain ⟨rfl, -⟩ := List.cons.inj hsplit
      exact h.elim (absurd · hrefused.not_misfit) (absurd hrefused ·.1)
    | cons first before =>
      obtain ⟨rfl, hrest⟩ := List.cons.inj hsplit
      rcases h with hmisfit | ⟨-, h⟩
      · exact ⟨member, List.mem_cons_self, hmisfit⟩
      · obtain ⟨misfit, hmem, hm⟩ := h before refused after hrest hrefused
        exact ⟨misfit, List.mem_cons_of_mem _ hmem, hm⟩

/-- The first fault is that of a member for a switch just if nothing is refused before it. -/
theorem findSome?_spelled_iff : members.findSome? fault? = (spelled members).findSome? fault? ↔
    Undisturbed members := by
  induction members with
  | nil => exact iff_of_true rfl fun before member after h => by simp at h
  | cons member rest ih =>
    rw [undisturbed_cons]
    by_cases hmisfit : Misfit member
    · obtain ⟨e, he⟩ := exists_fault?_iff.2 (.inl hmisfit)
      rw [spelled_cons_of_mem hmisfit.named, List.findSome?_cons, List.findSome?_cons, he]
      exact iff_of_true rfl (.inl hmisfit)
    by_cases hrefused : Refused member
    · obtain ⟨e, he⟩ := exists_fault?_iff.2 (.inr hrefused)
      rw [spelled_cons_of_not_mem hrefused.not_spelled, List.findSome?_cons, he]
      refine iff_of_false (fun h => ?_) (not_or.2 ⟨hmisfit, fun h => h.1 hrefused⟩)
      obtain ⟨other, hmem, hother⟩ := List.exists_of_findSome?_eq_some h.symm
      have hmisfit' := Misfit.of_mem_spelled hmem (exists_fault?_iff.1 ⟨e, hother⟩)
      exact ne_of_fault?_refused hrefused he hmisfit' hother
    · have hnone : fault? member = none := by
        rw [Option.eq_none_iff_forall_ne_some]
        exact fun e he => (exists_fault?_iff.1 ⟨e, he⟩).elim hmisfit hrefused
      have hspelled : (spelled (member :: rest)).findSome? fault? =
          (spelled rest).findSome? fault? := by
        by_cases hmem : member.1 ∈ Switch.spellings.map Text.ofString
        · rw [spelled_cons_of_mem hmem, List.findSome?_cons, hnone]
        · rw [spelled_cons_of_not_mem hmem]
      rw [hspelled, List.findSome?_cons, hnone]
      exact ih.trans (by simp [hmisfit, hrefused])

end

/-! ## Documents -/

/-- What the members of a document come to if only the names of the switches count. -/
structure Folded (members : List (Text × Json)) (result : Except OptionsError Options) : Prop where
  /-- They are refused just if one of them is a misfit. -/
  refused : (∃ e, result = .error e) ↔ ∃ member ∈ members, Misfit member
  /-- What is said then is that a switch has no truth value. -/
  blamed {e : OptionsError} (h : result = .error e) : ∃ member ∈ members, Misfit member ∧
    ∃ w, Switch.named? member.1 = some w ∧ e = .notBoolean w.name member.2
  /-- Every switch has the value that the last member for it gives, or else its default. -/
  given {o : Options} (h : result = .ok o) (s : Switch) :
    o.get s = (said? members s).getD (({} : Options).get s)
  /-- They come to the same as those of them that name a switch. -/
  ignored : result = ofJson (.object (spelled members))

/-- **Only the names of the switches count, just if nothing is refused before the first misfit.** -/
theorem folded_iff (members : List (Text × Json)) :
    Folded members (ofJson (.object members)) ↔ Undisturbed members := by
  rw [← findSome?_spelled_iff, ← assignAll_spelled_iff]
  constructor
  · exact Folded.ignored
  · intro h
    refine ⟨?_, fun he => ?_, get_of_assignAll, h⟩
    · rw [ofJson, h, exists_error_iff]
      constructor
      · rintro ⟨member, hmem, hfault⟩
        exact ⟨member, (mem_spelled_iff.1 hmem).1, .of_mem_spelled hmem hfault⟩
      · rintro ⟨member, hmem, hmisfit⟩
        exact ⟨member, mem_spelled_iff.2 ⟨hmem, hmisfit.named⟩, .inl hmisfit⟩
    · rw [ofJson, h, assignAll_eq_error_iff] at he
      obtain ⟨member, hmem, hfault⟩ := List.exists_of_findSome?_eq_some he
      obtain ⟨hin, hnamed⟩ := mem_spelled_iff.1 hmem
      obtain ⟨w, hw⟩ := Switch.mem_spellings_iff.1 hnamed
      exact ⟨member, hin, .of_mem_spelled hmem (exists_fault?_iff.1 ⟨_, hfault⟩), w, hw,
        ((fault?_of_named hw).1 hfault).2⟩

/-- Options that are read can be listed unless the name for that stands in the document. -/
theorem relisted_iff {members : List (Text × Json)} {o : Options}
    (h : ofJson (.object members) = .ok o) : relisted members = .ok (some o.toMembers) ↔
      ∀ member ∈ members, member.1 ≠ Text.ofString listingName := by
  have h : assignAll {} members = .ok o := h
  have hany : (members.any fun member => member.1 == Text.ofString listingName) = false ↔
      ∀ member ∈ members, member.1 ≠ Text.ofString listingName := by
    simp only [List.any_eq_false, beq_iff_eq, ne_eq]
  rw [relisted, h, ← hany]
  cases members.any fun member => member.1 == Text.ofString listingName <;> simp [Except.map]

/-- Listed options are read back. -/
theorem ofJson_toMembers (o : Options) : ofJson (.object o.toMembers) = .ok o := by
  have hassign (base : Options) (w : Switch) (b : Bool) :
      base.assign (Text.ofString w.name, .bool b) = .ok (base.set w b) := by
    simp only [assign, Switch.named?_eq_some_iff.2 (.inl (rfl : Text.ofString w.name = _))]
  rw [ofJson, toMembers]
  simp only [Switch.all, List.map_cons, List.map_nil, assignAll, hassign]
  refine congrArg Except.ok (eq_of_get fun s => ?_)
  cases s <;> simp

/-- **The options of a document.** Only the names of the switches count in it, just if nothing is
refused before the first misfit. In any case it gives no options just if it has a misfit or a member
that is refused. If it gives some, every switch has the value of the last member for it, or else its
default, and the members that name no switch can be left out. These options can be listed just if
the document does not hold the name for that. -/
theorem options_folded (members : List (Text × Json)) :
    (Folded members (ofJson (.object members)) ↔ Undisturbed members) ∧
    ((∃ e, ofJson (.object members) = .error e) ↔
      ∃ member ∈ members, Misfit member ∨ Refused member) ∧
    ∀ o, ofJson (.object members) = .ok o →
      Folded members (.ok o) ∧
      (relisted members = .ok (some o.toMembers) ↔
        ∀ member ∈ members, member.1 ≠ Text.ofString listingName) := by
  refine ⟨folded_iff members, exists_error_iff, fun o h => ⟨?_, relisted_iff h⟩⟩
  rw [← h, folded_iff]
  intro before member after hsplit hrefused
  have hmem : member ∈ members := by
    rw [hsplit]
    exact List.mem_append_right _ List.mem_cons_self
  obtain ⟨e, he⟩ := exists_error_iff.2 ⟨member, hmem, .inr hrefused⟩
  cases h.symm.trans he

/-- A reserved name counts although it names no switch: a text for it is refused. A truth value for
the name of the listing is taken, but then there is no listing. -/
theorem reserved_name_counts :
    let members : List (Text × Json) :=
      [("__doc__", .string "about these options"), ("detectEnums", .bool true)]
    ofJson (.object members) = .error (.notBoolean "__doc__" (.string "about these options")) ∧
    (∀ member ∈ members, ¬Misfit member) ∧
    ofJson (.object (spelled members)) = .ok { detectEnums := true } ∧
    ¬Folded members (ofJson (.object members)) ∧
    relisted [("to_dict", .bool true)] = .ok none := by
  intro members
  have hnone : ∀ member ∈ members, ¬Misfit member := by
    rintro member hmem ⟨hnamed, huntrue⟩
    rcases List.mem_cons.1 hmem with rfl | hmem
    · exact absurd hnamed (by decide +kernel)
    · rw [List.mem_singleton.1 hmem] at huntrue
      exact huntrue ⟨true, rfl⟩
  have hrefused : ofJson (.object members) =
      .error (.notBoolean "__doc__" (.string "about these options")) := rfl
  refine ⟨hrefused, hnone, rfl, fun h => ?_, rfl⟩
  obtain ⟨member, hmem, hmisfit⟩ := h.refused.1 ⟨_, hrefused⟩
  exact hnone member hmem hmisfit

end Options

end TypeSketch
