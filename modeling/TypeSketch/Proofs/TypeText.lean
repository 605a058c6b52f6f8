import TypeSketch.TypeExpr
import TypeSketch.Text.Name
import Mathlib.Data.List.Nodup
import Mathlib.Tactic.Common

/-!
# The text of a type

Types are told apart by their texts. That is right as long as the text of a type can be read in only
one way.

**Well-formed types** (`WellFormed`). The atoms are of a given form, and a union has at least two
members, all of them different.

**Theorem** (`text_inj`). Well-formed types whose atoms are words have different texts if they are
different.

The reason is the nesting of the parentheses (`depthAfter`). Inside a text a closing parenthesis
always has its opening one, and a blank only stands inside parentheses. So where a member of a union
ends, the text of the member cannot go on, and two unions with one text have the same members.
-/

namespace TypeSketch

/-- Whether a string has only letters and digits of ASCII and underscores. -/
def IsWord (s : String) : Prop := ∀ c ∈ s.toList, Text.isWordChar c = true

theorem not_mem_of_isWord {s : String} (h : IsWord s) {c : Char} (hc : Text.isWordChar c = false) :
    c ∉ s.toList := by
  intro hm
  rw [h c hm] at hc
  cases hc

namespace TypeExpr

/-- Types with atoms of a given form, whose unions are no shorter than they need be. -/
inductive WellFormed (form : String → Prop) : TypeExpr → Prop
  | atom {name : String} (h : form name) : WellFormed form (.atom name)
  | array {item : TypeExpr} (h : WellFormed form item) : WellFormed form (.array item)
  | arrayOfUnion {members : List TypeExpr} (hlen : 2 ≤ members.length) (hnodup : members.Nodup)
      (h : ∀ m ∈ members, WellFormed form m) : WellFormed form (.arrayOfUnion members)

theorem WellFormed.mono {p q : String → Prop} (hpq : ∀ name, p name → q name) {t : TypeExpr}
    (h : WellFormed p t) : WellFormed q t := by
  induction h with
  | atom h => exact .atom (hpq _ h)
  | array _ ih => exact .array ih
  | arrayOfUnion hlen hnodup _ ih => exact .arrayOfUnion hlen hnodup ih

/-! ## The characters of a type -/

/-- The members of a union behind the first, as they stand in its text. -/
def tailChars (members : List TypeExpr) : List Char :=
  members.flatMap fun m => ' ' :: '|' :: ' ' :: m.text.toList

theorem intercalate_cons_eq {α : Type*} (sep x : List α) (xs : List (List α)) :
    sep.intercalate (x :: xs) = x ++ xs.flatMap (sep ++ ·) := by
  induction xs generalizing x with
  | nil => rw [List.intercalate_singleton, List.flatMap_nil, List.append_nil]
  | cons y ys ih =>
    rw [List.intercalate_cons_cons, ih, List.flatMap_cons, List.append_assoc, List.append_assoc]

theorem toList_text_atom (name : String) : (atom name).text.toList = name.toList := by
  rw [text]

theorem toList_text_array (item : TypeExpr) :
    (array item).text.toList = item.text.toList ++ ['[', ']'] := by
  rw [text, String.toList_append]
  rfl

theorem toList_text_arrayOfUnion (m : TypeExpr) (members : List TypeExpr) :
    (arrayOfUnion (m :: members)).text.toList =
      '(' :: (m.text.toList ++ (tailChars members ++ [')', '[', ']'])) := by
  rw [text, String.toList_append, String.toList_append, String.toList_intercalate, List.map_map,
    List.map_cons, intercalate_cons_eq, List.flatMap_map]
  simp [tailChars]

/-! ## Parentheses -/

/-- The number of open parentheses after some characters. There is none if one is closed that was
not opened, or if a blank stands outside of all. -/
def depthAfter : Nat → List Char → Option Nat
  | d, [] => some d
  | d, c :: rest =>
    if c = '(' then depthAfter (d + 1) rest
    else if c = ')' then
      match d with
      | 0 => none
      | d + 1 => depthAfter d rest
    else if c = ' ' ∧ d = 0 then none
    else depthAfter d rest

theorem depthAfter_append (d : Nat) (xs ys : List Char) :
    depthAfter d (xs ++ ys) = (depthAfter d xs).bind fun d => depthAfter d ys := by
  induction xs generalizing d with
  | nil => rfl
  | cons c rest ih =>
    simp only [List.cons_append, depthAfter]
    split_ifs
    · exact ih (d + 1)
    · cases d with
      | zero => rfl
      | succ d => exact ih d
    · rfl
    · exact ih d

theorem depthAfter_word {s : String} (h : IsWord s) (d : Nat) :
    depthAfter d s.toList = some d := by
  unfold IsWord at h
  generalize s.toList = cs at h
  induction cs with
  | nil => rfl
  | cons c rest ih =>
    have hc := h c List.mem_cons_self
    have hne {c' : Char} (h' : Text.isWordChar c' = false) : c ≠ c' := by
      intro e
      rw [← e, hc] at h'
      cases h'
    have hopen : c ≠ '(' := hne rfl
    have hclose : c ≠ ')' := hne rfl
    have hblank : c ≠ ' ' := hne rfl
    simp only [depthAfter, hopen, hclose, hblank, false_and, if_false]
    exact ih fun c hm => h c (List.mem_cons_of_mem _ hm)

theorem depthAfter_tailChars {members : List TypeExpr}
    (h : ∀ m ∈ members, ∀ d, depthAfter d m.text.toList = some d) (d : Nat) :
    depthAfter (d + 1) (tailChars members) = some (d + 1) := by
  induction members with
  | nil => rfl
  | cons m rest ih =>
    have hm := h m List.mem_cons_self (d + 1)
    rw [tailChars, List.flatMap_cons, depthAfter_append]
    simp [depthAfter, hm]
    exact ih fun m hm => h m (List.mem_cons_of_mem _ hm)

/-- After the text of a type as many parentheses are open as before. -/
theorem depthAfter_text {t : TypeExpr} (h : WellFormed IsWord t) (d : Nat) :
    depthAfter d t.text.toList = some d := by
  induction h generalizing d with
  | atom hw => rw [toList_text_atom, depthAfter_word hw]
  | array _ ih =>
    rw [toList_text_array, depthAfter_append, ih]
    simp [depthAfter]
  | @arrayOfUnion members hlen _ _ ih =>
    cases members with
    | nil => simp at hlen
    | cons m rest =>
      have htail := depthAfter_tailChars (fun m hm d => ih m (List.mem_cons_of_mem _ hm) d) d
      rw [toList_text_arrayOfUnion]
      simp [depthAfter, depthAfter_append, ih m List.mem_cons_self, htail]

/-! ## Reading back -/

/-- Characters with which the text of a member of a union cannot go on. -/
def Stops : List Char → Prop
  | [] => False
  | c :: _ => c = ' ' ∨ c = ')'

theorem depthAfter_of_stops {cs : List Char} (h : Stops cs) : depthAfter 0 cs = none := by
  cases cs with
  | nil => exact h.elim
  | cons c rest => rcases h with rfl | rfl <;> simp [depthAfter]

/-- Texts of which one goes on where the other stops are the same. -/
theorem text_append_inj {s t : TypeExpr} (hs : WellFormed IsWord s) (ht : WellFormed IsWord t)
    {xs ys : List Char} (hxs : Stops xs) (hys : Stops ys)
    (h : s.text.toList ++ xs = t.text.toList ++ ys) : s.text = t.text ∧ xs = ys := by
  have key {s t : TypeExpr} (hs : WellFormed IsWord s) (ht : WellFormed IsWord t)
      {xs ys zs : List Char} (hxs : Stops xs) (he : t.text.toList = s.text.toList ++ zs)
      (hz : xs = zs ++ ys) : zs = [] := by
    cases zs with
    | nil => rfl
    | cons c rest =>
      have hstop : Stops (c :: rest) := by rw [hz] at hxs; exact hxs
      have hd := depthAfter_text ht 0
      rw [he, depthAfter_append, depthAfter_text hs, Option.bind_some,
        depthAfter_of_stops hstop] at hd
      cases hd
  rcases List.append_eq_append_iff.1 h with ⟨zs, he, hz⟩ | ⟨zs, he, hz⟩
  · have hnil := key hs ht hxs he hz
    rw [hnil, List.append_nil] at he
    exact ⟨String.toList_inj.1 he.symm, by rw [hz, hnil, List.nil_append]⟩
  · have hnil := key ht hs hys he hz
    rw [hnil, List.append_nil] at he
    exact ⟨String.toList_inj.1 he, by rw [hz, hnil, List.nil_append]⟩

theorem stops_tailChars (members : List TypeExpr) (rest : List Char) :
    Stops (tailChars members ++ ')' :: rest) := by
  cases members with
  | nil => exact Or.inr rfl
  | cons m members => exact Or.inl rfl

/-- Members whose texts are joined in the same way have the same texts. -/
theorem map_text_of_tailChars {ms ns : List TypeExpr} (hm : ∀ m ∈ ms, WellFormed IsWord m)
    (hn : ∀ n ∈ ns, WellFormed IsWord n) {rest : List Char}
    (h : tailChars ms ++ ')' :: rest = tailChars ns ++ ')' :: rest) :
    ms.map text = ns.map text := by
  induction ms generalizing ns with
  | nil =>
    cases ns with
    | nil => rfl
    | cons n ns => simp [tailChars] at h
  | cons m ms ih =>
    cases ns with
    | nil => simp [tailChars] at h
    | cons n ns =>
      simp only [tailChars, List.flatMap_cons, List.cons_append, List.append_assoc,
        List.cons.injEq, true_and] at h
      obtain ⟨htext, hrest⟩ := text_append_inj (hm m List.mem_cons_self) (hn n List.mem_cons_self)
        (stops_tailChars ms rest) (stops_tailChars ns rest) h
      rw [List.map_cons, List.map_cons, htext, ih (fun m h => hm m (List.mem_cons_of_mem _ h))
        (fun n h => hn n (List.mem_cons_of_mem _ h)) hrest]

/-- The text of a type does not end with a parenthesis. -/
theorem text_ne_concat {t : TypeExpr} (h : WellFormed IsWord t) (cs : List Char) :
    t.text.toList ≠ cs ++ [')'] := by
  intro e
  have hlast := congrArg List.getLast? e
  rw [List.getLast?_concat] at hlast
  cases h with
  | atom hw =>
    rw [toList_text_atom] at hlast
    exact not_mem_of_isWord hw rfl (List.mem_of_getLast? hlast)
  | array _ => simp [toList_text_array] at hlast
  | @arrayOfUnion members hlen _ _ =>
    cases members with
    | nil => simp at hlen
    | cons m rest =>
      rw [toList_text_arrayOfUnion] at hlast
      simp [List.getLast?_cons, List.getLast?_append] at hlast

/-- An array and a union never have the same text. -/
theorem text_array_ne {item : TypeExpr} (h : WellFormed IsWord item) {members : List TypeExpr}
    (hlen : 2 ≤ members.length) : (array item).text ≠ (arrayOfUnion members).text := by
  intro e
  cases members with
  | nil => simp at hlen
  | cons m rest =>
    have he := congrArg String.toList e
    rw [toList_text_array, toList_text_arrayOfUnion] at he
    refine text_ne_concat h ('(' :: (m.text.toList ++ tailChars rest)) ?_
    rw [← List.append_left_inj ['[', ']'], he]
    simp

/-- Lists that become the same are the same, if different elements stay different. -/
theorem eq_of_map_eq {α β : Type*} {f : α → β} {xs ys : List α}
    (hf : ∀ x ∈ xs, ∀ y ∈ ys, f x = f y → x = y) (h : xs.map f = ys.map f) : xs = ys := by
  induction xs generalizing ys with
  | nil => exact (List.map_eq_nil_iff.1 h.symm).symm
  | cons x xs ih =>
    cases ys with
    | nil => simp at h
    | cons y ys =>
      simp only [List.map_cons, List.cons.injEq] at h
      rw [hf x List.mem_cons_self y List.mem_cons_self h.1, ih
        (fun x hx y hy => hf x (List.mem_cons_of_mem _ hx) y (List.mem_cons_of_mem _ hy)) h.2]

/-- **Reading back.** Well-formed types with the same text are the same. -/
theorem text_inj {s t : TypeExpr} (hs : WellFormed IsWord s) (ht : WellFormed IsWord t)
    (h : s.text = t.text) : s = t := by
  have hatom {name : String} (hw : IsWord name) {t : TypeExpr} (hb : ']' ∈ t.text.toList) :
      (atom name).text ≠ t.text := by
    intro e
    rw [← e, toList_text_atom] at hb
    exact not_mem_of_isWord hw rfl hb
  have harray (item : TypeExpr) : ']' ∈ (array item).text.toList := by
    simp [toList_text_array]
  have hunion {members : List TypeExpr} (hlen : 2 ≤ members.length) :
      ']' ∈ (arrayOfUnion members).text.toList := by
    cases members with
    | nil => simp at hlen
    | cons m rest => simp [toList_text_arrayOfUnion]
  induction hs generalizing t with
  | atom hw =>
    cases ht with
    | atom _ => rw [text, text] at h; rw [h]
    | array _ => exact absurd h (hatom hw (harray _))
    | arrayOfUnion hlen _ _ => exact absurd h (hatom hw (hunion hlen))
  | array hi ih =>
    cases ht with
    | atom hw => exact absurd h.symm (hatom hw (harray _))
    | array hi' =>
      have he := congrArg String.toList h
      rw [toList_text_array, toList_text_array, List.append_cancel_right_eq] at he
      rw [ih hi' (String.toList_inj.1 he)]
    | arrayOfUnion hlen _ _ => exact absurd h (text_array_ne hi hlen)
  | @arrayOfUnion members hlen _ hm ih =>
    cases ht with
    | atom hw => exact absurd h.symm (hatom hw (hunion hlen))
    | array hi => exact absurd h.symm (text_array_ne hi hlen)
    | @arrayOfUnion members' hlen' _ hn =>
      refine congrArg arrayOfUnion (eq_of_map_eq (fun m hm' n hn' => ih m hm' (hn n hn')) ?_)
      have he := congrArg String.toList h
      cases members with
      | nil => simp at hlen
      | cons m ms =>
        cases members' with
        | nil => simp at hlen'
        | cons n ns =>
          rw [toList_text_arrayOfUnion, toList_text_arrayOfUnion, List.cons.injEq] at he
          obtain ⟨htext, htail⟩ := text_append_inj (hm m List.mem_cons_self)
            (hn n List.mem_cons_self) (stops_tailChars ms _) (stops_tailChars ns _) he.2
          rw [List.map_cons, List.map_cons, htext,
            map_text_of_tailChars (fun m h => hm m (List.mem_cons_of_mem _ h))
              (fun n h => hn n (List.mem_cons_of_mem _ h)) htail]

/-! ## The types of items -/

/-- Among well-formed types, no type is dropped because of another one. -/
theorem mem_distinct {types : List TypeExpr} (h : ∀ t ∈ types, WellFormed IsWord t)
    {t : TypeExpr} : t ∈ distinct types ↔ t ∈ types := by
  have hsub {u : TypeExpr} (hu : u ∈ distinct types) : u ∈ types :=
    (Distinct.mem_of_mem_addAll hu).resolve_left List.not_mem_nil
  refine ⟨hsub, fun ht => ?_⟩
  have hmem : t.text ∈ (distinct types).map text :=
    Distinct.mem_map_addAll.2 (Or.inr (List.mem_map_of_mem ht))
  obtain ⟨u, hu, he⟩ := List.mem_map.1 hmem
  exact text_inj (h u (hsub hu)) (h t ht) he ▸ hu

theorem wellFormed_ofItems {form : String → Prop} {types : List TypeExpr} (hne : types ≠ [])
    (h : ∀ t ∈ types, WellFormed form t) : WellFormed form (ofItems types) := by
  have hmem {u : TypeExpr} (hu : u ∈ distinct types) : WellFormed form u :=
    h u ((Distinct.mem_of_mem_addAll hu).resolve_left List.not_mem_nil)
  have hnodup : (distinct types).Nodup :=
    List.Nodup.of_map text (Distinct.nodup_map_addAll List.nodup_nil)
  have hne' : distinct types ≠ [] := by
    obtain ⟨t, ht⟩ := List.exists_mem_of_ne_nil types hne
    have hmem : t.text ∈ (distinct types).map text :=
      Distinct.mem_map_addAll.2 (Or.inr (List.mem_map_of_mem ht))
    intro e
    rw [e] at hmem
    cases hmem
  unfold ofItems
  generalize distinct types = ds at hmem hnodup hne'
  match ds with
  | [] => exact absurd rfl hne'
  | [d] => exact .array (hmem List.mem_cons_self)
  | _ :: _ :: _ => exact .arrayOfUnion (by simp) hnodup fun m hm => hmem hm

end TypeExpr

end TypeSketch
