import TypeSketch.Proofs.BlankLines
import TypeSketch.Text.ControlSequence

/-!
# Control characters in sketches

Names and types are built from words. In keys and values a control character is written as an
escape, but for the line feed that may close a bare key. So a sketch holds no control character
other than line feeds (`Quiet`), and a terminal finds nothing in it to obey.

**Theorem** (`quiet_sketch`). A sketch is quiet.

**Theorem** (`withoutControls_of_quiet`). What is quiet is shown on a terminal as it is.

**Theorem** (`withoutControls_append_line`). No control sequence goes over a line feed.
-/

namespace TypeSketch

namespace Text

/-- Without control characters other than line feeds. -/
def Quiet (s : Text) : Prop := ∀ p ∈ s, p = .char '\n' ∨ 0x20 ≤ p.toNat

instance (s : Text) : Decidable (Quiet s) := inferInstanceAs (Decidable (∀ p ∈ s, _))

theorem Quiet.append {s t : Text} (hs : s.Quiet) (ht : t.Quiet) : Quiet (s ++ t) :=
  List.forall_mem_append.2 ⟨hs, ht⟩

theorem forall_mem_intercalate {P : CodePoint → Prop} {sep : Text} {parts : List Text}
    (hsep : ∀ p ∈ sep, P p) (h : ∀ s ∈ parts, ∀ p ∈ s, P p) :
    ∀ p ∈ sep.intercalate parts, P p := by
  cases parts with
  | nil => exact List.forall_mem_nil _
  | cons s parts =>
    rw [List.forall_mem_cons] at h
    rw [TypeExpr.intercalate_cons_eq]
    exact List.forall_mem_append.2 ⟨h.1, List.forall_mem_flatMap.2 fun t ht =>
      List.forall_mem_append.2 ⟨hsep, h.2 t ht⟩⟩

/-- What is quiet is shown on a terminal as it is, whatever comes behind it. -/
theorem withoutControls_append_of_quiet {s : Text} (h : s.Quiet) (t : Text) :
    withoutControls (s ++ t) = s ++ withoutControls t := by
  induction s with
  | nil => rfl
  | cons p rest ih =>
    rw [Quiet, List.forall_mem_cons] at h
    have hp : p ≠ .char '\x1b' := by
      rintro rfl
      exact absurd h.1 (by decide)
    have hnone : (if p == .char '\x1b' then behindControl? (rest ++ t) else none) = none :=
      if_neg (by simpa using hp)
    rw [List.cons_append, withoutControls, ih h.2]
    split
    · next hsome =>
      rw [hnone] at hsome
      cases hsome
    · rfl

/-- What is quiet is shown on a terminal as it is. -/
theorem withoutControls_of_quiet {s : Text} (h : s.Quiet) : withoutControls s = s := by
  have happend := withoutControls_append_of_quiet h []
  rwa [List.append_nil, withoutControls, List.append_nil] at happend

/-! ## Line feeds and control sequences -/

theorem dropWhile_append_line {f : CodePoint → Bool} (hf : f (.char '\n') = false) (s t : Text) :
    (s ++ .char '\n' :: t).dropWhile f = s.dropWhile f ++ .char '\n' :: t := by
  rw [List.dropWhile_append, List.dropWhile_cons_of_neg (by rw [hf]; exact Bool.false_ne_true)]
  split
  · next h => rw [List.isEmpty_iff.1 h, List.nil_append]
  · rfl

/-- No control sequence goes over a line feed. -/
theorem behindControl?_append_line (s t : Text) : behindControl? (s ++ .char '\n' :: t) =
    (behindControl? s).map (· ++ .char '\n' :: t) := by
  cases s with
  | nil => rfl
  | cons p rest =>
    by_cases hp : p = .char '['
    · subst hp
      simp only [List.cons_append, behindControl?, dropWhile_append_line (f := isParameter) rfl,
        dropWhile_append_line (f := isIntermediate) rfl]
      cases (rest.dropWhile isParameter).dropWhile isIntermediate with
      | nil => rfl
      | cons q left =>
        simp only [List.cons_append]
        split <;> rfl
    · unfold behindControl?
      split
      · next h => exact absurd (List.cons.inj h).1 hp
      · split
        · next h => exact absurd (List.cons.inj h).1 hp
        · rfl

/-- What stands before a line feed and what stands behind it are shown each on its own. -/
theorem withoutControls_append_line (s t : Text) : withoutControls (s ++ .char '\n' :: t) =
    withoutControls s ++ withoutControls (.char '\n' :: t) := by
  have hbehind (p : CodePoint) (rest : Text) :
      (if p == .char '\x1b' then behindControl? (rest ++ .char '\n' :: t) else none) =
        (if p == .char '\x1b' then behindControl? rest else none).map
          (· ++ .char '\n' :: t) := by
    split
    · exact behindControl?_append_line rest t
    · rfl
  fun_induction withoutControls s with
  | case1 => rfl
  | case2 p rest left h ih =>
    rw [dite_eq_ite] at h
    rw [List.cons_append, withoutControls]
    split
    · next hsome =>
      rw [hbehind, h] at hsome
      cases hsome
      exact ih
    · next hnone =>
      rw [hbehind, h] at hnone
      cases hnone
  | case3 p rest h ih =>
    rw [dite_eq_ite] at h
    rw [List.cons_append, withoutControls]
    split
    · next hsome =>
      rw [hbehind, h] at hsome
      cases hsome
    · rw [ih, List.cons_append]

theorem behindControl?_suffix {s left : Text} (h : behindControl? s = some left) : left <:+ s := by
  unfold behindControl? at h
  split at h
  · next rest =>
    split at h
    · next p _ hd =>
      obtain ⟨-, h⟩ := Option.ite_none_right_eq_some.1 h
      cases h
      have hdropped := (List.dropWhile_suffix isIntermediate).trans
        (List.dropWhile_suffix isParameter (l := rest))
      rw [hd] at hdropped
      exact (List.suffix_cons p left).trans (hdropped.trans (List.suffix_cons _ rest))
    · cases h
  · cases h

/-- Nothing is shown that is not there. -/
theorem withoutControls_sublist (s : Text) : (withoutControls s).Sublist s := by
  fun_induction withoutControls s with
  | case1 => exact List.Sublist.refl _
  | case2 p rest left h ih =>
    obtain ⟨-, h⟩ := Option.dite_none_right_eq_some.1 h
    exact (ih.trans (behindControl?_suffix h).sublist).cons p
  | case3 p rest _ ih => exact ih.cons_cons p

/-! ## Words and keys -/

theorem le_of_forall_lt {b : Nat} {P : Char → Prop} (h : ∀ n < b, ¬P (Char.ofNat n)) {c : Char}
    (hc : P c) : b ≤ c.toNat := by
  by_contra hlt
  have hnot := h c.toNat (Nat.lt_of_not_le hlt)
  rw [Char.ofNat_toNat] at hnot
  exact hnot hc

theorem le_of_isWordChar {c : Char} (h : isWordChar c = true) : 0x20 ≤ c.toNat :=
  le_of_forall_lt (P := fun c => isWordChar c = true) (by decide) h

theorem quiet_ofString {s : String} (h : ∀ c ∈ s.toList, 0x20 ≤ c.toNat) : Quiet (ofString s) := by
  intro p hp
  obtain ⟨c, hc, rfl⟩ := List.mem_map.1 hp
  exact Or.inr (h c hc)

theorem quiet_word {s : String} (h : IsWord s) : Quiet (ofString s) :=
  quiet_ofString fun c hc => le_of_isWordChar (h c hc)

theorem quiet_quote (s : Text) : Quiet (quote s) := fun _ hp => Or.inr (le_of_mem_quote hp)

theorem le_of_isBareRest {p : CodePoint} (h : isBareRest p = true) : 0x20 ≤ p.toNat := by
  cases p with
  | surrogate s =>
    have := s.le_code
    rw [CodePoint.toNat]
    omega
  | char c => exact le_of_forall_lt (P := fun c => isBareRest (.char c) = true) (by decide) h

theorem quiet_isBareTail {s : Text} (h : isBareTail s = true) : Quiet s := by
  fun_induction isBareTail s with
  | case1 => exact List.forall_mem_nil _
  | case2 => decide
  | case3 p rest _ ih =>
    rw [Bool.and_eq_true] at h
    exact List.forall_mem_cons.2 ⟨Or.inr (le_of_isBareRest h.1), ih h.2⟩

theorem quiet_writtenKey (key : Text) : Quiet (Declaration.writtenKey key) := by
  unfold Declaration.writtenKey
  split
  · next h =>
    cases key with
    | nil => cases h
    | cons p rest =>
      rw [isBare, Bool.and_eq_true] at h
      exact List.forall_mem_cons.2
        ⟨Or.inr (le_of_isBareRest (isBareRest_of_isBareStart h.1)), quiet_isBareTail h.2⟩
  · exact quiet_quote key

end Text

/-! ## Blocks -/

open Text

theorem quiet_type {t : TypeExpr} (h : t.WellFormed IsWord) : Quiet (ofString t.text) := by
  refine quiet_ofString fun c hc => ?_
  rcases Declaration.mem_text h hc with hword | hmark
  · exact le_of_isWordChar hword
  · simp only [List.mem_cons, List.not_mem_nil, or_false] at hmark
    rcases hmark with rfl | rfl | rfl | rfl | rfl | rfl <;> decide

theorem pervasive_quiet : Pervasive Quiet where
  append := Quiet.append
  word := quiet_word
  type := quiet_type
  key := quiet_writtenKey
  value s sep hsep := by
    rw [List.mem_cons, List.mem_singleton] at hsep
    refine (quiet_quote s).append ?_
    rcases hsep with rfl | rfl <;> decide
  sign hs := by
    simp only [List.mem_cons, List.not_mem_nil, or_false] at hs
    rcases hs with rfl | rfl | rfl | rfl | rfl | rfl | rfl | rfl | rfl <;> decide

/-- **A sketch is quiet.** -/
theorem quiet_sketch (o : Options) (wanted : Text) (v : Json) : Quiet (sketch o wanted v) := by
  rw [sketch, declare, Catalog.text_eq_join]
  refine forall_mem_intercalate (by decide) fun s hs => ?_
  obtain ⟨b, hb, rfl⟩ := List.mem_map.1 hs
  exact pervasive_quiet.text o (readable_typeOf o v _ hb)

end TypeSketch
