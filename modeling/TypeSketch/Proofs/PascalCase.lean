import Mathlib
import TypeSketch.Proofs.NameOrigin

/-!
# Root names from file names

The stem of a path becomes a root name in Pascal case. Only the letters and digits of ASCII count,
and everything else cuts words.

**Words** (`words`). A word is a run of lower-case letters, a capital with the lower-case letters
behind it, or a run of digits. Words are found from left to right, and each is as long as it can be.

**Theorem** (`pascal_eq_words`). Pascal case looks at one character after the other and remembers
only whether a letter stands before it. All the same it joins the words of the text, each with a
capital.

**Theorem** (`default_root_name`). A name in Pascal case is the text without what cuts words, up to
the case of its letters. It need not have the words of the text, since runs of digits may meet, but
Pascal case leaves it alone. As a root name it changes at most by an underscore before a digit.

For the last two a name is seen as a form of its own (`Led`): a lower-case letter stands only
directly behind a letter. Pascal case gives such names and keeps them.
The laws of letter case for single characters come with the whole of the library and with none of
its smaller parts.
-/

namespace TypeSketch

namespace Text

/-! ## Letters and digits -/

section

variable {c : Char}

theorem isLower_iff : c.isLower = true ↔ 97 ≤ c.toNat ∧ c.toNat ≤ 122 := by
  simp [Char.isLower, UInt32.le_iff_toNat_le, ← Char.toNat_val]

theorem isUpper_iff : c.isUpper = true ↔ 65 ≤ c.toNat ∧ c.toNat ≤ 90 := by
  simp [Char.isUpper, UInt32.le_iff_toNat_le, ← Char.toNat_val]

theorem not_isLower_of_isDigit (h : c.isDigit = true) : ¬c.isLower = true := by
  have hd := Char.isDigit_iff_toNat.1 h
  have h9 : '9'.toNat = 57 := rfl
  rw [isLower_iff]
  omega

theorem not_isUpper_of_isDigit (h : c.isDigit = true) : ¬c.isUpper = true := by
  have hd := Char.isDigit_iff_toNat.1 h
  have h9 : '9'.toNat = 57 := rfl
  rw [isUpper_iff]
  omega

theorem isAlpha_iff : c.isAlpha = true ↔ c.isUpper = true ∨ c.isLower = true := by
  rw [Char.isAlpha, Bool.or_eq_true]

theorem isAlpha_of_isLower (h : c.isLower = true) : c.isAlpha = true := isAlpha_iff.2 (Or.inr h)

theorem isAlpha_toUpper (h : c.isLower = true) : c.toUpper.isAlpha = true := by
  rw [Char.isAlpha_toUpper_eq_isAlpha, isAlpha_of_isLower h]

theorem not_isAlpha_of_isDigit (h : c.isDigit = true) : ¬c.isAlpha = true := fun ha =>
  (isAlpha_iff.1 ha).elim (not_isUpper_of_isDigit h) (not_isLower_of_isDigit h)

theorem isAlphanum_iff : c.isAlphanum = true ↔ c.isAlpha = true ∨ c.isDigit = true := by
  rw [Char.isAlphanum, Bool.or_eq_true]

theorem isAlphanum_toUpper (c : Char) : c.toUpper.isAlphanum = c.isAlphanum := by
  by_cases h : c.isLower = true
  · rw [Char.isAlphanum, Char.isAlphanum, isAlpha_toUpper h, isAlpha_of_isLower h, Bool.true_or,
      Bool.true_or]
  · rw [Char.toUpper_eq_of_not_isLower h]

end

/-! ## One character -/

/-- A letter or digit stays, in upper case unless a letter stands before it. -/
theorem pascal_cons {c : Char} (h : c.isAlphanum = true) (afterLetter : Bool) (rest : List Char) :
    pascal afterLetter (c :: rest) =
      (if afterLetter then c else c.toUpper) :: pascal c.isAlpha rest := by
  rw [pascal]
  by_cases hl : c.isLower = true
  · rw [if_pos hl, isAlpha_of_isLower hl]
  · rw [if_neg hl, Char.toUpper_eq_of_not_isLower hl, ite_self]
    by_cases hu : c.isUpper = true
    · rw [if_pos hu, isAlpha_iff.2 (Or.inl hu)]
    · have ha : ¬c.isAlpha = true := fun ha => (isAlpha_iff.1 ha).elim hu hl
      rw [if_neg hu, if_pos ((isAlphanum_iff.1 h).resolve_left ha), Bool.eq_false_iff.2 ha]

/-- Everything else cuts words. -/
theorem pascal_cons_of_not {c : Char} (h : ¬c.isAlphanum = true) (afterLetter : Bool)
    (rest : List Char) : pascal afterLetter (c :: rest) = pascal false rest := by
  rw [isAlphanum_iff, isAlpha_iff, not_or, not_or] at h
  rw [pascal, if_neg h.1.2, if_neg h.1.1, if_neg h.2]

/-! ## Words -/

/-- Whether a word that begins with a character may go on with another one. -/
def goesOn (first next : Char) : Bool := if first.isAlpha then next.isLower else next.isDigit

/-- The words of a text, from left to right, each as long as it can be. -/
def words : List Char → List (List Char)
  | [] => []
  | c :: rest =>
    if c.isAlphanum then
      (c :: rest.takeWhile (goesOn c)) :: words (rest.dropWhile (goesOn c))
    else words rest
termination_by cs => cs.length
decreasing_by
  · exact Nat.lt_succ_of_le (List.dropWhile_sublist _).length_le
  · exact Nat.lt_succ_self _

/-- A word with its first letter in upper case and the others in lower case. -/
def capitalize : List Char → List Char
  | [] => []
  | c :: rest => c.toUpper :: rest.map Char.toLower

/-- What a word goes on with is kept: small letters behind a letter, and digits. -/
theorem pascal_run {afterLetter : Bool} {run : List Char}
    (h : ∀ c ∈ run, (if afterLetter then c.isLower else c.isDigit) = true)
    (rest : List Char) : pascal afterLetter (run ++ rest) = run ++ pascal afterLetter rest := by
  induction run with
  | nil => rfl
  | cons c run ih =>
    obtain ⟨hc, hrun⟩ := List.forall_mem_cons.1 h
    cases afterLetter with
    | true =>
      have ha := isAlpha_of_isLower hc
      rw [List.cons_append, pascal_cons (isAlphanum_iff.2 (Or.inl ha)), ha, ih hrun]
      rfl
    | false =>
      rw [List.cons_append, pascal_cons (isAlphanum_iff.2 (Or.inr hc)),
        Bool.eq_false_iff.2 (not_isAlpha_of_isDigit hc), ih hrun, if_neg Bool.false_ne_true,
        Char.toUpper_eq_of_not_isLower (not_isLower_of_isDigit hc)]
      rfl

/-- It makes no difference that a letter stands before, unless a small letter comes next. -/
theorem pascal_afterLetter {cs : List Char} (h : ∀ c ∈ cs.head?, ¬c.isLower = true) :
    pascal true cs = pascal false cs := by
  cases cs with
  | nil => rfl
  | cons c rest =>
    have hc := h c rfl
    rw [pascal, pascal, if_neg hc, if_neg hc]

/-- What a word goes on with is in lower case already. -/
theorem map_toLower_takeWhile (first : Char) (cs : List Char) :
    (cs.takeWhile (goesOn first)).map Char.toLower = cs.takeWhile (goesOn first) := by
  have hself : ∀ c ∈ cs.takeWhile (goesOn first), c.toLower = c := by
    intro c hc
    have hgoes : goesOn first c = true := List.mem_takeWhile_imp hc
    unfold goesOn at hgoes
    split at hgoes
    · exact Char.toLower_eq_of_not_isUpper (Char.not_isUpper_of_isLower hgoes)
    · exact Char.toLower_eq_of_not_isUpper (not_isUpper_of_isDigit hgoes)
  exact (List.map_congr_left hself).trans (List.map_id _)

/-- **Words are joined.** Pascal case gives the words of a text one after the other, each with a
capital. -/
theorem pascal_eq_words (cs : List Char) : pascal false cs = (words cs).flatMap capitalize := by
  fun_induction words cs with
  | case1 => rfl
  | case2 c rest hc ih =>
    have hrun : ∀ d ∈ rest.takeWhile (goesOn c), goesOn c d = true :=
      fun d hd => List.mem_takeWhile_imp hd
    -- The word ends where it cannot go on, so the letter before does not matter there.
    have hend : pascal c.isAlpha (rest.dropWhile (goesOn c)) =
        pascal false (rest.dropWhile (goesOn c)) := by
      cases ha : c.isAlpha with
      | false => rfl
      | true =>
        refine pascal_afterLetter fun d hd => ?_
        have hnot := List.head?_dropWhile_not (goesOn c) rest
        rw [Option.mem_def.1 hd] at hnot
        simpa [goesOn, ha] using hnot
    calc pascal false (c :: rest)
        = c.toUpper :: pascal c.isAlpha rest := pascal_cons hc false rest
      _ = c.toUpper :: pascal c.isAlpha
            (rest.takeWhile (goesOn c) ++ rest.dropWhile (goesOn c)) := by
          rw [List.takeWhile_append_dropWhile]
      _ = c.toUpper :: (rest.takeWhile (goesOn c) ++ pascal false (rest.dropWhile (goesOn c))) := by
          rw [pascal_run hrun, hend]
      _ = capitalize (c :: rest.takeWhile (goesOn c)) ++
            (words (rest.dropWhile (goesOn c))).flatMap capitalize := by
          rw [capitalize, map_toLower_takeWhile, ih, List.cons_append]
  | case3 c rest hc ih => rw [pascal_cons_of_not hc, ih]

/-! ## The form of a name -/

/-- A small letter stands only directly behind a letter. The flag says whether a letter stands
before the first character. -/
def Led (afterLetter : Bool) : List Char → Prop
  | [] => True
  | c :: rest => (c.isLower = true → afterLetter = true) ∧ Led c.isAlpha rest

theorem Led.weaken {cs : List Char} (h : Led false cs) (afterLetter : Bool) :
    Led afterLetter cs := by
  cases cs with
  | nil => trivial
  | cons c rest => exact ⟨fun hl => absurd (h.1 hl) Bool.false_ne_true, h.2⟩

theorem led_pascal (afterLetter : Bool) (cs : List Char) :
    Led afterLetter (pascal afterLetter cs) := by
  induction cs generalizing afterLetter with
  | nil => trivial
  | cons c rest ih =>
    by_cases hc : c.isAlphanum = true
    · rw [pascal_cons hc]
      cases afterLetter with
      | true => exact ⟨fun _ => rfl, ih c.isAlpha⟩
      | false =>
        refine ⟨fun hl => ?_, Char.isAlpha_toUpper_eq_isAlpha c ▸ ih c.isAlpha⟩
        rw [if_neg Bool.false_ne_true, Char.isLower_toUpper_eq_false] at hl
        exact absurd hl Bool.false_ne_true
    · rw [pascal_cons_of_not hc]
      exact (ih false).weaken afterLetter

/-- Such a name is left alone. -/
theorem pascal_eq_self {afterLetter : Bool} {cs : List Char}
    (hall : ∀ c ∈ cs, c.isAlphanum = true) (h : Led afterLetter cs) :
    pascal afterLetter cs = cs := by
  induction cs generalizing afterLetter with
  | nil => rfl
  | cons c rest ih =>
    obtain ⟨hc, hrest⟩ := List.forall_mem_cons.1 hall
    have hself : (if afterLetter then c else c.toUpper) = c := by
      cases afterLetter with
      | true => rfl
      | false => exact Char.toUpper_eq_of_not_isLower fun hl => absurd (h.1 hl) Bool.false_ne_true
    rw [pascal_cons hc, hself, ih hrest h.2]

theorem isAlphanum_of_mem_pascal {afterLetter : Bool} {cs : List Char} {c : Char}
    (h : c ∈ pascal afterLetter cs) : c.isAlphanum = true := by
  induction cs generalizing afterLetter with
  | nil => cases h
  | cons d rest ih =>
    by_cases hd : d.isAlphanum = true
    · rw [pascal_cons hd, List.mem_cons] at h
      rcases h with rfl | h
      · cases afterLetter with
        | true => exact hd
        | false => exact (isAlphanum_toUpper d).trans hd
      · exact ih h
    · rw [pascal_cons_of_not hd] at h
      exact ih h

/-- Nothing but the case of letters is changed, and nothing but what cuts words is lost. -/
theorem map_toLower_pascal (afterLetter : Bool) (cs : List Char) :
    (pascal afterLetter cs).map Char.toLower =
      (cs.filter Char.isAlphanum).map Char.toLower := by
  induction cs generalizing afterLetter with
  | nil => rfl
  | cons c rest ih =>
    by_cases hc : c.isAlphanum = true
    · have hlower : (if afterLetter then c else c.toUpper).toLower = c.toLower := by
        cases afterLetter with
        | true => rfl
        | false => exact Char.toLower_toUpper_eq_toLower c
      rw [pascal_cons hc, List.filter_cons_of_pos hc, List.map_cons, List.map_cons, hlower, ih]
    · rw [pascal_cons_of_not hc, List.filter_cons_of_neg hc, ih]

/-- What stands directly before a small letter is a letter. -/
theorem Led.isAlpha_getLast? {afterLetter : Bool} {before after : List Char} {c : Char}
    (h : Led afterLetter (before ++ c :: after)) (hc : c.isLower = true) :
    (before.getLast?.map Char.isAlpha).getD afterLetter = true := by
  induction before generalizing afterLetter with
  | nil => exact h.1 hc
  | cons d before ih =>
    have hd := ih h.2
    rw [List.getLast?_cons]
    cases hlast : before.getLast? with
    | none => rwa [hlast] at hd
    | some e => rwa [hlast] at hd

/-- No small letter stands first or directly behind a digit. -/
def Capitalized (cs : List Char) : Prop :=
  ∀ before c after, cs = before ++ c :: after → c.isLower = true →
    ∃ d, before.getLast? = some d ∧ d.isDigit = false

theorem Led.capitalized {cs : List Char} (h : Led false cs) : Capitalized cs := by
  rintro before c after rfl hc
  have hlast := h.isAlpha_getLast? hc
  cases hb : before.getLast? with
  | none => simp [hb] at hlast
  | some d =>
    rw [hb] at hlast
    exact ⟨d, rfl, Bool.eq_false_iff.2 fun hd => not_isAlpha_of_isDigit hd hlast⟩

theorem pascalCase_pascalCase (s : Text) : pascalCase (pascalCase s) = pascalCase s := by
  rw [pascalCase, chars_ofString, pascalCase, String.toList_ofList,
    pascal_eq_self (fun c hc => isAlphanum_of_mem_pascal hc) (led_pascal false s.chars)]

end Text

/-! ## Root names -/

namespace RootName

open Text

/-- A name in Pascal case that is not empty. -/
structure IsHeadline (name : String) : Prop where
  isAlphanum {c : Char} (h : c ∈ name.toList) : c.isAlphanum = true
  led : Led false name.toList
  ne_nil : name.toList ≠ []

theorem isHeadline_pascalCase {s : Text} (h : ¬(pascalCase s).isEmpty = true) :
    IsHeadline (pascalCase s) where
  isAlphanum hc := by
    rw [pascalCase, String.toList_ofList] at hc
    exact isAlphanum_of_mem_pascal hc
  led := by
    rw [pascalCase, String.toList_ofList]
    exact led_pascal false s.chars
  ne_nil := by
    rwa [Ne, String.toList_eq_nil_iff, ← String.isEmpty_iff]

theorem isHeadline_orStandard (s : Text) : IsHeadline (orStandard (pascalCase s)) := by
  have hstandard : pascalCase standard = standard := by decide
  unfold orStandard
  split
  · rw [← hstandard]
    exact isHeadline_pascalCase (by decide)
  · next h => exact isHeadline_pascalCase h

theorem isHeadline_ofPath (path : Text) (sample : Bool) : IsHeadline (ofPath path sample) := by
  unfold ofPath
  split
  · exact isHeadline_orStandard []
  · exact isHeadline_orStandard (Path.stem path)

/-- Such a name begins with a capital or with a digit. -/
theorem IsHeadline.exists_cons {name : String} (h : IsHeadline name) :
    ∃ c rest, name.toList = c :: rest ∧ (c.isUpper = true ∨ c.isDigit = true) := by
  obtain ⟨c, rest, hname⟩ := List.exists_cons_of_ne_nil h.ne_nil
  have hall : c.isAlphanum = true := h.isAlphanum (hname ▸ List.mem_cons_self)
  have hled := h.led
  rw [hname] at hled
  have hlower : ¬c.isLower = true := fun hc => absurd (hled.1 hc) Bool.false_ne_true
  refine ⟨c, rest, hname, ?_⟩
  rw [isAlphanum_iff, isAlpha_iff] at hall
  exact hall.imp_left fun ha => ha.resolve_right hlower

/-- It needs at most an underscore to be a root name. -/
theorem IsHeadline.ofText_eq {name : String} (h : IsHeadline name) :
    (ofText name).toList = guardDigit name.toList := by
  have hfilter : name.toList.filter isWordChar = name.toList :=
    List.filter_eq_self.2 fun c hc => by rw [isWordChar, h.isAlphanum hc, Bool.true_or]
  have htype : (typeName name).toList = guardDigit name.toList := by
    rw [typeName, chars_ofString, hfilter, String.toList_ofList]
  have hne : ¬(typeName name).isEmpty = true := by
    rw [String.isEmpty_iff, ← String.toList_eq_nil_iff, htype]
    exact fun hnil => h.ne_nil (List.eq_nil_iff_forall_not_mem.2 fun c hc =>
      List.eq_nil_iff_forall_not_mem.1 hnil c (mem_guardDigit hc))
  rw [ofText, orStandard, if_neg hne, htype]

end RootName

open Text RootName in
/-- **Default root names.** Pascal case joins the words of a text, each with a capital. Only letters
and digits are left, all of those in the text and in their order. No small letter stands first or
directly behind a digit, and the name is its own Pascal case.

The root name from a path is an identifier. It begins with a capital and is the name in Pascal case
(or the standard name), or else that name begins with a digit and gets an underscore before it. -/
theorem default_root_name :
    (∀ s : Text,
      let name := pascalCase s
      name.toList = (Text.words s.chars).flatMap capitalize ∧
      (∀ c ∈ name.toList, c.isAlphanum = true) ∧
      name.toList.map Char.toLower = (s.chars.filter Char.isAlphanum).map Char.toLower ∧
      Capitalized name.toList ∧
      pascalCase name = name) ∧
    ∀ (path : Text) (sample : Bool),
      let wanted := ofPath path sample
      let name := ofText wanted
      IsIdentifier name ∧
      ((∃ c rest, name.toList = c :: rest ∧ c.isUpper = true) ∧ name = wanted ∨
        (∃ d rest, name.toList = '_' :: d :: rest ∧ d.isDigit = true) ∧ name = "_" ++ wanted) := by
  refine ⟨fun s => ⟨?_, ?_, ?_, ?_, pascalCase_pascalCase s⟩,
    fun path sample => ⟨isIdentifier_rootName _, ?_⟩⟩
  · rw [pascalCase, String.toList_ofList, pascal_eq_words]
  · rw [pascalCase, String.toList_ofList]
    exact fun c hc => isAlphanum_of_mem_pascal hc
  · rw [pascalCase, String.toList_ofList, map_toLower_pascal]
  · rw [pascalCase, String.toList_ofList]
    exact (led_pascal false s.chars).capitalized
  · have hwanted := isHeadline_ofPath path sample
    have hname := hwanted.ofText_eq
    obtain ⟨c, rest, hc, hkind⟩ := hwanted.exists_cons
    by_cases hd : c.isDigit = true
    · rw [hc, guardDigit, startsWithDigit, if_pos hd] at hname
      refine Or.inr ⟨⟨c, rest, hname, hd⟩, ?_⟩
      rw [← String.toList_inj, hname, String.toList_append, hc]
      rfl
    · rw [hc, guardDigit, startsWithDigit, if_neg hd] at hname
      refine Or.inl ⟨⟨c, rest, hname, hkind.resolve_right hd⟩, ?_⟩
      rw [← String.toList_inj, hname, hc]

/-- Two runs of digits of a name may meet. -/
example : Text.pascalCase "api-v2_2024 rows.old" = "ApiV22024RowsOld" := by decide

end TypeSketch
