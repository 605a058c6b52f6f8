import TypeSketch.Proofs.WrittenKeys
import TypeSketch.Proofs.PascalCase

/-!
# Camel case

Camel case takes every underscore away that stands directly before a lower-case letter, and the
letter becomes upper case. The name is read once, from left to right. An underscore that is kept may
come to stand before such a new letter, as in `a_B` from `a__b`.

**Joints** (`isJoint`). An underscore and a lower-case letter directly behind it. No two of them
share a code point, so it makes no difference in which order they are joined.

**Joined names** (`IsJoined`). A name without joints.

**Theorem** (`underscores_joined`). What becomes of a code point depends on its two neighbours only
(`joined`). All joints are gone afterwards, and joined names stay as they are. A name is an
identifier before just if it is one afterwards, and the same holds of bare property keys. So camel
case decides how a key is spelled, but not whether it is quoted.

The proofs take a name apart joint by joint (`joint_induction`): it begins with a joint, or else
with a code point that is kept.
-/

namespace TypeSketch

namespace Text

/-! ## Joints -/

/-- Whether two code points are an underscore and a lower-case letter. -/
def isJoint : CodePoint → CodePoint → Bool
  | .char '_', .char c => c.isLower
  | _, _ => false

/-- No underscore stands directly before a lower-case letter. -/
def IsJoined (s : Text) : Prop := ∀ p q, [p, q] <:+: s → isJoint p q = false

theorem isJoint_iff {p q : CodePoint} :
    isJoint p q = true ↔ p = .char '_' ∧ ∃ c : Char, q = .char c ∧ c.isLower = true := by
  unfold isJoint
  split
  · next c => simp
  · next hne =>
    refine iff_of_false Bool.false_ne_true ?_
    rintro ⟨rfl, c, rfl, -⟩
    exact hne c rfl rfl

/-- A letter begins no joint. -/
theorem isJoint_of_isAlpha {c : Char} (hc : c.isAlpha = true) (q : CodePoint) :
    isJoint (.char c) q = false := by
  refine Bool.eq_false_iff.2 fun h => ?_
  have hline : c = '_' := CodePoint.char.inj (isJoint_iff.1 h).1
  rw [hline] at hc
  exact absurd hc (by decide)

/-- Only a lower-case letter ends a joint. -/
theorem isJoint_of_not_isLower {c : Char} (hc : c.isLower = false) (p : CodePoint) :
    isJoint p (.char c) = false := by
  refine Bool.eq_false_iff.2 fun h => ?_
  obtain ⟨-, d, hd, hlower⟩ := isJoint_iff.1 h
  rw [← CodePoint.char.inj hd, hc] at hlower
  exact Bool.false_ne_true hlower

theorem any_isJoint_of_isAlpha {c : Char} (hc : c.isAlpha = true) (after : Option CodePoint) :
    after.any (isJoint (.char c)) = false := by
  cases after with
  | none => rfl
  | some q => exact isJoint_of_isAlpha hc q

theorem isJoined_nil : IsJoined [] := fun p q h => by simp at h

theorem isJoined_cons {p : CodePoint} {rest : Text} :
    IsJoined (p :: rest) ↔ rest.head?.any (isJoint p) = false ∧ IsJoined rest := by
  cases rest with
  | nil => simp [IsJoined, List.infix_cons_iff]
  | cons q rest =>
    constructor
    · intro h
      exact ⟨h p q ⟨[], rest, rfl⟩, fun a b hab => h a b (hab.trans (List.suffix_cons _ _).isInfix)⟩
    · rintro ⟨hp, hrest⟩ a b hab
      rcases List.infix_cons_iff.1 hab with hab | hab
      · obtain ⟨more, hmore⟩ := hab
        cases hmore
        exact hp
      · exact hrest a b hab

/-! ## One step -/

theorem camelCase_joint {c : Char} (hc : c.isLower = true) (rest : Text) :
    camelCase (.char '_' :: .char c :: rest) = .char c.toUpper :: camelCase rest := by
  rw [camelCase, if_pos hc]

theorem camelCase_kept {p : CodePoint} {rest : Text} (h : rest.head?.any (isJoint p) = false) :
    camelCase (p :: rest) = p :: camelCase rest := by
  rw [camelCase.eq_def]
  split
  · next c rest heq =>
    obtain ⟨rfl, rfl⟩ := List.cons.inj heq
    have hc : c.isLower = false := h
    rw [if_neg (Bool.eq_false_iff.1 hc)]
  · next heq =>
    obtain ⟨rfl, rfl⟩ := List.cons.inj heq
    rfl
  · next heq => cases heq

/-- A name is empty, or it begins with a joint, or else with a code point that is kept. -/
@[elab_as_elim]
theorem joint_induction {motive : Text → Prop} (nil : motive [])
    (joint : ∀ (c : Char) (rest : Text), c.isLower = true → motive rest →
      motive (.char '_' :: .char c :: rest))
    (kept : ∀ (p : CodePoint) (rest : Text), rest.head?.any (isJoint p) = false → motive rest →
      motive (p :: rest))
    (s : Text) : motive s := by
  fun_induction camelCase s with
  | case1 c rest hc ih => exact joint c rest hc ih
  | case2 c rest hc ih => exact kept _ _ (Bool.eq_false_iff.2 hc) ih
  | case3 p rest hne ih =>
    refine kept p rest ?_ ih
    cases rest with
    | nil => rfl
    | cons q rest =>
      refine Bool.eq_false_iff.2 fun h => ?_
      obtain ⟨rfl, c, rfl, -⟩ := isJoint_iff.1 h
      exact hne c rest rfl rfl
  | case4 => exact nil

/-! ## What is left -/

/-- Nothing that a joint could end with comes to the front. -/
theorem head?_camelCase (s : Text) (p : CodePoint) :
    (camelCase s).head?.any (isJoint p) = s.head?.any (isJoint p) := by
  induction s using joint_induction with
  | nil => rfl
  | joint c rest hc _ =>
    rw [camelCase_joint hc]
    exact (isJoint_of_not_isLower (Char.isLower_toUpper_eq_false c) p).trans
      (isJoint_of_not_isLower (by decide) p).symm
  | kept q rest h _ => rw [camelCase_kept h]; rfl

/-- **No joint is left.** -/
theorem isJoined_camelCase (s : Text) : IsJoined (camelCase s) := by
  induction s using joint_induction with
  | nil => exact isJoined_nil
  | joint c rest hc ih =>
    rw [camelCase_joint hc, isJoined_cons]
    exact ⟨any_isJoint_of_isAlpha (isAlpha_toUpper hc) _, ih⟩
  | kept p rest h ih =>
    rw [camelCase_kept h, isJoined_cons, head?_camelCase]
    exact ⟨h, ih⟩

theorem camelCase_of_isJoined {s : Text} (h : IsJoined s) : camelCase s = s := by
  induction s using joint_induction with
  | nil => rfl
  | joint c rest hc _ =>
    have hlower : c.isLower = false := (isJoined_cons.1 h).1
    exact absurd hc (Bool.eq_false_iff.1 hlower)
  | kept p rest hp ih => rw [camelCase_kept hp, ih (isJoined_cons.1 h).2]

/-- A name stays as it is just if it has no joint. -/
theorem camelCase_eq_self_iff {s : Text} : camelCase s = s ↔ IsJoined s :=
  ⟨fun h => h ▸ isJoined_camelCase s, camelCase_of_isJoined⟩

theorem camelCase_camelCase (s : Text) : camelCase (camelCase s) = camelCase s :=
  camelCase_of_isJoined (isJoined_camelCase s)

/-! ## Code points between their neighbours -/

/-- The upper case of an ASCII letter, and everything else as it is. -/
def upper : CodePoint → CodePoint
  | .char c => .char c.toUpper
  | .surrogate x => .surrogate x

/-- What becomes of a code point between its neighbours. An underscore goes away before a lower-case
letter, a lower-case letter becomes upper case behind an underscore, and everything else stays. -/
def joined (before : Option CodePoint) (p : CodePoint) (after : Option CodePoint) : Text :=
  if after.any (isJoint p) then []
  else if before.any (isJoint · p) then [upper p]
  else [p]

/-- What becomes of a text, each code point between the one before it and the one behind it. -/
def joinedFrom (before : Option CodePoint) (s : Text) : Text :=
  (List.zipWith3 joined (before :: s.map some) s (s.tail.map some ++ [none])).flatten

theorem joinedFrom_cons (before : Option CodePoint) (p : CodePoint) (rest : Text) :
    joinedFrom before (p :: rest) = joined before p rest.head? ++ joinedFrom (some p) rest := by
  cases rest with
  | nil => rfl
  | cons => rfl

/-- **Every joint is joined and nothing else changes.** No joint may reach from the text before into
this one. -/
theorem camelCase_eq_joinedFrom {before : Option CodePoint} {s : Text}
    (h : ∀ b ∈ before, s.head?.any (isJoint b) = false) : camelCase s = joinedFrom before s := by
  induction s using joint_induction generalizing before with
  | nil => rfl
  | joint c rest hc ih =>
    have halpha := isAlpha_of_isLower hc
    have hline : joined before (.char '_') (some (.char c)) = [] := if_pos hc
    have hletter : joined (some (.char '_')) (.char c) rest.head? = [.char c.toUpper] := by
      rw [joined, any_isJoint_of_isAlpha halpha, if_neg Bool.false_ne_true]
      exact if_pos hc
    -- The letter is no underscore, so no joint reaches from it into the rest.
    have hrest : ∀ b ∈ some (CodePoint.char c), rest.head?.any (isJoint b) = false := by
      rintro b ⟨⟩
      exact any_isJoint_of_isAlpha halpha _
    rw [camelCase_joint hc, joinedFrom_cons, joinedFrom_cons, List.head?_cons, hline, hletter,
      ih hrest]
    rfl
  | kept p rest hp ih =>
    have hself : joined before p rest.head? = [p] := by
      have hbefore : before.any (isJoint · p) = false := by
        cases before with
        | none => rfl
        | some b => exact h b rfl
      rw [joined, hp, hbefore, if_neg Bool.false_ne_true, if_neg Bool.false_ne_true]
    have hrest : ∀ b ∈ some p, rest.head?.any (isJoint b) = false := by
      rintro b ⟨⟩
      exact hp
    rw [camelCase_kept hp, joinedFrom_cons, hself, ih hrest]
    rfl

/-! ## Identifiers and bare keys -/

theorem isNameStart_of_isAlpha {c : Char} (hc : c.isAlpha = true) :
    isNameStart (.char c) = true := by
  rw [← isBareStart_eq, isBareStart, hc, Bool.true_or, Bool.true_or]

theorem isNameStart_underscore : isNameStart (.char '_') = true := by decide

section

variable {p : CodePoint} (h : isNameStart p = true) (rest : Text)

include h

theorem isBareRest_of_isNameStart : isBareRest p = true :=
  isBareRest_of_isBareStart ((isBareStart_eq p).trans h)

theorem all_isNameRest_cons : (p :: rest).all isNameRest = rest.all isNameRest := by
  rw [List.all_cons, ← isBareRest_eq, isBareRest_of_isNameStart h, Bool.true_and]

theorem isBareTail_cons_of_isNameStart : isBareTail (p :: rest) = isBareTail rest := by
  rw [isBareTail, isBareRest_of_isNameStart h, Bool.true_and]
  rintro rfl
  exact absurd h (by decide)

end

theorem isBareTail_cons (p : CodePoint) (rest : Text) : isBareTail (p :: rest) =
    (p == .char '\n' && rest.isEmpty || isBareRest p && isBareTail rest) := by
  by_cases h : p = .char '\n' ∧ rest = []
  · obtain ⟨rfl, rfl⟩ := h
    rfl
  · have hfeed : (p == .char '\n' && rest.isEmpty) = false := by
      rw [Bool.eq_false_iff, Ne, Bool.and_eq_true, beq_iff_eq, List.isEmpty_iff]
      exact h
    rw [isBareTail, hfeed, Bool.false_or]
    exact fun hp hrest => h ⟨hp, hrest⟩

theorem isEmpty_camelCase (s : Text) : (camelCase s).isEmpty = s.isEmpty := by
  induction s using joint_induction with
  | nil => rfl
  | joint c rest hc _ => rw [camelCase_joint hc]; rfl
  | kept p rest hp _ => rw [camelCase_kept hp]; rfl

theorem all_isNameRest_camelCase (s : Text) :
    (camelCase s).all isNameRest = s.all isNameRest := by
  induction s using joint_induction with
  | nil => rfl
  | joint c rest hc ih =>
    rw [camelCase_joint hc, all_isNameRest_cons (isNameStart_of_isAlpha (isAlpha_toUpper hc)),
      all_isNameRest_cons isNameStart_underscore,
      all_isNameRest_cons (isNameStart_of_isAlpha (isAlpha_of_isLower hc)), ih]
  | kept p rest hp ih => rw [camelCase_kept hp, List.all_cons, List.all_cons, ih]

theorem isBareTail_camelCase (s : Text) : isBareTail (camelCase s) = isBareTail s := by
  induction s using joint_induction with
  | nil => rfl
  | joint c rest hc ih =>
    rw [camelCase_joint hc,
      isBareTail_cons_of_isNameStart (isNameStart_of_isAlpha (isAlpha_toUpper hc)),
      isBareTail_cons_of_isNameStart isNameStart_underscore,
      isBareTail_cons_of_isNameStart (isNameStart_of_isAlpha (isAlpha_of_isLower hc)), ih]
  | kept p rest hp ih =>
    rw [camelCase_kept hp, isBareTail_cons, isBareTail_cons, ih, isEmpty_camelCase]

/-- Camel case gives identifiers for identifiers, and for nothing else. -/
theorem isName_camelCase (s : Text) : isName (camelCase s) = isName s := by
  induction s using joint_induction with
  | nil => rfl
  | joint c rest hc _ =>
    rw [camelCase_joint hc, isName, isName, isNameStart_of_isAlpha (isAlpha_toUpper hc),
      isNameStart_underscore, all_isNameRest_camelCase,
      all_isNameRest_cons (isNameStart_of_isAlpha (isAlpha_of_isLower hc))]
  | kept p rest hp _ => rw [camelCase_kept hp, isName, isName, all_isNameRest_camelCase]

theorem isBare_camelCase (s : Text) : isBare (camelCase s) = isBare s := by
  induction s using joint_induction with
  | nil => rfl
  | joint c rest hc _ =>
    rw [camelCase_joint hc, isBare, isBare, isBareStart_eq, isBareStart_eq,
      isNameStart_of_isAlpha (isAlpha_toUpper hc), isNameStart_underscore, isBareTail_camelCase,
      isBareTail_cons_of_isNameStart (isNameStart_of_isAlpha (isAlpha_of_isLower hc))]
  | kept p rest hp _ => rw [camelCase_kept hp, isBare, isBare, isBareTail_camelCase]

end Text

namespace Declaration

open Text

theorem writtenKey_eq_quote_iff {s : Text} : writtenKey s = quote s ↔ ¬isBare s = true := by
  by_cases h : isBare s = true
  · rw [writtenKey, if_pos h]
    exact iff_of_false (quote_ne s).symm (not_not_intro h)
  · rw [writtenKey, if_neg h]
    exact iff_of_true rfl h

/-- Whether a key is quoted can be seen from the key itself. -/
theorem propertyKey_eq_quote_iff (o : Options) (s : Text) :
    propertyKey o s = quote (o.writtenName s) ↔ ¬isBare s = true := by
  have hbare : isBare (o.writtenName s) = isBare s := by
    unfold Options.writtenName
    split
    · exact isBare_camelCase s
    · rfl
  rw [propertyKey, writtenKey_eq_quote_iff, hbare]

/-- **Underscores joined.** A name in camel case has no underscore directly before a lower-case
letter, and camel case leaves it alone. Each code point of the name becomes what its two neighbours
make of it: an underscore goes away before a lower-case letter, the letter behind it becomes upper
case, and nothing else changes. So a name stays as it is just if it has no such pair. It is an
identifier before just if it is one afterwards. Whether a key is quoted does not depend on the
options. -/
theorem underscores_joined (s : Text) :
    IsJoined (camelCase s) ∧
    camelCase (camelCase s) = camelCase s ∧
    camelCase s = joinedFrom none s ∧
    (camelCase s = s ↔ IsJoined s) ∧
    (isName (camelCase s) = true ↔ isName s = true) ∧
    ∀ o o' : Options, propertyKey o s = quote (o.writtenName s) ↔
      propertyKey o' s = quote (o'.writtenName s) := by
  refine ⟨isJoined_camelCase s, camelCase_camelCase s, ?_, camelCase_eq_self_iff, ?_, ?_⟩
  · exact camelCase_eq_joinedFrom fun b hb => nomatch hb
  · rw [isName_camelCase]
  · intro o o'
    rw [propertyKey_eq_quote_iff, propertyKey_eq_quote_iff]

/-- An underscore before an underscore stays, and comes to stand before a letter. -/
example : camelCase "a__b_c_" = ofString "a_BC_" := by decide

end Declaration

end TypeSketch
