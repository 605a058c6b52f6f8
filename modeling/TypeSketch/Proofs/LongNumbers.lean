import TypeSketch.Json.Reader
import Mathlib.Data.List.TakeWhile

/-!
# Numbers that are too long

Most faults of a text are about its syntax. One is not: an integer of more than `maxDigits` digits
is written correctly and is refused all the same.

**Theorem** (`within_readValue`). What is left behind a value is the end of the text. A number is
refused only if the text has as many digits in a row, and these are too many (`LongRun`).

**Theorem** (`ofText_digits`). A text of nothing but too many digits is refused for their number.
-/

namespace TypeSketch.Json

/-- So many digits stand in a row in a text, and that is more than an integer may have. -/
def LongRun (s : Text) (n : Nat) : Prop :=
  maxDigits < n ∧ ∃ digits, digits <:+: s ∧ digits.length = n ∧ ∀ p ∈ digits, p.isDigit = true

/-- A fault that may be found in a text. -/
def FaultIn (s : Text) : Fault → Prop
  | .tooManyDigits n => LongRun s n
  | .malformed _ _ | .tooDeep _ => True

/-- What reading a text may come to: something is left that is an end of the text, or there is a
fault in it. -/
def Within {α : Type} (left : α → Text) (s : Text) : Except Fault α → Prop
  | .ok a => left a <:+ s
  | .error fault => FaultIn s fault

/-- A fault in an end of a text is one in the text. -/
theorem FaultIn.mono {s s' : Text} (hs : s <:+ s') {fault : Fault} (h : FaultIn s fault) :
    FaultIn s' fault := by
  cases fault with
  | malformed | tooDeep => trivial
  | tooManyDigits n =>
    obtain ⟨hn, digits, hd, hrest⟩ := h
    exact ⟨hn, digits, hd.trans hs.isInfix, hrest⟩

theorem Within.mono {α : Type} {left : α → Text} {s s' : Text} (hs : s <:+ s')
    {r : Except Fault α} (h : Within left s r) : Within left s' r := by
  cases r with
  | ok a => exact List.IsSuffix.trans h hs
  | error fault => exact FaultIn.mono hs h

section

variable {α : Type} {left : α → Text} {s : Text} {r : Except Fault α}

theorem Within.ok (h : Within left s r) {a : α} (hr : r = .ok a) : left a <:+ s := by
  subst hr
  exact h

theorem Within.error (h : Within left s r) {fault : Fault} (hr : r = .error fault) :
    FaultIn s fault := by
  subst hr
  exact h

end

/-! ## Strings -/

/-- What is wrong with a string is never the number of its digits. -/
theorem within_readRest (start : Text) (afterEscape : Bool) (read s : Text) :
    Within Prod.snd s (readRest start afterEscape read s) := by
  fun_induction readRest start afterEscape read s with
  | case1 | case3 | case5 | case6 | case8 | case9 => trivial
  | case2 => exact List.suffix_cons _ _
  | case4 _ _ _ _ _ _ _ _ _ _ ih => exact ih.mono ⟨[_, _, _, _, _, _], rfl⟩
  | case7 _ _ _ _ _ _ _ _ ih => exact ih.mono ⟨[_, _], rfl⟩
  | case10 _ _ _ _ _ _ _ ih => exact ih.mono (List.suffix_cons _ _)

theorem within_readString (s : Text) : Within Prod.snd s (readString s) :=
  within_readRest _ _ _ s

/-! ## Words and numbers -/

/-- The code points that open or close a string or a container. -/
def marks : Text := "\"[]\x7b\x7d"

/-- A code point that opens and closes nothing. -/
def isFlat (p : CodePoint) : Bool := !marks.contains p

theorem isFlat_of_isDigit {p : CodePoint} (h : p.isDigit = true) : isFlat p = true := by
  rw [isFlat, Bool.not_eq_true', ← Bool.not_eq_true, List.contains_iff_mem]
  have hmarks : ∀ q ∈ marks, q.isDigit = false := by decide
  exact fun hp => Bool.false_ne_true ((hmarks p hp).symm.trans h)

theorem isFlat_of_isSpace {p : CodePoint} (h : isSpace p = true) : isFlat p = true := by
  rw [isFlat, Bool.not_eq_true', ← Bool.not_eq_true, List.contains_iff_mem]
  have hmarks : ∀ q ∈ marks, isSpace q = false := by decide
  exact fun hp => Bool.false_ne_true ((hmarks p hp).symm.trans h)

/-- In a text nothing is opened or closed before an end of it. -/
def FlatTo (s rest : Text) : Prop := ∃ front, front ++ rest = s ∧ ∀ p ∈ front, isFlat p = true

theorem FlatTo.refl (s : Text) : FlatTo s s := ⟨[], rfl, List.forall_mem_nil _⟩

theorem FlatTo.suffix {s rest : Text} (h : FlatTo s rest) : rest <:+ s :=
  h.imp fun _ h => h.1

theorem FlatTo.cons {s rest : Text} {p : CodePoint} (hp : isFlat p = true) (h : FlatTo s rest) :
    FlatTo (p :: s) rest := by
  obtain ⟨front, rfl, hfront⟩ := h
  exact ⟨p :: front, rfl, List.forall_mem_cons.2 ⟨hp, hfront⟩⟩

theorem FlatTo.trans {s middle rest : Text} (h : FlatTo s middle) (h' : FlatTo middle rest) :
    FlatTo s rest := by
  obtain ⟨front, rfl, hfront⟩ := h
  obtain ⟨front', rfl, hfront'⟩ := h'
  exact ⟨front ++ front', List.append_assoc _ _ _, List.forall_mem_append.2 ⟨hfront, hfront'⟩⟩

/-- Nothing is opened or closed by what is dropped. -/
theorem flatTo_dropWhile {q : CodePoint → Bool} (hq : ∀ p, q p = true → isFlat p = true)
    (s : Text) : FlatTo s (s.dropWhile q) :=
  ⟨s.takeWhile q, List.takeWhile_append_dropWhile,
    fun p hp => hq p (List.mem_takeWhile_imp hp)⟩

theorem flatTo_skipSpace (s : Text) : FlatTo s (skipSpace s) :=
  flatTo_dropWhile (fun _ => isFlat_of_isSpace) s

theorem flatTo_splitDigits (s : Text) : FlatTo s (splitDigits s).2 :=
  flatTo_dropWhile (fun _ => isFlat_of_isDigit) s

theorem isDigit_of_mem_splitDigits {s : Text} {p : CodePoint} (h : p ∈ (splitDigits s).1) :
    p.isDigit = true := List.mem_takeWhile_imp h

theorem flatTo_readInteger (s : Text) : FlatTo s (readInteger s).2 := by
  unfold readInteger
  split
  · exact (FlatTo.refl _).cons (by decide)
  · exact flatTo_splitDigits s

theorem isPrefix_readInteger (s : Text) : (readInteger s).1 <+: s := by
  unfold readInteger
  split
  · exact ⟨_, rfl⟩
  · exact List.takeWhile_prefix _

theorem isDigit_of_mem_readInteger {s : Text} {p : CodePoint} (h : p ∈ (readInteger s).1) :
    p.isDigit = true := by
  unfold readInteger at h
  split at h
  · rw [List.mem_singleton.1 h]
    rfl
  · exact isDigit_of_mem_splitDigits h

theorem flatTo_readFraction (s : Text) : FlatTo s (readFraction s).2 := by
  unfold readFraction
  split
  · split
    · exact .refl _
    · exact (flatTo_splitDigits _).cons (by decide)
  · exact .refl _

theorem flatTo_readSign (s : Text) : FlatTo s (readSign s).2 := by
  unfold readSign
  split
  · exact (FlatTo.refl _).cons (by decide)
  · exact (FlatTo.refl _).cons (by decide)
  · exact .refl _

theorem flatTo_readExponent (s : Text) : FlatTo s (readExponent s).2 := by
  unfold readExponent
  split
  · exact .refl _
  · next p rest =>
    dsimp only
    split
    · next h =>
      have hp : isFlat p = true := by
        simp only [Bool.and_eq_true, Bool.or_eq_true, beq_iff_eq] at h
        obtain ⟨rfl | rfl, -⟩ := h <;> decide
      exact ((flatTo_readSign rest).trans (flatTo_splitDigits _)).cons hp
    · exact .refl _

/-- A numeral has its digits from the text, and nothing is opened or closed in it. -/
theorem flatTo_readNumeral? {s rest : Text} {n : Numeral} (h : readNumeral? s = some (n, rest)) :
    FlatTo s rest ∧ n.digits <:+: s ∧ ∀ p ∈ n.digits, p.isDigit = true := by
  simp only [readNumeral?, Option.ite_none_left_eq_some, Option.some.injEq, Prod.mk.injEq] at h
  obtain ⟨-, rfl, rfl⟩ := h
  generalize hb : (if s.head? == some (.char '-') then s.drop 1 else s) = body
  have hbody : FlatTo s body := by
    rw [← hb]
    split
    · next hminus =>
      obtain ⟨rest, rfl⟩ := List.head?_eq_some_iff.1 (beq_iff_eq.1 hminus)
      exact (FlatTo.refl rest).cons (by decide)
    · exact .refl s
  refine ⟨?_, ?_, fun p => isDigit_of_mem_readInteger⟩
  · exact hbody.trans ((flatTo_readInteger body).trans
      ((flatTo_readFraction _).trans (flatTo_readExponent _)))
  · exact (isPrefix_readInteger body).isInfix.trans hbody.suffix.isInfix

theorem flatTo_behind? {word s rest : Text} (hword : ∀ p ∈ word, isFlat p = true)
    (h : behind? word s = some rest) : FlatTo s rest := by
  fun_induction behind? word s with
  | case1 => exact Option.some.inj h ▸ .refl _
  | case2 p word s ih =>
    rw [List.forall_mem_cons] at hword
    exact (ih hword.2 h).cons hword.1
  | case3 => cases h
  | case4 => cases h

theorem flatTo_readWord? {s rest : Text} {v : Json} {l : List (Text × Json)}
    (hl : ∀ e ∈ l, ∀ p ∈ e.1, isFlat p = true) (h : readWord? s l = some (v, rest)) :
    FlatTo s rest := by
  induction l with
  | nil => cases h
  | cons e others ih =>
    rw [List.forall_mem_cons] at hl
    unfold readWord? at h
    split at h
    · next hb =>
      cases h
      exact flatTo_behind? hl.1 hb
    · exact ih hl.2 h

theorem flatTo_readScalar {s : Text} {r : Rest Json s} (h : readScalar s = .ok r) :
    FlatTo s r.left := by
  unfold readScalar at h
  split at h
  · next hw =>
    cases h
    exact flatTo_readWord? (by decide) hw
  · split at h
    · next hn =>
      split at h
      · cases h
        exact (flatTo_readNumeral? hn).1
      · cases h
    · cases h

/-- Of all that is no string and no container, only an integer is refused for its length. -/
theorem within_readScalar (s : Text) : Within Rest.left s (readScalar s) := by
  cases hr : readScalar s with
  | ok r => exact (flatTo_readScalar hr).suffix
  | error fault =>
    unfold readScalar at hr
    split at hr
    · cases hr
    · split at hr
      · next n _ hn =>
        split at hr
        · cases hr
        · next hv =>
          cases hr
          unfold Numeral.value at hv
          split at hv
          · split at hv
            · cases hv
            · next hlen =>
              cases hv
              exact ⟨Nat.lt_of_not_le hlen, n.digits, (flatTo_readNumeral? hn).2.1, rfl,
                (flatTo_readNumeral? hn).2.2⟩
          · cases hv
      · cases hr
        trivial

/-! ## Values -/

theorem flatTo_of_skipSpace {s rest : Text} (h : skipSpace s = rest) : FlatTo s rest :=
  h ▸ flatTo_skipSpace s

theorem skipSpace_suffix (s : Text) : skipSpace s <:+ s := (flatTo_skipSpace s).suffix

/-- What is left behind a code point, if there is space before it. -/
theorem suffix_of_skipSpace {s rest : Text} {p : CodePoint} (h : skipSpace s = p :: rest) :
    rest <:+ s :=
  (List.suffix_cons p rest).trans (h ▸ skipSpace_suffix s)

theorem within_readKey (s : Text) : Within Rest.left s (readKey s) := by
  unfold readKey
  split
  · next text =>
    have hstring := (within_readString text).mono (List.suffix_cons (.char '"') text)
    split
    · next hk =>
      split
      · next after hc =>
        have hafter := (suffix_of_skipSpace hc).trans (hstring.ok hk)
        exact (skipSpace_suffix after).trans hafter
      · trivial
    · next hk => exact hstring.error hk
  · trivial

theorem eq_of_opening_string {s text : Text} {hlt : text.length < s.length}
    (h : opening s = .string text hlt) : s = .char '"' :: text := by
  unfold opening at h
  split at h <;> cases h
  rfl

theorem eq_of_opening_array {s text : Text} {hlt : text.length < s.length}
    (h : opening s = .array text hlt) : s = .char '[' :: text := by
  unfold opening at h
  split at h <;> cases h
  rfl

theorem eq_of_opening_object {s text : Text} {hlt : text.length < s.length}
    (h : opening s = .object text hlt) : s = .char '{' :: text := by
  unfold opening at h
  split at h <;> cases h
  rfl

mutual

/-- What is left behind a value is an end of the text, and so a fault further inside is one of the
text. -/
theorem within_readValue (depth : Nat) (whole s : Text) (hs : s.length ≤ whole.length) :
    Within Rest.left s (readValue depth whole s hs) := by
  rw [readValue]
  split
  · next text _ ho =>
    obtain rfl := eq_of_opening_string ho
    have hstring := (within_readString text).mono (List.suffix_cons (.char '"') text)
    split
    · next hr => exact hstring.ok hr
    · next hr => exact hstring.error hr
  · next text _ ho =>
    obtain rfl := eq_of_opening_array ho
    have hin := List.suffix_cons (.char '[') text
    split
    · trivial
    · split
      · next ht => exact (suffix_of_skipSpace ht).trans hin
      · have := length_skipSpace text
        exact (within_readItems _ whole [] _ _).mono ((skipSpace_suffix text).trans hin)
  · next text _ ho =>
    obtain rfl := eq_of_opening_object ho
    have hin := List.suffix_cons (.char '{') text
    split
    · trivial
    · split
      · next ht => exact (suffix_of_skipSpace ht).trans hin
      · have := length_skipSpace text
        exact (within_readMembers _ whole [] _ _).mono ((skipSpace_suffix text).trans hin)
  · split
    · next hr => exact (within_readScalar s).ok hr
    · next hr => exact (within_readScalar s).error hr
termination_by 2 * s.length

theorem within_readItems (depth : Nat) (whole : Text) (items : List Json) (s : Text)
    (hs : s.length < whole.length) : Within Rest.left s (readItems depth whole items s hs) := by
  have hvalue := within_readValue depth s s (Nat.le_refl _)
  rw [readItems]
  split
  · next hr => exact hvalue.error hr
  · next hr =>
    split
    · next ht => exact (suffix_of_skipSpace ht).trans (hvalue.ok hr)
    · next more ht =>
      have hmore := (suffix_of_skipSpace ht).trans (hvalue.ok hr)
      have := length_lt_of_skipSpace ht
      have := length_skipSpace more
      exact (within_readItems depth whole _ _ _).mono ((skipSpace_suffix more).trans hmore)
    · trivial
termination_by 2 * s.length + 1

theorem within_readMembers (depth : Nat) (whole : Text) (members : List (Text × Json)) (s : Text)
    (hs : s.length < whole.length) : Within Rest.left s (readMembers depth whole members s hs) := by
  have hkey := within_readKey s
  rw [readMembers]
  split
  · next hr => exact hkey.error hr
  · next text _ hr =>
    have hvalue := (within_readValue depth text text (Nat.le_refl _)).mono (hkey.ok hr)
    split
    · next hv => exact hvalue.error hv
    · next hv =>
      split
      · next ht => exact (suffix_of_skipSpace ht).trans (hvalue.ok hv)
      · next more ht =>
        have hmore := (suffix_of_skipSpace ht).trans (hvalue.ok hv)
        have := length_lt_of_skipSpace ht
        have := length_skipSpace more
        exact (within_readMembers depth whole _ _ _).mono ((skipSpace_suffix more).trans hmore)
      · trivial
termination_by 2 * s.length + 1

end

/-! ## Documents -/

theorem faultIn_of_readDocument {depth : Nat} {s : Text} {fault : Fault}
    (h : readDocument depth s = .error fault) : FaultIn s fault := by
  have hvalue := (within_readValue depth (skipSpace s) _ (Nat.le_refl _)).mono (skipSpace_suffix s)
  unfold readDocument at h
  split at h
  · next hr =>
    cases h
    exact hvalue.error hr
  · split at h
    · cases h
    · cases h
      trivial

/-- A text is refused for too many digits only if they stand in it. -/
theorem longRun_of_ofContent {depth : Nat} {text : Text} {n : Nat}
    (h : ofContent depth text = .error (.tooManyDigits n)) : LongRun text n := by
  unfold ofContent at h
  cases hr : readDocument depth text with
  | ok => rw [hr] at h; cases h
  | error fault =>
    rw [hr] at h
    cases fault with
    | malformed | tooDeep => cases h
    | tooManyDigits =>
      cases h
      exact faultIn_of_readDocument hr

theorem longRun_of_ofText {depth : Nat} {text : Text} {n : Nat}
    (h : ofText depth text = .error (.tooManyDigits n)) : LongRun text n := by
  unfold ofText at h
  split at h
  · cases h
  · exact longRun_of_ofContent h

theorem longRun_of_ofBytes {depth : Nat} {bytes : List UInt8} {n : Nat}
    (h : ofBytes depth bytes = .error (.tooManyDigits n)) :
    ∃ text, Text.Encoding.decode bytes = .ok text ∧ LongRun text n := by
  unfold ofBytes at h
  split at h
  · next text ht => exact ⟨text, ht, longRun_of_ofContent h⟩
  · cases h

/-! ## A text of digits -/

theorem words_head : ∀ e ∈ words, e.1.head?.map CodePoint.isDigit = some false := by
  decide +kernel

section

variable {p : CodePoint} (hp : p.isDigit = true)

include hp

/-- No word begins with a digit. -/
theorem readWord?_digit (rest : Text) {l : List (Text × Json)}
    (hl : ∀ e ∈ l, e.1.head?.map CodePoint.isDigit = some false) :
    readWord? (p :: rest) l = none := by
  induction l with
  | nil => rfl
  | cons e others ih =>
    obtain ⟨⟨word, v⟩, hhead, hothers⟩ := e, List.forall_mem_cons.1 hl
    cases word with
    | nil => cases hhead
    | cons q word =>
      have hne : q ≠ p := by
        rintro rfl
        simp [hp] at hhead
      rw [readWord?, behind?, if_neg hne]
      exact ih hothers

theorem opening_digit {s rest : Text} (hs : s = p :: rest) : opening s = .scalar := by
  unfold opening
  split
  · cases hs; cases hp
  · cases hs; cases hp
  · cases hs; cases hp
  · rfl

theorem isSpace_digit : isSpace p = false := by
  have hne (c : Char) (hc : c.isDigit = false) : (p == .char c) = false := by
    rw [beq_eq_false_iff_ne]
    rintro rfl
    exact Bool.false_ne_true (hc.symm.trans hp)
  rw [isSpace, hne _ rfl, hne _ rfl, hne _ rfl, hne _ rfl]
  rfl

variable {rest : Text} (hzero : p ≠ .char '0') (hrest : ∀ q ∈ rest, q.isDigit = true)

include hzero hrest

/-- The digits make up the integer part, and nothing is left. -/
theorem readNumeral?_digits :
    readNumeral? (p :: rest) = some (⟨false, p :: rest, [], none⟩, []) := by
  have hall : ∀ q ∈ p :: rest, q.isDigit = true := List.forall_mem_cons.2 ⟨hp, hrest⟩
  have hsign : ((p :: rest).head? == some (.char '-')) = false := by
    rw [beq_eq_false_iff_ne]
    rintro ⟨⟩
    cases hp
  have hsplit : splitDigits (p :: rest) = (p :: rest, []) := by
    rw [splitDigits, List.takeWhile_eq_self_iff.2 hall, List.dropWhile_eq_nil_iff.2 hall]
  have hinteger : readInteger (p :: rest) = (p :: rest, []) := by
    unfold readInteger
    split
    · next h => exact absurd (List.cons.inj h).1 hzero
    · exact hsplit
  simp only [readNumeral?, hsign, Bool.false_eq_true, if_false, hinteger]
  rfl

variable (hlong : maxDigits < (p :: rest).length)

include hlong

theorem readScalar_digits :
    readScalar (p :: rest) = .error (.tooManyDigits (p :: rest).length) := by
  have hvalue : (⟨false, p :: rest, [], none⟩ : Numeral).value =
      .error (.tooManyDigits (p :: rest).length) := if_neg (Nat.not_le_of_lt hlong)
  unfold readScalar
  split
  · next hw =>
    rw [readWord?_digit hp rest words_head] at hw
    cases hw
  · split
    · next hn =>
      cases hn.symm.trans (readNumeral?_digits hp hzero hrest)
      rw [hvalue]
    · next hn => cases hn.symm.trans (readNumeral?_digits hp hzero hrest)

/-- A text of nothing but digits, the first of them no zero, is refused if they are too many. -/
theorem ofText_digits (depth : Nat) :
    ofText depth (p :: rest) = .error (.tooManyDigits (p :: rest).length) := by
  have hspace : skipSpace (p :: rest) = p :: rest :=
    List.dropWhile_cons_of_neg (by rw [isSpace_digit hp]; exact Bool.false_ne_true)
  have hmark : (p :: rest).head? ≠ some (.char '\uFEFF') := by
    rintro ⟨⟩
    cases hp
  have hvalue (s : Text) (hs : s = p :: rest) : readValue depth s s (Nat.le_refl _) =
      .error (.tooManyDigits (p :: rest).length) := by
    subst hs
    rw [readValue, opening_digit hp rfl]
    simp only [readScalar_digits hp hzero hrest hlong]
  have hdocument : readDocument depth (p :: rest) =
      .error (.tooManyDigits (p :: rest).length) := by
    unfold readDocument
    rw [hvalue _ hspace]
  rw [ofText, if_neg hmark, ofContent, hdocument]
  rfl

end

/-- The same for one digit many times. -/
theorem ofText_replicate (depth : Nat) {p : CodePoint} (hp : p.isDigit = true)
    (hzero : p ≠ .char '0') {n : Nat} (hlong : maxDigits < n + 1) :
    ofText depth (List.replicate (n + 1) p) = .error (.tooManyDigits (n + 1)) := by
  have hall : ∀ q ∈ List.replicate n p, q.isDigit = true :=
    fun q hq => List.eq_of_mem_replicate hq ▸ hp
  have h := ofText_digits hp hzero hall (by rwa [List.length_cons, List.length_replicate]) depth
  rwa [List.length_cons, List.length_replicate] at h

end TypeSketch.Json
