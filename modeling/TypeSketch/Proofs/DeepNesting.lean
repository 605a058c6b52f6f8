import TypeSketch.Proofs.LongNumbers

/-!
# Containers that stand too deep

A container that opens inside too many others is refused, however well the text is written. How
deep a text goes can be seen without reading it: brackets and braces open and close containers,
except inside strings.

**Nesting** (`nesting`). The most containers that are open at once.

**Theorem** (`settles_readValue`). A value closes what it opens. If it is read, the text goes no
deeper than there is room for on the way through it, and if it is refused for its depth, the text
goes deeper.

**Theorems** (`nesting_le_of_ofText`, `lt_nesting_of_ofText`). So a text is read only if its nesting
is within the limit, and refused for its depth only if it is not.

**Theorem** (`ofText_brackets`). A text that begins with too many opening brackets is refused for
its depth, whatever comes behind them.
-/

namespace TypeSketch.Json

/-! ## Nesting -/

/-- The most containers that are open at once in a text, with so many open before it. Inside a
string nothing opens or closes, and a backslash takes the next code point with it. -/
def deepest : Bool → Nat → Text → Nat
  | _, opened, [] => opened
  | true, opened, .char '\\' :: _ :: s => deepest true opened s
  | true, opened, p :: s => deepest (p != .char '"') opened s
  | false, opened, p :: s =>
    if p = .char '"' then deepest true opened s
    else if p = .char '[' ∨ p = .char '{' then deepest false (opened + 1) s
    else if p = .char ']' ∨ p = .char '}' then max opened (deepest false (opened - 1) s)
    else deepest false opened s

/-- The most containers that are open at once in a text. -/
def nesting (s : Text) : Nat := deepest false 0 s

theorem le_deepest (inside : Bool) (opened : Nat) (s : Text) : opened ≤ deepest inside opened s := by
  fun_induction deepest inside opened s <;> omega

section

variable (opened : Nat) (s : Text)

theorem deepest_escaped (p : CodePoint) :
    deepest true opened (.char '\\' :: p :: s) = deepest true opened s := rfl

theorem deepest_array : deepest false opened (.char '[' :: s) = deepest false (opened + 1) s := rfl

theorem deepest_object : deepest false opened (.char '{' :: s) = deepest false (opened + 1) s := rfl

theorem deepest_closingArray : deepest false opened (.char ']' :: s) =
    max opened (deepest false (opened - 1) s) := rfl

theorem deepest_closingObject : deepest false opened (.char '}' :: s) =
    max opened (deepest false (opened - 1) s) := rfl

variable {opened s} {p : CodePoint}

theorem deepest_inside (hq : p ≠ .char '"') (hb : p ≠ .char '\\') :
    deepest true opened (p :: s) = deepest true opened s := by
  have hstay : (p != .char '"') = true := bne_iff_ne.2 hq
  rw [deepest.eq_def]
  simp [hb, hstay]

theorem deepest_flat (hp : isFlat p = true) :
    deepest false opened (p :: s) = deepest false opened s := by
  have hne (q : CodePoint) (hq : q ∈ marks) : p ≠ q := by
    rintro rfl
    rw [isFlat, List.contains_iff_mem.2 hq] at hp
    cases hp
  rw [deepest, if_neg (hne _ (by decide)), if_neg (not_or.2 ⟨hne _ (by decide), hne _ (by decide)⟩),
    if_neg (not_or.2 ⟨hne _ (by decide), hne _ (by decide)⟩)]

end

theorem FlatTo.deepest {s rest : Text} (h : FlatTo s rest) (opened : Nat) :
    deepest false opened s = deepest false opened rest := by
  obtain ⟨front, rfl, hfront⟩ := h
  induction front with
  | nil => rfl
  | cons p front ih =>
    rw [List.forall_mem_cons] at hfront
    rw [List.cons_append, deepest_flat hfront.1, ih hfront.2]

/-! ## Strings -/

theorem ne_of_hexValue? {p : CodePoint} {n : Nat} (h : hexValue? p = some n) :
    p ≠ .char '"' ∧ p ≠ .char '\\' := by
  constructor <;> rintro rfl <;> cases h

theorem ne_of_hexValue4? {a b c d : CodePoint} {n : Nat} (h : hexValue4? a b c d = some n) :
    ∀ p ∈ [a, b, c, d], p ≠ .char '"' ∧ p ≠ .char '\\' := by
  simp only [hexValue4?, Option.bind_eq_bind, Option.bind_eq_some_iff] at h
  obtain ⟨_, ha, _, hb, _, hc, _, hd, -⟩ := h
  simp only [List.forall_mem_cons]
  exact ⟨ne_of_hexValue? ha, ne_of_hexValue? hb, ne_of_hexValue? hc, ne_of_hexValue? hd,
    List.forall_mem_nil _⟩

theorem deepest_of_readRest {start read s text rest : Text} {afterEscape : Bool}
    (h : readRest start afterEscape read s = .ok (text, rest)) (opened : Nat) :
    deepest true opened s = deepest false opened rest := by
  fun_induction readRest start afterEscape read s with
  | case1 | case3 | case5 | case6 | case8 | case9 => cases h
  | case2 =>
    cases h
    rfl
  | case4 _ read a b c d e more code hcode ih =>
    have hne := ne_of_hexValue4? hcode
    simp only [List.forall_mem_cons] at hne
    obtain ⟨ha, hb, hc, hd, -⟩ := hne
    rw [deepest_escaped, deepest_inside ha.1 ha.2, deepest_inside hb.1 hb.2,
      deepest_inside hc.1 hc.2, deepest_inside hd.1 hd.2, ih h]
  | case7 _ _ _ _ _ _ _ _ ih => rw [deepest_escaped, ih h]
  | case10 _ _ p rest hquote hbackslash _ ih => rw [deepest_inside hquote hbackslash, ih h]

theorem readString_ne_tooDeep (s : Text) (c : Container) : readString s ≠ .error (.tooDeep c) := by
  have hrest (start : Text) (afterEscape : Bool) (read s : Text) :
      readRest start afterEscape read s ≠ .error (.tooDeep c) := by
    fun_induction readRest start afterEscape read s with
    | case4 _ _ _ _ _ _ _ _ _ _ ih => exact ih
    | case7 _ _ _ _ _ _ _ _ ih => exact ih
    | case10 _ _ _ _ _ _ _ ih => exact ih
    | case1 | case2 | case3 | case5 | case6 | case8 | case9 => rintro ⟨⟩
  exact hrest _ _ _ s

theorem readScalar_ne_tooDeep (s : Text) (c : Container) : readScalar s ≠ .error (.tooDeep c) := by
  unfold readScalar
  split
  · rintro ⟨⟩
  · split
    · next n _ _ =>
      split
      · rintro ⟨⟩
      · next fault hv =>
        rintro ⟨⟩
        unfold Numeral.value at hv
        split at hv
        · split at hv <;> cases hv
        · cases hv
    · rintro ⟨⟩

/-! ## What reading tells about the depth -/

/-- A part of a text is read that goes up to `rest`, with room for `depth` containers inside each
other. It opens no more than that, and closes as many as are open in it and `up` from before. -/
def Spans (depth up : Nat) (s rest : Text) : Prop :=
  ∀ opened, deepest false opened rest ≤ deepest false (opened + up) s ∧
    deepest false (opened + up) s ≤ max (opened + up + depth) (deepest false opened rest)

/-- What reading comes to: the part that is read is within the depth, or the text goes deeper if
that is the fault. -/
def Settles {α : Type} (depth up : Nat) (left : α → Text) (s : Text) : Except Fault α → Prop
  | .ok a => Spans depth up s (left a)
  | .error (.tooDeep _) => ∀ opened, opened + up + depth < deepest false (opened + up) s
  | .error _ => True

section

variable {depth up : Nat} {s s' rest : Text}

theorem spans_of_eq (h : ∀ opened, deepest false opened s = deepest false opened rest) :
    Spans depth 0 s rest := by
  intro opened
  rw [Nat.add_zero, h]
  omega

theorem FlatTo.spans (h : FlatTo s rest) : Spans depth 0 s rest := spans_of_eq h.deepest

theorem Spans.trans (h : Spans depth 0 s s') (h' : Spans depth up s' rest) :
    Spans depth up s rest := by
  intro opened
  have hs := h (opened + up)
  have hs' := h' opened
  simp only [Nat.add_zero] at hs
  omega

/-- A closing bracket or brace ends the container around what was read. -/
theorem Spans.close {p : CodePoint} (hp : ∀ opened, deepest false opened (p :: rest) =
      max opened (deepest false (opened - 1) rest)) (h : Spans depth 0 s (p :: rest)) :
    Spans depth 1 s rest := by
  intro opened
  have hs := h (opened + 1)
  rw [hp, Nat.add_sub_cancel, Nat.add_zero] at hs
  omega

variable {α β : Type} {left : α → Text} {left' : β → Text} {r : Except Fault α}

/-- Whatever is never refused for its depth has only to be read within it. -/
theorem settles_of_ne_tooDeep (hread : ∀ a, r = .ok a → Spans depth up s (left a))
    (h : ∀ c, r ≠ .error (.tooDeep c)) : Settles depth up left s r := by
  cases r with
  | ok a => exact hread a rfl
  | error fault =>
    cases fault with
    | malformed | tooManyDigits => trivial
    | tooDeep c => exact absurd rfl (h c)

theorem Settles.ok (h : Settles depth up left s r) {a : α} (hr : r = .ok a) :
    Spans depth up s (left a) := by
  subst hr
  exact h

/-- A fault in a value is one of the container around it. -/
theorem Settles.error (h : Settles depth 0 left s r) {fault : Fault} (hr : r = .error fault) :
    Settles depth up left' s (.error fault) := by
  subst hr
  cases fault with
  | malformed | tooManyDigits => trivial
  | tooDeep c => exact fun opened => h (opened + up)

theorem Settles.after (hs : Spans depth 0 s s') (h : Settles depth up left s' r) :
    Settles depth up left s r := by
  cases r with
  | ok a => exact Spans.trans hs h
  | error fault =>
    cases fault with
    | malformed | tooManyDigits => trivial
    | tooDeep c => exact fun opened => (h opened).trans_le (hs (opened + up)).1

/-- Behind an opening bracket or brace there is room for one container less. -/
theorem Settles.opened {p : CodePoint} (hp : ∀ opened, deepest false opened (p :: s) =
      deepest false (opened + 1) s) (h : Settles depth 1 left s r) :
    Settles (depth + 1) 0 left (p :: s) r := by
  cases r with
  | ok a =>
    intro opened
    have hs := h opened
    rw [Nat.add_zero, hp]
    omega
  | error fault =>
    cases fault with
    | malformed | tooManyDigits => trivial
    | tooDeep c =>
      intro opened
      have hs := h opened
      rw [Nat.add_zero, hp]
      omega

end

/-! ## Beginnings of values -/

theorem settles_readScalar (depth : Nat) (s : Text) :
    Settles depth 0 Rest.left s (readScalar s) :=
  settles_of_ne_tooDeep (fun _ hr => (flatTo_readScalar hr).spans) (readScalar_ne_tooDeep s)

theorem settles_readString (depth : Nat) (s : Text) :
    Settles depth 0 Prod.snd (.char '"' :: s) (readString s) :=
  settles_of_ne_tooDeep (fun _ hr => spans_of_eq (deepest_of_readRest hr)) (readString_ne_tooDeep s)

theorem settles_readKey (depth : Nat) (s : Text) : Settles depth 0 Rest.left s (readKey s) := by
  unfold readKey
  split
  · next text =>
    have hstring := settles_readString depth text
    split
    · next hk =>
      split
      · next after hc =>
        have hafter : FlatTo (.char ':' :: after) (skipSpace after) :=
          (flatTo_skipSpace after).cons (by decide)
        exact (hstring.ok hk).trans ((flatTo_of_skipSpace hc).trans hafter).spans
      · trivial
    · next hk => exact hstring.error hk
  · trivial

/-! ## Values -/

mutual

theorem settles_readValue (depth : Nat) (whole s : Text) (hs : s.length ≤ whole.length) :
    Settles depth 0 Rest.left s (readValue depth whole s hs) := by
  rw [readValue]
  split
  · next text _ ho =>
    obtain rfl := eq_of_opening_string ho
    have hstring := settles_readString depth text
    split
    · next hr => exact hstring.ok hr
    · next hr => exact hstring.error hr
  · next text _ ho =>
    obtain rfl := eq_of_opening_array ho
    split
    · intro opened
      exact le_deepest false (opened + 1) text
    · refine Settles.opened (deepest_array · text) ?_
      split
      · next ht => exact (flatTo_of_skipSpace ht).spans.close (deepest_closingArray · _)
      · have := length_skipSpace text
        exact (settles_readItems _ whole [] _ _).after (flatTo_skipSpace text).spans
  · next text _ ho =>
    obtain rfl := eq_of_opening_object ho
    split
    · intro opened
      exact le_deepest false (opened + 1) text
    · refine Settles.opened (deepest_object · text) ?_
      split
      · next ht => exact (flatTo_of_skipSpace ht).spans.close (deepest_closingObject · _)
      · have := length_skipSpace text
        exact (settles_readMembers _ whole [] _ _).after (flatTo_skipSpace text).spans
  · split
    · next hr => exact (settles_readScalar depth s).ok hr
    · next hr => exact (settles_readScalar depth s).error hr
termination_by 2 * s.length

theorem settles_readItems (depth : Nat) (whole : Text) (items : List Json) (s : Text)
    (hs : s.length < whole.length) :
    Settles depth 1 Rest.left s (readItems depth whole items s hs) := by
  have hvalue := settles_readValue depth s s (Nat.le_refl _)
  rw [readItems]
  split
  · next hr => exact hvalue.error hr
  · next hr =>
    have hitem := hvalue.ok hr
    split
    · next ht =>
      exact (hitem.trans (flatTo_of_skipSpace ht).spans).close (deepest_closingArray · _)
    · next more ht =>
      have := length_lt_of_skipSpace ht
      have := length_skipSpace more
      have hcomma : FlatTo (.char ',' :: more) (skipSpace more) :=
        (flatTo_skipSpace more).cons (by decide)
      exact (settles_readItems depth whole _ _ _).after
        (hitem.trans ((flatTo_of_skipSpace ht).trans hcomma).spans)
    · trivial
termination_by 2 * s.length + 1

theorem settles_readMembers (depth : Nat) (whole : Text) (members : List (Text × Json)) (s : Text)
    (hs : s.length < whole.length) :
    Settles depth 1 Rest.left s (readMembers depth whole members s hs) := by
  have hkey := settles_readKey depth s
  rw [readMembers]
  split
  · next hr => exact hkey.error hr
  · next text _ hr =>
    have hvalue := (settles_readValue depth text text (Nat.le_refl _)).after (hkey.ok hr)
    split
    · next hv => exact hvalue.error hv
    · next hv =>
      have hmember := hvalue.ok hv
      split
      · next ht =>
        exact (hmember.trans (flatTo_of_skipSpace ht).spans).close (deepest_closingObject · _)
      · next more ht =>
        have := length_lt_of_skipSpace ht
        have := length_skipSpace more
        have hcomma : FlatTo (.char ',' :: more) (skipSpace more) :=
          (flatTo_skipSpace more).cons (by decide)
        exact (settles_readMembers depth whole _ _ _).after
          (hmember.trans ((flatTo_of_skipSpace ht).trans hcomma).spans)
      · trivial
termination_by 2 * s.length + 1

end

/-! ## Documents -/

/-- A document is read up to its end. -/
theorem settles_readDocument (depth : Nat) (s : Text) :
    Settles depth 0 (fun _ => []) s (readDocument depth s) := by
  have hvalue := (settles_readValue depth _ _ (Nat.le_refl _)).after (flatTo_skipSpace s).spans
  unfold readDocument
  split
  · next hr => exact hvalue.error hr
  · next hr =>
    split
    · next hend => exact (hvalue.ok hr).trans (flatTo_of_skipSpace hend).spans
    · trivial

section

variable {depth : Nat} {text : Text}

/-- The nesting of a text that is read is within the limit. -/
theorem nesting_le_of_ofText {v : Json} (h : ofText depth text = .ok v) : nesting text ≤ depth := by
  unfold ofText at h
  split at h
  · cases h
  · unfold ofContent at h
    cases hr : readDocument depth text with
    | error fault => rw [hr] at h; cases h
    | ok v =>
      have hle := ((settles_readDocument depth text).ok hr 0).2
      simpa [nesting, deepest] using hle

/-- The nesting of a text that is refused for its depth is over the limit. -/
theorem lt_nesting_of_ofText {c : Container} (h : ofText depth text = .error (.tooDeep c)) :
    depth < nesting text := by
  unfold ofText at h
  split at h
  · cases h
  · unfold ofContent at h
    have hdocument := settles_readDocument depth text
    cases hr : readDocument depth text with
    | ok => rw [hr] at h; cases h
    | error fault =>
      rw [hr] at h hdocument
      cases fault with
      | malformed | tooManyDigits => cases h
      | tooDeep => simpa [nesting] using hdocument 0

end

/-! ## A text that begins with brackets -/

/-- So many brackets and what comes behind them. -/
def brackets (n : Nat) (rest : Text) : Text := List.replicate n (.char '[') ++ rest

/-- A fault in the first item is one of the array. -/
theorem readItems_eq_error {depth : Nat} {whole : Text} {items : List Json} {s : Text}
    {hs : s.length < whole.length} {fault : Fault}
    (h : readValue depth s s (Nat.le_refl _) = .error fault) :
    readItems depth whole items s hs = .error fault := by
  rw [readItems, h]

theorem readValue_brackets (depth : Nat) (rest whole : Text)
    (hs : (brackets (depth + 1) rest).length ≤ whole.length) :
    readValue depth whole (brackets (depth + 1) rest) hs = .error (.tooDeep .array) := by
  induction depth generalizing whole with
  | zero =>
    rw [readValue]
    rfl
  | succ depth ih =>
    have hopening : opening (brackets (depth + 2) rest) =
        .array (brackets (depth + 1) rest) (Nat.lt_succ_self _) := rfl
    rw [readValue, hopening]
    dsimp only
    -- behind the first bracket stands the next one, so the array is not empty
    split
    · next ht => cases ht
    · exact readItems_eq_error (ih _ _)

/-- A text that begins with too many opening brackets is refused for its depth. -/
theorem ofText_brackets (depth : Nat) (rest : Text) :
    ofText depth (brackets (depth + 1) rest) = .error (.tooDeep .array) := by
  -- there is no space before a bracket, so the document begins with the first of them
  have hvalue : readValue depth (skipSpace (brackets (depth + 1) rest))
      (skipSpace (brackets (depth + 1) rest)) (Nat.le_refl _) = .error (.tooDeep .array) :=
    readValue_brackets depth rest _ (Nat.le_refl _)
  have hdocument : readDocument depth (brackets (depth + 1) rest) =
      .error (.tooDeep .array) := by
    unfold readDocument
    rw [hvalue]
  rw [ofText, if_neg (by rintro ⟨⟩), ofContent, hdocument]
  rfl

end TypeSketch.Json
