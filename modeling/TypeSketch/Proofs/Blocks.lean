import TypeSketch.Proofs.Order
import TypeSketch.Proofs.Quoting

/-!
# Reading blocks back

A block is read from left to right, and at every point it is clear what comes next. A name ends at
a blank, a type at a semicolon, and a literal at its closing quote. A bare key ends at a colon or a
question mark, and no literal begins like one. A line of an enum says by its comma whether another
line follows, and the lines of an interface go on until a brace stands where the blanks would be.

**Theorem** (`text_append_inj`). Texts that begin with blocks and are the same begin with the same
block, if its names and types are built from words and keys are written as they are
(`Block.Readable`).

**Theorem** (`intercalate_text_inj`). Blocks that are written alike one below the other are the
same.

**Theorem** (`Pervasive.text`). What all pieces of a block have, and everything that is put together
from them, the block has.

**Theorem** (`readable_typeOf`). The blocks of a walk are built from words.
-/

namespace TypeSketch

open Catalog

/-! ## Where a part ends -/

/-- Two lists are the same. Each has a first element of some kind. Then what stands before that
element is the same, and so is the rest. -/
theorem append_cons_inj {α : Type*} (stop : α → Prop) {xs ys xs' ys' : List α} {x y : α}
    (hxs : ∀ a ∈ xs, ¬stop a) (hys : ∀ a ∈ ys, ¬stop a) (hx : stop x) (hy : stop y)
    (h : xs ++ x :: xs' = ys ++ y :: ys') : xs = ys ∧ x :: xs' = y :: ys' := by
  induction xs generalizing ys with
  | nil =>
    cases ys with
    | nil => exact ⟨rfl, h⟩
    | cons b ys => exact absurd ((List.cons.inj h).1 ▸ hx) (hys b List.mem_cons_self)
  | cons a xs ih =>
    cases ys with
    | nil => exact absurd ((List.cons.inj h).1 ▸ hy) (hxs a List.mem_cons_self)
    | cons b ys =>
      obtain ⟨rfl, htail⟩ := List.cons.inj h
      rw [List.forall_mem_cons] at hxs hys
      obtain ⟨rfl, hrest⟩ := ih hxs.2 hys.2 htail
      exact ⟨rfl, hrest⟩

namespace Text

theorem mem_ofString {s : String} {c : Char} : .char c ∈ ofString s ↔ c ∈ s.toList := by
  simp [ofString]

/-- Strings that do not hold a character, up to that character. -/
theorem ofString_append_inj {s t : String} {c : Char} (hs : c ∉ s.toList) (ht : c ∉ t.toList)
    {xs ys : Text} (h : ofString s ++ .char c :: xs = ofString t ++ .char c :: ys) :
    s = t ∧ xs = ys := by
  have hfree {s : String} (hs : c ∉ s.toList) : ∀ p ∈ ofString s, p ≠ .char c := by
    rintro p hp rfl
    exact hs (mem_ofString.1 hp)
  obtain ⟨hst, hxy⟩ := append_cons_inj (· = .char c) (hfree hs) (hfree ht) rfl rfl h
  exact ⟨ofString_inj.1 hst, (List.cons.inj hxy).2⟩

theorem word_append_inj {s t : String} (hs : IsWord s) (ht : IsWord t) {c : Char}
    (hc : isWordChar c = false) {xs ys : Text}
    (h : ofString s ++ .char c :: xs = ofString t ++ .char c :: ys) : s = t ∧ xs = ys :=
  ofString_append_inj (not_mem_of_isWord hs hc) (not_mem_of_isWord ht hc) h

/-! ## Keys -/

/-- Where a key ends. -/
def EndsKey (p : CodePoint) : Prop := p = .char ':' ∨ p = .char '?'

theorem not_endsKey_of_isBareRest {p : CodePoint} (h : isBareRest p = true) : ¬EndsKey p := by
  rintro (rfl | rfl) <;> exact absurd h (by decide)

theorem isBareRest_of_isBareStart {p : CodePoint} (h : isBareStart p = true) :
    isBareRest p = true := by
  rw [isBareRest, h, Bool.true_or]

theorem not_endsKey_of_isBareTail {s : Text} (h : isBareTail s = true) : ∀ p ∈ s, ¬EndsKey p := by
  fun_induction isBareTail s with
  | case1 => simp
  | case2 =>
    intro p hp
    rw [List.mem_singleton.1 hp]
    rintro (he | he) <;> cases he
  | case3 p rest _ ih =>
    rw [Bool.and_eq_true] at h
    exact List.forall_mem_cons.2 ⟨not_endsKey_of_isBareRest h.1, ih h.2⟩

theorem not_endsKey_of_isBare {s : Text} (h : isBare s = true) : ∀ p ∈ s, ¬EndsKey p := by
  cases s with
  | nil => cases h
  | cons p rest =>
    rw [isBare, Bool.and_eq_true] at h
    exact List.forall_mem_cons.2
      ⟨not_endsKey_of_isBareRest (isBareRest_of_isBareStart h.1), not_endsKey_of_isBareTail h.2⟩

/-- A bare key does not begin like a literal. -/
theorem isBare_append_ne_quote {s : Text} (h : isBare s = true) (t xs ys : Text) :
    s ++ xs ≠ quote t ++ ys := by
  cases s with
  | nil => cases h
  | cons p rest =>
    intro he
    rw [quote_append, List.cons_append] at he
    rw [isBare, (List.cons.inj he).1] at h
    simp [isBareStart] at h

end Text

namespace Declaration

open Text

/-- A written key ends in one way only. -/
theorem writtenKey_append_inj {s t xs ys : Text} {x y : CodePoint} (hx : EndsKey x)
    (hy : EndsKey y) (h : writtenKey s ++ x :: xs = writtenKey t ++ y :: ys) :
    s = t ∧ x :: xs = y :: ys := by
  unfold writtenKey at h
  split at h <;> split at h
  · next hs ht =>
    exact append_cons_inj EndsKey (not_endsKey_of_isBare hs) (not_endsKey_of_isBare ht) hx hy h
  · next hs _ => exact absurd h (isBare_append_ne_quote hs _ _ _)
  · next _ ht => exact absurd h.symm (isBare_append_ne_quote ht _ _ _)
  · exact quote_append_inj h

/-! ## Properties -/

/-- What stands in a type beside words. -/
theorem mem_text {t : TypeExpr} (h : t.WellFormed IsWord) {c : Char} (hc : c ∈ t.text.toList) :
    isWordChar c = true ∨ c ∈ ['[', ']', '(', ')', '|', ' '] := by
  induction h with
  | atom hw =>
    rw [TypeExpr.toList_text_atom] at hc
    exact Or.inl (hw c hc)
  | array _ ih =>
    rw [TypeExpr.toList_text_array, List.mem_append] at hc
    rcases hc with hc | hc
    · exact ih hc
    · exact Or.inr (List.mem_append_left ['(', ')', '|', ' '] hc)
  | @arrayOfUnion members hlen _ _ ih =>
    cases members with
    | nil => simp at hlen
    | cons m ms =>
      rw [TypeExpr.toList_text_arrayOfUnion, List.mem_cons, List.mem_append, List.mem_append,
        TypeExpr.tailChars, List.mem_flatMap] at hc
      rcases hc with rfl | hc | ⟨n, hn, hc⟩ | hc
      · exact Or.inr (by decide)
      · exact ih m List.mem_cons_self hc
      · rw [List.mem_cons, List.mem_cons, List.mem_cons] at hc
        rcases hc with rfl | rfl | rfl | hc
        · exact Or.inr (by decide)
        · exact Or.inr (by decide)
        · exact Or.inr (by decide)
        · exact ih n (List.mem_cons_of_mem _ hn) hc
      · exact Or.inr ((by decide : [')', '[', ']'] ⊆ ['[', ']', '(', ')', '|', ' ']) hc)

theorem not_mem_text {t : TypeExpr} (h : t.WellFormed IsWord) {c : Char}
    (hword : isWordChar c = false) (hc : c ∉ ['[', ']', '(', ')', '|', ' ']) :
    c ∉ t.text.toList := by
  intro hm
  rcases mem_text h hm with hw | hw
  · rw [hword] at hw
    cases hw
  · exact hc hw

/-- What stands between a key and its type. -/
def mark (o : Options) : Text := if o.markOptional then "?: " else ": "

theorem exists_mark (o : Options) : ∃ p rest, EndsKey p ∧ mark o = p :: rest := by
  unfold mark
  split
  · exact ⟨_, _, Or.inr rfl, rfl⟩
  · exact ⟨_, _, Or.inl rfl, rfl⟩

theorem propertyLine_append (o : Options) (key : Text) (t : TypeExpr) (rest : Text) :
    propertyLine o (key, t) ++ rest = .char ' ' :: .char ' ' ::
      (key ++ (mark o ++ (ofString t.text ++ .char ';' :: .char '\n' :: rest))) := by
  cases h : o.markOptional <;> simp [propertyLine, mark, h, ofString]

/-- The line of a property ends in one way only. -/
theorem propertyLine_append_inj (o : Options) {key key' : Text} {t t' : TypeExpr}
    (ht : t.WellFormed IsWord) (ht' : t'.WellFormed IsWord) {xs ys : Text}
    (h : propertyLine o (writtenKey key, t) ++ xs = propertyLine o (writtenKey key', t') ++ ys) :
    key = key' ∧ t = t' ∧ xs = ys := by
  obtain ⟨p, rest, hp, hmark⟩ := exists_mark o
  simp only [propertyLine_append, List.cons.injEq, true_and, hmark, List.cons_append] at h
  obtain ⟨hkey, hrest⟩ := writtenKey_append_inj hp hp h
  obtain ⟨htext, hend⟩ := ofString_append_inj (not_mem_text ht rfl (by decide))
    (not_mem_text ht' rfl (by decide)) (List.append_cancel_left (List.cons.inj hrest).2)
  exact ⟨hkey, TypeExpr.text_inj ht ht' htext, (List.cons.inj hend).2⟩

/-- The line of a key as it is and its type. -/
def plainLine (o : Options) (property : Text × TypeExpr) : Text :=
  propertyLine o (writtenKey property.1, property.2)

theorem plainLine_append_ne (o : Options) (property : Text × TypeExpr) (xs ys : Text) :
    plainLine o property ++ xs ≠ .char '\x7d' :: ys := by
  rw [plainLine, propertyLine_append]
  intro h
  cases (List.cons.inj h).1

/-- The lines of an interface end at the brace. -/
theorem plainLines_append_inj (o : Options) {es es' : List (Text × TypeExpr)}
    (hes : ∀ e ∈ es, e.2.WellFormed IsWord) (hes' : ∀ e ∈ es', e.2.WellFormed IsWord)
    {xs ys : Text} (h : (es.map (plainLine o)).flatten ++ .char '\x7d' :: xs =
      (es'.map (plainLine o)).flatten ++ .char '\x7d' :: ys) : es = es' ∧ xs = ys := by
  induction es generalizing es' with
  | nil =>
    cases es' with
    | nil => exact ⟨rfl, (List.cons.inj h).2⟩
    | cons e' es' =>
      rw [List.map_cons, List.flatten_cons, List.append_assoc] at h
      exact absurd h.symm (plainLine_append_ne o e' _ _)
  | cons e es ih =>
    rw [List.map_cons, List.flatten_cons, List.append_assoc] at h
    cases es' with
    | nil => exact absurd h (plainLine_append_ne o e _ _)
    | cons e' es' =>
      rw [List.map_cons, List.flatten_cons, List.append_assoc] at h
      rw [List.forall_mem_cons] at hes hes'
      obtain ⟨hkey, htype, hrest⟩ := propertyLine_append_inj o hes.1 hes'.1 h
      obtain ⟨rfl, hend⟩ := ih hes.2 hes'.2 hrest
      exact ⟨by rw [Prod.ext hkey htype], hend⟩

theorem properties_of_nodup {o : Options} (h : o.camelCase = false)
    {es : List (Text × TypeExpr)} (hes : (es.map Prod.fst).Nodup) :
    properties o es = es.map fun e => (writtenKey e.1, e.2) := by
  have hname : (es.map fun e => o.writtenName e.1) = es.map Prod.fst := by
    simp [Options.writtenName, h]
  rw [properties, hname, Fresh.assign_of_nodup hes fun _ _ => List.not_mem_nil, List.map_map,
    List.zip_map']
  rfl

/-! ## Members of an enum -/

theorem isWord_memberKey (value : Text) : IsWord (memberKey value) := by
  intro c hc
  have hmask {d : Char} (hd : d ∈ value.chars.map fun c => if isWordChar c then c else '_') :
      isWordChar d = true := by
    obtain ⟨e, -, rfl⟩ := List.mem_map.1 hd
    by_cases he : isWordChar e = true
    · rw [if_pos he, he]
    · rw [if_neg he]
      rfl
  simp only [memberKey, String.toList_ofList] at hc
  split at hc
  · rw [List.mem_singleton.1 hc]
    rfl
  · unfold guardDigit at hc
    split at hc
    · rcases List.mem_cons.1 hc with rfl | hc
      · rfl
      · exact hmask hc
    · exact hmask hc

theorem isWord_of_mem_members {values : List Text} {member : String × Text}
    (h : member ∈ members values) : IsWord member.1 := by
  have hbases : ∀ base ∈ values.map memberKey, IsWord base := by
    intro base hb
    obtain ⟨value, -, rfl⟩ := List.mem_map.1 hb
    exact isWord_memberKey value
  have hname : member.1 ∈ Fresh.assign [] (values.map memberKey) := by
    rw [members] at h
    exact (List.of_mem_zip h).1
  have hnumbered (base : String) (n : Nat) (hb : IsWord base) :
      IsWord (Numbered.numbered base n) := isWord_numbered hb n
  exact Fresh.forall_mem_assign hnumbered hbases member.1 hname

theorem map_snd_members (values : List Text) : (members values).map Prod.snd = values :=
  List.map_snd_zip (by simp)

/-- What stands behind a member: a comma if there is another one. -/
def comma {α : Type*} (rest : List α) : String := if rest.isEmpty then "" else ","

theorem memberLines_cons (member : String × Text) (rest : List (String × Text)) :
    memberLines (member :: rest) = memberLine member (comma rest) :: memberLines rest := by
  cases rest <;> rfl

theorem memberLine_append (member : String × Text) (sep : String) (rest : Text) :
    memberLine member sep ++ rest = .char ' ' :: .char ' ' ::
      (ofString member.1 ++ .char ' ' :: .char '=' :: .char ' ' ::
        (quote member.2 ++ (ofString sep ++ .char '\n' :: rest))) := by
  simp [memberLine, ofString]

/-- The line of a member ends in one way only, and tells whether another one follows. -/
theorem memberLine_append_inj {m m' : String × Text} (hm : IsWord m.1) (hm' : IsWord m'.1)
    {rest rest' : List (String × Text)} {xs ys : Text}
    (h : memberLine m (comma rest) ++ xs = memberLine m' (comma rest') ++ ys) :
    m = m' ∧ (rest = [] ↔ rest' = []) ∧ xs = ys := by
  simp only [memberLine_append, List.cons.injEq, true_and] at h
  obtain ⟨hname, hrest⟩ := word_append_inj hm hm' rfl h
  obtain ⟨hvalue, hend⟩ := quote_append_inj (List.cons.inj (List.cons.inj hrest).2).2
  refine ⟨Prod.ext hname hvalue, ?_⟩
  cases rest <;> cases rest' <;> simp_all [comma, ofString]

/-- The lines of an enum end where no comma stands. -/
theorem memberLines_append_inj {ms ms' : List (String × Text)} (hms : ∀ m ∈ ms, IsWord m.1)
    (hms' : ∀ m ∈ ms', IsWord m.1) {xs ys : Text}
    (h : (memberLines ms).flatten ++ .char '\x7d' :: xs =
      (memberLines ms').flatten ++ .char '\x7d' :: ys) : ms = ms' ∧ xs = ys := by
  have hne (m : String × Text) (sep : String) (zs zs' : Text) :
      memberLine m sep ++ zs ≠ .char '\x7d' :: zs' := by
    rw [memberLine_append]
    intro e
    cases (List.cons.inj e).1
  induction ms generalizing ms' with
  | nil =>
    cases ms' with
    | nil => exact ⟨rfl, (List.cons.inj h).2⟩
    | cons m' ms' =>
      rw [memberLines_cons, List.flatten_cons, List.append_assoc] at h
      exact absurd h.symm (hne m' _ _ _)
  | cons m ms ih =>
    rw [memberLines_cons, List.flatten_cons, List.append_assoc] at h
    cases ms' with
    | nil => exact absurd h (hne m _ _ _)
    | cons m' ms' =>
      rw [memberLines_cons, List.flatten_cons, List.append_assoc] at h
      rw [List.forall_mem_cons] at hms hms'
      obtain ⟨rfl, -, hrest⟩ := memberLine_append_inj hms.1 hms'.1 h
      obtain ⟨rfl, hend⟩ := ih hms.2 hms'.2 hrest
      exact ⟨rfl, hend⟩

end Declaration

/-! ## Blocks -/

open Text Declaration

theorem block_append (head : String) (lines : List Text) (rest : Text) :
    block head lines ++ rest = ofString head ++ .char ' ' :: .char '\x7b' :: .char '\n' ::
      (lines.flatten ++ .char '\x7d' :: rest) := by
  simp [block, ofString]

theorem head_append_inj {s t kind : String} (hs : IsWord s) (ht : IsWord t) {xs ys : Text}
    (h : ofString (kind ++ s) ++ .char ' ' :: xs = ofString (kind ++ t) ++ .char ' ' :: ys) :
    s = t ∧ xs = ys := by
  rw [ofString_append, ofString_append, List.append_assoc, List.append_assoc] at h
  exact word_append_inj hs ht rfl (List.append_cancel_left h)

namespace Block

/-- A block whose names and types are built from words. -/
def Readable : Block → Prop
  | .enum name _ => IsWord name
  | .interface name properties =>
    IsWord name ∧ ∀ e ∈ properties.entries, e.2.WellFormed IsWord

theorem enum_append_ne_interface (o : Options) (name name' : String) (values : List Text)
    (properties : Properties) (xs ys : Text) :
    (Block.enum name values).text o ++ xs ≠ (Block.interface name' properties).text o ++ ys := by
  rw [text, text, Declaration.enum, Declaration.interface, block_append, block_append,
    ofString_append, ofString_append]
  intro h
  cases (List.cons.inj h).1

/-- **A block ends in one way only.** -/
theorem text_append_inj {o : Options} (ho : o.camelCase = false) {b b' : Block}
    (hb : b.Readable) (hb' : b'.Readable) {xs ys : Text}
    (h : b.text o ++ xs = b'.text o ++ ys) : b = b' ∧ xs = ys := by
  cases b with
  | enum name values =>
    cases b' with
    | enum name' values' =>
      rw [text, text, Declaration.enum, Declaration.enum, block_append, block_append] at h
      obtain ⟨rfl, hrest⟩ := head_append_inj hb hb' h
      obtain ⟨hmembers, hend⟩ := memberLines_append_inj (fun _ => isWord_of_mem_members)
        (fun _ => isWord_of_mem_members) (List.cons.inj (List.cons.inj hrest).2).2
      rw [← map_snd_members values, hmembers, map_snd_members]
      exact ⟨rfl, hend⟩
    | interface name' properties' => exact absurd h (enum_append_ne_interface o _ _ _ _ _ _)
  | interface name properties =>
    cases b' with
    | enum name' values' => exact absurd h.symm (enum_append_ne_interface o _ _ _ _ _ _)
    | interface name' properties' =>
      rw [text, text, Declaration.interface, Declaration.interface, block_append, block_append,
        properties_of_nodup ho properties.nodup, properties_of_nodup ho properties'.nodup,
        List.map_map, List.map_map] at h
      obtain ⟨rfl, hrest⟩ := head_append_inj hb.1 hb'.1 h
      obtain ⟨hentries, hend⟩ := plainLines_append_inj o hb.2 hb'.2
        (List.cons.inj (List.cons.inj hrest).2).2
      exact ⟨by rw [Table.ext hentries], hend⟩

/-- Blocks behind separators. -/
theorem flatMap_text_inj {o : Options} (ho : o.camelCase = false) {sep : Text} (hsep : sep ≠ [])
    {bs bs' : List Block} (hbs : ∀ b ∈ bs, b.Readable) (hbs' : ∀ b ∈ bs', b.Readable)
    (h : (bs.flatMap fun b => sep ++ b.text o) = bs'.flatMap fun b => sep ++ b.text o) :
    bs = bs' := by
  induction bs generalizing bs' with
  | nil =>
    cases bs' with
    | nil => rfl
    | cons b' bs' => simp [hsep] at h
  | cons b bs ih =>
    cases bs' with
    | nil => simp [hsep] at h
    | cons b' bs' =>
      rw [List.flatMap_cons, List.flatMap_cons, List.append_assoc, List.append_assoc] at h
      rw [List.forall_mem_cons] at hbs hbs'
      obtain ⟨rfl, hrest⟩ := text_append_inj ho hbs.1 hbs'.1 (List.append_cancel_left h)
      rw [ih hbs.2 hbs'.2 hrest]

/-- **Blocks that are written alike are the same.** -/
theorem intercalate_text_inj {o : Options} (ho : o.camelCase = false) {sep : Text}
    (hsep : sep ≠ []) {bs bs' : List Block} (hbs : ∀ b ∈ bs, b.Readable)
    (hbs' : ∀ b ∈ bs', b.Readable)
    (h : sep.intercalate (bs.map (Block.text o)) = sep.intercalate (bs'.map (Block.text o))) :
    bs = bs' := by
  cases bs with
  | nil =>
    cases bs' with
    | nil => rfl
    | cons b' bs' =>
      rw [List.map_cons, TypeExpr.intercalate_cons_eq] at h
      exact absurd (List.append_eq_nil_iff.1 h.symm).1 (text_ne_nil o b')
  | cons b bs =>
    rw [List.map_cons, TypeExpr.intercalate_cons_eq, List.flatMap_map] at h
    cases bs' with
    | nil => exact absurd (List.append_eq_nil_iff.1 h).1 (text_ne_nil o b)
    | cons b' bs' =>
      rw [List.map_cons, TypeExpr.intercalate_cons_eq, List.flatMap_map] at h
      rw [List.forall_mem_cons] at hbs hbs'
      obtain ⟨rfl, hrest⟩ := text_append_inj ho hbs.1 hbs'.1 h
      rw [flatMap_text_inj ho hsep hbs.2 hbs'.2 hrest]

end Block

/-! ## What a block is made of -/

/-- What the pieces of a block have, and everything that is put together from what has it. -/
structure Pervasive (P : Text → Prop) : Prop where
  append {s t : Text} : P s → P t → P (s ++ t)
  word {s : String} : IsWord s → P (ofString s)
  type {t : TypeExpr} : t.WellFormed IsWord → P (ofString t.text)
  key (name : Text) : P (writtenKey name)
  /-- A line feed stands behind a value, or behind the comma that follows it. -/
  value (s : Text) {sep : String} : sep ∈ ["", ","] → P (quote s ++ (ofString sep ++ ofString "\n"))
  sign {s : String} :
    s ∈ ["enum ", "interface ", " \x7b\n", "  ", " = ", "?", ": ", ";\n", "\x7d"] → P (ofString s)

namespace Pervasive

variable {P : Text → Prop}

theorem flatten (h : Pervasive P) {lines : List Text} (hlines : ∀ line ∈ lines, P line) :
    P lines.flatten := by
  induction lines with
  | nil => exact h.word (s := "") fun _ hc => absurd hc List.not_mem_nil
  | cons line rest ih =>
    rw [List.forall_mem_cons] at hlines
    exact h.append hlines.1 (ih hlines.2)

theorem propertyLine (h : Pervasive P) (o : Options) {key : Text} {t : TypeExpr} (hkey : P key)
    (ht : t.WellFormed IsWord) : P (propertyLine o (key, t)) := by
  have hmark : P (ofString (if o.markOptional then "?" else "")) := by
    split
    · exact h.sign (by decide)
    · exact h.word fun _ hc => absurd hc List.not_mem_nil
  have hblanks : P (ofString "  ") := h.sign (by decide)
  have hcolon : P (ofString ": ") := h.sign (by decide)
  have hend : P (ofString ";\n") := h.sign (by decide)
  exact h.append (h.append (h.append (h.append (h.append hblanks hkey) hmark) hcolon) (h.type ht))
    hend

theorem memberLines (h : Pervasive P) {members : List (String × Text)}
    (hwords : ∀ m ∈ members, IsWord m.1) : ∀ line ∈ memberLines members, P line := by
  induction members with
  | nil => exact List.forall_mem_nil _
  | cons m rest ih =>
    rw [List.forall_mem_cons] at hwords
    rw [memberLines_cons, List.forall_mem_cons]
    have hcomma : comma rest ∈ ["", ","] := by
      unfold comma
      split <;> decide
    have hblanks : P (ofString "  ") := h.sign (by decide)
    have hequals : P (ofString " = ") := h.sign (by decide)
    have hline : memberLine m (comma rest) = ofString "  " ++ ofString m.1 ++ ofString " = " ++
        (quote m.2 ++ (ofString (comma rest) ++ ofString "\n")) := by
      simp only [memberLine, List.append_assoc]
    rw [hline]
    exact ⟨h.append (h.append (h.append hblanks (h.word hwords.1)) hequals) (h.value m.2 hcomma),
      ih hwords.2⟩

theorem block (h : Pervasive P) {kind name : String} {lines : List Text}
    (hkind : kind ∈ ["enum ", "interface "]) (hname : IsWord name)
    (hlines : ∀ line ∈ lines, P line) : P (block (kind ++ name) lines) := by
  have hhead : P (ofString (kind ++ name)) := by
    rw [ofString_append]
    exact h.append (h.sign (List.mem_append_left _ hkind)) (h.word hname)
  have hopen : P (ofString " \x7b\n") := h.sign (by decide)
  have hclose : P (ofString "\x7d") := h.sign (by decide)
  exact h.append (h.append (h.append hhead hopen) (h.flatten hlines)) hclose

/-- **What the pieces of a block have, the block has.** -/
theorem text (h : Pervasive P) (o : Options) {b : Block} (hb : b.Readable) : P (b.text o) := by
  cases b with
  | enum name values =>
    exact h.block (by decide) hb (h.memberLines fun _ => isWord_of_mem_members)
  | interface name properties =>
    refine h.block (by decide) hb.1 fun line hl => ?_
    obtain ⟨⟨key, t⟩, hm, rfl⟩ := List.mem_map.1 hl
    obtain ⟨hkey, htype⟩ := List.of_mem_zip hm
    obtain ⟨name, -, rfl⟩ := List.mem_map.1 hkey
    obtain ⟨e, he, rfl⟩ := List.mem_map.1 htype
    exact h.propertyLine o (h.key name) (hb.2 e he)

end Pervasive

/-! ## The blocks of a walk -/

theorem readable_typeOf (o : Options) (v : Json) (name : String) {b : Block}
    (h : b ∈ (typeOf o v name {}).2.blocks o) : b.Readable := by
  have hw := wellNamed_typeOf o v name
  have hn := namesHave_typeOf o v name
  have ht : (typeOf o v name {}).2.TypesHave (TypeExpr.WellFormed IsWord) := by
    rw [Walk.typeOf_eq_typeAt]
    exact (formed_rules o).value _ _ _ _ (namesHave_empty _) (typesHave_empty _)
  cases b with
  | enum name values =>
    have hm := mem_of_enum_mem_blocks h
    obtain ⟨place, hp⟩ := hw.enums.1 (List.mem_map_of_mem hm)
    exact (hn _ _ _ hp).1
  | interface name properties =>
    have hm := mem_of_interface_mem_blocks h
    obtain ⟨place, hp⟩ := hw.interfaces.1 (List.mem_map_of_mem hm)
    exact ⟨(hn _ _ _ hp).1, ht _ hm⟩

end TypeSketch
