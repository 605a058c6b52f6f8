import TypeSketch.Proofs.Blocks
import Mathlib.Data.List.Chain

/-!
# Blank lines

Between two blocks of a sketch stands a blank line, and a blank line stands nowhere else. In keys
and values a line feed is written as an escape. The only one that stays is the line feed that may
close a bare key, and a colon or a question mark follows it there. So no part of a block begins with
a line feed, and none has two of them together (`Tight`).

**Theorem** (`append_blankLine_iff`, `paragraphs_intercalate`). Where such parts are joined by blank
lines, every blank line stands between two of them, and cutting there gives the parts back.

**Theorem** (`solid_text`). The blocks of a walk are such parts, and each of them ends with a brace.

**Theorem** (`sketch_readable`). A sketch in which keys stay as they are and enums are written tells
all about its catalog. Cut at its blank lines, a sketch falls into its blocks.
-/

namespace TypeSketch

namespace Text

/-! ## Line feeds in a text -/

/-- The line feed of a line and that of a blank line behind it. -/
def blankLine : Text := [.char '\n', .char '\n']

/-- Code points of which not both are line feeds. -/
abbrev Apart (p q : CodePoint) : Prop := p = .char '\n' → q ≠ .char '\n'

/-- What has no two line feeds together, even if it stands behind a line feed. -/
def Tight (s : Text) : Prop := List.IsChain Apart (.char '\n' :: s)

instance (s : Text) : Decidable (Tight s) := inferInstanceAs (Decidable (List.IsChain _ _))

theorem eq_of_blankLine_append {p q : CodePoint} {xs ys : Text}
    (h : blankLine ++ xs = p :: q :: ys) : p = .char '\n' ∧ q = .char '\n' ∧ xs = ys := by
  simpa [blankLine, eq_comm] using h

variable {s t : Text}

/-- Behind whatever it stands, it adds no two line feeds. -/
theorem Tight.append (hs : Tight s) (ht : Tight t) : Tight (s ++ t) := by
  obtain ⟨hhead, htail⟩ := List.isChain_cons.1 ht
  exact List.IsChain.append hs htail fun _ _ q hq _ => hhead q hq rfl

theorem tight_of_not_mem (h : .char '\n' ∉ s) : Tight s := by
  have hchain : s.IsChain Apart := by
    induction s with
    | nil => exact .nil
    | cons p s ih =>
      rw [List.mem_cons, not_or] at h
      exact (ih h.2).cons fun _ _ hp => absurd hp.symm h.1
  refine hchain.cons fun q hq _ => ?_
  rintro rfl
  exact h (List.mem_of_mem_head? hq)

theorem tight_line (h : .char '\n' ∉ s) (hne : s ≠ []) : Tight (s ++ [.char '\n']) := by
  obtain ⟨body, last, rfl⟩ := (List.eq_nil_or_concat s).resolve_left hne
  rw [List.concat_eq_append, List.mem_append, not_or, List.mem_singleton] at h
  rw [List.concat_eq_append, List.append_assoc]
  have hend : Tight ([last] ++ [.char '\n']) :=
    .cons_cons (fun _ e => h.2 e.symm) (.cons_cons (fun e => absurd e.symm h.2) (.singleton _))
  exact (tight_of_not_mem h.1).append hend

theorem Tight.ne_append_blankLine (h : Tight s) (xs ys : Text) : s ≠ xs ++ (blankLine ++ ys) := by
  rintro rfl
  rw [Tight, ← List.cons_append] at h
  exact (List.isChain_cons_cons.1 h.right_of_append).1 rfl rfl

/-! ## Parts between blank lines -/

/-- A part that is told apart from the blank lines around it. -/
structure Solid (s : Text) : Prop where
  tight : Tight s
  ne_nil : s ≠ []
  last : s.getLast? ≠ some (.char '\n')

theorem Solid.chain (h : Solid s) : s.IsChain Apart := List.IsChain.tail h.tight

theorem Solid.append_ne_newline (h : Solid s) (xs ys : Text) : s ++ xs ≠ .char '\n' :: ys := by
  obtain ⟨p, rest, rfl⟩ := List.exists_cons_of_ne_nil h.ne_nil
  intro e
  exact (List.isChain_cons_cons.1 h.tight).1 rfl (List.cons.inj e).1

/-- Where a blank line stands in a part and the next ones, each behind a blank line. -/
theorem exists_of_append_blankLine {parts : List Text} (hs : Solid s)
    (hparts : ∀ t ∈ parts, Solid t) {pre post : Text}
    (h : s ++ parts.flatMap (blankLine ++ ·) = pre ++ (blankLine ++ post)) :
    ∃ before after, after ≠ [] ∧ parts = before ++ after ∧
      pre = blankLine.intercalate (s :: before) ∧ post = blankLine.intercalate after := by
  induction parts generalizing s pre with
  | nil =>
    rw [List.flatMap_nil, List.append_nil] at h
    exact absurd h (hs.tight.ne_append_blankLine pre post)
  | cons t parts ih =>
    rw [List.forall_mem_cons] at hparts
    rw [List.flatMap_cons, List.append_assoc] at h
    -- either the blank line begins where the part ends, or it has to lie further on
    have hhere : pre = s → ∃ before after, after ≠ [] ∧ t :: parts = before ++ after ∧
        pre = blankLine.intercalate (s :: before) ∧ post = blankLine.intercalate after := by
      rintro rfl
      refine ⟨[], t :: parts, List.cons_ne_nil _ _, rfl, (List.intercalate_singleton ..).symm, ?_⟩
      rw [TypeExpr.intercalate_cons_eq]
      exact (List.append_cancel_left (List.append_cancel_left h)).symm
    rcases List.append_eq_append_iff.1 h with ⟨zs, hpre, hzs⟩ | ⟨zs, hpart, hzs⟩
    · match zs with
      | [] => exact hhere (by rw [hpre, List.append_nil])
      | [p] =>
        have hnext := (List.cons.inj (List.cons.inj hzs).2).2
        exact absurd hnext (hparts.1.append_ne_newline _ _)
      | p :: q :: zs =>
        obtain ⟨rfl, rfl, hnext⟩ := eq_of_blankLine_append hzs
        obtain ⟨before, after, hne, hsplit, hjoin, hpost⟩ := ih hparts.1 hparts.2 hnext
        refine ⟨t :: before, after, hne, by rw [hsplit, List.cons_append], ?_, hpost⟩
        rw [hpre, List.intercalate_cons_cons, ← hjoin]
        simp [blankLine]
    · match zs with
      | [] => exact hhere (by rw [hpart, List.append_nil])
      | [p] =>
        have hlast := hs.last
        rw [hpart, (List.cons.inj hzs).1.symm, List.getLast?_concat] at hlast
        exact absurd rfl hlast
      | p :: q :: zs =>
        obtain ⟨rfl, rfl, -⟩ := eq_of_blankLine_append hzs
        exact absurd hpart (hs.tight.ne_append_blankLine pre zs)

/-- A text cut at its blank lines, from left to right. There is always one part more than there are
cuts. -/
def paragraphs : Text → List Text
  | [] => [[]]
  | [p] => [[p]]
  | p :: q :: rest =>
    if p = .char '\n' ∧ q = .char '\n' then [] :: paragraphs rest
    else (paragraphs (q :: rest)).modifyHead (p :: ·)

theorem paragraphs_cons {p : CodePoint} (h : p = .char '\n' → s.head? ≠ some (.char '\n')) :
    paragraphs (p :: s) = (paragraphs s).modifyHead (p :: ·) := by
  cases s with
  | nil => rfl
  | cons q rest =>
    rw [paragraphs, if_neg]
    rintro ⟨hp, rfl⟩
    exact h hp rfl

/-- A part is not cut, and goes to what follows it up to the first cut there. -/
theorem paragraphs_append (hs : s.IsChain Apart)
    (hlast : s.getLast? ≠ some (.char '\n')) (t : Text) :
    paragraphs (s ++ t) = (paragraphs t).modifyHead (s ++ ·) := by
  induction s with
  | nil =>
    rw [List.nil_append]
    cases paragraphs t <;> rfl
  | cons p s ih =>
    cases s with
    | nil =>
      rw [List.singleton_append, paragraphs_cons]
      · rfl
      · rintro rfl
        exact absurd rfl hlast
    | cons q s =>
      obtain ⟨hpq, hs⟩ := List.isChain_cons_cons.1 hs
      rw [List.getLast?_cons_cons] at hlast
      rw [List.cons_append, paragraphs_cons, ih hs hlast, List.modifyHead_modifyHead]
      · rfl
      · intro hp hq
        exact hpq hp (Option.some.inj hq)

theorem paragraphs_of_solid (hs : Solid s) : paragraphs s = [s] := by
  have h := paragraphs_append hs.chain hs.last []
  simpa [paragraphs] using h

theorem paragraphs_append_blankLine (hs : Solid s) (rest : Text) :
    paragraphs (s ++ (blankLine ++ rest)) = s :: paragraphs rest := by
  rw [paragraphs_append hs.chain hs.last]
  simp [paragraphs, blankLine]

theorem paragraphs_intercalate {parts : List Text} (hne : parts ≠ [])
    (hparts : ∀ s ∈ parts, Solid s) : paragraphs (blankLine.intercalate parts) = parts := by
  induction parts with
  | nil => exact absurd rfl hne
  | cons s parts ih =>
    rw [List.forall_mem_cons] at hparts
    cases parts with
    | nil => rw [List.intercalate_singleton, paragraphs_of_solid hparts.1]
    | cons t parts =>
      rw [List.intercalate_cons_cons, List.append_assoc, paragraphs_append_blankLine hparts.1,
        ih (List.cons_ne_nil _ _) hparts.2]

theorem intercalate_append {before after : List Text} (hb : before ≠ []) (ha : after ≠ []) :
    blankLine.intercalate (before ++ after) =
      blankLine.intercalate before ++ (blankLine ++ blankLine.intercalate after) := by
  obtain ⟨s, before, rfl⟩ := List.exists_cons_of_ne_nil hb
  obtain ⟨t, after, rfl⟩ := List.exists_cons_of_ne_nil ha
  simp [TypeExpr.intercalate_cons_eq]

/-- **A blank line stands between two parts and nowhere else.** -/
theorem append_blankLine_iff {parts : List Text} (hparts : ∀ s ∈ parts, Solid s)
    {pre post : Text} : blankLine.intercalate parts = pre ++ (blankLine ++ post) ↔
      ∃ before after, before ≠ [] ∧ after ≠ [] ∧ parts = before ++ after ∧
        pre = blankLine.intercalate before ∧ post = blankLine.intercalate after := by
  constructor
  · intro h
    cases parts with
    | nil => simp [blankLine] at h
    | cons s parts =>
      rw [List.forall_mem_cons] at hparts
      rw [TypeExpr.intercalate_cons_eq] at h
      obtain ⟨before, after, hne, rfl, hpre, hpost⟩ :=
        exists_of_append_blankLine hparts.1 hparts.2 h
      exact ⟨s :: before, after, List.cons_ne_nil _ _, hne, rfl, hpre, hpost⟩
  · rintro ⟨before, after, hb, ha, rfl, rfl, rfl⟩
    exact intercalate_append hb ha

/-! ## Keys -/

theorem tight_isBareTail {p : CodePoint} (hp : p ≠ .char '\n') (h : isBareTail s = true) :
    Tight (p :: s) := by
  have hone {q : CodePoint} (hq : q ≠ .char '\n') : Tight [q] :=
    tight_of_not_mem fun hm => hq (List.mem_singleton.1 hm).symm
  fun_induction isBareTail s generalizing p with
  | case1 => exact hone hp
  | case2 => exact tight_line (fun hm => hp (List.mem_singleton.1 hm).symm) (List.cons_ne_nil p [])
  | case3 q rest _ ih =>
    rw [Bool.and_eq_true] at h
    have hq : q ≠ .char '\n' := by
      rintro rfl
      exact absurd h.1 (by decide)
    exact (hone hp).append (ih hq h.2)

/-- A key is closed by at most one line feed. -/
theorem tight_writtenKey (key : Text) : Tight (Declaration.writtenKey key) := by
  unfold Declaration.writtenKey
  split
  · next h =>
    cases key with
    | nil => cases h
    | cons p rest =>
      rw [isBare, Bool.and_eq_true] at h
      refine tight_isBareTail ?_ h.2
      rintro rfl
      exact absurd h.1 (by decide)
  · exact tight_of_not_mem (newline_not_mem_quote key)

end Text

/-! ## Blocks -/

open Text

theorem pervasive_tight : Pervasive Tight where
  append := Tight.append
  word hs := tight_of_not_mem fun hm => not_mem_of_isWord hs rfl (mem_ofString.1 hm)
  type ht := tight_of_not_mem fun hm =>
    Declaration.not_mem_text ht rfl (by decide) (mem_ofString.1 hm)
  key := tight_writtenKey
  value s sep hsep := by
    rw [← List.append_assoc]
    refine tight_line ?_ (by simp [quote])
    rw [List.mem_append, not_or]
    refine ⟨newline_not_mem_quote s, ?_⟩
    rw [List.mem_cons, List.mem_singleton] at hsep
    rcases hsep with rfl | rfl <;> decide
  sign hs := by
    simp only [List.mem_cons, List.not_mem_nil, or_false] at hs
    rcases hs with rfl | rfl | rfl | rfl | rfl | rfl | rfl | rfl | rfl <;> decide

namespace Block

theorem text_suffix (o : Options) (b : Block) : [.char '\x7d'] <:+ b.text o := by
  cases b <;> exact List.suffix_append _ _

/-- **A block is told apart from the blank lines around it.** -/
theorem solid_text (o : Options) {b : Block} (h : b.Readable) : Solid (b.text o) := by
  obtain ⟨before, hlast⟩ := b.text_suffix o
  exact
    { tight := pervasive_tight.text o h
      ne_nil := text_ne_nil o b
      last := by simp [← hlast] }

theorem solid_texts (o : Options) {blocks : List Block} (h : ∀ b ∈ blocks, b.Readable) :
    ∀ s ∈ blocks.map (Block.text o), Solid s := by
  intro s hs
  obtain ⟨b, hb, rfl⟩ := List.mem_map.1 hs
  exact b.solid_text o (h b hb)

/-- The text of some blocks, with blank lines between them. -/
def join (o : Options) (blocks : List Block) : Text :=
  blankLine.intercalate (blocks.map (Block.text o))

theorem join_suffix (o : Options) {blocks : List Block} (h : blocks ≠ []) :
    [.char '\x7d'] <:+ join o blocks := by
  obtain ⟨before, b, rfl⟩ := (List.eq_nil_or_concat blocks).resolve_left h
  rw [List.concat_eq_append, join, List.map_append]
  by_cases hb : before.map (Block.text o) = []
  · rw [hb, List.nil_append, List.map_singleton, List.intercalate_singleton]
    exact b.text_suffix o
  · rw [intercalate_append hb (by simp), List.map_singleton, List.intercalate_singleton]
    exact ((b.text_suffix o).trans (List.suffix_append _ _)).trans (List.suffix_append _ _)

/-- **A blank line stands between two blocks and nowhere else.** -/
theorem join_eq_iff (o : Options) {blocks : List Block} (h : ∀ b ∈ blocks, b.Readable)
    {pre post : Text} : join o blocks = pre ++ (blankLine ++ post) ↔
      ∃ before after, before ≠ [] ∧ after ≠ [] ∧ blocks = before ++ after ∧
        pre = join o before ∧ post = join o after := by
  rw [join, append_blankLine_iff (solid_texts o h)]
  constructor
  · rintro ⟨_, _, hb, ha, hsplit, rfl, rfl⟩
    obtain ⟨before, after, rfl, rfl, rfl⟩ := List.map_eq_append_iff.1 hsplit
    rw [ne_eq, List.map_eq_nil_iff] at hb ha
    exact ⟨before, after, hb, ha, rfl, rfl, rfl⟩
  · rintro ⟨before, after, hb, ha, rfl, rfl, rfl⟩
    refine ⟨_, _, ?_, ?_, List.map_append, rfl, rfl⟩ <;> rwa [ne_eq, List.map_eq_nil_iff]

def enum? : Block → Option (String × List Text)
  | .enum name values => some (name, values)
  | .interface _ _ => none

def interface? : Block → Option (String × Properties)
  | .enum _ _ => none
  | .interface name properties => some (name, properties)

end Block

/-! ## Sketches -/

namespace Catalog

theorem text_eq_join (c : Catalog) (o : Options) : c.text o = Block.join o (c.blocks o) := by
  rw [text, declarations_eq_map_text]
  rfl

/-- The blocks tell what the catalog holds. -/
theorem eq_of_blocks {c c' : Catalog} {o : Options} (ho : o.detectEnums = true)
    (h : c.blocks o = c'.blocks o) : c.interfaces = c'.interfaces ∧ c.enums = c'.enums := by
  have henums (c : Catalog) : (c.blocks o).filterMap Block.enum? = c.enums.entries := by
    simp [blocks, ho, List.filterMap_map, Function.comp_def, Block.enum?]
  have hinterfaces (c : Catalog) :
      (c.blocks o).filterMap Block.interface? = c.interfaces.entries := by
    simp [blocks, ho, List.filterMap_map, Function.comp_def, Block.interface?]
  exact ⟨Table.ext (by rw [← hinterfaces, h, hinterfaces]),
    Table.ext (by rw [← henums, h, henums])⟩

end Catalog

/-- **Sketches can be read back.** With enums written and keys as they are, sketches that are alike
declare the same, in the same order. In every sketch a blank line stands between two blocks and
nowhere else, so a sketch that is cut at its blank lines falls into its blocks. A sketch is empty
or ends with a brace. -/
theorem sketch_readable (o : Options) (v : Json) (wanted : Text) :
    let c := (typeOf o v (RootName.ofText wanted) {}).2
    (o.camelCase = false → o.detectEnums = true → ∀ v' wanted',
      sketch o wanted v = sketch o wanted' v' →
        let c' := (typeOf o v' (RootName.ofText wanted') {}).2
        c.interfaces = c'.interfaces ∧ c.enums = c'.enums) ∧
    sketch o wanted v = Block.join o (c.blocks o) ∧
    (∀ pre post, sketch o wanted v = pre ++ (blankLine ++ post) ↔
      ∃ before after, before ≠ [] ∧ after ≠ [] ∧ c.blocks o = before ++ after ∧
        pre = Block.join o before ∧ post = Block.join o after) ∧
    (sketch o wanted v = [] ∧ c.blocks o = [] ∨
      (sketch o wanted v).paragraphs = (c.blocks o).map (Block.text o) ∧
        [.char '\x7d'] <:+ sketch o wanted v) := by
  intro c
  have hjoin : sketch o wanted v = Block.join o (c.blocks o) := c.text_eq_join o
  have hreadable : ∀ b ∈ c.blocks o, b.Readable := fun _ => readable_typeOf o v _
  refine ⟨fun hcase henums v' wanted' h => ?_, hjoin, fun pre post => ?_, ?_⟩
  · have hjoin' := (typeOf o v' (RootName.ofText wanted') {}).2.text_eq_join o
    exact Catalog.eq_of_blocks henums (Block.intercalate_text_inj hcase (List.cons_ne_nil _ _)
      hreadable (fun _ => readable_typeOf o v' _) (hjoin.symm.trans (h.trans hjoin')))
  · rw [hjoin, Block.join_eq_iff o hreadable]
  · by_cases hne : c.blocks o = []
    · exact Or.inl ⟨by rw [hjoin, hne]; rfl, hne⟩
    · rw [hjoin]
      refine Or.inr ⟨paragraphs_intercalate ?_ (Block.solid_texts o hreadable), ?_⟩
      · rwa [ne_eq, List.map_eq_nil_iff]
      · exact Block.join_suffix o hne

/-- An order with the states that it may have. -/
def order : Json := .object
  [("id", .number (.integer 7)), ("states", .array [.string "new", .string "paid"])]

/-- Another order, with a state given twice. -/
def otherOrder : Json := .object
  [("id", .number (.integer 8)), ("states", .array [.string "new", .string "paid", .string "new"])]

theorem sketch_readable_order :
    let o : Options := { detectEnums := true }
    let c := (typeOf o order (RootName.ofText "Order") {}).2
    let c' := (typeOf o otherOrder (RootName.ofText "Or-der") {}).2
    o.camelCase = false ∧ o.detectEnums = true ∧
      sketch o "Order" order = sketch o "Or-der" otherOrder ∧
      c.interfaces = c'.interfaces ∧ c.enums = c'.enums := by
  have hc : (typeOf { detectEnums := true } order (RootName.ofText "Order") {}).2 =
      (typeOf { detectEnums := true } otherOrder (RootName.ofText "Or-der") {}).2 := by
    decide +kernel
  have h : sketch { detectEnums := true } "Order" order =
      sketch { detectEnums := true } "Or-der" otherOrder := congrArg (Catalog.text · _) hc
  exact ⟨rfl, rfl, h, (sketch_readable _ order "Order").1 rfl rfl otherOrder "Or-der" h⟩

end TypeSketch
