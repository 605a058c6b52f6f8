import TypeSketch.Proofs.Quoting
import TypeSketch.Json.Reader

/-!
# String literals stand for themselves

A string literal is a document of its own, and it says by itself where it ends.

**Escaped quotes** (`escapesNext`). Between its quotes a literal may hold a double quote, but only
behind a backslash that is not itself escaped. Every code point is written as a block that escapes
what has to be escaped and nothing beyond its own end. So it is enough to look at single blocks.

**Theorem** (`literal_readable`). A literal is decoded to its text, every double quote inside it is
escaped and the last one is not, and no control character is inside it. What follows a literal can
be told from it.
-/

namespace TypeSketch

namespace Text

/-! ## Escaped quotes -/

/-- Whether a text ends with a backslash that escapes what follows. -/
def escapesNext (s : Text) : Bool :=
  s.foldl (fun escaped p => !escaped && p == .char '\\') false

/-- Every double quote in a text is escaped. -/
def QuotesEscaped (s : Text) : Prop :=
  ∀ before after, s = before ++ .char '"' :: after → escapesNext before = true

theorem escapesNext_append {s : Text} (h : escapesNext s = false) (t : Text) :
    escapesNext (s ++ t) = escapesNext t := by
  rw [escapesNext, List.foldl_append, show s.foldl _ false = false from h, escapesNext]

theorem quotesEscaped_of_not_mem {s : Text} (h : .char '"' ∉ s) : QuotesEscaped s := by
  rintro before after rfl
  exact absurd (List.mem_append_right before List.mem_cons_self) h

/-- A text that ends outside of an escape may go on with another one. -/
theorem QuotesEscaped.append {s t : Text} (hs : QuotesEscaped s) (hend : escapesNext s = false)
    (ht : QuotesEscaped t) : QuotesEscaped (s ++ t) := by
  intro before after h
  rcases List.append_eq_append_iff.1 h with ⟨inner, rfl, hinner⟩ | ⟨inner, hinner, hafter⟩
  · rw [escapesNext_append hend]
    exact ht inner after hinner
  · cases inner with
    | nil =>
      rw [List.append_nil] at hinner
      rw [← hinner, ← List.append_nil s, escapesNext_append hend]
      exact ht [] after hafter.symm
    | cons p inner =>
      obtain ⟨rfl, -⟩ := List.cons.inj hafter
      exact hs before inner hinner

/-! ## Blocks -/

theorem digitChar_ne_quote {n : Nat} (h : n < 0x10) :
    n.digitChar ≠ '"' ∧ n.digitChar ≠ '\\' := by
  have key : ∀ n < 0x10, n.digitChar ≠ '"' ∧ n.digitChar ≠ '\\' := by decide
  exact key n h

/-- What stands for a code point escapes its own quote and nothing that follows. -/
theorem escape_closed (p : CodePoint) :
    escapesNext (escape p) = false ∧ QuotesEscaped (escape p) := by
  cases p with
  | surrogate s => exact ⟨rfl, quotesEscaped_of_not_mem (by simp [escape])⟩
  | char c =>
    have he := escaped_escapeChar c
    rw [escape]
    generalize escapeChar c = cs at he
    cases he with
    | @letter l h =>
      refine ⟨rfl, ?_⟩
      intro before after hsplit
      rcases before with _ | ⟨q, _ | ⟨r, before⟩⟩
      · cases hsplit
      · cases hsplit
        rfl
      · simp at hsplit
    | digits hc =>
      have hhigh := digitChar_ne_quote (n := c.toNat / 16) (by omega)
      have hlow := digitChar_ne_quote (n := c.toNat % 16) (Nat.mod_lt _ (by decide))
      refine ⟨?_, quotesEscaped_of_not_mem ?_⟩
      · simp [escapesNext, hlow.2]
      · simp [hhigh.1.symm, hlow.1.symm]
    | plain hc hquote hslash =>
      refine ⟨?_, quotesEscaped_of_not_mem ?_⟩
      · simp [escapesNext, hslash]
      · simp [hquote.symm]

/-- The same holds of all blocks together. -/
theorem body_closed (s : Text) :
    escapesNext (s.flatMap escape) = false ∧ QuotesEscaped (s.flatMap escape) := by
  induction s with
  | nil => exact ⟨rfl, quotesEscaped_of_not_mem List.not_mem_nil⟩
  | cons p s ih =>
    obtain ⟨hend, hquotes⟩ := escape_closed p
    rw [List.flatMap_cons]
    exact ⟨(escapesNext_append hend _).trans ih.1, hquotes.append hend ih.2⟩

end Text

/-! ## Documents -/

namespace Json

open Text

theorem readValue_quote (depth : Nat) (s : Text) :
    readValue depth (quote s) (quote s) (Nat.le_refl _) =
      .ok ⟨.string s, [], Nat.zero_lt_succ _⟩ := by
  have hread := readString_quoted s []
  have hopen : opening (quote s) =
      .string (s.flatMap escape ++ [.char '"']) (Nat.lt_succ_self _) := rfl
  rw [readValue, hopen]
  simp only
  split
  · next hr =>
    cases hr.symm.trans hread
    rfl
  · next hr => cases hr.symm.trans hread

theorem ofText_quote (depth : Nat) (s : Text) : ofText depth (quote s) = .ok (.string s) := by
  have hmark : (quote s).head? ≠ some (.char '\uFEFF') := by simp [quote]
  have hspace : skipSpace (quote s) = quote s := List.dropWhile_cons_of_neg (by decide)
  have hvalue (text : Text) (ht : text = quote s) : ∃ h,
      readValue depth text text (Nat.le_refl _) = .ok ⟨.string s, [], h⟩ := by
    subst ht
    exact ⟨_, readValue_quote depth s⟩
  obtain ⟨h, hv⟩ := hvalue _ hspace
  have hdocument : readDocument depth (quote s) = .ok (.string s) := by
    unfold readDocument
    rw [hv]
    rfl
  rw [ofText, if_neg hmark, ofContent, hdocument]
  rfl

end Json

open Text in
/-- **String literals.** A literal is decoded to the text that it stands for. It begins and ends
with a double quote. Between the two every double quote is escaped, the one at the end is not, and
there is no control character. So a literal says where it ends: texts that begin with literals are
the same just if the literals and what follows them are. -/
theorem literal_readable (depth : Nat) (s : Text) :
    Json.ofText depth (quote s) = .ok (.string s) ∧
    (∃ body, quote s = .char '"' :: (body ++ [.char '"']) ∧
      (∀ before after, body = before ++ .char '"' :: after → escapesNext before = true) ∧
      escapesNext body = false ∧
      ∀ p ∈ body, 0x20 ≤ p.toNat) ∧
    ∀ t xs ys : Text, quote s ++ xs = quote t ++ ys ↔ s = t ∧ xs = ys := by
  refine ⟨Json.ofText_quote depth s, ⟨s.flatMap escape, rfl, ?_, ?_, ?_⟩, fun t xs ys => ⟨?_, ?_⟩⟩
  · exact (body_closed s).2
  · exact (body_closed s).1
  · intro p hp
    obtain ⟨q, -, hq⟩ := List.mem_flatMap.1 hp
    exact le_of_mem_escape hq
  · exact quote_append_inj
  · rintro ⟨rfl, rfl⟩
    rfl

end TypeSketch
