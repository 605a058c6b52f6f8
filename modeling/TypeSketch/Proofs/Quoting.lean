import TypeSketch.Text.Quoted
import TypeSketch.Text.Name
import TypeSketch.Json.StringBody
import Mathlib.Tactic.Common

/-!
# Quoted text is read back

A string literal is written code point by code point, and every escape can be told from what follows
it. So a reader of JSON strings stops at the closing quote and nowhere before.

**Theorem** (`readString_quoted`). Behind the opening quote of a literal a string is read that is
the text, and what follows the literal is left.

**Theorem** (`quote_append_inj`). Texts that begin with literals and are the same begin with the
same literal, of the same text.
-/

namespace TypeSketch.Text

open Json

/-! ## Single code points -/

/-- A character is escaped by a letter, by its digits, or not at all. -/
inductive Escaped (c : Char) : List Char → Prop
  | letter {l : Char} (h : letterEscape? (.char l) = some c) : Escaped c ['\\', l]
  | digits (h : c.toNat < 0x20) : Escaped c
      ['\\', 'u', '0', '0', (c.toNat / 16).digitChar, (c.toNat % 16).digitChar]
  | plain (h : ¬c.toNat < 0x20) (hquote : c ≠ '"') (hslash : c ≠ '\\') : Escaped c [c]

theorem escaped_escapeChar (c : Char) : Escaped c (escapeChar c) := by
  unfold escapeChar
  split
  case h_8 hquote hslash _ _ _ _ _ =>
    split
    · next hc => exact .digits hc
    · next hc => exact .plain hc hquote hslash
  all_goals exact .letter rfl

theorem pushEscape_char (afterEscape : Bool) (read : Text) (c : Char) :
    pushEscape afterEscape read (.char c) = .char c :: read := by
  unfold pushEscape
  split
  · next h => cases h
  · rfl

/-- The four digits of a control character give it back. -/
theorem hexValue4?_control {n : Nat} (h : n < 0x20) :
    hexValue4? (.char '0') (.char '0') (.char (n / 16).digitChar) (.char (n % 16).digitChar) =
      some n := by
  have key : ∀ n < 0x20, hexValue4? (.char '0') (.char '0') (.char (n / 16).digitChar)
      (.char (n % 16).digitChar) = some n := by decide
  exact key n h

theorem ofNat_toNat_of_lt {c : Char} (h : c.toNat < 0x20) : CodePoint.ofNat c.toNat = .char c := by
  rw [CodePoint.ofNat, dif_neg (by omega), Char.ofNat_toNat]

/-- What stands for a code point is read as that code point. An escape of hexadecimal digits is only
read if something follows it. -/
theorem exists_readRest_escape (start read : Text) (afterEscape : Bool) (p : CodePoint)
    {rest : Text} (hne : rest ≠ []) : ∃ afterEscape',
      readRest start afterEscape read (escape p ++ rest) =
        readRest start afterEscape' (p :: read) rest := by
  cases p with
  | surrogate s =>
    have hs : ¬(CodePoint.surrogate s).toNat < 0x20 := by
      have := s.le_code
      simp only [CodePoint.toNat]
      omega
    refine ⟨false, ?_⟩
    simp only [escape, List.singleton_append]
    rw [readRest, if_neg hs]
    all_goals simp
  | char c =>
    have he := escaped_escapeChar c
    rw [escape]
    generalize escapeChar c = cs at he
    cases he with
    | @letter l h =>
      have hu : l ≠ 'u' := by
        rintro rfl
        cases h
      refine ⟨false, ?_⟩
      simp only [List.map_cons, List.map_nil, List.cons_append, List.nil_append]
      rw [readRest, h]
      all_goals simp [hu]
    | digits hc =>
      obtain ⟨e, more, rfl⟩ := List.exists_cons_of_ne_nil hne
      refine ⟨true, ?_⟩
      simp only [List.map_cons, List.map_nil, List.cons_append, List.nil_append]
      rw [readRest, hexValue4?_control hc]
      simp only [ofNat_toNat_of_lt hc, pushEscape_char]
    | plain hc hquote hslash =>
      refine ⟨false, ?_⟩
      simp only [List.map_cons, List.map_nil, List.cons_append, List.nil_append]
      rw [readRest, CodePoint.toNat, if_neg hc]
      all_goals simp [hquote, hslash]

/-! ## Literals -/

theorem readRest_quoted (start read s rest : Text) (afterEscape : Bool) :
    readRest start afterEscape read (s.flatMap escape ++ .char '"' :: rest) =
      .ok (read.reverse ++ s, rest) := by
  induction s generalizing read afterEscape with
  | nil => simp [readRest]
  | cons p s ih =>
    have hne : s.flatMap escape ++ .char '"' :: rest ≠ [] := by simp
    obtain ⟨afterEscape', hp⟩ := exists_readRest_escape start read afterEscape p hne
    rw [List.flatMap_cons, List.append_assoc, hp, ih, List.reverse_cons, List.append_assoc]
    rfl

theorem quote_append (s rest : Text) :
    quote s ++ rest = .char '"' :: (s.flatMap escape ++ .char '"' :: rest) := by
  simp [quote]

/-- A string reader finds the text of a literal and what follows it. -/
theorem readString_quoted (s rest : Text) :
    readString (s.flatMap escape ++ .char '"' :: rest) = .ok (s, rest) := by
  rw [readString, readRest_quoted]
  rfl

/-- **Literals end in one way only.** -/
theorem quote_append_inj {s t xs ys : Text} (h : quote s ++ xs = quote t ++ ys) :
    s = t ∧ xs = ys := by
  rw [quote_append, quote_append] at h
  have hread := readString_quoted s xs
  rw [(List.cons.inj h).2, readString_quoted] at hread
  cases hread
  exact ⟨rfl, rfl⟩

/-! ## Control characters -/

theorem le_of_letterEscape? {p : CodePoint} {c : Char} (h : letterEscape? p = some c) :
    0x20 ≤ p.toNat := by
  unfold letterEscape? at h
  split at h
  case h_9 => cases h
  all_goals decide

/-- No control character stands inside quotes. -/
theorem le_of_mem_escape {p q : CodePoint} (h : q ∈ escape p) : 0x20 ≤ q.toNat := by
  cases p with
  | surrogate s =>
    rw [escape, List.mem_singleton] at h
    have := s.le_code
    rw [h, CodePoint.toNat]
    omega
  | char c =>
    rw [escape, List.mem_map] at h
    obtain ⟨d, hd, rfl⟩ := h
    have he := escaped_escapeChar c
    generalize escapeChar c = cs at he hd
    cases he with
    | letter hl =>
      rcases List.mem_cons.1 hd with rfl | hd
      · decide
      · rw [List.mem_singleton.1 hd]
        exact le_of_letterEscape? hl
    | digits hc =>
      have hdigit : ∀ n < 0x10, 0x20 ≤ n.digitChar.toNat := by decide
      simp only [List.mem_cons, List.not_mem_nil, or_false] at hd
      rcases hd with rfl | rfl | rfl | rfl | rfl | rfl
      · decide
      · decide
      · decide
      · decide
      · exact hdigit _ (by omega)
      · exact hdigit _ (Nat.mod_lt _ (by decide))
    | plain hc _ _ =>
      rw [List.mem_singleton.1 hd]
      exact Nat.le_of_not_lt hc

theorem le_of_mem_quote {s : Text} {p : CodePoint} (h : p ∈ quote s) : 0x20 ≤ p.toNat := by
  rw [quote, List.mem_cons, List.mem_append, List.mem_flatMap, List.mem_singleton] at h
  rcases h with rfl | ⟨q, -, hp⟩ | rfl
  · decide
  · exact le_of_mem_escape hp
  · decide

theorem newline_not_mem_quote (s : Text) : .char '\n' ∉ quote s := fun h =>
  absurd (le_of_mem_quote h) (by decide)

end TypeSketch.Text
