/-!
# Code points

A text that comes from outside is a sequence of code points. Nearly all of them are characters. The
surrogates U+D800 to U+DFFF are none, but a document can still hold them.

**Pairs** (`Surrogate.join?`). A high surrogate directly before a low one can stand for a character
beyond U+FFFF. Where that is so depends on how the text is written. Here it is decided already, so
two surrogates next to each other are not the character that they could stand for.

**Strings** (`Text.ofString`). A string is a text without surrogates. In the other direction the
replacement character takes the place of a surrogate (`Text.legible`).
-/

namespace TypeSketch

/-- A code point that is no character. -/
structure Surrogate where
  code : Nat
  le_code : 0xD800 ≤ code
  code_lt : code < 0xE000
deriving DecidableEq, Repr

/-- The character of a high and a low surrogate, if the two are that. -/
def Surrogate.join? (high low : Surrogate) : Option Char :=
  if high.code < 0xDC00 ∧ 0xDC00 ≤ low.code then
    some (Char.ofNat (0x10000 + (high.code - 0xD800) * 0x400 + (low.code - 0xDC00)))
  else none

/-- A character or a surrogate. -/
inductive CodePoint where
  | char (c : Char)
  | surrogate (s : Surrogate)
deriving DecidableEq, Inhabited, Repr

instance : Coe Char CodePoint := ⟨.char⟩

namespace CodePoint

/-- The code point of a number below 0x110000. -/
def ofNat (code : Nat) : CodePoint :=
  if h : 0xD800 ≤ code ∧ code < 0xE000 then .surrogate ⟨code, h.1, h.2⟩
  else .char (Char.ofNat code)

def toNat : CodePoint → Nat
  | .char c => c.toNat
  | .surrogate s => s.code

def isSurrogate : CodePoint → Bool
  | .char _ => false
  | .surrogate _ => true

def isDigit : CodePoint → Bool
  | .char c => c.isDigit
  | .surrogate _ => false

/-- A character as it is, and the replacement character for a surrogate. -/
def legible : CodePoint → Char
  | .char c => c
  | .surrogate _ => '\uFFFD'

end CodePoint

/-- A text from outside. -/
abbrev Text := List CodePoint

namespace Text

def ofString (s : String) : Text := s.toList.map .char

instance : Coe String Text := ⟨ofString⟩

/-- The characters of a text, with the replacement character for every surrogate. -/
def chars (s : Text) : List Char := s.map CodePoint.legible

/-- A text as a string, with the replacement character for every surrogate. -/
def legible (s : Text) : String := String.ofList s.chars

@[simp] theorem chars_ofString (s : String) : chars (ofString s) = s.toList := by
  simp [chars, ofString, CodePoint.legible, Function.comp_def]

@[simp] theorem legible_ofString (s : String) : legible (ofString s) = s := by
  rw [legible, chars_ofString, String.ofList_toList]

@[simp] theorem ofString_eq_nil_iff {s : String} : ofString s = [] ↔ s = "" := by
  rw [ofString, List.map_eq_nil_iff, String.toList_eq_nil_iff]

@[simp] theorem surrogate_not_mem_ofString (x : Surrogate) (s : String) :
    .surrogate x ∉ ofString s := by
  simp [ofString]

theorem ofString_legible {s : Text} (h : ∀ x, .surrogate x ∉ s) : ofString s.legible = s := by
  induction s with
  | nil => rfl
  | cons p rest ih =>
    simp only [List.mem_cons, not_or] at h
    cases p with
    | surrogate x => exact absurd rfl (h x).1
    | char c =>
      have hrest := ih fun x => (h x).2
      simp only [ofString, legible, chars, String.toList_ofList] at hrest ⊢
      rw [List.map_cons, List.map_cons, hrest, CodePoint.legible]

theorem ofString_append (s t : String) : ofString (s ++ t) = ofString s ++ ofString t := by
  rw [ofString, String.toList_append, List.map_append, ofString, ofString]

theorem ofString_inj {s t : String} : ofString s = ofString t ↔ s = t :=
  ⟨fun h => by rw [← legible_ofString s, h, legible_ofString], fun h => h ▸ rfl⟩

end Text

end TypeSketch
