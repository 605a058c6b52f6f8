import TypeSketch.Table
import TypeSketch.Json.StringBody
import TypeSketch.Json.Numeral
import TypeSketch.Text.Encoding

/-!
# Reading JSON text

The reader goes through a text once, from left to right, and stops at the first fault. Of members
with one name the last value stands, at the place of the first. `NaN`, `Infinity` and `-Infinity`
count as numbers. Containers may stand inside each other only so far, and one that opens too deep
is a fault before anything inside it is read.

**End of the reading.** A value leaves less text than it began with (`Rest`). The reader goes on
with what is left, so it comes to an end with the text.

**Documents** (`ofText`, `ofBytes`). A document comes as text or as bytes. A text must not begin
with a byte order mark, while bytes may.
-/

namespace TypeSketch.Json

/-- A value that was read from a text, and what is left of the text behind it. -/
structure Rest (α : Type) (text : Text) where
  value : α
  left : Text
  length_left : left.length < text.length

/-- The space that may stand between the parts of a document. -/
def isSpace (p : CodePoint) : Bool := p == ' ' || p == '\t' || p == '\n' || p == '\r'

/-- The text behind any space. -/
def skipSpace (s : Text) : Text := s.dropWhile isSpace

theorem length_skipSpace (s : Text) : (skipSpace s).length ≤ s.length :=
  (List.dropWhile_sublist _).length_le

theorem length_le_of_skipSpace {s rest : Text} (h : skipSpace s = rest) :
    rest.length ≤ s.length := h ▸ length_skipSpace s

theorem length_lt_of_skipSpace {s rest : Text} {p : CodePoint} (h : skipSpace s = p :: rest) :
    rest.length < s.length := by
  have := length_skipSpace s
  rw [h, List.length_cons] at this
  omega

/-- The text behind a word that it begins with. -/
def behind? : Text → Text → Option Text
  | [], s => some s
  | p :: word, q :: s => if p = q then behind? word s else none
  | _ :: _, [] => none

theorem length_of_behind? {word s rest : Text} (h : behind? word s = some rest) :
    rest.length + word.length = s.length := by
  fun_induction behind? word s with
  | case1 => simp_all
  | case2 p word s ih =>
    have := ih h
    simp only [List.length_cons]
    omega
  | case3 => simp at h
  | case4 => simp at h

/-- The words that stand for values of their own. -/
def words : List (Text × Json) :=
  [ ("null", .null), ("true", .bool true), ("false", .bool false), ("NaN", .number .notANumber),
    ("Infinity", .number (.infinite false)), ("-Infinity", .number (.infinite true)) ]

/-- The value of the first of some words that a text begins with, and what is left. -/
def readWord? (s : Text) : List (Text × Json) → Option (Json × Text)
  | [] => none
  | (word, v) :: others =>
    match behind? word s with
    | some rest => some (v, rest)
    | none => readWord? s others

theorem length_of_readWord? {s rest : Text} {v : Json} {l : List (Text × Json)}
    (hl : ∀ e ∈ l, e.1 ≠ []) (h : readWord? s l = some (v, rest)) : rest.length < s.length := by
  induction l with
  | nil => simp [readWord?] at h
  | cons e others ih =>
    unfold readWord? at h
    split at h
    · next hb =>
      have := length_of_behind? hb
      have := List.length_pos_iff.2 (hl e (by simp))
      simp only [Option.some.injEq, Prod.mk.injEq] at h
      obtain ⟨-, rfl⟩ := h
      omega
    · exact ih (fun e he => hl e (List.mem_cons_of_mem _ he)) h

/-- Reads a value that is neither a string nor a container. -/
def readScalar (s : Text) : Except Fault (Rest Json s) :=
  match hw : readWord? s words with
  | some (v, rest) => .ok ⟨v, rest, length_of_readWord? (by simp [words]) hw⟩
  | none =>
    match hn : readNumeral? s with
    | some (n, rest) =>
      match n.value with
      | .ok v => .ok ⟨.number v, rest, length_of_readNumeral? hn⟩
      | .error fault => .error fault
    | none => .error (.malformed .expectedValue s.length)

/-- Reads the name of a member and the colon behind it, up to the value. -/
def readKey (s : Text) : Except Fault (Rest Text s) :=
  match s with
  | .char '"' :: text =>
    match hk : readString text with
    | .ok (key, rest) =>
      match hc : skipSpace rest with
      | .char ':' :: after =>
        .ok ⟨key, skipSpace after, by
          have := length_of_readString hk
          have := length_skipSpace rest
          have := length_skipSpace after
          simp only [hc, List.length_cons] at *
          omega⟩
      | tail => .error (.malformed .expectedColon tail.length)
    | .error fault => .error fault
  | s => .error (.malformed .expectedKey s.length)

/-- What a value begins with, and what is left behind that. -/
inductive Opening (s : Text) where
  | string (text : Text) (h : text.length < s.length)
  | array (text : Text) (h : text.length < s.length)
  | object (text : Text) (h : text.length < s.length)
  | scalar

/-- Looks at the beginning of a value. -/
def opening : (s : Text) → Opening s
  | .char '"' :: text => .string text (Nat.lt_succ_self _)
  | .char '[' :: text => .array text (Nat.lt_succ_self _)
  | .char '{' :: text => .object text (Nat.lt_succ_self _)
  | _ => .scalar

mutual

/-- Reads a value inside of which `depth` containers may still stand, at some place of a text. -/
def readValue (depth : Nat) (whole s : Text) (hs : s.length ≤ whole.length) :
    Except Fault (Rest Json whole) :=
  match opening s with
  | .string text hlt =>
    match hr : readString text with
    | .ok (v, rest) =>
      .ok ⟨.string v, rest, by
        have := length_of_readString hr
        omega⟩
    | .error fault => .error fault
  | .array text hlt =>
    match depth with
    | 0 => .error (.tooDeep .array)
    | depth + 1 =>
      match ht : skipSpace text with
      | .char ']' :: rest =>
        .ok ⟨.array [], rest, by
          have := length_lt_of_skipSpace ht
          omega⟩
      | items =>
        have hle := length_le_of_skipSpace ht
        readItems depth whole [] items (by omega)
  | .object text hlt =>
    match depth with
    | 0 => .error (.tooDeep .object)
    | depth + 1 =>
      match ht : skipSpace text with
      | .char '}' :: rest =>
        .ok ⟨.object [], rest, by
          have := length_lt_of_skipSpace ht
          omega⟩
      | members =>
        have hle := length_le_of_skipSpace ht
        readMembers depth whole [] members (by omega)
  | .scalar =>
    match readScalar s with
    | .ok ⟨v, rest, h⟩ => .ok ⟨v, rest, Nat.lt_of_lt_of_le h hs⟩
    | .error fault => .error fault
termination_by 2 * s.length

/-- Reads the items of an array from one item on. The items before it stand from the last to the
first. -/
def readItems (depth : Nat) (whole : Text) (items : List Json) (s : Text)
    (hs : s.length < whole.length) : Except Fault (Rest Json whole) :=
  match readValue depth s s (Nat.le_refl _) with
  | .error fault => .error fault
  | .ok ⟨v, rest, h⟩ =>
    match hr : skipSpace rest with
    | .char ']' :: rest =>
      .ok ⟨.array (v :: items).reverse, rest, by
        have := length_lt_of_skipSpace hr
        omega⟩
    | .char ',' :: rest =>
      have hlt : (skipSpace rest).length < s.length := by
        have := length_lt_of_skipSpace hr
        have := length_skipSpace rest
        omega
      readItems depth whole (v :: items) (skipSpace rest) (Nat.lt_trans hlt hs)
    | tail => .error (.malformed .expectedComma tail.length)
termination_by 2 * s.length + 1

/-- Reads the members of an object from one member on. The members before it stand from the last to
the first. -/
def readMembers (depth : Nat) (whole : Text) (members : List (Text × Json))
    (s : Text) (hs : s.length < whole.length) : Except Fault (Rest Json whole) :=
  match readKey s with
  | .error fault => .error fault
  | .ok ⟨key, text, hk⟩ =>
    match readValue depth text text (Nat.le_refl _) with
    | .error fault => .error fault
    | .ok ⟨v, rest, h⟩ =>
      match hr : skipSpace rest with
      | .char '}' :: rest =>
        .ok ⟨.object (Table.ofList ((key, v) :: members).reverse).entries, rest, by
          have := length_lt_of_skipSpace hr
          omega⟩
      | .char ',' :: rest =>
        have hlt : (skipSpace rest).length < s.length := by
          have := length_lt_of_skipSpace hr
          have := length_skipSpace rest
          omega
        readMembers depth whole ((key, v) :: members) (skipSpace rest) (Nat.lt_trans hlt hs)
      | tail => .error (.malformed .expectedComma tail.length)
termination_by 2 * s.length + 1

end

/-! ## Documents -/

/-- Reads a document: one value, with nothing but space around it. -/
def readDocument (depth : Nat) (s : Text) : Except Fault Json :=
  match readValue depth (skipSpace s) (skipSpace s) (Nat.le_refl _) with
  | .error fault => .error fault
  | .ok r =>
    match skipSpace r.left with
    | [] => .ok r.value
    | tail => .error (.malformed .extraText tail.length)

/-- Why a document was not decoded. -/
inductive DecodeError where
  | malformed (cause : Cause) (position : Position)
  | tooDeep (container : Container)
  | tooManyDigits (count : Nat)
  | undecodable (error : Text.Encoding.Undecodable)
deriving DecidableEq, Inhabited, Repr

def DecodeError.message : DecodeError → String
  | .malformed cause position => cause.message ++ ": " ++ position.message
  | .tooDeep _ => "document is nested too deeply to decode"
  | .tooManyDigits count =>
    "Exceeds the limit (" ++ toString maxDigits ++
      " digits) for integer string conversion: value has " ++
      toString count ++ " digits; use sys.set_int_max_str_digits() to increase the limit"
  | .undecodable error => error.message

def DecodeError.ofFault (text : Text) : Fault → DecodeError
  | .malformed cause left => .malformed cause (.ofLeft text left)
  | .tooDeep container => .tooDeep container
  | .tooManyDigits count => .tooManyDigits count

/-- The document that a text writes, whatever stands at its beginning. At most `depth` containers
may stand inside each other. -/
def ofContent (depth : Nat) (text : Text) : Except DecodeError Json :=
  (readDocument depth text).mapError (DecodeError.ofFault text)

/-- The document that a text writes, if no byte order mark stands before it. -/
def ofText (depth : Nat) (text : Text) : Except DecodeError Json :=
  if text.head? = some (.char '\uFEFF') then
    .error (.malformed .byteOrderMark (.ofLeft text text.length))
  else ofContent depth text

def ofBytes (depth : Nat) (bytes : List UInt8) : Except DecodeError Json :=
  match Text.Encoding.decode bytes with
  | .ok text => ofContent depth text
  | .error error => .error (.undecodable error)

end TypeSketch.Json
