import TypeSketch.Text.CodePoint
import TypeSketch.Text.Quoted

/-!
# Text in bytes

A document comes in UTF-8, UTF-16 or UTF-32, and nothing outside it says in which.

**Detection** (`detect`). A byte order mark decides. Without one, the first characters of a JSON
text are ASCII, so the places of the zero bytes among the first four tell the width and the order
of the bytes. Where they tell nothing the text is UTF-8.

**Decoding** (`decode`). Bytes that make no code point are an error, which tells where they stand
and what is wrong with them. A surrogate is let through, unless the decoding is strict. Only UTF-16
writes a character as two surrogates.

**Encoding** (`encode`). What goes out is UTF-8, in which a surrogate cannot be written.
-/

namespace TypeSketch.Text

/-- How characters are written as bytes. -/
inductive Encoding where
  | utf8
  | utf16 (bigEndian : Bool)
  | utf32 (bigEndian : Bool)
deriving DecidableEq, Inhabited, Repr

namespace Encoding

def name : Encoding → String
  | .utf8 => "utf-8"
  | .utf16 false => "utf-16-le"
  | .utf16 true => "utf-16-be"
  | .utf32 false => "utf-32-le"
  | .utf32 true => "utf-32-be"

/-- What is wrong with bytes that make no code point. -/
inductive Flaw where
  | invalidStart
  | invalidContinuation
  | unexpectedEnd
  | truncated
  | outOfRange
deriving DecidableEq, Inhabited, Repr

def Flaw.message : Flaw → String
  | .invalidStart => "invalid start byte"
  | .invalidContinuation => "invalid continuation byte"
  | .unexpectedEnd => "unexpected end of data"
  | .truncated => "truncated data"
  | .outOfRange => "code point not in range(0x110000)"

/-- Bytes that make no code point: the first of them, its offset, and how many there are. -/
structure Undecodable where
  encoding : Encoding
  flaw : Flaw
  offset : Nat
  first : UInt8
  count : Nat
deriving DecidableEq, Inhabited, Repr

def hexByte (b : UInt8) : String :=
  String.ofList [(b.toNat / 16).digitChar, (b.toNat % 16).digitChar]

def Undecodable.message (e : Undecodable) : String :=
  let what :=
    if e.count = 1 then "byte 0x" ++ hexByte e.first ++ " in position " ++ toString e.offset
    else
      "bytes in position " ++ toString e.offset ++ "-" ++ toString (e.offset + e.count - 1)
  "'" ++ e.encoding.name ++ "' codec can't decode " ++ what ++ ": " ++ e.flaw.message

/-! ## UTF-8 -/

/-- The values that a byte inside a character may have. -/
def tailByte : Nat × Nat := (0x80, 0xBF)

/-- For the first byte of a character, its share of the code point and the values that each of the
following bytes may have. -/
def tailOf? (first : UInt8) : Option (Nat × List (Nat × Nat)) :=
  let b := first.toNat
  if b < 0x80 then some (b, [])
  else if b < 0xC2 then none
  else if b < 0xE0 then some (b - 0xC0, [tailByte])
  else if b = 0xE0 then some (0x0, [(0xA0, 0xBF), tailByte])
  else if b = 0xED then some (0xD, [(0x80, 0x9F), tailByte])
  else if b < 0xF0 then some (b - 0xE0, [tailByte, tailByte])
  else if b = 0xF0 then some (0x0, [(0x90, 0xBF), tailByte, tailByte])
  else if b < 0xF4 then some (b - 0xF0, [tailByte, tailByte, tailByte])
  else if b = 0xF4 then some (0x4, [(0x80, 0x8F), tailByte, tailByte])
  else none

/-- How the bytes behind a first byte go on. -/
inductive Tail where
  | complete (code : Nat) (rest : List UInt8)
  | cutOff
  /-- A byte does not fit, after so many that do. -/
  | broken (fitting : Nat)

/-- Reads the bytes behind a first byte. -/
def readTail (code fitting : Nat) : List (Nat × Nat) → List UInt8 → Tail
  | [], rest => .complete code rest
  | _ :: _, [] => .cutOff
  | (lo, hi) :: ranges, b :: rest =>
    if lo ≤ b.toNat && b.toNat ≤ hi then
      readTail (code * 0x40 + (b.toNat - 0x80)) (fitting + 1) ranges rest
    else .broken fitting

theorem length_of_readTail {code fitting code' : Nat} {ranges : List (Nat × Nat)}
    {s rest : List UInt8} (h : readTail code fitting ranges s = .complete code' rest) :
    rest.length ≤ s.length := by
  fun_induction readTail code fitting ranges s with
  | case1 => simp_all
  | case2 => simp at h
  | case3 _ _ _ _ _ _ _ _ ih =>
    have := ih h
    simp only [List.length_cons]
    omega
  | case4 => simp at h

/-- The code point of the three bytes of a surrogate, and what is left behind them. -/
def surrogate? : List UInt8 → Option (CodePoint × List UInt8)
  | a :: b :: c :: rest =>
    if a = 0xED && 0xA0 ≤ b && b ≤ 0xBF && 0x80 ≤ c && c ≤ 0xBF then
      some (.ofNat (0xD000 + (b.toNat - 0x80) * 0x40 + (c.toNat - 0x80)), rest)
    else none
  | _ => none

theorem length_of_surrogate? {s rest : List UInt8} {p : CodePoint}
    (h : surrogate? s = some (p, rest)) : rest.length < s.length := by
  unfold surrogate? at h
  split at h
  · split at h
    · simp only [Option.some.injEq, Prod.mk.injEq] at h
      simp only [← h.2, List.length_cons]
      omega
    · simp at h
  · simp at h

/-- Decodes UTF-8 from an offset on, behind code points that stand from the last to the first. -/
def decodeUtf8 (strict : Bool) (offset : Nat) (read : Text) (bytes : List UInt8) :
    Except Undecodable Text :=
  match bytes with
  | [] => .ok read.reverse
  | first :: rest =>
    match tailOf? first with
    | none => .error ⟨.utf8, .invalidStart, offset, first, 1⟩
    | some (bits, ranges) =>
      match _hr : readTail bits 0 ranges rest with
      | .complete code left =>
        decodeUtf8 strict (offset + 1 + ranges.length) (.ofNat code :: read) left
      | .cutOff => .error ⟨.utf8, .unexpectedEnd, offset, first, rest.length + 1⟩
      | .broken fitting =>
        match _hs : if strict then none else surrogate? (first :: rest) with
        | some (p, left) => decodeUtf8 strict (offset + 3) (p :: read) left
        | none => .error ⟨.utf8, .invalidContinuation, offset, first, fitting + 1⟩
termination_by bytes.length
decreasing_by
  · have := length_of_readTail _hr
    simp only [List.length_cons]
    omega
  · split at _hs
    · simp at _hs
    · exact length_of_surrogate? _hs

/-! ## UTF-16 and UTF-32 -/

/-- The number that bytes write, the most significant one first or last. -/
def unit (bigEndian : Bool) (bytes : List UInt8) : Nat :=
  (if bigEndian then bytes else bytes.reverse).foldl (fun n b => n * 0x100 + b.toNat) 0

/-- The character of two code points that make one in UTF-16. -/
def pair? : CodePoint → CodePoint → Option Char
  | .surrogate high, .surrogate low => high.join? low
  | _, _ => none

/-- Decodes UTF-16 from an offset on, behind code points that stand from the last to the first. -/
def decodeUtf16 (bigEndian : Bool) (offset : Nat) (read : Text) :
    List UInt8 → Except Undecodable Text
  | [] => .ok read.reverse
  | [a] => .error ⟨.utf16 bigEndian, .truncated, offset, a, 1⟩
  | a :: b :: rest =>
    let p := CodePoint.ofNat (unit bigEndian [a, b])
    match rest with
    | c :: d :: more =>
      match pair? p (.ofNat (unit bigEndian [c, d])) with
      | some joined => decodeUtf16 bigEndian (offset + 4) (.char joined :: read) more
      | none => decodeUtf16 bigEndian (offset + 2) (p :: read) (c :: d :: more)
    | [c] => decodeUtf16 bigEndian (offset + 2) (p :: read) [c]
    | [] => decodeUtf16 bigEndian (offset + 2) (p :: read) []

/-- Decodes UTF-32 from an offset on, behind code points that stand from the last to the first. -/
def decodeUtf32 (bigEndian : Bool) (offset : Nat) (read : Text) :
    List UInt8 → Except Undecodable Text
  | [] => .ok read.reverse
  | a :: b :: c :: d :: rest =>
    let code := unit bigEndian [a, b, c, d]
    if 0x110000 ≤ code then .error ⟨.utf32 bigEndian, .outOfRange, offset, a, 4⟩
    else decodeUtf32 bigEndian (offset + 4) (.ofNat code :: read) rest
  | a :: rest => .error ⟨.utf32 bigEndian, .truncated, offset, a, rest.length + 1⟩

/-! ## Detection -/

/-- The encoding of a JSON text, and the number of bytes that its byte order mark takes. -/
def detect (bytes : List UInt8) : Encoding × Nat :=
  match bytes with
  | 0x00 :: 0x00 :: 0xFE :: 0xFF :: _ => (.utf32 true, 4)
  | 0xFF :: 0xFE :: 0x00 :: 0x00 :: _ => (.utf32 false, 4)
  | 0xFE :: 0xFF :: _ => (.utf16 true, 2)
  | 0xFF :: 0xFE :: _ => (.utf16 false, 2)
  | 0xEF :: 0xBB :: 0xBF :: _ => (.utf8, 3)
  | a :: b :: c :: d :: _ =>
    if a = 0 then (if b = 0 then .utf32 true else .utf16 true, 0)
    else if b = 0 then (if c = 0 && d = 0 then .utf32 false else .utf16 false, 0)
    else (.utf8, 0)
  | [a, b] =>
    if a = 0 then (.utf16 true, 0)
    else if b = 0 then (.utf16 false, 0)
    else (.utf8, 0)
  | _ => (.utf8, 0)

/-- The JSON text in bytes, without a byte order mark. Offsets in UTF-8 count from behind the mark,
and those in the other encodings from before it. -/
def decode (bytes : List UInt8) : Except Undecodable Text :=
  let (encoding, mark) := detect bytes
  match encoding with
  | .utf8 => decodeUtf8 false 0 [] (bytes.drop mark)
  | .utf16 bigEndian => decodeUtf16 bigEndian mark [] (bytes.drop mark)
  | .utf32 bigEndian => decodeUtf32 bigEndian mark [] (bytes.drop mark)

/-- A text in UTF-8 without surrogates. -/
def decodeStrict (bytes : List UInt8) : Except Undecodable Text := decodeUtf8 true 0 [] bytes

/-! ## Encoding -/

/-- Surrogates that cannot be written: the first of them, its offset, and how many there are. -/
structure Unencodable where
  first : Surrogate
  offset : Nat
  count : Nat
deriving DecidableEq, Repr

def Unencodable.message (e : Unencodable) : String :=
  let what :=
    if e.count = 1 then
      "character '" ++ String.ofList (spelledSurrogate e.first) ++ "' in position " ++
        toString e.offset
    else
      "characters in position " ++ toString e.offset ++ "-" ++ toString (e.offset + e.count - 1)
  "'" ++ name .utf8 ++ "' codec can't encode " ++ what ++ ": surrogates not allowed"

/-- The first surrogates of a text that are not exempt, from an offset on. -/
def unencodable? (exempt : Surrogate → Bool) (offset : Nat) : Text → Option Unencodable
  | [] => none
  | .char _ :: rest => unencodable? exempt (offset + 1) rest
  | .surrogate s :: rest =>
    if exempt s then unencodable? exempt (offset + 1) rest
    else some ⟨s, offset, (rest.takeWhile CodePoint.isSurrogate).length + 1⟩

theorem unencodable?_eq_none_iff {exempt : Surrogate → Bool} {offset : Nat} {s : Text} :
    unencodable? exempt offset s = none ↔ ∀ x, .surrogate x ∈ s → exempt x = true := by
  induction s generalizing offset with
  | nil => simp [unencodable?]
  | cons p rest ih =>
    cases p with
    | char c => simp [unencodable?, ih]
    | surrogate y =>
      by_cases hy : exempt y = true
      · simp [unencodable?, hy, ih]
      · simp [unencodable?, hy]

/-- A text as a string that can be written, if it holds no surrogate. -/
def encode (s : Text) : Except Unencodable String :=
  match unencodable? (fun _ => false) 0 s with
  | some e => .error e
  | none => .ok s.legible

theorem encode_eq_ok_iff {s : Text} {t : String} : encode s = .ok t ↔ s = ofString t := by
  have hnone : unencodable? (fun _ => false) 0 s = none ↔ ∀ x, .surrogate x ∉ s := by
    simp [unencodable?_eq_none_iff]
  constructor
  · intro h
    unfold encode at h
    split at h
    · cases h
    · next hs => rw [← Except.ok.inj h, ofString_legible (hnone.1 hs)]
  · rintro rfl
    rw [encode, hnone.2 fun x => surrogate_not_mem_ofString x t, legible_ofString]

theorem exists_surrogate_of_encode_eq_error {s : Text} {e : Unencodable}
    (h : encode s = .error e) : ∃ x, .surrogate x ∈ s := by
  refine Classical.not_forall_not.1 fun hplain => ?_
  rw [encode_eq_ok_iff.2 (ofString_legible hplain).symm] at h
  cases h

end Encoding

end TypeSketch.Text
