import TypeSketch.Text.Encoding

/-!
# Bytes of a path

A path is handed on as bytes. Its characters are written in UTF-8, and a byte that belongs to no
character there stands in the text as one of the surrogates U+DC80 to U+DCFF. No file has a path
with another surrogate or with a zero byte in it (`unusable?`).

**Pieces** (`pieces`). Read again, the bytes are characters and stray bytes. Several surrogates can
stand for the bytes of one character, so different texts can have the same bytes.

**Settled paths** (`settled`). The text that is read from the bytes of a path. It is one for all
paths with these bytes, so files are found by it.
-/

namespace TypeSketch.Path

/-- Whether a surrogate stands for a byte. -/
def isByte (s : Surrogate) : Bool := 0xDC80 ≤ s.code && s.code < 0xDD00

def pointBytes : CodePoint → List UInt8
  | .char c => String.utf8EncodeChar c
  | .surrogate s => [UInt8.ofNat s.code]

def bytes (path : Text) : List UInt8 := path.flatMap pointBytes

def byteSize (path : Text) : Nat := (bytes path).length

/-! ## Paths of no file -/

/-- Why a text is the path of no file. -/
inductive Unusable where
  | unencodable (error : Text.Encoding.Unencodable)
  | zeroByte
deriving DecidableEq, Repr

def Unusable.message : Unusable → String
  | .unencodable error => error.message
  | .zeroByte => "embedded null byte"

/-- Why a text is the path of no file, if it is not. -/
def unusable? (path : Text) : Option Unusable :=
  match Text.Encoding.unencodable? isByte 0 path with
  | some error => some (.unencodable error)
  | none => if path.contains '\x00' then some .zeroByte else none

/-! ## Pieces -/

/-- A character in UTF-8, or bytes where one begins and does not go on. -/
inductive Piece where
  | char (c : Char)
  | stray (bytes : List UInt8)

/-- The piece that begins with a byte, and what is left behind it. -/
def readPiece (first : UInt8) (rest : List UInt8) : Piece × List UInt8 :=
  match Text.Encoding.tailOf? first with
  | none => (.stray [first], rest)
  | some (bits, ranges) =>
    match Text.Encoding.readTail bits 0 ranges rest with
    | .complete code left => (.char (Char.ofNat code), left)
    | .cutOff => (.stray (first :: rest), [])
    | .broken fitting => (.stray (first :: rest.take fitting), rest.drop fitting)

theorem length_readPiece (first : UInt8) (rest : List UInt8) :
    (readPiece first rest).2.length ≤ rest.length := by
  unfold readPiece
  split
  · exact Nat.le_refl _
  · split
    · next h => exact Text.Encoding.length_of_readTail h
    · exact Nat.zero_le _
    · exact (List.drop_sublist _ rest).length_le

def pieces : List UInt8 → List Piece
  | [] => []
  | first :: rest => (readPiece first rest).1 :: pieces (readPiece first rest).2
termination_by bytes => bytes.length
decreasing_by exact Nat.lt_succ_of_le (length_readPiece first rest)

/-- A piece as it can be read: one replacement character takes the place of stray bytes. -/
def Piece.legible : Piece → Char
  | .char c => c
  | .stray _ => '\uFFFD'

/-- A piece as a text: every stray byte is a surrogate. -/
def Piece.text : Piece → Text
  | .char c => [c]
  | .stray bytes => bytes.map fun b => .ofNat (0xDC00 + b.toNat)

/-- A path as it can be read. -/
def legible (path : Text) : String := String.ofList ((pieces (bytes path)).map Piece.legible)

/-- A path as its bytes are read. -/
def settled (path : Text) : Text := (pieces (bytes path)).flatMap Piece.text

end TypeSketch.Path
