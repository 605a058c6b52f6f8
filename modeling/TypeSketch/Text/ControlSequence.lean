import TypeSketch.Text.CodePoint

/-!
# Control sequences

A terminal obeys a control sequence instead of showing it, for instance to change its colors. The
sequence is an escape character, an opening bracket, any number of parameters, any number of
intermediates and one final character. The three kinds of characters share none, so where a
sequence ends is settled by reading on.

What goes to a terminal from outside is shown without such sequences (`withoutControls`), and every
other code point stays. An escape character that begins no whole sequence stays too.
-/

namespace TypeSketch.Text

/-- Whether a code point lies between two characters or is one of them. -/
def isAmong (first last : Char) (p : CodePoint) : Bool :=
  decide (first.toNat ≤ p.toNat) && decide (p.toNat ≤ last.toNat)

/-- Whether a code point is a parameter of a control sequence: a digit or one of `:;<=>?`. -/
def isParameter : CodePoint → Bool := isAmong '0' '?'

/-- Whether a code point is an intermediate of a control sequence: a space or one of `!` to `/`. -/
def isIntermediate : CodePoint → Bool := isAmong ' ' '/'

/-- Whether a code point can end a control sequence. -/
def isFinal : CodePoint → Bool := isAmong '@' '~'

/-- What is left behind a control sequence whose escape character has been read, if there is one. -/
def behindControl? : Text → Option Text
  | .char '[' :: rest =>
    match (rest.dropWhile isParameter).dropWhile isIntermediate with
    | p :: left => if isFinal p then some left else none
    | [] => none
  | _ => none

theorem length_of_behindControl? {s left : Text} (h : behindControl? s = some left) :
    left.length < s.length := by
  unfold behindControl? at h
  split at h
  · next rest =>
    have shrinks := ((List.dropWhile_sublist isIntermediate).trans
      (List.dropWhile_sublist isParameter (l := rest))).length_le
    split at h
    · next hd =>
      rw [hd] at shrinks
      simp only [Option.ite_none_right_eq_some, Option.some.injEq] at h
      simp only [← h.2, List.length_cons] at *
      omega
    · simp at h
  · simp at h

/-- A text without its control sequences. -/
def withoutControls (s : Text) : Text :=
  match s with
  | [] => []
  | p :: rest =>
    match _h : if p == '\x1b' then behindControl? rest else none with
    | some left => withoutControls left
    | none => p :: withoutControls rest
termination_by s.length
decreasing_by
  · split at _h
    · have := length_of_behindControl? _h
      simp only [List.length_cons]
      omega
    · simp at _h
  · simp

end TypeSketch.Text
