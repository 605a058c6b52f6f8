import TypeSketch.Text.CodePoint

/-!
# Similar texts

A text that was mistyped resembles the one that was meant. How much two texts resemble each other
is measured by the runs of code points that they have in common.

**Matching** (`matched`). The longest common run is found first, and of several the earliest. What
stands before it in the two texts is then matched in the same way, and so is what stands behind it.
No more code points are matched than either text has (`matched_le`).

**Similarity** (`isSimilar`). Two texts are similar if three fifths or more of their code points are
matched. Texts of too different lengths never are, so they need not be matched (`isSimilar_iff`).

**Choice** (`mostSimilar`). Of some names, those most similar to a text are what was possibly meant.
-/

namespace TypeSketch.Text

/-! ## Common runs -/

/-- The number of code points with which two texts begin alike. -/
def agreement : Text → Text → Nat
  | p :: s, q :: t => if p = q then agreement s t + 1 else 0
  | _, _ => 0

theorem agreement_le (s t : Text) : agreement s t ≤ s.length ∧ agreement s t ≤ t.length := by
  fun_induction agreement s t with
  | case1 p s t ih => simpa using ih
  | case2 => simp
  | case3 => simp

/-- A run that two texts have in common: where it begins in each of them, and its length. -/
structure Run where
  left : Nat
  right : Nat
  length : Nat

/-- Whether a run lies within two texts. -/
def Run.Fits (r : Run) (s t : Text) : Prop :=
  r.left + r.length ≤ s.length ∧ r.right + r.length ≤ t.length

/-- The longer one of two runs, and the first if neither is longer. -/
def Run.longer (r r' : Run) : Run := if r.length < r'.length then r' else r

/-- The common run at given places of two texts. -/
def runAt (s t : Text) (i j : Nat) : Run := ⟨i, j, agreement (s.drop i) (t.drop j)⟩

/-- The common runs at all places of two texts. -/
def runs (s t : Text) : List Run :=
  (List.range s.length).flatMap fun i => (List.range t.length).map (runAt s t i)

/-- The longest common run of two texts. -/
def longestRun (s t : Text) : Run := (runs s t).foldl .longer ⟨0, 0, 0⟩

theorem fits_of_mem_runs {s t : Text} {r : Run} (h : r ∈ runs s t) : r.Fits s t := by
  simp only [runs, List.mem_flatMap, List.mem_map, List.mem_range] at h
  obtain ⟨i, hi, j, hj, rfl⟩ := h
  have := agreement_le (s.drop i) (t.drop j)
  simp only [List.length_drop] at this
  simp only [Run.Fits, runAt]
  omega

theorem fits_foldl_longer {s t : Text} (l : List Run) (r : Run) (hr : r.Fits s t)
    (hl : ∀ r' ∈ l, r'.Fits s t) : (l.foldl .longer r).Fits s t := by
  induction l generalizing r with
  | nil => exact hr
  | cons a l ih =>
    refine ih _ ?_ fun r' h => hl r' (List.mem_cons_of_mem a h)
    unfold Run.longer
    split
    · exact hl a List.mem_cons_self
    · exact hr

theorem fits_longestRun (s t : Text) : (longestRun s t).Fits s t :=
  fits_foldl_longer _ _ (by simp [Run.Fits]) fun _ => fits_of_mem_runs

/-! ## Matching -/

/-- The number of code points in the common runs of two texts. -/
def matched (s t : Text) : Nat :=
  match _h : longestRun s t with
  | ⟨_, _, 0⟩ => 0
  | ⟨left, right, length + 1⟩ =>
    matched (s.take left) (t.take right) + (length + 1) +
      matched (s.drop (left + (length + 1))) (t.drop (right + (length + 1)))
termination_by s.length
decreasing_by
  all_goals
    have := (_h ▸ fits_longestRun s t).1
    simp only [List.length_take, List.length_drop] at *
    omega

theorem matched_le (s t : Text) : matched s t ≤ s.length ∧ matched s t ≤ t.length := by
  fun_induction matched s t with
  | case1 => simp
  | case2 s t left right length h before behind =>
    have := h ▸ fits_longestRun s t
    simp only [Run.Fits, List.length_take, List.length_drop] at *
    omega

/-! ## Similarity -/

/-- Whether two texts are similar, which only texts of similar lengths can be. -/
def isSimilar (s t : Text) : Bool :=
  let needed := 3 * (s.length + t.length)
  decide (needed ≤ 10 * min s.length t.length) && decide (needed ≤ 10 * matched s t)

theorem isSimilar_iff {s t : Text} :
    isSimilar s t = true ↔ 3 * (s.length + t.length) ≤ 10 * matched s t := by
  have := matched_le s t
  simp only [isSimilar, Bool.and_eq_true, decide_eq_true_eq]
  omega

/-- A name with what a text and it have in common. -/
structure Candidate where
  name : String
  matched : Nat
  total : Nat

/-- A name as a candidate for a text. -/
def Candidate.of (s : Text) (name : String) : Candidate :=
  ⟨name, Text.matched (ofString name) s, name.length + s.length⟩

/-- Whether the first of two candidates is chosen before the second: the one with the larger part
in common, and of two with equal parts the one that is later in alphabetical order. -/
def Candidate.precedes (a b : Candidate) : Bool :=
  let left := a.matched * b.total
  let right := b.matched * a.total
  decide (right < left) || (left == right && decide (b.name ≤ a.name))

/-- The names most similar to a text, as many as wanted, in alphabetical order. -/
def mostSimilar (wanted : Nat) (names : List String) (s : Text) : List String :=
  let candidates := (names.filter fun name => isSimilar (ofString name) s).map (Candidate.of s)
  let chosen := ((candidates.mergeSort Candidate.precedes).take wanted).map Candidate.name
  chosen.mergeSort fun a b => decide (a ≤ b)

end TypeSketch.Text
