import TypeSketch.Sketch
import TypeSketch.Proofs.LongNumbers

/-!
# The boundary of texts and bytes

A document comes as a text or as bytes. It is decoded first, and then its declarations are made. So
there are two ways out: the sketch of the decoded document, or an error that says why there is none.

**The contract** (`Contract`). With a text for a wanted name, the sketch comes exactly if there is a
document, and every error is a report of invalid JSON.

**Theorem** (`boundary_contract`). The contract is kept just if the document is not refused for a
number with too many digits. That error goes through as it is and is no report.
-/

namespace TypeSketch

/-- An error that reports invalid JSON. -/
def SketchError.Reported (e : SketchError) : Prop := ∃ cause, e.message = "Invalid JSON: " ++ cause

/-- What a text or bytes should come to, when decoding them gives `decoded`: the sketch of the
document, or a report if there is no document, and nothing else. -/
structure Contract (o : Options) (wanted : Text) (decoded : Except Json.DecodeError Json)
    (result : Except SketchError Text) : Prop where
  sketched {text : Text} : result = .ok text ↔ ∃ v, decoded = .ok v ∧ text = sketch o wanted v
  reported {e : SketchError} (h : result = .error e) : e.Reported
  refused : (∃ e, result = .error e ∧ e.Reported) ↔ ∃ e, decoded = .error e

/-! ## Names and errors -/

theorem RootName.ofJson?_string (wanted : Text) :
    RootName.ofJson? (.string wanted) = some (RootName.ofText wanted) := by
  cases wanted with
  | nil => decide +kernel
  | cons => rfl

theorem not_reported_tooManyDigits (n : Nat) :
    ¬(SketchError.unreadable (.tooManyDigits n)).Reported := by
  rintro ⟨cause, h⟩
  unfold SketchError.message Json.DecodeError.message at h
  -- Only how the two messages begin counts, so the limit need not be written out.
  generalize Json.maxDigits = limit at h
  simp only [String.append_assoc] at h
  have hhead := congrArg (fun s => s.toList.head?) h
  simp at hhead

/-- Every error of decoding is reported, except that for a number with too many digits. -/
theorem reported_iff (e : Json.DecodeError) :
    (SketchError.unreadable e).Reported ↔ ∀ n, e ≠ .tooManyDigits n := by
  cases e with
  | malformed | tooDeep | undecodable => exact iff_of_true ⟨_, rfl⟩ nofun
  | tooManyDigits n =>
    exact iff_of_false (not_reported_tooManyDigits n) fun h => h n rfl

/-! ## The contract -/

section

variable (o : Options) (wanted : Text)

theorem sketchDecoded_ok (v : Json) :
    sketchDecoded o (.string wanted) (.ok v) = .ok (sketch o wanted v) := by
  rw [sketchDecoded, sketchNamed?, RootName.ofJson?_string]
  rfl

theorem contract_sketchDecoded_iff (decoded : Except Json.DecodeError Json) :
    Contract o wanted decoded (sketchDecoded o (.string wanted) decoded) ↔
      ∀ n, decoded ≠ .error (.tooManyDigits n) := by
  cases decoded with
  | ok v =>
    rw [sketchDecoded_ok]
    exact iff_of_true ⟨by simp [eq_comm], nofun, by simp⟩ nofun
  | error e =>
    rw [sketchDecoded]
    constructor
    · rintro h n ⟨⟩
      exact (reported_iff _).1 (h.reported rfl) n rfl
    · intro h
      have hr : (SketchError.unreadable e).Reported :=
        (reported_iff e).2 fun n he => h n (congrArg _ he)
      exact ⟨by simp, fun he => Except.error.inj he ▸ hr,
        iff_of_true ⟨_, rfl, hr⟩ ⟨e, rfl⟩⟩

end

/-- **The boundary.** Under a text for a wanted name, texts and bytes keep the contract just if
decoding them does not end at a number with too many digits. Where it does, that error comes out
and is no report, and the decoded text has so many digits in a row. -/
theorem boundary_contract (depth : Nat) (o : Options) (wanted : Text) :
    (∀ text,
      Contract o wanted (Json.ofText depth text) (sketchText depth o (.string wanted) text) ↔
        ∀ n, Json.ofText depth text ≠ .error (.tooManyDigits n)) ∧
    (∀ bytes,
      Contract o wanted (Json.ofBytes depth bytes) (sketchBytes depth o (.string wanted) bytes) ↔
        ∀ n, Json.ofBytes depth bytes ≠ .error (.tooManyDigits n)) ∧
    (∀ text n, Json.ofText depth text = .error (.tooManyDigits n) →
      sketchText depth o (.string wanted) text = .error (.unreadable (.tooManyDigits n)) ∧
      ¬(SketchError.unreadable (.tooManyDigits n)).Reported ∧ Json.LongRun text n) ∧
    ∀ bytes n, Json.ofBytes depth bytes = .error (.tooManyDigits n) →
      sketchBytes depth o (.string wanted) bytes = .error (.unreadable (.tooManyDigits n)) ∧
      ¬(SketchError.unreadable (.tooManyDigits n)).Reported ∧
      ∃ text, Text.Encoding.decode bytes = .ok text ∧ Json.LongRun text n := by
  refine ⟨fun text => contract_sketchDecoded_iff o wanted _,
    fun bytes => contract_sketchDecoded_iff o wanted _, fun text n h => ?_, fun bytes n h => ?_⟩
  · rw [sketchText, h]
    exact ⟨rfl, not_reported_tooManyDigits n, Json.longRun_of_ofText h⟩
  · rw [sketchBytes, h]
    exact ⟨rfl, not_reported_tooManyDigits n, Json.longRun_of_ofBytes h⟩

/-- A document that is one integer, with one digit more than are read. -/
def longNumber : Text := .char '1' :: .replicate Json.maxDigits (.char '1')

/-- The long number breaks the contract: what comes out is no report. -/
theorem long_number_unreported :
    let decoded := Json.ofText 950 longNumber
    let sketched := sketchText 950 {} (.string "Root") longNumber
    decoded = .error (.tooManyDigits 4301) ∧
    sketched = .error (.unreadable (.tooManyDigits 4301)) ∧
    ¬(SketchError.unreadable (.tooManyDigits 4301)).Reported ∧
    ¬Contract {} "Root" decoded sketched := by
  intro decoded sketched
  have hlen : longNumber.length = 4301 := by
    rw [longNumber, List.length_cons, List.length_replicate]
    rfl
  have h : decoded = .error (.tooManyDigits 4301) := by
    rw [← hlen]
    exact Json.ofText_digits rfl (by decide) (fun q hq => List.eq_of_mem_replicate hq ▸ rfl)
      (by rw [List.length_cons, List.length_replicate]; exact Nat.lt_succ_self _) 950
  have hs : sketched = .error (.unreadable (.tooManyDigits 4301)) :=
    congrArg (sketchDecoded {} (.string "Root")) h
  refine ⟨h, hs, not_reported_tooManyDigits 4301, fun hc => ?_⟩
  exact (contract_sketchDecoded_iff {} "Root" _).1 hc 4301 h

end TypeSketch
