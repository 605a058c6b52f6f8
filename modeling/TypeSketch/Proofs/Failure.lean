import TypeSketch.CommandLine.Run

/-!
# A run that fails leaves nothing behind

A run stops before anything is written, or it has a text that is ready. The standard output takes
the text as a whole or not at all. A file takes it as a whole too, unless the text holds a
surrogate. That is noticed in the open file, which is empty then.

**Delivery** (`Delivered`). What can become of a text that is ready, case by case.

**Theorem** (`run_failed`). A run that does not end well shows nothing, and leaves every file as it
was unless its text was ready and holds a surrogate.
-/

namespace TypeSketch.CommandLine

/-- What a failure leaves behind that shows nothing and changes no file. -/
structure Outcome.Traceless (w : Workspace) (r : Outcome) : Prop where
  failed : r.ending ≠ .exit 0
  silent : r.stdout = ""
  unchanged : r.workspace = w

/-- What can become of a text that is ready. -/
inductive Delivered (w : Workspace) (e : Emission) : Outcome → Prop
  | shown {s : String} (target : e.target = none)
      (encoded : Text.Encoding.encode (Text.withoutControls e.text) = .ok s) :
      Delivered w e { ending := .exit 0, stdout := s, workspace := w }
  | written {l : Location} {s : String} (target : e.target = some l)
      (encoded : Text.Encoding.encode e.text = .ok s) :
      Delivered w e { ending := .exit 0, workspace := w.put l s.toUTF8.data.toList }
  | emptied {l : Location} {x : Surrogate} (target : e.target = some l)
      (surrogate : .surrogate x ∈ e.text) (escape : Escape) :
      Delivered w e { ending := .escaped escape, workspace := w.put l [] }
  | kept {r : Outcome} (traceless : r.Traceless w) : Delivered w e r

theorem Stop.traceless (stop : Stop) (w : Workspace) : (stop.outcome w).Traceless w := by
  cases stop <;> exact ⟨nofun, rfl, rfl⟩

theorem Outcome.Traceless.of_escaped {w : Workspace} {escape : Escape} :
    Outcome.Traceless w { ending := .escaped escape, workspace := w } :=
  ⟨nofun, rfl, rfl⟩

/-- The cases are all there are. -/
theorem Emission.delivered (w : Workspace) (e : Emission) : Delivered w e (e.deliver w) := by
  unfold deliver
  split
  · next target =>
    unfold display
    split
    · next encoded => exact .shown target encoded
    · exact .kept .of_escaped
  · next l target =>
    unfold write
    split
    · exact .kept .of_escaped
    · split
      · next encoded => exact .written target encoded
      · next encoded =>
        obtain ⟨x, hx⟩ := Text.Encoding.exists_surrogate_of_encode_eq_error encoded
        exact .emptied target hx _

theorem run_cases (host : Host) (w : Workspace) (input : List UInt8) (args : List Text) :
    (run host w input args).Traceless w ∨
      ∃ e, prepare host w input args = .ok e ∧ Delivered w e (run host w input args) := by
  unfold run
  split
  · next e h => exact .inr ⟨e, h, e.delivered w⟩
  · next stop _ => exact .inl (stop.traceless w)

/-- **A run that fails leaves nothing behind.** If a run does not end well, nothing is shown on the
standard output. No file is made or changed, unless a text was ready that holds a surrogate. -/
theorem run_failed {host : Host} {w : Workspace} {input : List UInt8} {args : List Text}
    (h : (run host w input args).ending ≠ .exit 0) :
    (run host w input args).stdout = "" ∧
      ((∀ e, prepare host w input args = .ok e → ∀ x, .surrogate x ∉ e.text) →
        (run host w input args).workspace = w) := by
  obtain hstop | ⟨e, hready, hd⟩ := run_cases host w input args
  · exact ⟨hstop.silent, fun _ => hstop.unchanged⟩
  · generalize run host w input args = r at h hd
    cases hd with
    | shown => exact absurd rfl h
    | written => exact absurd rfl h
    | emptied _ surrogate => exact ⟨rfl, fun hplain => absurd surrogate (hplain e hready _)⟩
    | kept traceless => exact ⟨traceless.silent, fun _ => traceless.unchanged⟩

/-- A workspace with a document, a text that is none, and the output of an earlier run. -/
def desk : Workspace :=
  let empty : Workspace := { here := ["desk"] }
  let withDocument := empty.put ["desk", "data.json"] "\x7b\x7d".toUTF8.data.toList
  let withFault := withDocument.put ["desk", "oops.json"] "\x7boops".toUTF8.data.toList
  withFault.put ["desk", "out.ts"] "interface Data \x7b\n\x7d\n".toUTF8.data.toList

theorem run_failed_desk :
    let faulty : List Text := ["oops.json", "out.ts"]
    let homeless : List Text := ["data.json", "gone/out.ts"]
    (run .usual desk [] faulty).ending = .exit 1 ∧ (run .usual desk [] faulty).workspace = desk ∧
    (run .usual desk [] homeless).ending =
      .escaped (.unreachable ⟨.missing, "/desk/gone/out.ts"⟩) ∧
    (run .usual desk [] homeless).stdout = "" ∧ (run .usual desk [] homeless).workspace = desk := by
  intro faulty homeless
  have hfaulty : (run .usual desk [] faulty).ending = .exit 1 := by decide +kernel
  have hhomeless : (run .usual desk [] homeless).ending =
      .escaped (.unreachable ⟨.missing, "/desk/gone/out.ts"⟩) := by decide +kernel
  have hstopped : (prepare .usual desk [] faulty).toOption = none := by decide +kernel
  have hready : (prepare .usual desk [] homeless).toOption =
      some ⟨"interface Data \x7b\n\x7d\n", some ["desk", "gone", "out.ts"]⟩ := by decide +kernel
  have hfailed : (run .usual desk [] faulty).ending ≠ .exit 0 := by
    rw [hfaulty]
    decide
  have hfailed' : (run .usual desk [] homeless).ending ≠ .exit 0 := by
    rw [hhomeless]
    decide
  refine ⟨hfaulty, (run_failed hfailed).2 fun e he => ?_, hhomeless, (run_failed hfailed').1,
    (run_failed hfailed').2 fun e he => ?_⟩
  · rw [he] at hstopped
    cases hstopped
  · rw [he] at hready
    cases hready
    exact fun x => Text.surrogate_not_mem_ofString x _

end TypeSketch.CommandLine
