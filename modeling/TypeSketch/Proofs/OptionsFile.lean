import TypeSketch.Proofs.DeepNesting
import TypeSketch.Proofs.Emission
import TypeSketch.Proofs.TidyPaths

/-!
# Bad options files

An options file may hold any bytes. They may be no text, the text may be no document, and the
document may give no options. All this is answered by a usage error that names the option
(`Answered`).

**What is passed on** (`Passes`). Two failures are not about the form of a text but about limits of
the reader: an integer with too many digits, and containers that stand too deep. These the command
passes on instead.

**Theorem** (`run_with_options_file`). A run with an options file answers unless the text of the
file goes over one of the two limits. Then it ends with that failure.
-/

namespace TypeSketch

/-! ## Bytes of plain characters -/

namespace Text.Encoding

theorem tailOf?_ascii {b : UInt8} (h : b.toNat < 0x80) : tailOf? b = some (b.toNat, []) :=
  if_pos h

theorem decodeUtf8_ascii (strict : Bool) (offset : Nat) (read : Text) {bytes : List UInt8}
    (h : ∀ b ∈ bytes, b.toNat < 0x80) : decodeUtf8 strict offset read bytes =
      .ok (read.reverse ++ bytes.map fun b => CodePoint.ofNat b.toNat) := by
  induction bytes generalizing offset read with
  | nil => simp [decodeUtf8]
  | cons b rest ih =>
    rw [List.forall_mem_cons] at h
    rw [decodeUtf8, tailOf?_ascii h.1]
    simp only [readTail]
    rw [ih _ _ h.2]
    simp

/-- Bytes below 0x80 are the characters of a text, one by one. -/
theorem decodeStrict_ascii {bytes : List UInt8} (h : ∀ b ∈ bytes, b.toNat < 0x80) :
    decodeStrict bytes = .ok (bytes.map fun b => CodePoint.ofNat b.toNat) :=
  decodeUtf8_ascii true 0 [] h

end Text.Encoding

namespace CommandLine

theorem plainLines_of_not_mem {s : Text} (h : .char '\r' ∉ s) : plainLines s = s := by
  fun_induction plainLines s with
  | case1 rest ih => exact absurd List.mem_cons_self h
  | case2 rest _ ih => exact absurd List.mem_cons_self h
  | case3 p rest _ _ ih => rw [ih fun hr => h (List.mem_cons_of_mem _ hr)]
  | case4 => rfl

/-! ## What an options file comes to -/

/-- The failure that the command passes on, of those that a text can have. -/
def passed? : Json.DecodeError → Option Escape
  | .tooManyDigits n => some (.tooManyDigits n)
  | .tooDeep c => some (.tooDeep c)
  | .malformed _ _ | .undecodable _ => none

/-- Whether a failure is passed on that is found in an options file. -/
def Passes (depth : Nat) (bytes : List UInt8) (escape : Escape) : Prop :=
  ∃ text e, Text.Encoding.decodeStrict bytes = .ok text ∧
    Json.ofText depth (plainLines text) = .error e ∧ passed? e = some escape

/-- The options in a file: those of the document that its text writes. -/
def Gives (depth : Nat) (bytes : List UInt8) (o : Options) : Prop :=
  ∃ text value, Text.Encoding.decodeStrict bytes = .ok text ∧
    Json.ofText depth (plainLines text) = .ok value ∧ Options.ofJson value = .ok o

/-- Why a file gives no options, in the words that a usage error has for it. -/
inductive Unusable (depth : Nat) (bytes : List UInt8) : String → Prop
  | undecodable {e : Text.Encoding.Undecodable}
      (decoded : Text.Encoding.decodeStrict bytes = .error e) : Unusable depth bytes e.message
  | malformed {text : Text} {e : Json.DecodeError}
      (decoded : Text.Encoding.decodeStrict bytes = .ok text)
      (read : Json.ofText depth (plainLines text) = .error e) (kept : passed? e = none) :
      Unusable depth bytes e.message
  | unfit {text : Text} {value : Json} {e : OptionsError}
      (decoded : Text.Encoding.decodeStrict bytes = .ok text)
      (read : Json.ofText depth (plainLines text) = .ok value)
      (refused : Options.ofJson value = .error e) : Unusable depth bytes e.message

/-- What an options file comes to: options, a usage error, or a failure that is passed on. -/
inductive OptionsRead (depth : Nat) (bytes : List UInt8) : Except Stop Options → Prop
  | given {o : Options} (h : Gives depth bytes o) : OptionsRead depth bytes (.ok o)
  | refused {reason : String} (h : Unusable depth bytes reason) :
      OptionsRead depth bytes (.error (.misused (.badOptions reason)))
  | passed {escape : Escape} (h : Passes depth bytes escape) :
      OptionsRead depth bytes (.error (.escaped escape))

theorem optionsRead (depth : Nat) (bytes : List UInt8) :
    OptionsRead depth bytes (readOptions depth bytes) := by
  unfold readOptions
  split
  · next hdecoded => exact .refused (.undecodable hdecoded)
  · next text hdecoded =>
    split
    · next hread => exact .passed ⟨text, _, hdecoded, hread, rfl⟩
    · next hread => exact .passed ⟨text, _, hdecoded, hread, rfl⟩
    · next e hdigits hdeep hread =>
      have hkept : passed? e = none := by
        cases e with
        | tooManyDigits n => exact absurd rfl (hdigits n)
        | tooDeep c => exact absurd rfl (hdeep c)
        | malformed | undecodable => rfl
      exact .refused (.malformed hdecoded hread hkept)
    · next value hread =>
      cases hvalue : Options.ofJson value with
      | ok o => exact .given ⟨text, value, hdecoded, hread, hvalue⟩
      | error e => exact .refused (.unfit hdecoded hread hvalue)

theorem readOptions_eq_escaped_iff {depth : Nat} {bytes : List UInt8} {escape : Escape} :
    readOptions depth bytes = .error (.escaped escape) ↔ Passes depth bytes escape := by
  constructor
  · intro h
    have hread := optionsRead depth bytes
    rw [h] at hread
    cases hread with
    | passed h => exact h
  · rintro ⟨text, e, hdecoded, hread, hpassed⟩
    unfold readOptions
    cases e with
    | tooManyDigits | tooDeep =>
      cases hpassed
      simp only [hdecoded, hread]
    | malformed | undecodable => cases hpassed

/-- What a text has that goes over the limit of a failure: so many digits in a row, or containers
that stand deeper inside each other than there is room for. -/
def OverLimit (depth : Nat) (text : Text) : Escape → Prop
  | .tooManyDigits n => Json.LongRun text n
  | .tooDeep _ => depth < Json.nesting text
  | .unreachable _ | .unencodable _ => False

theorem overLimit_of_passes {depth : Nat} {bytes : List UInt8} {escape : Escape}
    (h : Passes depth bytes escape) : ∃ text, Text.Encoding.decodeStrict bytes = .ok text ∧
      OverLimit depth (plainLines text) escape := by
  obtain ⟨text, e, hdecoded, hread, hpassed⟩ := h
  refine ⟨text, hdecoded, ?_⟩
  cases e with
  | tooManyDigits =>
    cases hpassed
    exact Json.longRun_of_ofText hread
  | tooDeep =>
    cases hpassed
    exact Json.lt_nesting_of_ofText hread
  | malformed | undecodable => cases hpassed

/-! ## The run -/

/-- What a run with an options file should come to. There are options, those of the file with the
flags put over them, or the run ends with a usage error that names the option and says why. -/
inductive Answered (host : Host) (w : Workspace) (a : Arguments) (bytes : List UInt8) :
    Except Stop Options → Outcome → Prop
  | options {o : Options} (h : Gives host.optionsDepth bytes o) (r : Outcome) :
      Answered host w a bytes (.ok (a.options o)) r
  | refused {reason : String} (h : Unusable host.optionsDepth bytes reason) :
      Answered host w a bytes (.error (.misused (.badOptions reason)))
        { ending := .exit 2, workspace := w
          stderr := usage ++ "Error: Invalid value for '--config': invalid options file: " ++
            reason ++ "\n" }

section

variable (host : Host) {w : Workspace} (input : List UInt8) {args : List Text} {a : Arguments}

/-- A run stops where its options cannot be read. -/
theorem run_of_optionsOf (hargs : readArguments {} args = .ok a) (hhelp : a.help = false)
    (hcheck : check w a = .ok ()) {stop : Stop} (h : optionsOf host w a = .error stop) :
    run host w input args = stop.outcome w := by
  have hstop : prepare host w input args = .error stop := by
    rw [prepare_eq_sketch hargs hhelp]
    simp only [prepareSketch, bind, Except.bind, hcheck, h]
  rw [run, hstop]

theorem optionsOf_file {path : Text} {bytes : List UInt8} (hconfig : a.config? = some path)
    (hfound : w.follow (Workspace.pathOf (w.locate path)) = .ok (.file bytes)) :
    optionsOf host w a = (readOptions host.optionsDepth bytes).map a.options := by
  simp only [optionsOf, hconfig, bytesAt, hfound]

/-- What is passed on ends the run. -/
theorem run_of_passes {path : Text} {bytes : List UInt8} {escape : Escape}
    (hargs : readArguments {} args = .ok a) (hhelp : a.help = false) (hcheck : check w a = .ok ())
    (hconfig : a.config? = some path)
    (hfound : w.follow (Workspace.pathOf (w.locate path)) = .ok (.file bytes))
    (h : Passes host.optionsDepth bytes escape) : optionsOf host w a = .error (.escaped escape) ∧
      run host w input args = { ending := .escaped escape, workspace := w } := by
  have hstop : optionsOf host w a = .error (.escaped escape) := by
    rw [optionsOf_file host hconfig hfound, readOptions_eq_escaped_iff.2 h]
    rfl
  exact ⟨hstop, run_of_optionsOf host input hargs hhelp hcheck hstop⟩

/-- What is not passed on is answered. -/
theorem answered_of_not_passes {path : Text} {bytes : List UInt8}
    (hargs : readArguments {} args = .ok a) (hhelp : a.help = false) (hcheck : check w a = .ok ())
    (hconfig : a.config? = some path)
    (hfound : w.follow (Workspace.pathOf (w.locate path)) = .ok (.file bytes))
    (h : ∀ escape, ¬Passes host.optionsDepth bytes escape) :
    Answered host w a bytes (optionsOf host w a) (run host w input args) := by
  have hoptions := optionsOf_file host hconfig hfound
  have hread := optionsRead host.optionsDepth bytes
  generalize readOptions host.optionsDepth bytes = r at hoptions hread
  cases hread with
  | given hgives =>
    rw [hoptions]
    exact .options hgives _
  | refused hunusable =>
    rw [run_of_optionsOf host input hargs hhelp hcheck hoptions, hoptions]
    exact .refused hunusable
  | passed hpasses => exact absurd hpasses (h _)

/-- **A run with an options file.** The file is there and has some bytes. The run answers just if no
failure of its text is passed on. A failure that is passed on ends the run as it is, and the text
goes over its limit. -/
theorem run_with_options_file {path : Text} (hargs : readArguments {} args = .ok a)
    (hhelp : a.help = false) (hcheck : check w a = .ok ()) (hconfig : a.config? = some path) :
    ∃ bytes, w.follow (Workspace.pathOf (w.locate path)) = .ok (.file bytes) ∧
      (Answered host w a bytes (optionsOf host w a) (run host w input args) ↔
        ∀ escape, ¬Passes host.optionsDepth bytes escape) ∧
      ∀ escape, Passes host.optionsDepth bytes escape →
        run host w input args = { ending := .escaped escape, workspace := w } ∧
        ∃ text, Text.Encoding.decodeStrict bytes = .ok text ∧
          OverLimit host.optionsDepth (plainLines text) escape := by
  obtain ⟨-, bytes, hfound⟩ := (check_eq_ok_iff.1 hcheck).1 path hconfig
  have hpassed {escape : Escape} (h : Passes host.optionsDepth bytes escape) :=
    run_of_passes host input hargs hhelp hcheck hconfig hfound h
  refine ⟨bytes, hfound, ⟨fun hanswered escape h => ?_, ?_⟩,
    fun escape h => ⟨(hpassed h).2, overLimit_of_passes h⟩⟩
  · rw [(hpassed h).1] at hanswered
    cases hanswered
  · exact answered_of_not_passes host input hargs hhelp hcheck hconfig hfound

end

/-! ## An options file alone -/

/-- A workspace with nothing but an options file. -/
def withOptions (bytes : List UInt8) : Workspace :=
  ({ here := [] } : Workspace).put ["options.json"] bytes

theorem at?_withOptions (bytes : List UInt8) :
    (withOptions bytes).at? [Text.ofString "options.json"] = some (.file bytes) := by
  have hfound : (withOptions bytes).files.find? [Text.ofString "options.json"] = some bytes := by
    rw [withOptions, Workspace.put, Table.find?_put]
    exact if_pos (by decide +kernel)
  rw [Workspace.at?, hfound]

theorem follow_withOptions (bytes : List UInt8) :
    (withOptions bytes).follow (Workspace.pathOf ((withOptions bytes).locate "options.json")) =
      .ok (.file bytes) := by
  have hpath : Workspace.pathOf ((withOptions bytes).locate "options.json") =
      Text.ofString "/options.json" := rfl
  have hfields : Text.fields (.char '/') (Text.ofString "/options.json") =
      [[]] ++ [Text.ofString "options.json"] := by decide +kernel
  have hsettled : [] ++ [Path.settled (Text.ofString "options.json")] =
      [Text.ofString "options.json"] := by decide +kernel
  rw [hpath]
  refine Workspace.follow_eq_ok_iff.2 ⟨by decide +kernel, by decide, by decide +kernel, ?_⟩
  rw [hfields, Workspace.followParts_append (by decide),
    Workspace.followParts_cons (by decide +kernel) ?_]
  · rfl
  · exact (congrArg _ hsettled).trans (at?_withOptions bytes)

theorem check_withOptions (bytes : List UInt8) :
    check (withOptions bytes) { settings := [.config "options.json"] } = .ok () := by
  refine check_eq_ok_iff.2 ⟨fun path hpath => ?_, fun hpath => absurd rfl hpath, nofun, rfl⟩
  cases hpath
  exact ⟨by decide +kernel, bytes, follow_withOptions bytes⟩

/-- An array holds no options, so a file with one is answered. -/
theorem run_with_options_file_array :
    let bytes := "[1, 2]".toUTF8.data.toList
    let w := withOptions bytes
    let args : List Text := ["-c", "options.json"]
    let a : Arguments := { settings := [.config "options.json"] }
    let r := run .usual w [] args
    readArguments {} args = .ok a ∧ a.help = false ∧ check w a = .ok () ∧
      a.config? = some (Text.ofString "options.json") ∧
      Answered .usual w a bytes (optionsOf .usual w a) r ∧ r.ending = .exit 2 ∧
      r.stderr = usage ++ "Error: Invalid value for '--config': " ++
        "invalid options file: 'list' object has no attribute 'items'\n" := by
  intro bytes w args a r
  have hargs : readArguments {} args = .ok a := rfl
  have hcheck : check w a = .ok () := check_withOptions _
  have hending : r.ending = .exit 2 := by decide +kernel
  obtain ⟨bytes', hfound, hanswered, hpassed⟩ :=
    run_with_options_file .usual [] hargs rfl hcheck rfl
  obtain rfl : bytes = bytes' :=
    Entry.file.inj (Except.ok.inj ((follow_withOptions bytes).symm.trans hfound))
  refine ⟨hargs, rfl, hcheck, rfl, hanswered.2 fun escape h => ?_, hending, by decide +kernel⟩
  rw [show r = _ from (hpassed escape h).1] at hending
  cases hending

/-- An options file of nothing but opening brackets. -/
def deepOptions : List UInt8 := List.replicate 1500 0x5B

/-- An options file that is one integer. -/
def longOptions : List UInt8 := List.replicate 4301 0x31

/-- One character many times as a text in bytes. -/
theorem decodeStrict_replicate (n : Nat) {b : UInt8} (h : b.toNat < 0x80) :
    Text.Encoding.decodeStrict (List.replicate n b) =
      .ok (List.replicate n (CodePoint.ofNat b.toNat)) := by
  rw [Text.Encoding.decodeStrict_ascii fun _ hb => List.eq_of_mem_replicate hb ▸ h,
    List.map_replicate]

theorem plainLines_replicate (n : Nat) {p : CodePoint} (h : p ≠ .char '\r') :
    plainLines (List.replicate n p) = List.replicate n p :=
  plainLines_of_not_mem fun hmem => h (List.eq_of_mem_replicate hmem).symm

theorem passes_deepOptions {depth : Nat} (h : depth < 1500) :
    Passes depth deepOptions (.tooDeep .array) := by
  refine ⟨_, .tooDeep .array, decodeStrict_replicate 1500 (by decide), ?_, rfl⟩
  rw [plainLines_replicate _ (by decide)]
  have hsplit : List.replicate 1500 (CodePoint.ofNat (0x5B : UInt8).toNat) =
      Json.brackets (depth + 1) (List.replicate (1500 - (depth + 1)) (.char '[')) := by
    rw [Json.brackets, List.replicate_append_replicate, Nat.add_sub_cancel' h]
    rfl
  rw [hsplit]
  exact Json.ofText_brackets depth _

theorem passes_longOptions (depth : Nat) : Passes depth longOptions (.tooManyDigits 4301) := by
  refine ⟨_, .tooManyDigits 4301, decodeStrict_replicate 4301 (by decide), ?_, rfl⟩
  rw [plainLines_replicate _ (by decide)]
  exact Json.ofText_replicate depth (by decide) (by decide) (Nat.lt_succ_self 4300)

/-- **Two bad options files without an answer.** The run ends with a failure and with no word on
the option. -/
theorem limits_unanswered :
    let args : List Text := ["-c", "options.json"]
    let a : Arguments := { settings := [.config "options.json"] }
    let deep := withOptions deepOptions
    let long := withOptions longOptions
    readArguments {} args = .ok a ∧ check deep a = .ok () ∧ check long a = .ok () ∧
      run .usual deep [] args = { ending := .escaped (.tooDeep .array), workspace := deep } ∧
      ¬Answered .usual deep a deepOptions (optionsOf .usual deep a) (run .usual deep [] args) ∧
      run .usual long [] args =
        { ending := .escaped (.tooManyDigits 4301), workspace := long } ∧
      ¬Answered .usual long a longOptions (optionsOf .usual long a)
        (run .usual long [] args) := by
  intro args a deep long
  have hargs : readArguments {} args = .ok a := rfl
  have hpassed {bytes : List UInt8} {escape : Escape}
      (h : Passes Host.usual.optionsDepth bytes escape) :=
    run_of_passes .usual [] hargs rfl (check_withOptions bytes) rfl (follow_withOptions bytes) h
  obtain ⟨hdeep, hdeepRun⟩ := hpassed (passes_deepOptions (by decide))
  obtain ⟨hlong, hlongRun⟩ := hpassed (passes_longOptions _)
  refine ⟨hargs, check_withOptions _, check_withOptions _, hdeepRun, ?_, hlongRun, ?_⟩
  · rw [hdeep]
    nofun
  · rw [hlong]
    nofun

end CommandLine

end TypeSketch
