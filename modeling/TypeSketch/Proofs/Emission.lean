import TypeSketch.Proofs.Boundary
import TypeSketch.Proofs.ControlCharacters
import TypeSketch.Proofs.Failure
import TypeSketch.Proofs.OptionMembers
import Mathlib.Data.List.Forall2

/-!
# What a run brings out

A run that ends well has read its arguments, its options file and its document, and has brought out
one text. Without the comment that is the sketch of the document with a line feed behind it, byte
for byte the same on the standard output and in a file. Only a run that asks for help looks at
nothing behind its arguments and shows the help page.

**Preparation** (`prepareSketch_eq_ok_iff`). A text is ready just if every step before it went well.

**Options** (`get_options`, `exists_members_of_optionsOf`). Three layers lie on each other: the last
flag on the command line, the last member of the options file, and the default.

**Theorem** (`run_of_help`). A run that asks for help never fails once its arguments are read.

**Theorem** (`run_succeeded`). A run that ends well shows the help page if it is asked to. Otherwise,
and without the comment, it emits the sketch of its document.
-/

namespace TypeSketch

namespace CommandLine

theorem Arguments.get_options (a : Arguments) (base : Options) (s : Switch) :
    (a.options base).get s = (a.switch? s).getD (base.get s) := by
  cases s <;> simp [options, Switch.all]

/-! ## Preparation step by step -/

theorem bind_eq_ok_iff {ε α β : Type} {x : Except ε α} {f : α → Except ε β} {b : β} :
    x >>= f = .ok b ↔ ∃ a, x = .ok a ∧ f a = .ok b := by
  cases x <;> simp [bind, Except.bind]

theorem exists_unit_iff {p : Unit → Prop} : (∃ u, p u) ↔ p () :=
  ⟨fun ⟨(), h⟩ => h, fun h => ⟨(), h⟩⟩

theorem mapError_eq_ok_iff {ε ε' α : Type} {x : Except ε α} {f : ε → ε'} {a : α} :
    x.mapError f = .ok a ↔ x = .ok a := by
  cases x <;> simp [Except.mapError]

theorem map_eq_ok_iff {ε α β : Type} {x : Except ε α} {f : α → β} {b : β} :
    x.map f = .ok b ↔ ∃ a, x = .ok a ∧ f a = b := by
  cases x <;> simp [Except.map]

/-- What an action gives for a list, it gives element by element. -/
theorem forall₂_of_mapM {ε α β : Type} {f : α → Except ε β} {xs : List α} {ys : List β}
    (h : xs.mapM f = .ok ys) : List.Forall₂ (fun x y => f x = .ok y) xs ys := by
  induction xs generalizing ys with
  | nil =>
    cases h
    exact .nil
  | cons x xs ih =>
    rw [List.mapM_cons, bind_eq_ok_iff] at h
    obtain ⟨y, hy, hrest⟩ := h
    obtain ⟨ys', hys', hcons⟩ := bind_eq_ok_iff.1 hrest
    cases hcons
    exact .cons hy (ih hys')

theorem exists_of_mem_mapM {ε α β : Type} {f : α → Except ε β} {xs : List α} {ys : List β}
    (h : xs.mapM f = .ok ys) {y : β} (hy : y ∈ ys) : ∃ x ∈ xs, f x = .ok y := by
  obtain ⟨i, hi, rfl⟩ := List.getElem_of_mem hy
  have hall := forall₂_of_mapM h
  have hi' : i < xs.length := hall.length_eq ▸ hi
  exact ⟨xs[i], List.getElem_mem hi', hall.get hi' hi⟩

theorem eq_ok_of_toOption {ε α : Type} {x : Except ε α} {a : α} (h : x.toOption = some a) :
    x = .ok a := by
  cases x with
  | error e => cases h
  | ok b => rw [Option.some.inj h]

section

variable {host : Host} {w : Workspace} {input : List UInt8} {args : List Text} {a : Arguments}

theorem prepare_of_help (hargs : readArguments {} args = .ok a) (hhelp : a.help = true) :
    prepare host w input args = .ok host.help := by
  simp only [prepare, hargs, Except.mapError, bind, Except.bind, hhelp, if_true]
  rfl

theorem prepare_eq_sketch (hargs : readArguments {} args = .ok a) (hhelp : a.help = false) :
    prepare host w input args = prepareSketch host w input a := by
  simp only [prepare, hargs, Except.mapError, bind, Except.bind, hhelp, Bool.false_eq_true,
    if_false]

theorem exists_of_prepare_eq_ok {e : Emission} (h : prepare host w input args = .ok e) :
    ∃ a, readArguments {} args = .ok a := by
  rw [prepare, bind_eq_ok_iff] at h
  obtain ⟨a, ha, -⟩ := h
  exact ⟨a, mapError_eq_ok_iff.1 ha⟩

/-- A sketch is ready just if every step before it went well. -/
theorem prepareSketch_eq_ok_iff {e : Emission} :
    prepareSketch host w input a = .ok e ↔ ∃ o declared text, check w a = .ok () ∧
      optionsOf host w a = .ok o ∧ definitions host w input a o = .ok declared ∧
      emitted w a declared = .ok text ∧ e = ⟨text ++ "\n", (a.output?).map w.locate⟩ := by
  simp only [prepareSketch, bind_eq_ok_iff, exists_unit_iff, pure, Except.pure, Except.ok.injEq]
  constructor
  · rintro ⟨hcheck, o, ho, declared, hd, text, ht, rfl⟩
    exact ⟨o, declared, text, hcheck, ho, hd, ht, rfl⟩
  · rintro ⟨o, declared, text, hcheck, ho, hd, ht, rfl⟩
    exact ⟨hcheck, o, ho, declared, hd, text, ht, rfl⟩

end

theorem checkInput_eq_ok_iff {w : Workspace} {p : Parameter} {followed shown : Text} :
    checkInput w p followed shown = .ok () ↔ ∃ bytes, w.follow followed = .ok (.file bytes) := by
  unfold checkInput
  split <;> simp_all

theorem absolutePath_eq_ok_iff {w : Workspace} {path absolute : Text} :
    absolutePath w path = .ok absolute ↔
      Path.unusableOnWay? (Path.isAbsolute path) [] (Path.parts path) = none ∧
        absolute = Workspace.pathOf (w.locate path) := by
  unfold absolutePath
  cases Path.unusableOnWay? (Path.isAbsolute path) [] (Path.parts path) <;> simp [eq_comm]

/-- The files that the arguments name can be used just if each of them can. -/
theorem check_eq_ok_iff {w : Workspace} {a : Arguments} :
    check w a = .ok () ↔
      (∀ path, a.config? = some path →
        Path.unusableOnWay? (Path.isAbsolute path) [] (Path.parts path) = none ∧
          ∃ bytes, w.follow (Workspace.pathOf (w.locate path)) = .ok (.file bytes)) ∧
      (a.path ≠ RootName.standardInput → ∃ bytes, w.follow a.path = .ok (.file bytes)) ∧
      (∀ path, a.output? = some path → checkOutput w path = .ok ()) ∧ a.extra = [] := by
  simp only [check]
  cases a.config? <;> cases a.output? <;> by_cases hp : a.path = RootName.standardInput <;>
    by_cases he : a.extra = [] <;>
    simp [hp, he, bind_eq_ok_iff, exists_unit_iff, absolutePath_eq_ok_iff, checkInput_eq_ok_iff,
      pure, Except.pure, throw, throwThe, MonadExceptOf.throw, and_assoc]

/-! ## Options, documents and declarations -/

/-- What the options file of a run says: the members of the object in it, and nothing without a
file. -/
inductive FileSays (host : Host) (w : Workspace) (a : Arguments) : List (Text × Json) → Prop
  | absent (given : a.config? = none) : FileSays host w a []
  | present {path text : Text} {bytes : List UInt8} {members : List (Text × Json)}
      (given : a.config? = some path)
      (found : w.follow (Workspace.pathOf (w.locate path)) = .ok (.file bytes))
      (decoded : Text.Encoding.decodeStrict bytes = .ok text)
      (read : Json.ofText host.optionsDepth (plainLines text) = .ok (.object members)) :
      FileSays host w a members

theorem exists_members_of_readOptions {depth : Nat} {bytes : List UInt8} {o : Options}
    (h : readOptions depth bytes = .ok o) : ∃ text members,
      Text.Encoding.decodeStrict bytes = .ok text ∧
      Json.ofText depth (plainLines text) = .ok (.object members) ∧
      ∀ s, o.get s = (Options.said? members s).getD (({} : Options).get s) := by
  unfold readOptions at h
  split at h
  · cases h
  · next text hdecoded =>
    split at h
    · cases h
    · cases h
    · cases h
    · next value hread =>
      rw [mapError_eq_ok_iff] at h
      cases value with
      | object members => exact ⟨text, members, hdecoded, hread, Options.get_of_assignAll h⟩
      | _ => cases h

/-- The value that every switch has in a run. -/
theorem exists_members_of_optionsOf {host : Host} {w : Workspace} {a : Arguments} {o : Options}
    (hcheck : check w a = .ok ()) (h : optionsOf host w a = .ok o) :
    ∃ members, FileSays host w a members ∧
      ∀ s, o.get s =
        ((a.switch? s).or (Options.said? members s)).getD (({} : Options).get s) := by
  unfold optionsOf at h
  split at h
  · next hnone =>
    refine ⟨[], .absent hnone, fun s => ?_⟩
    rw [← Except.ok.inj h, a.get_options]
    cases a.switch? s <;> rfl
  · next path hpath =>
    obtain ⟨base, hbase, rfl⟩ := map_eq_ok_iff.1 h
    obtain ⟨-, bytes, hfound⟩ := (check_eq_ok_iff.1 hcheck).1 path hpath
    rw [bytesAt, hfound] at hbase
    obtain ⟨text, members, hdecoded, hread, hsaid⟩ := exists_members_of_readOptions hbase
    refine ⟨members, .present hpath hfound hdecoded hread, fun s => ?_⟩
    rw [a.get_options, hsaid]
    cases a.switch? s <;> rfl

/-- The sketch of the document of a run, under some options and a wanted name. The document is the
sample, or what bytes write that come from the standard input or from a file. -/
inductive Sketched (host : Host) (w : Workspace) (input : List UInt8) (a : Arguments)
    (o : Options) (wanted : Text) : Text → Prop
  | sample {text : Text} (asked : a.sample = true)
      (sketched : sketchText host.documentDepth o (.string wanted) Sample.text = .ok text) :
      Sketched host w input a o wanted text
  | standardInput {text : Text} (asked : a.sample = false) (given : a.path = RootName.standardInput)
      (sketched : sketchBytes host.documentDepth o (.string wanted) input = .ok text) :
      Sketched host w input a o wanted text
  | file {text : Text} {bytes : List UInt8} (asked : a.sample = false)
      (given : a.path ≠ RootName.standardInput) (found : w.follow a.path = .ok (.file bytes))
      (sketched : sketchBytes host.documentDepth o (.string wanted) bytes = .ok text) :
      Sketched host w input a o wanted text

section

variable {host : Host} {w : Workspace} {input : List UInt8} {a : Arguments} {o : Options}
  {text : Text}

theorem sketchDecoded_of_definitions (h : definitions host w input a o = .ok text) :
    sketchDecoded o (.string (nameOf a)) (documentOf host w input a) = .ok text := by
  unfold definitions at h
  split at h
  · next hd => rw [hd, ← Except.ok.inj h]
  · cases h
  · cases h

theorem sketched_of_definitions (hcheck : check w a = .ok ())
    (h : definitions host w input a o = .ok text) :
    Sketched host w input a o (nameOf a) text := by
  have hd := sketchDecoded_of_definitions h
  unfold documentOf at hd
  by_cases hs : a.sample = true
  · rw [if_pos hs] at hd
    exact .sample hs hd
  · rw [if_neg hs] at hd
    rw [Bool.not_eq_true] at hs
    by_cases hp : a.path = RootName.standardInput
    · rw [if_pos hp] at hd
      exact .standardInput hs hp hd
    · obtain ⟨bytes, hfound⟩ := (check_eq_ok_iff.1 hcheck).2.1 hp
      rw [if_neg hp, bytesAt, hfound] at hd
      exact .file hs hp hfound hd

end

/-- A sketch from a document is quiet. -/
theorem quiet_of_sketchDecoded {o : Options} {wanted text : Text}
    {decoded : Except Json.DecodeError Json}
    (h : sketchDecoded o (.string wanted) decoded = .ok text) : text.Quiet := by
  cases decoded with
  | error e => cases h
  | ok v =>
    rw [sketchDecoded_ok] at h
    rw [← Except.ok.inj h]
    exact quiet_sketch o wanted v

/-! ## The run -/

/-- The outcome of a run that brings a string to its target as a whole. -/
def Arguments.brought (a : Arguments) (w : Workspace) (s : String) : Outcome :=
  match a.output? with
  | none => { ending := .exit 0, stdout := s, workspace := w }
  | some path => { ending := .exit 0, workspace := w.put (w.locate path) s.toUTF8.data.toList }

/-- What a run without the comment comes to that ends well: the sketch of its document and a line
feed go to the target. The wanted name is the one that is given, if one is. Every switch has the
value of the last flag for it, else the one that the options file gives it, else its default. -/
inductive Emits (host : Host) (w : Workspace) (input : List UInt8) (a : Arguments) : Outcome → Prop
  | sketch {members : List (Text × Json)} {o : Options} {text : Text} {s : String}
      (file : FileSays host w a members)
      (options : ∀ switch, o.get switch = ((a.switch? switch).or
        (Options.said? members switch)).getD (({} : Options).get switch))
      (sketched : Sketched host w input a o (a.name?.getD (RootName.ofPath a.path a.sample)) text)
      (written : Text.ofString s = text ++ "\n") :
      Emits host w input a (a.brought w s)

/-- A sketch that is ready and asks for no comment is emitted, if it is delivered at all. -/
theorem emits_of_delivered {host : Host} {w : Workspace} {input : List UInt8} {a : Arguments}
    {e : Emission} {r : Outcome} (hready : prepareSketch host w input a = .ok e)
    (hcomment : a.comment = false) (hd : Delivered w e r) (h : r.ending = .exit 0) :
    Emits host w input a r := by
  obtain ⟨o, declared, text, hcheck, ho, hdeclared, htext, rfl⟩ := prepareSketch_eq_ok_iff.1 hready
  obtain ⟨members, hfile, hoptions⟩ := exists_members_of_optionsOf hcheck ho
  have hsketched := sketched_of_definitions hcheck hdeclared
  have hquiet : Text.Quiet (declared ++ "\n") :=
    (quiet_of_sketchDecoded (sketchDecoded_of_definitions hdeclared)).append (by decide)
  rw [emitted, hcomment] at htext
  cases htext
  cases hd with
  | kept traceless => exact absurd h traceless.failed
  | emptied => cases h
  | @shown s target encoded =>
    -- nothing is taken out of a quiet text, so a file would get the same string
    have houtput : a.output? = none := by simpa using target
    rw [Text.withoutControls_of_quiet hquiet, Text.Encoding.encode_eq_ok_iff] at encoded
    have hemits : Emits host w input a (a.brought w s) :=
      .sketch hfile hoptions hsketched encoded.symm
    rwa [Arguments.brought, houtput] at hemits
  | @written l s target encoded =>
    obtain ⟨path, houtput, rfl⟩ := Option.map_eq_some_iff.1 target
    have hemits : Emits host w input a (a.brought w s) :=
      .sketch hfile hoptions hsketched (Text.Encoding.encode_eq_ok_iff.1 encoded).symm
    rwa [Arguments.brought, houtput] at hemits

/-- What a run comes to that asks for help: the help page and a line feed are shown, without control
sequences, and every file stays as it was. -/
def Helps (host : Host) (w : Workspace) (r : Outcome) : Prop :=
  ∃ page, Text.ofString page = Text.withoutControls (Text.ofString host.helpPage ++ "\n") ∧
    r = { ending := .exit 0, stdout := page, workspace := w }

/-- A run with arguments that can be read and ask for help never fails, whatever files they name and
whatever these hold. -/
theorem run_of_help (host : Host) (w : Workspace) (input : List UInt8) {args : List Text}
    {a : Arguments} (hargs : readArguments {} args = .ok a) (hhelp : a.help = true) :
    Helps host w (run host w input args) := by
  have hplain (x : Surrogate) :
      .surrogate x ∉ Text.withoutControls (Text.ofString host.helpPage ++ "\n") := by
    intro hmem
    have hpage := (Text.withoutControls_sublist _).subset hmem
    rw [← Text.ofString_append] at hpage
    exact Text.surrogate_not_mem_ofString x _ hpage
  have hencoded := Text.Encoding.encode_eq_ok_iff.2 (Text.ofString_legible hplain).symm
  refine ⟨_, Text.ofString_legible hplain, ?_⟩
  simp only [run, prepare_of_help hargs hhelp, Emission.deliver, Host.help, display, hencoded]

/-- **What a run emits.** The arguments of a run that ends well can be read. If they ask for help,
the run shows the help page. If they ask neither for help nor for the comment, it emits the sketch
of its document. -/
theorem run_succeeded {host : Host} {w : Workspace} {input : List UInt8} {args : List Text}
    (h : (run host w input args).ending = .exit 0) :
    ∃ a, readArguments {} args = .ok a ∧
      (a.help = true → Helps host w (run host w input args)) ∧
      (a.help = false → a.comment = false → Emits host w input a (run host w input args)) := by
  obtain hstop | ⟨e, hready, hd⟩ := run_cases host w input args
  · exact absurd h hstop.failed
  · obtain ⟨a, ha⟩ := exists_of_prepare_eq_ok hready
    refine ⟨a, ha, run_of_help host w input ha, fun hhelp hcomment => ?_⟩
    rw [prepare_eq_sketch ha hhelp] at hready
    exact emits_of_delivered hready hcomment hd h

/-- A workspace with a document and an options file. -/
def office : Workspace :=
  let withDocument := desk.put ["desk", "roles.json"] "[\"admin\"]".toUTF8.data.toList
  withDocument.put ["desk", "options.json"] "\x7b\"detectEnums\": true\x7d".toUTF8.data.toList

/-- The options file asks for enums, and a flag at its default takes that back. With the wish for
help as well, nothing of this is looked at. -/
theorem run_succeeded_office :
    let fromFile : List Text := ["roles.json", "-c", "options.json"]
    let flagged : List Text := fromFile ++ [Text.ofString "--no-detect-enums"]
    let helped : List Text := flagged ++ [Text.ofString "--help"]
    (run .usual office [] fromFile).stdout = "enum RolesEnum \x7b\n  admin = \"admin\"\n\x7d\n" ∧
    (run .usual office [] flagged).ending = .exit 0 ∧
    (run .usual office [] flagged).stdout = "\n" ∧
    (∃ a, readArguments {} flagged = .ok a ∧ a.switch? .detectEnums = some false ∧
      Emits .usual office [] a (run .usual office [] flagged)) ∧
    (run .usual office [] helped).ending = .exit 0 ∧
    Helps .usual office (run .usual office [] helped) := by
  intro fromFile flagged helped
  have hending : (run .usual office [] flagged).ending = .exit 0 := by decide +kernel
  have hread : readArguments {} flagged = .ok
      { settings := [.config "options.json", .switch .detectEnums false]
        operands := ["roles.json"] } := eq_ok_of_toOption (by decide +kernel)
  have hread' : readArguments {} helped = .ok
      { settings := [.config "options.json", .switch .detectEnums false]
        operands := ["roles.json"], help := true } := eq_ok_of_toOption (by decide +kernel)
  have hhelped : (run .usual office [] helped).ending = .exit 0 := by
    obtain ⟨page, -, hrun⟩ := run_of_help .usual office [] hread' rfl
    rw [hrun]
  obtain ⟨a, ha, -, hemits⟩ := run_succeeded hending
  obtain rfl := Except.ok.inj (hread.symm.trans ha)
  obtain ⟨a', ha', hhelps, -⟩ := run_succeeded hhelped
  obtain rfl := Except.ok.inj (hread'.symm.trans ha')
  exact ⟨by decide +kernel, hending, by decide +kernel, ⟨_, hread, rfl, hemits rfl rfl⟩, hhelped,
    hhelps rfl⟩

end CommandLine

end TypeSketch
