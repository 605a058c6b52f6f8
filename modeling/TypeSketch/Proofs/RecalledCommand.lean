import TypeSketch.Proofs.Emission
import TypeSketch.Proofs.TidyPaths

/-!
# The recalled command run again

The generation comment shows a command. Its words are the path and those of the settings that are
no defaults, so cut at the spaces it can be read as arguments again (`Arguments.recalled`).

**What is lost.** A flag at its default is left out, even where it took back what the options file
says. A name that is empty is left out, even where the path gives another one. A name that is a path
is shortened. A path that looks like an option is not set apart, and one with a space falls in two.

**Theorem** (`run_recalled`). Where nothing is lost, the recalled command has the same options and
the same root name, and comes to the same end.
-/

namespace TypeSketch.CommandLine

/-! ## Settings in words -/

def Setting.words : Setting → List Text
  | .name value => ["--name", value]
  | .config path => ["--config", path]
  | .switch s on => [Text.ofString (if on then switchOn s else switchOff s)]
  | .sample => ["--sample"]
  | .comment => ["--add-generation-comment"]

theorem readArguments_words (a : Arguments) (s : Setting) (rest : List Text) :
    readArguments a (s.words ++ rest) = readArguments (a.addSetting s) rest := by
  cases s with
  | name value => rfl
  | config path => rfl
  | switch s on => cases s <;> cases on <;> rfl
  | sample => rfl
  | comment => rfl

theorem readArguments_flatMap_words (a : Arguments) (settings : List Setting) :
    readArguments a (settings.flatMap Setting.words) =
      .ok { a with settings := a.settings ++ settings } := by
  induction settings generalizing a with
  | nil => simp [readArguments]
  | cons s rest ih =>
    rw [List.flatMap_cons, readArguments_words, ih, Arguments.addSetting, List.append_assoc,
      List.singleton_append]

theorem readArguments_operand_words {path : Text} (h : isOption path = false)
    (settings : List Setting) :
    readArguments {} (path :: settings.flatMap Setting.words) =
      .ok { settings, operands := [path] } := by
  have hdashes : path ≠ Text.ofString "--" := by
    rintro rfl
    cases h
  rw [readArguments, if_neg hdashes, if_pos (by simp [h]), readArguments_flatMap_words]
  rfl

/-! ## What a recalled command shows -/

def Setting.parameter : Setting → Parameter
  | .name _ => .name
  | .config _ => .config
  | .switch s _ => .switch s
  | .sample => .sample
  | .comment => .comment

theorem Setting.parameter_mem_options (s : Setting) : s.parameter ∈ Parameter.options := by
  cases s with
  | switch w on => cases w <;> simp [parameter, Parameter.options, Switch.all]
  | _ => simp [parameter, Parameter.options]

/-- If only one element of a list gives something, that is what is found. -/
theorem findSome?_eq_of_forall_ne {α β : Type*} {f : α → Option β} {x : α} {xs : List α}
    (hx : x ∈ xs) (h : ∀ y, y ≠ x → f y = none) : xs.findSome? f = f x := by
  induction xs with
  | nil => cases hx
  | cons y rest ih =>
    rw [List.findSome?_cons]
    by_cases hy : y = x
    · subst hy
      cases hf : f y with
      | some b => rfl
      | none =>
        -- the element may stand further on, where it gives nothing either
        refine List.findSome?_eq_none_iff.2 fun z _ => ?_
        by_cases hz : z = y
        · rw [hz, hf]
        · exact h z hz
    · rw [h y hy]
      exact ih ((List.mem_cons.1 hx).resolve_left (Ne.symm hy))

namespace Arguments

/-- The setting that a recalled command shows for a parameter, if it shows one. -/
def shown? (a : Arguments) : Parameter → Option Setting
  | .name => (a.name?.filter fun name => !name.isEmpty).map .name
  | .config => a.config?.map .config
  | .switch s =>
    let other := !(({} : Options).get s)
    if a.switch? s = some other then some (.switch s other) else none
  | .sample => if a.sample then some .sample else none
  | .comment => if a.comment then some .comment else none
  | .path => none
  | .output => none

/-- The arguments of a recalled command without an output. -/
def recalled (a : Arguments) : Arguments :=
  { settings := Parameter.options.filterMap a.shown?, operands := [a.path] }

variable (a : Arguments)

theorem parameter_of_shown? {p : Parameter} {s : Setting} (h : a.shown? p = some s) :
    s.parameter = p := by
  cases p with
  | name | config =>
    obtain ⟨value, -, rfl⟩ := Option.map_eq_some_iff.1 h
    rfl
  | switch _ | sample | comment =>
    obtain ⟨-, h⟩ := Option.ite_none_right_eq_some.1 h
    cases h
    rfl
  | path | output => cases h

/-- What is picked out of a recalled command comes from one parameter. -/
theorem last?_recalled {α : Type} {pick : Setting → Option α} {p : Parameter}
    (hp : p ∈ Parameter.options) (h : ∀ s : Setting, s.parameter ≠ p → pick s = none) :
    a.recalled.last? pick = (a.shown? p).bind pick := by
  rw [last?, recalled, ← List.filterMap_reverse, ← List.head?_filterMap, List.filterMap_filterMap,
    List.head?_filterMap]
  refine findSome?_eq_of_forall_ne (List.mem_reverse.2 hp) fun q hq => ?_
  refine Option.bind_eq_none_iff.2 fun s hs => h s ?_
  rwa [parameter_of_shown? a hs]

theorem name?_recalled : a.recalled.name? = a.name?.filter fun name => !name.isEmpty := by
  rw [name?, last?_recalled a (p := .name) (by decide)]
  · rw [shown?, Option.bind_map]
    exact Option.bind_fun_some _
  · intro s hs
    cases s <;> first | rfl | exact absurd rfl hs

theorem config?_recalled : a.recalled.config? = a.config? := by
  rw [config?, last?_recalled a (p := .config) (by decide)]
  · rw [shown?, Option.bind_map]
    exact Option.bind_fun_some _
  · intro s hs
    cases s <;> first | rfl | exact absurd rfl hs

theorem switch?_recalled (s : Switch) : a.recalled.switch? s =
    if a.switch? s = some (!(({} : Options).get s)) then a.switch? s else none := by
  rw [switch?, last?_recalled a (p := .switch s) (by cases s <;> decide)]
  · simp only [shown?]
    split
    · next h => rw [h]; exact if_pos rfl
    · rfl
  · intro s' hs
    cases s' with
    | switch w on => exact if_neg fun hw => hs (congrArg _ hw)
    | _ => rfl

/-- What the flags say about a switch is kept, unless it is the default. -/
theorem switch?_recalled_cases (s : Switch) : a.recalled.switch? s = a.switch? s ∨
    a.recalled.switch? s = none ∧ a.switch? s = some (({} : Options).get s) := by
  rw [switch?_recalled]
  split
  · exact .inl rfl
  · next h =>
    cases hgiven : a.switch? s with
    | none => exact .inl rfl
    | some b => exact .inr ⟨rfl, by simpa [hgiven] using h⟩

theorem mem_settings_recalled {s : Setting} :
    s ∈ a.recalled.settings ↔ a.shown? s.parameter = some s := by
  rw [recalled, List.mem_filterMap]
  constructor
  · rintro ⟨p, -, hp⟩
    rwa [parameter_of_shown? a hp]
  · exact fun h => ⟨s.parameter, s.parameter_mem_options, h⟩

theorem sample_recalled : a.recalled.sample = a.sample := by
  rw [sample, Bool.eq_iff_iff, List.contains_iff_mem, mem_settings_recalled]
  simp [shown?, Setting.parameter]

theorem comment_recalled : a.recalled.comment = a.comment := by
  rw [comment, Bool.eq_iff_iff, List.contains_iff_mem, mem_settings_recalled]
  simp [shown?, Setting.parameter]

/-- The words of the recalled command: the path, and those of the settings it shows. -/
def recalledWords : List Text := a.path :: a.recalled.settings.flatMap Setting.words

end Arguments

/-! ## What can be recalled -/

/-- What the values of a command have to be so that they can be shown in words: names of files in
the working directory, and no spaces. -/
structure Arguments.Plain (a : Arguments) : Prop where
  path : Path.IsName a.path
  config : ∀ path, a.config? = some path → Path.IsName path ∧ .char ' ' ∉ path
  name : ∀ name, a.name? = some name → .char ' ' ∉ name

/-- What a command has to keep to so that nothing is lost when it is recalled. -/
structure Arguments.Recallable (a : Arguments) (host : Host) (w : Workspace) : Prop where
  /-- The path does not look like an option, and stays in one piece. -/
  path : isOption a.path = false ∧ .char ' ' ∉ a.path
  /-- A name that is a path leads nowhere. -/
  name : ∀ name, a.name? = some name → .char '/' ∈ name → w.follows? (Path.tidy name) = .ok false
  /-- An empty name is no other than the one that is left without it. -/
  noName : a.name? = some [] →
    RootName.ofText (RootName.ofPath a.path a.sample) = RootName.standard
  /-- A flag at its default does not take back what the options file says. -/
  flags : ∀ members, FileSays host w a members → ∀ s, a.switch? s = some (({} : Options).get s) →
    Options.said? members s ≠ some !(({} : Options).get s)

/-! ## The recalled line -/

/-- A value that is shown as it is. -/
theorem eq_of_shownValue {w : Workspace} {s text : Text}
    (hs : .char '/' ∈ s → w.follows? (Path.tidy s) = .ok false)
    (h : shownValue w (.string s) = .ok text) : text = s := by
  simp only [shownValue] at h
  split at h
  · cases h
  · next found hfound =>
    rw [← Except.ok.inj h]
    split
    · next hshort =>
      rw [Bool.and_eq_true] at hshort
      have hslash : .char '/' ∉ s := by
        intro hmem
        rw [hs hmem] at hfound
        cases hfound
        cases hshort.1
      rw [Path.lastPart, Path.parts, Text.fields_of_not_mem hslash] at hshort ⊢
      by_cases hidle : Path.isIdle s = true
      · simp [hidle] at hshort
      · simp [hidle]
    · rfl

section

variable {w : Workspace} {values : Parameter → Option Json} {p : Parameter}

theorem words_of_none (h : values p = none) : words w values p = .ok [] := by
  rw [words, h]

theorem words_of_empty (h : values p = some (.string [])) : words w values p = .ok [] := by
  rw [words, h]
  rfl

theorem words_of_bool {b default : Bool} (h : values p = some (.bool b))
    (hp : p.default? = some default) : words w values p = .ok (if b = default then [] else
      if b then [Text.ofString p.option] else p.offOption?.toList.map Text.ofString) := by
  have hflag : p ∉ Parameter.operands := by
    intro hmem
    simp only [Parameter.operands, List.mem_cons, List.not_mem_nil, or_false] at hmem
    rcases hmem with rfl | rfl <;> cases hp
  rw [words, h]
  simp only [isLeftOut, hp, countsAs, if_neg hflag, optionWords, Parameter.isFlag, Json.isBlank]
  cases b <;> cases default <;> rfl

theorem exists_of_words_string {s : Text} {ws : List Text} (h : values p = some (.string s))
    (hne : s ≠ []) (hp : p.default? = none) (hopt : p ∉ Parameter.operands)
    (hws : words w values p = .ok ws) :
    ∃ text, shownValue w (.string s) = .ok text ∧ ws = [Text.ofString p.option, text] := by
  rw [words, h] at hws
  simp only [isLeftOut, List.isEmpty_iff, hne, if_neg hopt, optionWords, Parameter.isFlag, hp,
    Option.isSome_none, Bool.false_eq_true, if_false] at hws
  split at hws
  · next text htext => exact ⟨text, htext, (Except.ok.inj hws).symm⟩
  · cases hws

end

/-- The absolute path of an options file is shown as its name. -/
theorem shownValue_pathOf {w : Workspace} {name : Text} {e : Entry} (h : Path.IsName name)
    (hfound : w.follow (Workspace.pathOf (w.locate name)) = .ok e) :
    shownValue w (.string (Workspace.pathOf (w.locate name))) = .ok name := by
  have hlast := w.lastPart_pathOf h
  simp only [shownValue, Workspace.follows?, Workspace.follow_tidy hfound, hlast]
  simp [h.ne_nil]

section

variable {host : Host} {w : Workspace} {a : Arguments} {ws : List Text}

theorem words_name (hrecall : a.Recallable host w)
    (h : words w (parameterValues w a) .name = .ok ws) :
    ws = (a.shown? .name).toList.flatMap Setting.words := by
  rw [Arguments.shown?]
  cases hgiven : a.name? with
  | none =>
    rw [words_of_none (by rw [parameterValues, hgiven]; rfl)] at h
    rw [← Except.ok.inj h]
    rfl
  | some name =>
    have hvalue : parameterValues w a .name = some (.string name) := by
      rw [parameterValues, hgiven]
      rfl
    cases name with
    | nil =>
      rw [words_of_empty hvalue] at h
      rw [← Except.ok.inj h]
      rfl
    | cons q rest =>
      obtain ⟨text, htext, rfl⟩ :=
        exists_of_words_string hvalue (List.cons_ne_nil q rest) rfl (by decide) h
      rw [eq_of_shownValue (hrecall.name _ hgiven) htext]
      rfl

theorem words_config (hcheck : check w a = .ok ()) (hplain : a.Plain)
    (h : words w (parameterValues w a) .config = .ok ws) :
    ws = (a.shown? .config).toList.flatMap Setting.words := by
  rw [Arguments.shown?]
  cases hgiven : a.config? with
  | none =>
    rw [words_of_none (by rw [parameterValues, hgiven]; rfl)] at h
    rw [← Except.ok.inj h]
    rfl
  | some path =>
    have hvalue : parameterValues w a .config =
        some (.string (Workspace.pathOf (w.locate path))) := by
      rw [parameterValues, hgiven]
      rfl
    have hne : Workspace.pathOf (w.locate path) ≠ [] := by simp [Workspace.pathOf]
    obtain ⟨-, bytes, hfound⟩ := (check_eq_ok_iff.1 hcheck).1 path hgiven
    obtain ⟨text, htext, rfl⟩ := exists_of_words_string hvalue hne rfl (by decide) h
    rw [shownValue_pathOf (hplain.config path hgiven).1 hfound] at htext
    rw [← Except.ok.inj htext]
    rfl

/-- The words of an option are those of the setting that is shown for it. -/
theorem words_eq (hcheck : check w a = .ok ()) (hplain : a.Plain)
    (hrecall : a.Recallable host w) {p : Parameter} (hp : p ∈ Parameter.options)
    (h : words w (parameterValues w a) p = .ok ws) :
    ws = (a.shown? p).toList.flatMap Setting.words := by
  cases p with
  | path => simp [Parameter.options, Switch.all] at hp
  | output => simp [Parameter.options, Switch.all] at hp
  | name => exact words_name hrecall h
  | config => exact words_config hcheck hplain h
  | sample =>
    rw [words_of_bool rfl rfl] at h
    rw [← Except.ok.inj h, Arguments.shown?]
    cases a.sample <;> rfl
  | comment =>
    rw [words_of_bool rfl rfl] at h
    rw [← Except.ok.inj h, Arguments.shown?]
    cases a.comment <;> rfl
  | switch s =>
    rw [words_of_bool rfl rfl] at h
    rw [← Except.ok.inj h, Arguments.shown?]
    generalize a.switch? s = given
    cases s <;> rcases given with - | - | - <;> rfl

end

/-- What an action gives for every element of a list, it gives for the list. -/
theorem eq_map_of_mapM_eq_ok {α β ε : Type} {f : α → Except ε β} {g : α → β} {xs : List α}
    {ys : List β} (h : ∀ x ∈ xs, ∀ y, f x = .ok y → y = g x) (hys : xs.mapM f = .ok ys) :
    ys = xs.map g := by
  have hall := (List.forall₂_and_left xs ys).2 ⟨h, forall₂_of_mapM hys⟩
  have heq : List.Forall₂ (· = ·) (xs.map g) ys :=
    List.forall₂_map_left_iff.2 (hall.imp fun x y hy => (hy.1 y hy.2).symm)
  rw [List.forall₂_eq_eq_eq] at heq
  exact heq.symm

theorem words_path {w : Workspace} {a : Arguments} (hplain : a.Plain) {ws : List Text}
    (h : words w (parameterValues w a) .path = .ok ws) : ws = [a.path] := by
  rw [words, parameterValues] at h
  simp only [isLeftOut, List.isEmpty_iff, hplain.path.ne_nil, if_false] at h
  rw [if_pos (by decide)] at h
  obtain ⟨text, htext, rfl⟩ := map_eq_ok_iff.1 h
  rw [eq_of_shownValue (fun hslash => absurd hslash hplain.path.slash_not_mem) htext]

theorem recalled_eq {host : Host} {w : Workspace} {a : Arguments} {line : Text}
    (hcheck : check w a = .ok ()) (houtput : a.output? = none) (hplain : a.Plain)
    (hrecall : a.Recallable host w) (h : recalled w (parameterValues w a) = .ok line) :
    line = (" " : Text).intercalate (Text.ofString program :: a.recalledWords) := by
  simp only [recalled, bind_eq_ok_iff] at h
  obtain ⟨options, hoptions, operands, hoperands, hline⟩ := h
  have hopts : options.flatten = a.recalled.settings.flatMap Setting.words := by
    rw [eq_map_of_mapM_eq_ok (fun p hp ws hws => words_eq hcheck hplain hrecall hp hws) hoptions,
      ← List.flatMap_def, Arguments.recalled, List.filterMap_eq_flatMap_toList, List.flatMap_assoc]
  have houtputs : words w (parameterValues w a) .output = .ok [] :=
    words_of_none (by rw [parameterValues, houtput]; rfl)
  have hopers : operands.flatten = [a.path] := by
    have hshown : ∀ p ∈ Parameter.operands, ∀ ws, words w (parameterValues w a) p = .ok ws →
        ws = if p = .path then [a.path] else [] := by
      simp only [Parameter.operands, List.forall_mem_cons]
      refine ⟨fun ws hws => words_path hplain hws, fun ws hws => ?_, List.forall_mem_nil _⟩
      exact Except.ok.inj (hws.symm.trans houtputs)
    rw [eq_map_of_mapM_eq_ok hshown hoperands]
    rfl
  cases hline
  rw [hopts, hopers]
  rfl

/-! ## The line cut at its spaces -/

theorem blank_not_mem_words {a : Arguments} (hplain : a.Plain) {s : Setting}
    (hs : s ∈ a.recalled.settings) : ∀ word ∈ s.words, .char ' ' ∉ word := by
  rw [Arguments.mem_settings_recalled] at hs
  cases s with
  | name value =>
    obtain ⟨name, hname, hvalue⟩ := Option.map_eq_some_iff.1 hs
    cases hvalue
    rw [Setting.words, List.forall_mem_cons, List.forall_mem_singleton]
    exact ⟨by decide, hplain.name value (Option.eq_some_of_filter_eq_some hname)⟩
  | config path =>
    obtain ⟨path', hpath, hvalue⟩ := Option.map_eq_some_iff.1 hs
    cases hvalue
    rw [Setting.words, List.forall_mem_cons, List.forall_mem_singleton]
    exact ⟨by decide, (hplain.config path hpath).2⟩
  | switch s on => cases s <;> cases on <;> decide
  | sample => decide
  | comment => decide

/-- Cut at its spaces, the line falls into the name of the program and the words. -/
theorem fields_recalled {a : Arguments} (hplain : a.Plain) (hpath : .char ' ' ∉ a.path) :
    Text.fields (.char ' ')
      ((" " : Text).intercalate (Text.ofString program :: a.recalledWords)) =
      Text.ofString program :: a.recalledWords := by
  refine Text.fields_intercalate (List.cons_ne_nil _ _) ?_
  rw [List.forall_mem_cons, Arguments.recalledWords, List.forall_mem_cons]
  refine ⟨by decide, hpath, fun word hword => ?_⟩
  obtain ⟨s, hs, hword⟩ := List.mem_flatMap.1 hword
  exact blank_not_mem_words hplain hs word hword

/-! ## The run again -/

variable {host : Host} {w : Workspace} {input : List UInt8} {a : Arguments}

/-- Over options that no flag at its default takes back, the flags that are shown are enough. -/
theorem options_recalled {base : Options} (h : ∀ s, a.switch? s = some (({} : Options).get s) →
    base.get s = ({} : Options).get s) : a.recalled.options base = a.options base := by
  refine Options.eq_of_get fun s => ?_
  rw [Arguments.get_options, Arguments.get_options]
  obtain hkept | ⟨hnone, hdefault⟩ := a.switch?_recalled_cases s
  · rw [hkept]
  · rw [hnone, hdefault, Option.getD_none, Option.getD_some, h s hdefault]

theorem optionsOf_recalled {o : Options} (hcheck : check w a = .ok ())
    (hrecall : a.Recallable host w) (ho : optionsOf host w a = .ok o) :
    optionsOf host w a.recalled = .ok o := by
  unfold optionsOf at ho ⊢
  rw [a.config?_recalled]
  cases hgiven : a.config? with
  | none =>
    rw [hgiven] at ho
    rw [← ho]
    exact congrArg _ (options_recalled fun _ _ => rfl)
  | some path =>
    simp only [hgiven] at ho ⊢
    obtain ⟨base, hbase, rfl⟩ := map_eq_ok_iff.1 ho
    obtain ⟨-, bytes, hfound⟩ := (check_eq_ok_iff.1 hcheck).1 path hgiven
    rw [bytesAt, hfound] at hbase ⊢
    obtain ⟨text, members, hdecoded, hread, hsaid⟩ := exists_members_of_readOptions hbase
    refine map_eq_ok_iff.2 ⟨base, hbase, options_recalled fun s hs => ?_⟩
    -- a flag that is not shown is at its default, and the file must not say otherwise
    have hnot := hrecall.flags members (.present hgiven hfound hdecoded hread) s hs
    rw [hsaid]
    cases hm : Options.said? members s with
    | none => rfl
    | some b =>
      rw [hm, ne_eq, Option.some.injEq] at hnot
      simpa using hnot

theorem ofText_nameOf_recalled (hrecall : a.Recallable host w) :
    RootName.ofText (nameOf a.recalled) = RootName.ofText (nameOf a) := by
  rw [nameOf, nameOf, a.name?_recalled, a.sample_recalled]
  cases hname : a.name? with
  | none => rfl
  | some name =>
    cases name with
    | nil => exact hrecall.noName hname
    | cons p rest => rfl

theorem sketchDecoded_congr {o : Options} {wanted wanted' : Text}
    (h : RootName.ofText wanted = RootName.ofText wanted')
    (decoded : Except Json.DecodeError Json) :
    sketchDecoded o (.string wanted) decoded = sketchDecoded o (.string wanted') decoded := by
  cases decoded with
  | error e => rfl
  | ok v => rw [sketchDecoded_ok, sketchDecoded_ok, sketch, sketch, h]

theorem definitions_recalled (hrecall : a.Recallable host w) (o : Options) :
    definitions host w input a.recalled o = definitions host w input a o := by
  unfold definitions
  rw [sketchDecoded_congr (ofText_nameOf_recalled hrecall)]
  unfold documentOf
  rw [a.sample_recalled]
  rfl

/-- Of what a parameter has for a value, the recalled command forgets no more than an empty name. -/
theorem parameterValues_recalled (houtput : a.output? = none) {p : Parameter} (hp : p ≠ .name) :
    parameterValues w a.recalled p = parameterValues w a p := by
  cases p with
  | name => exact absurd rfl hp
  | config => rw [parameterValues, a.config?_recalled, parameterValues]
  | switch s =>
    rw [parameterValues, parameterValues]
    obtain hkept | ⟨hnone, hdefault⟩ := a.switch?_recalled_cases s
    · rw [hkept]
    · rw [hnone, hdefault]
      rfl
  | sample => rw [parameterValues, a.sample_recalled, parameterValues]
  | comment => rw [parameterValues, a.comment_recalled, parameterValues]
  | path => rfl
  | output => rw [parameterValues, parameterValues, houtput]; rfl

/-- Recalled once more, a command is shown by the same words. -/
theorem words_recalled (houtput : a.output? = none) :
    words w (parameterValues w a.recalled) = words w (parameterValues w a) := by
  funext p
  by_cases hp : p = .name
  · subst hp
    have hvalue : parameterValues w a.recalled .name =
        (a.name?.filter fun name => !name.isEmpty).map .string := by
      rw [parameterValues, a.name?_recalled]
    cases hname : a.name? with
    | none => rw [words, words, hvalue, parameterValues, hname]; rfl
    | some name =>
      cases name with
      | nil =>
        rw [hname] at hvalue
        rw [words_of_none hvalue, words_of_empty (by rw [parameterValues, hname]; rfl)]
      | cons q rest => rw [words, words, hvalue, parameterValues, hname]; rfl
  · rw [words, words, parameterValues_recalled houtput hp]

theorem emitted_recalled (houtput : a.output? = none) (definitions : Text) :
    emitted w a.recalled definitions = emitted w a definitions := by
  rw [emitted, emitted, a.comment_recalled, header, header, CommandLine.recalled,
    CommandLine.recalled, words_recalled houtput]

theorem check_recalled (h : check w a = .ok ()) :
    check w a.recalled = .ok () := by
  obtain ⟨hconfig, hpath, -, -⟩ := check_eq_ok_iff.1 h
  refine check_eq_ok_iff.2 ⟨?_, hpath, nofun, rfl⟩
  rwa [a.config?_recalled]

/-- **The recalled command run again.** A command that asks for the comment, has no output and ends
well is shown by a line. Cut at its spaces, the line can be read as arguments behind the name of the
program. If nothing is lost, they give the same options and the same root name, and come to the same
end. -/
theorem run_recalled {args : List Text} (hargs : readArguments {} args = .ok a)
    (hhelp : a.help = false) (hcomment : a.comment = true) (houtput : a.output? = none)
    (hending : (run host w input args).ending = .exit 0) (hplain : a.Plain)
    (hrecall : a.Recallable host w) :
    ∃ line again a', recalled w (parameterValues w a) = .ok line ∧
      Text.fields (.char ' ') line = Text.ofString program :: again ∧
      readArguments {} again = .ok a' ∧ optionsOf host w a' = optionsOf host w a ∧
      RootName.ofText (nameOf a') = RootName.ofText (nameOf a) ∧
      run host w input again = run host w input args := by
  obtain hstop | ⟨e, hready, -⟩ := run_cases host w input args
  · exact absurd hending hstop.failed
  · obtain ⟨o, declared, text, hcheck, ho, hdeclared, htext, he⟩ :=
      prepareSketch_eq_ok_iff.1 ((prepare_eq_sketch hargs hhelp).symm.trans hready)
    -- the comment was made, so every value could be shown
    obtain ⟨line, hline⟩ : ∃ line, recalled w (parameterValues w a) = .ok line := by
      rw [emitted, if_pos hcomment, header] at htext
      cases hr : recalled w (parameterValues w a) with
      | ok line => exact ⟨line, rfl⟩
      | error e => rw [hr] at htext; cases htext
    have hread : readArguments {} a.recalledWords = .ok a.recalled :=
      readArguments_operand_words hrecall.path.1 _
    -- both commands prepare the same text, so how it is delivered need not be looked at
    have hready' : prepare host w input a.recalledWords = .ok e := by
      rw [prepare_eq_sketch hread rfl]
      refine prepareSketch_eq_ok_iff.2 ⟨o, declared, text,
        check_recalled hcheck, optionsOf_recalled hcheck hrecall ho,
        (definitions_recalled hrecall o).trans hdeclared,
        (emitted_recalled houtput declared).trans htext, ?_⟩
      rw [he, houtput]
      rfl
    refine ⟨line, a.recalledWords, a.recalled, hline, ?_, hread,
      (optionsOf_recalled hcheck hrecall ho).trans ho.symm, ofText_nameOf_recalled hrecall, ?_⟩
    · rw [recalled_eq hcheck houtput hplain hrecall hline]
      exact fields_recalled hplain hrecall.path.2
    · rw [run, run, hready, hready']

theorem run_recalled_office :
    let args : List Text := ["-c", "options.json", "--no-strict-null-checks", "-n", "Role",
      "roles.json", "--add-generation-comment"]
    let a : Arguments :=
      { settings := [.config "options.json", .switch .strictNulls false, .name "Role", .comment]
        operands := ["roles.json"] }
    readArguments {} args = .ok a ∧ a.help = false ∧ a.comment = true ∧ a.output? = none ∧
    (run .usual office [] args).ending = .exit 0 ∧ a.Plain ∧ a.Recallable .usual office ∧
    ∃ line again a', recalled office (parameterValues office a) = .ok line ∧
      Text.fields (.char ' ') line = Text.ofString program :: again ∧
      readArguments {} again = .ok a' ∧ optionsOf .usual office a' = optionsOf .usual office a ∧
      RootName.ofText (nameOf a') = RootName.ofText (nameOf a) ∧
      run .usual office [] again = run .usual office [] args := by
  intro args a
  have hargs : readArguments {} args = .ok a := eq_ok_of_toOption (by decide +kernel)
  have hending : (run .usual office [] args).ending = .exit 0 := by decide +kernel
  have hname : ∀ name, a.name? = some name → name = Text.ofString "Role" := by
    rintro name ⟨⟩
    rfl
  have hconfig : ∀ path, a.config? = some path → path = Text.ofString "options.json" := by
    rintro path ⟨⟩
    rfl
  have hplain : a.Plain :=
    { path := by decide
      config := fun path hpath => by rw [hconfig path hpath]; decide
      name := fun name hn => by rw [hname name hn]; decide }
  have hrecall : a.Recallable .usual office :=
    { path := by decide
      name := fun name hn hslash => by rw [hname name hn] at hslash; exact absurd hslash (by decide)
      noName := fun hn => by cases hname _ hn
      flags := fun _ _ s hs => by cases s <;> cases hs }
  exact ⟨hargs, rfl, rfl, rfl, hending, hplain, hrecall,
    run_recalled hargs rfl rfl rfl hending hplain hrecall⟩

/-- **A flag is forgotten.** The options file asks for enums and a flag takes that back. The flag is
at its default, so the command that is shown goes without it, and makes an enum. -/
theorem flag_forgotten :
    let args : List Text := ["roles.json", "-c", "options.json", "--no-detect-enums",
      "--add-generation-comment"]
    let again : List Text := ["roles.json", "--config", "options.json", "--add-generation-comment"]
    ∃ a line a', readArguments {} args = .ok a ∧ a.comment = true ∧ a.output? = none ∧ a.Plain ∧
      (run .usual office [] args).ending = .exit 0 ∧
      recalled office (parameterValues office a) = .ok line ∧
      Text.fields (.char ' ') line = Text.ofString program :: again ∧
      readArguments {} again = .ok a' ∧ optionsOf .usual office a = .ok {} ∧
      optionsOf .usual office a' = .ok { detectEnums := true } ∧
      (run .usual office [] args).stdout = "// Generated by json_to_ts 0.3.0\n" ++
        "// json_to_ts roles.json --config options.json --add-generation-comment\n" ∧
      (run .usual office [] again).stdout = "// Generated by json_to_ts 0.3.0\n" ++
        "// json_to_ts roles.json --config options.json --add-generation-comment\n\n" ++
        "enum RolesEnum \x7b\n  admin = \"admin\"\n\x7d\n" := by
  intro args again
  have hrun : (run .usual office [] args).ending = .exit 0 ∧ (run .usual office [] args).stdout =
      "// Generated by json_to_ts 0.3.0\n" ++
        "// json_to_ts roles.json --config options.json --add-generation-comment\n" := by
    decide +kernel
  refine ⟨{ settings := [.config "options.json", .switch .detectEnums false, .comment]
            operands := ["roles.json"] },
    "json_to_ts roles.json --config options.json --add-generation-comment",
    { settings := [.config "options.json", .comment], operands := ["roles.json"] },
    eq_ok_of_toOption (by decide +kernel), rfl, rfl, ⟨by decide, ?_, nofun⟩, hrun.1,
    eq_ok_of_toOption (by decide +kernel), by decide +kernel, eq_ok_of_toOption (by decide +kernel),
    eq_ok_of_toOption (by decide +kernel), eq_ok_of_toOption (by decide +kernel), hrun.2,
    by decide +kernel⟩
  rintro path ⟨⟩
  decide

end TypeSketch.CommandLine
