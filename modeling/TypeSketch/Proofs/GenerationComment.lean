import TypeSketch.Proofs.CommentFlag

/-!
# The generation comment

A command that asks for the comment brings out what it brings out without it, behind a head of two
lines. The second line shows the command, with the values that were given to it.

**Lines** (`Text.lines`). A line feed ends a line, and so do a carriage return and the separators
U+2028 and U+2029. A value that holds one of them goes on behind the comment line.

**Theorem** (`run_commented`). The head stands before the definitions of the same command without
the flag. It is nothing but comment lines if no value that it shows holds a line break. Otherwise
every line of the shown command but the first has to be a comment of itself.
-/

namespace TypeSketch

namespace Text

/-! ## Lines -/

/-- Whether a code point ends a line. -/
def isLineBreak (p : CodePoint) : Bool := p == '\n' || p == '\r' || p == '\u2028' || p == '\u2029'

/-- The lines of a text. A carriage return and the line feed behind it end one line. -/
def lines : Text → List Text
  | [] => [[]]
  | .char '\r' :: .char '\n' :: rest => [] :: lines rest
  | p :: rest =>
    if isLineBreak p then [] :: lines rest
    else
      match lines rest with
      | [] => [[p]]
      | line :: more => (p :: line) :: more

/-- Without line breaks. -/
def Unbroken (s : Text) : Prop := ∀ p ∈ s, isLineBreak p = false

instance (s : Text) : Decidable (Unbroken s) := inferInstanceAs (Decidable (∀ p ∈ s, _))

theorem lines_ne_nil (s : Text) : lines s ≠ [] := by
  fun_cases lines s <;> simp_all

theorem lines_cons {p : CodePoint} (hp : isLineBreak p = false) (s : Text) :
    lines (p :: s) = (p :: (lines s).headD []) :: (lines s).tail := by
  obtain ⟨line, more, hs⟩ := List.exists_cons_of_ne_nil (lines_ne_nil s)
  rw [lines, hs]
  · simp [hp]
  · rintro rest rfl
    cases hp

theorem lines_append {s : Text} (hs : Unbroken s) (t : Text) :
    lines (s ++ t) = (s ++ (lines t).headD []) :: (lines t).tail := by
  induction s with
  | nil =>
    obtain ⟨line, more, ht⟩ := List.exists_cons_of_ne_nil (lines_ne_nil t)
    simp [ht]
  | cons p s ih =>
    rw [Unbroken, List.forall_mem_cons] at hs
    rw [List.cons_append, lines_cons hs.1, ih hs.2]
    rfl

theorem lines_of_unbroken {s : Text} (hs : Unbroken s) : lines s = [s] := by
  simpa [lines] using lines_append hs []

/-- Every line is a comment. -/
def Commented (s : Text) : Prop := ∀ line ∈ lines s, ofString "//" <+: line

instance (s : Text) : Decidable (Commented s) := inferInstanceAs (Decidable (∀ line ∈ lines s, _))

end Text

namespace CommandLine

/-! ## What reaches the target -/

/-- A text as it reaches the target. The standard output leaves control sequences out. -/
def Arguments.reaching (a : Arguments) (text : Text) : Text :=
  if a.output?.isSome then text else Text.withoutControls text

section

variable {w : Workspace} {a : Arguments} {text : Text}

/-- A text that can be written is brought to its target, if nothing keeps a file from being written
there. -/
theorem deliver_eq_brought {s : String}
    (htarget : ∀ path, a.output? = some path → w.obstacle? (w.locate path) = none)
    (h : a.reaching text = Text.ofString s) :
    Emission.deliver w ⟨text, (a.output?).map w.locate⟩ = a.brought w s := by
  have hencoded := Text.Encoding.encode_eq_ok_iff.2 h
  rw [Arguments.reaching] at hencoded
  rw [Emission.deliver, Arguments.brought]
  cases houtput : a.output? with
  | none =>
    simp only [houtput, Option.isSome_none, Bool.false_eq_true, if_false] at hencoded
    simp only [Option.map_none, display, hencoded]
  | some path =>
    simp only [houtput, Option.isSome_some, if_true] at hencoded
    simp only [Option.map_some, write, htarget path houtput, hencoded]

/-- A text that reaches its target could be written, and nothing stood in its way. -/
theorem exists_of_deliver (h : (Emission.deliver w ⟨text, (a.output?).map w.locate⟩).ending =
      .exit 0) :
    (∀ path, a.output? = some path → w.obstacle? (w.locate path) = none) ∧
      ∃ s, a.reaching text = Text.ofString s := by
  rw [Arguments.reaching]
  rw [Emission.deliver] at h
  cases houtput : a.output? with
  | none =>
    simp only [houtput, Option.map_none, display] at h
    split at h
    · next s hencoded =>
      refine ⟨fun path hpath => ?_, s, Text.Encoding.encode_eq_ok_iff.1 hencoded⟩
      cases hpath
    · cases h
  | some path =>
    simp only [houtput, Option.map_some, write] at h
    split at h
    · cases h
    · next hfree =>
      split at h
      · next s hencoded =>
        refine ⟨fun path' hpath => ?_, s, Text.Encoding.encode_eq_ok_iff.1 hencoded⟩
        cases hpath
        exact hfree
      · cases h

theorem reaching_of_quiet (h : text.Quiet) : a.reaching text = text := by
  rw [Arguments.reaching, Text.withoutControls_of_quiet h, ite_self]

theorem reaching_append_of_quiet (h : text.Quiet) (t : Text) :
    a.reaching (text ++ t) = text ++ a.reaching t := by
  rw [Arguments.reaching, Arguments.reaching]
  split
  · rfl
  · exact Text.withoutControls_append_of_quiet h t

theorem reaching_append_line (s t : Text) : a.reaching (s ++ .char '\n' :: t) =
    a.reaching s ++ a.reaching (.char '\n' :: t) := by
  rw [Arguments.reaching, Arguments.reaching, Arguments.reaching]
  split
  · rfl
  · exact Text.withoutControls_append_line s t

theorem reaching_sublist (s : Text) : (a.reaching s).Sublist s := by
  rw [Arguments.reaching]
  split
  · exact List.Sublist.refl s
  · exact Text.withoutControls_sublist s

end

/-! ## The shown values -/

/-- No value that the comment shows holds a line break. -/
def ShownUnbroken (w : Workspace) (a : Arguments) : Prop :=
  ∀ p s text, parameterValues w a p = some (.string s) → shownValue w (.string s) = .ok text →
    Text.Unbroken text

section

variable {w : Workspace} {a : Arguments} {p : Parameter}

/-- Every parameter that is no flag has a text for its value. -/
theorem exists_of_parameterValues {v : Json} (h : parameterValues w a p = some v)
    (hp : p.isFlag = false) : ∃ s, v = .string s := by
  cases p with
  | name | config | output =>
    obtain ⟨s, -, rfl⟩ := Option.map_eq_some_iff.1 h
    exact ⟨_, rfl⟩
  | path => exact ⟨_, (Option.some.inj h).symm⟩
  | switch | sample | comment => cases hp

theorem isFlag_of_operand (h : p ∈ Parameter.operands) : p.isFlag = false := by
  have hall : ∀ q ∈ Parameter.operands, q.isFlag = false := by decide
  exact hall p h

theorem unbroken_option (p : Parameter) : Text.Unbroken (Text.ofString p.option) := by
  cases p with
  | switch s => cases s <;> decide
  | _ => decide

theorem unbroken_offOption {off : String} (h : p.offOption? = some off) :
    Text.Unbroken (Text.ofString off) := by
  cases p with
  | switch s => cases s <;> cases h <;> decide
  | _ => cases h

variable {v : Json} (hshown : ShownUnbroken w a) (hv : parameterValues w a p = some v)

include hshown hv

theorem unbroken_of_shownValue {text : Text} (hp : p.isFlag = false)
    (h : shownValue w v = .ok text) : Text.Unbroken text := by
  obtain ⟨s, rfl⟩ := exists_of_parameterValues hv hp
  exact hshown p s text hv h

theorem unbroken_of_optionWords {ws : List Text} (h : optionWords w p v = .ok ws) :
    ∀ word ∈ ws, Text.Unbroken word := by
  unfold optionWords at h
  split at h
  · cases h
    split
    · intro word hword
      obtain ⟨off, hoff, rfl⟩ := List.mem_map.1 hword
      exact unbroken_offOption (Option.mem_toList.1 hoff)
    · exact List.forall_mem_singleton.2 (unbroken_option p)
  · next hflag =>
    split at h
    · next text htext =>
      cases h
      have htext' := unbroken_of_shownValue hshown hv (by simpa using hflag) htext
      exact List.forall_mem_cons.2 ⟨unbroken_option p, List.forall_mem_singleton.2 htext'⟩
    · cases h

end

/-- The words of a parameter hold no line break that is not in a shown value. -/
theorem unbroken_of_words {w : Workspace} {a : Arguments} {p : Parameter}
    (hshown : ShownUnbroken w a) {ws : List Text}
    (h : words w (parameterValues w a) p = .ok ws) : ∀ word ∈ ws, Text.Unbroken word := by
  unfold words at h
  split at h
  · cases h
    exact List.forall_mem_nil _
  · next v hv =>
    split at h
    · cases h
      exact List.forall_mem_nil _
    · split at h
      · next hop =>
        obtain ⟨text, htext, rfl⟩ := map_eq_ok_iff.1 h
        exact List.forall_mem_singleton.2
          (unbroken_of_shownValue hshown hv (isFlag_of_operand hop) htext)
      · exact unbroken_of_optionWords hshown hv h

/-- The recalled line holds no line break that is not in a shown value. -/
theorem unbroken_of_recalled {w : Workspace} {a : Arguments} {line : Text}
    (hshown : ShownUnbroken w a) (h : recalled w (parameterValues w a) = .ok line) :
    Text.Unbroken line := by
  simp only [recalled, bind_eq_ok_iff] at h
  obtain ⟨options, hoptions, operands, hoperands, hline⟩ := h
  cases hline
  have hwords {ps : List Parameter} {wss : List (List Text)}
      (hps : ps.mapM (words w (parameterValues w a)) = .ok wss) :
      ∀ word ∈ wss.flatten, Text.Unbroken word := by
    intro word hword
    obtain ⟨ws, hws, hmem⟩ := List.mem_flatten.1 hword
    obtain ⟨p, -, hp⟩ := exists_of_mem_mapM hps hws
    exact unbroken_of_words hshown hp word hmem
  refine Text.forall_mem_intercalate (by decide) (List.forall_mem_cons.2 ⟨by decide, ?_⟩)
  exact List.forall_mem_append.2 ⟨hwords hoperands, hwords hoptions⟩

/-! ## The head -/

/-- The first line of the comment. -/
def generatedBy : Text := Text.ofString ("// Generated by " ++ program ++ " " ++ version)

theorem header_eq {w : Workspace} {a : Arguments} {comment : Text}
    (h : header w a = .ok comment) : ∃ line, recalled w (parameterValues w a) = .ok line ∧
      comment = (generatedBy ++ "\n// ") ++ line := by
  unfold header at h
  split at h
  · next line hline => exact ⟨line, hline, (Except.ok.inj h).symm⟩
  · cases h

theorem lines_head (line : Text) : Text.lines ((generatedBy ++ "\n// ") ++ line) =
    generatedBy :: (Text.ofString "// " ++ (Text.lines line).headD []) ::
      (Text.lines line).tail := by
  have hbreak (t : Text) : Text.lines (.char '\n' :: t) = [] :: Text.lines t := rfl
  have hsplit : (generatedBy ++ "\n// ") ++ line =
      generatedBy ++ .char '\n' :: (Text.ofString "// " ++ line) := by
    rw [List.append_assoc]
    rfl
  rw [hsplit, Text.lines_append (by decide), hbreak, Text.lines_append (by decide)]
  simp

/-- The head is nothing but comment lines just if every line of the shown command is a comment, save
the first. -/
theorem commented_head_iff (line : Text) : Text.Commented ((generatedBy ++ "\n// ") ++ line) ↔
    ∀ l ∈ (Text.lines line).tail, Text.ofString "//" <+: l := by
  rw [Text.Commented, lines_head, List.forall_mem_cons, List.forall_mem_cons]
  have hfirst : Text.ofString "//" <+: generatedBy := by decide
  have hsecond : Text.ofString "//" <+: Text.ofString "// " ++ (Text.lines line).headD [] :=
    ⟨.char ' ' :: (Text.lines line).headD [], rfl⟩
  exact ⟨fun h => h.2.2, fun h => ⟨hfirst, hsecond, h⟩⟩

theorem commented_head_of_unbroken {line : Text} (h : Text.Unbroken line) :
    Text.Commented ((generatedBy ++ "\n// ") ++ line) := by
  rw [commented_head_iff, Text.lines_of_unbroken h]
  exact List.forall_mem_nil _

/-! ## The run -/

/-- What stands behind the head: a blank line and the definitions, if there are any. -/
def behindHead (definitions : Text) : Text :=
  if definitions.isEmpty then [] else ("\n\n" : Text) ++ definitions

/-- Of a text with a head, only the head can lose something on the way to the target. -/
theorem reaching_head {a : Arguments} {definitions : Text} (h : definitions.Quiet) (line : Text) :
    a.reaching ((generatedBy ++ "\n// ") ++ line ++ behindHead definitions ++ "\n") =
      (generatedBy ++ "\n// ") ++ a.reaching line ++ behindHead definitions ++ "\n" := by
  have hquiet : Text.Quiet (generatedBy ++ "\n// ") := by decide
  obtain ⟨rest, hrest, hbehind⟩ : ∃ rest : Text, rest.Quiet ∧
      behindHead definitions ++ "\n" = .char '\n' :: rest := by
    rw [behindHead]
    split
    · exact ⟨[], by decide, rfl⟩
    · refine ⟨.char '\n' :: definitions ++ "\n", ?_, rfl⟩
      exact Text.Quiet.append (List.forall_mem_cons.2 ⟨.inl rfl, h⟩) (by decide)
  have hrest' : Text.Quiet (.char '\n' :: rest) := List.forall_mem_cons.2 ⟨.inl rfl, hrest⟩
  rw [List.append_assoc _ (behindHead definitions), hbehind, reaching_append_line,
    reaching_of_quiet hrest', reaching_append_of_quiet hquiet, List.append_assoc _ (behindHead _),
    hbehind]

theorem mem_behindHead {definitions : Text} {p : CodePoint} (h : p ∈ definitions) :
    p ∈ behindHead definitions := by
  have hne : ¬definitions.isEmpty = true := by
    rw [List.isEmpty_iff]
    exact List.ne_nil_of_mem h
  rw [behindHead, if_neg hne]
  exact List.mem_append_right _ h

theorem behindHead_ofString (definitions : String) : behindHead (Text.ofString definitions) =
    Text.ofString (if definitions = "" then "" else "\n\n" ++ definitions) := by
  by_cases h : definitions = ""
  · subst h
    rfl
  · have hne : ¬(Text.ofString definitions).isEmpty = true := by
      rwa [List.isEmpty_iff, Text.ofString_eq_nil_iff]
    rw [behindHead, if_neg hne, if_neg h, Text.ofString_append]

/-- With the comment a head and the definitions are ready, and without the flag the definitions. -/
theorem exists_of_prepare {host : Host} {w : Workspace} {input : List UInt8} {args : List Text}
    {a : Arguments} {e : Emission} (hargs : readArguments {} args = .ok a) (hhelp : a.help = false)
    (hcomment : a.comment = true) (h : prepare host w input args = .ok e) :
    ∃ line definitions, recalled w (parameterValues w a) = .ok line ∧ definitions.Quiet ∧
      e = ⟨(generatedBy ++ "\n// ") ++ line ++ behindHead definitions ++ "\n",
        (a.output?).map w.locate⟩ ∧
      prepare host w input (withoutComment args) =
        .ok ⟨definitions ++ "\n", (a.output?).map w.locate⟩ := by
  have hwithout := readArguments_withoutComment hargs
  obtain ⟨o, declared, text, hcheck, ho, hdeclared, htext, rfl⟩ :=
    prepareSketch_eq_ok_iff.1 ((prepare_eq_sketch hargs hhelp).symm.trans h)
  rw [emitted, if_pos hcomment] at htext
  obtain ⟨comment, hheader, rfl⟩ := map_eq_ok_iff.1 htext
  obtain ⟨line, hline, rfl⟩ := header_eq hheader
  refine ⟨line, declared, hline, ?_, rfl, ?_⟩
  · exact quiet_of_sketchDecoded (sketchDecoded_of_definitions hdeclared)
  · rw [prepare_eq_sketch hwithout hhelp]
    exact prepareSketch_eq_ok_iff.2 ⟨o, declared, declared, check_uncommented.trans hcheck,
      optionsOf_uncommented.trans ho, (definitions_uncommented o).trans hdeclared,
      emitted_uncommented declared, rfl⟩

/-- **A run with the comment.** It brings out a head, and behind it, with a blank line between them,
the definitions that the same command brings out without the flag. The head is the comment with
the recalled line as it reaches the target. It is nothing but comment lines just if the lines of the
recalled line are comments save the first, and so it is if no shown value holds a line break. -/
theorem run_commented {host : Host} {w : Workspace} {input : List UInt8} {args : List Text}
    {a : Arguments} (hargs : readArguments {} args = .ok a) (hhelp : a.help = false)
    (hcomment : a.comment = true) (hending : (run host w input args).ending = .exit 0) :
    readArguments {} (withoutComment args) = .ok a.uncommented ∧
    ∃ line head definitions, recalled w (parameterValues w a) = .ok line ∧
      Text.ofString head = (generatedBy ++ "\n// ") ++ a.reaching line ∧
      run host w input (withoutComment args) = a.brought w (definitions ++ "\n") ∧
      run host w input args = a.brought w
        (head ++ (if definitions = "" then "" else "\n\n" ++ definitions) ++ "\n") ∧
      (Text.Commented head ↔
        ∀ l ∈ (Text.lines (a.reaching line)).tail, Text.ofString "//" <+: l) ∧
      (ShownUnbroken w a → Text.Commented head) := by
  refine ⟨readArguments_withoutComment hargs, ?_⟩
  obtain hstop | ⟨e, hready, -⟩ := run_cases host w input args
  · exact absurd hending hstop.failed
  obtain ⟨line, declared, hline, hquiet, rfl, hready'⟩ :=
    exists_of_prepare hargs hhelp hcomment hready
  simp only [run, hready, hready'] at hending ⊢
  obtain ⟨htarget, s, hs⟩ := exists_of_deliver hending
  have hreached := (reaching_head hquiet line).symm.trans hs
  -- what has reached the target holds no surrogate, so the head and the definitions are strings
  have hplain (x : Surrogate) : .surrogate x ∉
      (generatedBy ++ "\n// ") ++ a.reaching line ++ behindHead declared ++ "\n" := by
    rw [hreached]
    exact Text.surrogate_not_mem_ofString x s
  have hhead : Text.ofString (Text.legible ((generatedBy ++ "\n// ") ++ a.reaching line)) =
      (generatedBy ++ "\n// ") ++ a.reaching line :=
    Text.ofString_legible fun x hx =>
      hplain x (List.mem_append_left _ (List.mem_append_left _ hx))
  have hdefinitions : Text.ofString (Text.legible declared) = declared :=
    Text.ofString_legible fun x hx =>
      hplain x (List.mem_append_left _ (List.mem_append_right _ (mem_behindHead hx)))
  refine ⟨line, _, Text.legible declared, hline, hhead, deliver_eq_brought htarget ?_,
    deliver_eq_brought htarget ?_, ?_, fun hshown => ?_⟩
  · rw [Text.ofString_append, hdefinitions]
    exact reaching_of_quiet (hquiet.append (by decide))
  · rw [Text.ofString_append, Text.ofString_append, hhead, ← behindHead_ofString, hdefinitions]
    exact reaching_head hquiet line
  · rw [hhead]
    exact commented_head_iff _
  · rw [hhead]
    have hunbroken := unbroken_of_recalled hshown hline
    exact commented_head_of_unbroken fun p hp => hunbroken p ((reaching_sublist line).subset hp)

/-- The flag goes away, but the same word stays where it is the wanted name. -/
theorem run_commented_desk :
    let flag : Text := Text.ofString "--add-generation-comment"
    let args : List Text := [Text.ofString "-n", flag, "data.json", flag]
    let a : Arguments := { settings := [.name flag, .comment], operands := ["data.json"] }
    readArguments {} args = .ok a ∧ a.help = false ∧ a.comment = true ∧
    (run .usual desk [] args).ending = .exit 0 ∧
    withoutComment args = [Text.ofString "-n", flag, "data.json"] ∧ ShownUnbroken desk a ∧
    ∃ head definitions,
      run .usual desk [] (withoutComment args) = a.brought desk (definitions ++ "\n") ∧
      run .usual desk [] args = a.brought desk
        (head ++ (if definitions = "" then "" else "\n\n" ++ definitions) ++ "\n") ∧
      Text.Commented head := by
  intro flag args a
  have hargs : readArguments {} args = .ok a := eq_ok_of_toOption (by decide +kernel)
  have hending : (run .usual desk [] args).ending = .exit 0 := by decide +kernel
  have hname : shownValue desk (.string flag) = .ok flag := eq_ok_of_toOption (by decide +kernel)
  have hpath : shownValue desk (.string "data.json") = .ok (Text.ofString "data.json") :=
    eq_ok_of_toOption (by decide +kernel)
  have hshown : ShownUnbroken desk a := by
    intro p s text hp htext
    cases p with
    | name =>
      cases hp
      cases hname.symm.trans htext
      decide
    | path =>
      cases hp
      cases hpath.symm.trans htext
      decide
    | config | output | switch | sample | comment => cases hp
  obtain ⟨-, line, head, definitions, -, -, hwithout, hwith, -, hcommented⟩ :=
    run_commented hargs rfl rfl hending
  exact ⟨hargs, rfl, rfl, hending, by decide +kernel, hshown, head, definitions, hwithout, hwith,
    hcommented hshown⟩

/-- **A name breaks out of the comment.** The wanted name holds a line feed. What stands behind it
is on a line of its own, which is no comment. -/
theorem name_breaks_out :
    let args : List Text := ["data.json", "-n", "A\nB", "--add-generation-comment"]
    let head := "// Generated by json_to_ts 0.3.0\n" ++
      "// json_to_ts data.json --name A\nB --add-generation-comment"
    ∃ a, readArguments {} args = .ok a ∧ a.comment = true ∧
      (run .usual desk [] args).ending = .exit 0 ∧
      (run .usual desk [] args).stdout = head ++ "\n\n" ++ "interface AB \x7b\n\x7d" ++ "\n" ∧
      (run .usual desk [] (withoutComment args)).stdout = "interface AB \x7b\n\x7d" ++ "\n" ∧
      Text.lines (Text.ofString head) = ["// Generated by json_to_ts 0.3.0",
        "// json_to_ts data.json --name A", "B --add-generation-comment"] ∧
      ¬Text.Commented head := by
  intro args head
  have hrun : (run .usual desk [] args).ending = .exit 0 ∧
      (run .usual desk [] args).stdout = head ++ "\n\n" ++ "interface AB \x7b\n\x7d" ++ "\n" := by
    decide +kernel
  exact ⟨{ settings := [.name "A\nB", .comment], operands := ["data.json"] }, eq_ok_of_toOption (by decide +kernel), rfl,
    hrun.1, hrun.2, by decide +kernel, by decide +kernel, by decide +kernel⟩

end CommandLine

end TypeSketch
