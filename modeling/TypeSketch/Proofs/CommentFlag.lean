import TypeSketch.Proofs.Emission

/-!
# The flag for the comment

A command that asks for the comment has a flag for it among its arguments. The flag is an argument
of its own, so it can be taken away wherever it is read as one (`withoutComment`). As the value of
an option, or behind two dashes, it is no flag and stays.

**Theorem** (`readArguments_withoutComment`). Without the flag the same settings and operands are
read, but for the comment.

**What stays the same.** The files that are looked at, the options and the definitions do not depend
on the comment.
-/

namespace TypeSketch.CommandLine

/-! ## Arguments without the comment -/

def commentFlag : Text := Text.ofString Parameter.comment.option

/-- Arguments without the flag for the comment. What is the value of an option stays, and so does
everything behind two dashes. -/
def withoutComment : List Text → List Text
  | [] => []
  | arg :: rest =>
    if arg = "--" then arg :: rest
    else if !isOption arg then arg :: withoutComment rest
    else if arg = commentFlag then withoutComment rest
    else
      match readOption arg with
      | .error _ => arg :: withoutComment rest
      | .ok (.settled _) | .ok .help => arg :: withoutComment rest
      | .ok (.waiting _ _) =>
        match rest with
        | value :: rest => arg :: value :: withoutComment rest
        | [] => [arg]

/-- An option without a value is the whole argument. -/
theorem eq_of_splitValue {s option : Text} (h : splitValue s = (option, none)) : s = option := by
  unfold splitValue at h
  dsimp only at h
  split at h
  · exact (Prod.mk.inj h).1
  · cases h

/-- No flag of a switch asks for the comment. -/
theorem switchFlag?_ne_comment (option : Text) : switchFlag? option ≠ some .comment := by
  intro h
  obtain ⟨w, -, hw⟩ := List.exists_of_findSome?_eq_some h
  split at hw
  · cases hw
  · split at hw <;> cases hw

/-- No value makes it a setting that asks for the comment. -/
def Meaning.Uncommented : Meaning → Prop
  | .plain s => s ≠ .comment
  | .valued make => ∀ value, make value ≠ .comment
  | .help => True

/-- The same for an argument that was read. -/
def Reading.Uncommented : Reading → Prop
  | .settled s => s ≠ .comment
  | .waiting _ make => ∀ value, make value ≠ .comment
  | .help => True

/-- Of the long options only the flag itself asks for the comment. -/
theorem longOption?_cases {option : Text} {m : Meaning} (h : longOption? option = some m) :
    option = commentFlag ∧ m = .plain .comment ∨ m.Uncommented := by
  unfold longOption? at h
  split at h
  · cases h
    exact .inr nofun
  · split at h
    · cases h
      exact .inr nofun
    · split at h
      · cases h
        exact .inr nofun
      · split at h
        · next hflag =>
          cases h
          exact .inl ⟨hflag, rfl⟩
        · split at h
          · cases h
            exact .inr trivial
          · obtain ⟨s, hs, rfl⟩ := Option.map_eq_some_iff.1 h
            exact .inr fun hcomment => switchFlag?_ne_comment option (hcomment ▸ hs)

theorem shortOption?_ne_comment {letter : CodePoint} {make : Text → Setting}
    (h : shortOption? letter = some make) (value : Text) : make value ≠ .comment := by
  unfold shortOption? at h
  split at h
  · cases h
    nofun
  · split at h
    · cases h
      nofun
    · cases h

theorem readShort_uncommented {letter : CodePoint} {value : Text} {r : Reading}
    (h : readShort letter value = .ok r) : r.Uncommented := by
  unfold readShort at h
  dsimp only at h
  split at h
  · cases h
  · next make hmake =>
    split at h
    · cases h
      exact shortOption?_ne_comment hmake
    · cases h
      exact shortOption?_ne_comment hmake value

/-- Only the flag itself is read as a wish for the comment. -/
theorem readOption_cases {arg : Text} {r : Reading} (h : readOption arg = .ok r) :
    arg = commentFlag ∧ r = .settled .comment ∨ r.Uncommented := by
  unfold readOption at h
  generalize hsplit : splitValue arg = parts at h
  obtain ⟨option, value?⟩ := parts
  dsimp only at h
  split at h
  · next hlong =>
    cases h
    obtain ⟨hflag, hcomment⟩ | hother := longOption?_cases hlong
    · cases hcomment
      exact .inl ⟨(eq_of_splitValue hsplit).trans hflag, rfl⟩
    · exact .inr hother
  · cases h
  · next hlong =>
    cases h
    obtain ⟨-, hcomment⟩ | hother := longOption?_cases hlong
    · cases hcomment
    · exact .inr (hother _)
  · next hlong =>
    cases h
    obtain ⟨-, hcomment⟩ | hother := longOption?_cases hlong
    · cases hcomment
    · exact .inr hother
  · cases h
    exact .inr trivial
  · cases h
  · split at h
    · cases h
    · exact .inr (readShort_uncommented h)
    · cases h

namespace Arguments

/-- The arguments without the settings that ask for the comment. -/
def uncommented (a : Arguments) : Arguments :=
  { a with settings := a.settings.filter (· ≠ .comment) }

theorem uncommented_addSetting (a : Arguments) {s : Setting} (hs : s ≠ .comment) :
    (a.addSetting s).uncommented = a.uncommented.addSetting s := by
  simp [uncommented, addSetting, List.filter_append, hs]

theorem uncommented_addComment (a : Arguments) :
    (a.addSetting .comment).uncommented = a.uncommented := by
  simp [uncommented, addSetting, List.filter_append]

end Arguments

section

variable {arg : Text} {rest : List Text} (hdashes : arg ≠ Text.ofString "--")

include hdashes

theorem withoutComment_operand (hoperand : (!isOption arg) = true) :
    withoutComment (arg :: rest) = arg :: withoutComment rest := by
  rw [withoutComment.eq_def]
  simp only [if_neg hdashes, if_pos hoperand]

variable (hoption : ¬(!isOption arg) = true)

include hoption

theorem withoutComment_settled {s : Setting} (hread : readOption arg = .ok (.settled s))
    (hflag : arg ≠ commentFlag) : withoutComment (arg :: rest) = arg :: withoutComment rest := by
  rw [withoutComment.eq_def]
  simp only [if_neg hdashes, if_neg hoption, if_neg hflag, hread]

theorem withoutComment_help (hread : readOption arg = .ok .help) :
    withoutComment (arg :: rest) = arg :: withoutComment rest := by
  have hflag : arg ≠ commentFlag := by
    rintro rfl
    cases hread
  rw [withoutComment.eq_def]
  simp only [if_neg hdashes, if_neg hoption, if_neg hflag, hread]

/-- The value of an option stays, even if it reads like the flag. -/
theorem withoutComment_waiting {option value : Text} {make : Text → Setting}
    (hread : readOption arg = .ok (.waiting option make)) :
    withoutComment (arg :: value :: rest) = arg :: value :: withoutComment rest := by
  have hflag : arg ≠ commentFlag := by
    rintro rfl
    cases hread
  rw [withoutComment, if_neg hdashes, if_neg hoption, if_neg hflag]
  simp only [hread]

end

theorem withoutComment_flag (rest : List Text) :
    withoutComment (commentFlag :: rest) = withoutComment rest := by
  rw [withoutComment.eq_def]
  rfl

/-- Without the flag the same arguments are read, but for the comment. -/
theorem readArguments_withoutComment {a a' : Arguments} {args : List Text}
    (h : readArguments a args = .ok a') :
    readArguments a.uncommented (withoutComment args) = .ok a'.uncommented := by
  fun_induction readArguments a args with
  | case1 a | case2 a rest =>
    rw [← Except.ok.inj h]
    rfl
  | case3 a arg rest hdashes hoperand ih =>
    rw [withoutComment_operand hdashes hoperand, readArguments, if_neg hdashes, if_pos hoperand]
    exact ih h
  | case4 | case8 => cases h
  | case5 a arg rest hdashes hoption s hread ih =>
    have hih := ih h
    obtain ⟨rfl, hcomment⟩ | hother := readOption_cases hread
    · cases hcomment
      rw [withoutComment_flag]
      rwa [Arguments.uncommented_addComment] at hih
    · have hflag : arg ≠ commentFlag := by
        rintro rfl
        cases hread
        exact hother rfl
      rw [withoutComment_settled hdashes hoption hread hflag, readArguments, if_neg hdashes,
        if_neg hoption]
      simp only [hread]
      rwa [a.uncommented_addSetting hother] at hih
  | case6 a arg rest hdashes hoption hread ih =>
    rw [withoutComment_help hdashes hoption hread, readArguments, if_neg hdashes, if_neg hoption]
    simp only [hread]
    exact ih h
  | case7 a arg hdashes hoption option make hread value rest ih =>
    have hih := ih h
    obtain ⟨-, hcomment⟩ | hother := readOption_cases hread
    · cases hcomment
    · rw [withoutComment_waiting hdashes hoption hread, readArguments, if_neg hdashes,
        if_neg hoption]
      simp only [hread]
      rwa [a.uncommented_addSetting (hother value)] at hih

/-! ## What stays the same -/

theorem findSome?_filter {α β : Type} {f : α → Option β} {keep : α → Bool} {xs : List α}
    (h : ∀ x, keep x = false → f x = none) : (xs.filter keep).findSome? f = xs.findSome? f := by
  induction xs with
  | nil => rfl
  | cons x xs ih =>
    rw [List.filter_cons]
    split
    · rw [List.findSome?_cons, List.findSome?_cons, ih]
    · next hx => rw [List.findSome?_cons, h x (by simpa using hx), ih]

namespace Arguments

variable (a : Arguments)

/-- What is picked out of other settings is found all the same. -/
theorem last?_uncommented {α : Type} {pick : Setting → Option α} (h : pick .comment = none) :
    a.uncommented.last? pick = a.last? pick := by
  rw [last?, last?, uncommented, ← List.filter_reverse]
  refine findSome?_filter fun s hs => ?_
  obtain rfl : s = .comment := by simpa using hs
  exact h

theorem name?_uncommented : a.uncommented.name? = a.name? := a.last?_uncommented rfl

theorem config?_uncommented : a.uncommented.config? = a.config? := a.last?_uncommented rfl

theorem switch?_uncommented (w : Switch) : a.uncommented.switch? w = a.switch? w :=
  a.last?_uncommented rfl

theorem sample_uncommented : a.uncommented.sample = a.sample := by
  rw [sample, sample, uncommented, Bool.eq_iff_iff, List.contains_iff_mem, List.contains_iff_mem,
    List.mem_filter]
  simp

theorem comment_uncommented : a.uncommented.comment = false := by
  rw [comment, uncommented, ← Bool.not_eq_true, List.contains_iff_mem, List.mem_filter]
  simp

theorem options_uncommented (base : Options) : a.uncommented.options base = a.options base := by
  refine Options.eq_of_get fun s => ?_
  rw [get_options, get_options, switch?_uncommented]

end Arguments

section

variable {host : Host} {w : Workspace} {input : List UInt8} {a : Arguments}

/-- The comment names no file of its own. -/
theorem check_uncommented : check w a.uncommented = check w a := by
  rw [check, check, a.config?_uncommented]
  rfl

theorem optionsOf_uncommented : optionsOf host w a.uncommented = optionsOf host w a := by
  rw [optionsOf, optionsOf, a.config?_uncommented, funext a.options_uncommented]

theorem definitions_uncommented (o : Options) :
    definitions host w input a.uncommented o = definitions host w input a o := by
  unfold definitions documentOf nameOf
  rw [a.name?_uncommented, a.sample_uncommented]
  rfl

theorem emitted_uncommented (definitions : Text) :
    emitted w a.uncommented definitions = .ok definitions := by
  rw [emitted, a.comment_uncommented]
  rfl

end

end TypeSketch.CommandLine
