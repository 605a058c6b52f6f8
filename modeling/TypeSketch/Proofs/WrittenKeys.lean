import TypeSketch.Proofs.PropertyKeys
import TypeSketch.Proofs.ControlCharacters
import TypeSketch.Text.Fields

/-!
# What a written key stands for

A property key in an interface is an identifier, which stands for itself, or a string literal, which
stands for the text that is read from it (`Denotes`). A key should be written as an identifier just
if it is one (`Stands`).

There is one exception. A line feed may close a bare key, so an identifier with a line feed behind
it is written as it is (`LineEnded`). This is neither an identifier nor a literal, and the property
takes two lines.

**Theorem** (`stands_writtenKey_iff`). A written key stands for its name just if the name is no such
exception.

**Theorem** (`written_keys_stand`). So do all keys of an interface, just if no rewritten key is one.
Then no key holds a control character, every property takes one line, and different keys stand for
different names (`Legible`).
-/

namespace TypeSketch

open Fresh (Successive)

namespace Text

/-! ## Identifiers -/

/-- The characters that an identifier may begin with. -/
def isNameStart : CodePoint → Bool
  | .char c => ('A' ≤ c && c ≤ 'Z') || ('a' ≤ c && c ≤ 'z') || c == '_' || c == '$'
  | .surrogate _ => false

/-- The characters that an identifier may go on with. -/
def isNameRest : CodePoint → Bool
  | .char c => isNameStart (.char c) || ('0' ≤ c && c ≤ '9')
  | .surrogate _ => false

/-- Whether a text is an identifier, from its first to its last character. -/
def isName : Text → Bool
  | [] => false
  | p :: rest => isNameStart p && rest.all isNameRest

/-- An identifier with a line feed behind it. -/
def LineEnded (s : Text) : Prop := ∃ name, isName name = true ∧ s = name ++ [.char '\n']

theorem isAlpha_eq (c : Char) :
    c.isAlpha = (('A' ≤ c && c ≤ 'Z') || ('a' ≤ c && c ≤ 'z')) := by
  have hupper : c.isUpper = ('A' ≤ c && c ≤ 'Z') := Bool.decide_and ('A' ≤ c) (c ≤ 'Z')
  have hlower : c.isLower = ('a' ≤ c && c ≤ 'z') := rfl
  rw [← hupper, ← hlower]
  rfl

theorem isBareStart_eq (p : CodePoint) : isBareStart p = isNameStart p := by
  cases p with
  | surrogate => rfl
  | char c => rw [isBareStart, isNameStart, isAlpha_eq]

theorem isBareRest_eq (p : CodePoint) : isBareRest p = isNameRest p := by
  cases p with
  | surrogate => rfl
  | char c =>
    have hdigit : CodePoint.isDigit (.char c) = ('0' ≤ c && c ≤ '9') := rfl
    rw [isBareRest, isBareStart_eq, isNameRest, hdigit]

/-- A line feed may stand behind the other characters, and nowhere else. -/
theorem isBareTail_iff {s : Text} : isBareTail s = true ↔
    s.all isNameRest = true ∨ ∃ rest, rest.all isNameRest = true ∧ s = rest ++ [.char '\n'] := by
  fun_induction isBareTail s with
  | case1 => simp
  | case2 => exact iff_of_true rfl (Or.inr ⟨[], rfl, rfl⟩)
  | case3 p s hne ih =>
    rw [Bool.and_eq_true, ih, isBareRest_eq, List.all_cons, Bool.and_eq_true]
    constructor
    · rintro ⟨hp, hs | ⟨rest, hrest, rfl⟩⟩
      · exact Or.inl ⟨hp, hs⟩
      · refine Or.inr ⟨p :: rest, ?_, rfl⟩
        rw [List.all_cons, hp, hrest, Bool.and_self]
    · rintro (⟨hp, hs⟩ | ⟨rest, hrest, hs⟩)
      · exact ⟨hp, Or.inl hs⟩
      · cases rest with
        | nil =>
          obtain ⟨rfl, rfl⟩ := List.cons.inj hs
          exact absurd rfl (hne rfl)
        | cons q rest =>
          obtain ⟨rfl, rfl⟩ := List.cons.inj hs
          rw [List.all_cons, Bool.and_eq_true] at hrest
          exact ⟨hrest.1, Or.inr ⟨rest, hrest.2, rfl⟩⟩

/-- **What is written bare.** Identifiers are, with or without a line feed behind them. -/
theorem isBare_iff {s : Text} : isBare s = true ↔ isName s = true ∨ LineEnded s := by
  cases s with
  | nil =>
    refine iff_of_false Bool.false_ne_true ?_
    rintro (h | ⟨name, -, h⟩)
    · cases h
    · simp at h
  | cons p s =>
    rw [isBare, isBareStart_eq, isName, Bool.and_eq_true, isBareTail_iff, Bool.and_eq_true]
    constructor
    · rintro ⟨hp, hs | ⟨rest, hrest, rfl⟩⟩
      · exact Or.inl ⟨hp, hs⟩
      · refine Or.inr ⟨p :: rest, ?_, rfl⟩
        rw [isName, hp, hrest, Bool.and_self]
    · rintro (⟨hp, hs⟩ | ⟨name, hname, hs⟩)
      · exact ⟨hp, Or.inl hs⟩
      · cases name with
        | nil => cases hname
        | cons q rest =>
          obtain ⟨rfl, rfl⟩ := List.cons.inj hs
          rw [isName, Bool.and_eq_true] at hname
          exact ⟨hname.1, Or.inr ⟨rest, hname.2, rfl⟩⟩

theorem LineEnded.newline_mem {s : Text} (h : LineEnded s) : .char '\n' ∈ s := by
  obtain ⟨name, -, rfl⟩ := h
  exact List.mem_append_right _ (List.mem_singleton_self _)

theorem le_of_mem_isName {s : Text} (h : isName s = true) {p : CodePoint} (hp : p ∈ s) :
    0x20 ≤ p.toNat := by
  cases s with
  | nil => cases h
  | cons q rest =>
    rw [isName, Bool.and_eq_true, List.all_eq_true, ← isBareStart_eq] at h
    rcases List.mem_cons.1 hp with rfl | hp
    · exact le_of_isBareRest (isBareRest_of_isBareStart h.1)
    · exact le_of_isBareRest ((isBareRest_eq p).trans (h.2 p hp))

theorem not_lineEnded_of_isName {s : Text} (h : isName s = true) : ¬LineEnded s := by
  intro hend
  exact absurd (le_of_mem_isName h hend.newline_mem) (by decide)

/-- A number is not a line feed, so what ends with a number is no exception. -/
theorem not_lineEnded_numbered (base : Text) (n : Nat) :
    ¬LineEnded (Numbered.numbered base n) := by
  have hne : ofString (toString n) ≠ [] := mt ofString_eq_nil_iff.1 (toString_nat_ne_empty n)
  obtain ⟨digits, last, hdigits⟩ := (List.eq_nil_or_concat _).resolve_left hne
  rintro ⟨name, -, h⟩
  have h : base ++ ofString (toString n) = name ++ [.char '\n'] := h
  rw [hdigits, List.concat_eq_append, ← List.append_assoc] at h
  have hlast : [last] = [.char '\n'] := List.append_inj_right' h rfl
  have hmem : .char '\n' ∈ ofString (toString n) := by
    rw [hdigits, List.concat_eq_append, hlast]
    exact List.mem_append_right _ (List.mem_singleton_self _)
  rw [mem_ofString, Nat.toString_eq_repr, Nat.toList_repr] at hmem
  exact absurd (Nat.isDigit_of_mem_toDigits (by decide) (by decide) hmem) (by decide)

/-! ## What a key denotes -/

/-- What a property key in an interface denotes. -/
inductive Denotes : Text → Text → Prop
  | bare {name : Text} (h : isName name = true) : Denotes name name
  | literal {body name : Text} (h : Json.readString body = .ok (name, [])) :
    Denotes (.char '"' :: body) name

/-- A key stands for a name: it denotes the name, and is the name itself just if this is an
identifier. -/
structure Stands (key name : Text) : Prop where
  denotes : Denotes key name
  bare_iff : key = name ↔ isName name = true

theorem not_isName_quote_cons (body : Text) : ¬isName (.char '"' :: body) = true := by
  simp [isName, isNameStart]

theorem Denotes.unique {key name name' : Text} (h : Denotes key name) (h' : Denotes key name') :
    name = name' := by
  cases h with
  | bare hname =>
    cases h' with
    | bare => rfl
    | literal => exact absurd hname (not_isName_quote_cons _)
  | literal hread =>
    cases h' with
    | bare hname => exact absurd hname (not_isName_quote_cons _)
    | literal hread' =>
      rw [hread] at hread'
      cases hread'
      rfl

theorem LineEnded.not_denotes {key name : Text} (hend : LineEnded key) : ¬Denotes key name := by
  intro h
  cases h with
  | bare hname => exact not_lineEnded_of_isName hname hend
  | literal =>
    obtain ⟨start, hstart, hkey⟩ := hend
    cases start with
    | nil => cases hstart
    | cons p rest =>
      obtain ⟨rfl, -⟩ := List.cons.inj hkey
      exact not_isName_quote_cons rest hstart

theorem denotes_quote (name : Text) : Denotes (quote name) name := by
  have hquote := quote_append name []
  rw [List.append_nil] at hquote
  rw [hquote]
  exact .literal (readString_quoted name [])

theorem length_le_escape (s : Text) : s.length ≤ (s.flatMap escape).length := by
  induction s with
  | nil => exact Nat.zero_le _
  | cons p s ih =>
    have hp : 0 < (escape p).length := by
      cases p with
      | surrogate => exact Nat.one_pos
      | char c =>
        have he := escaped_escapeChar c
        rw [escape, List.length_map]
        generalize escapeChar c = cs at he
        cases he <;> exact Nat.succ_pos _
    rw [List.flatMap_cons, List.length_append, List.length_cons]
    omega

theorem quote_ne (s : Text) : quote s ≠ s := by
  intro h
  have hlength := congrArg List.length h
  have hle := length_le_escape s
  simp only [quote, List.length_cons, List.length_append, List.length_nil] at hlength
  omega

end Text

namespace Declaration

open Text

/-! ## Single keys -/

theorem writtenKey_of_lineEnded {name : Text} (h : LineEnded name) : writtenKey name = name :=
  if_pos (isBare_iff.2 (Or.inr h))

theorem writtenKey_cases (name : Text) :
    isName name = true ∧ writtenKey name = name ∨
    LineEnded name ∧ writtenKey name = name ∨
    ¬isName name = true ∧ ¬LineEnded name ∧ writtenKey name = quote name := by
  by_cases hname : isName name = true
  · exact Or.inl ⟨hname, if_pos (isBare_iff.2 (Or.inl hname))⟩
  · by_cases hend : LineEnded name
    · exact Or.inr (Or.inl ⟨hend, writtenKey_of_lineEnded hend⟩)
    · have hbare : ¬isBare name = true := by
        rw [isBare_iff, not_or]
        exact ⟨hname, hend⟩
      exact Or.inr (Or.inr ⟨hname, hend, if_neg hbare⟩)

/-- **A written key stands for its name just if no line feed closes it.** -/
theorem stands_writtenKey_iff {name : Text} : Stands (writtenKey name) name ↔ ¬LineEnded name := by
  rcases writtenKey_cases name with ⟨hname, hkey⟩ | ⟨hend, hkey⟩ | ⟨hname, hend, hkey⟩
  · rw [hkey]
    exact iff_of_true ⟨.bare hname, iff_of_true rfl hname⟩ (not_lineEnded_of_isName hname)
  · rw [hkey]
    exact iff_of_false (fun h => hend.not_denotes h.denotes) (not_not_intro hend)
  · rw [hkey]
    exact iff_of_true ⟨denotes_quote name, iff_of_false (quote_ne name) hname⟩ hend

/-- No control character stands in a key, if no line feed closes it. -/
theorem le_of_mem_writtenKey {name : Text} (h : ¬LineEnded name) {p : CodePoint}
    (hp : p ∈ writtenKey name) : 0x20 ≤ p.toNat := by
  rcases writtenKey_cases name with ⟨hname, hkey⟩ | ⟨hend, -⟩ | ⟨-, -, hkey⟩
  · rw [hkey] at hp
    exact le_of_mem_isName hname hp
  · exact absurd hend h
  · rw [hkey] at hp
    exact le_of_mem_quote hp

/-! ## Interfaces -/

/-- The line of a property without the line feed that ends it. -/
def row (o : Options) (property : Text × TypeExpr) : Text :=
  "  " ++ property.1 ++ (if o.markOptional then "?" else "") ++ ": " ++ property.2.text ++ ";"

/-- An interface that can be read key by key and line by line. -/
structure Legible (o : Options) (p : Properties) : Prop where
  /-- The keys stand for the rewritten keys, with numbers where one has got a number. -/
  stands : ∃ names, Successive (p.keys.map o.writtenName) names ∧
    List.Forall₂ Stands ((properties o p.entries).map Prod.fst) names
  /-- No key holds a line feed or another control character. -/
  noControl : ∀ key ∈ (properties o p.entries).map Prod.fst, ∀ q ∈ key, 0x20 ≤ q.toNat
  /-- No two keys denote the same name. -/
  apart : ((properties o p.entries).map Prod.fst).Pairwise fun key key' =>
    ∀ name, Denotes key name → ¬Denotes key' name
  /-- Every property takes one line. -/
  lines {name : String} (hname : '\n' ∉ name.toList)
    (htypes : ∀ t ∈ p.values, '\n' ∉ t.text.toList) :
    fields (.char '\n') (interface o name p.entries) =
      ofString ("interface " ++ name ++ " \x7b") ::
        (properties o p.entries).map (row o) ++ [ofString "\x7d"]

theorem propertyLine_eq_row (o : Options) (property : Text × TypeExpr) :
    propertyLine o property = row o property ++ [.char '\n'] := by
  simp [propertyLine, row, ofString]

theorem newline_not_mem_row (o : Options) {property : Text × TypeExpr}
    (hkey : .char '\n' ∉ property.1) (htype : '\n' ∉ property.2.text.toList) :
    .char '\n' ∉ row o property := by
  have hmark : .char '\n' ∉ ofString (if o.markOptional then "?" else "") := by
    split <;> decide
  simp only [row, List.mem_append, not_or]
  exact ⟨⟨⟨⟨⟨by decide, hkey⟩, hmark⟩, by decide⟩, mt mem_ofString.1 htype⟩, by decide⟩

theorem interface_eq_rows (o : Options) (name : String) (entries : List (Text × TypeExpr)) :
    interface o name entries = ofString ("interface " ++ name ++ " \x7b") ++ .char '\n' ::
      ((((properties o entries).map (row o)).map (· ++ [.char '\n'])).flatten ++
        ofString "\x7d") := by
  have hlines : (properties o entries).map (propertyLine o) =
      ((properties o entries).map (row o)).map (· ++ [.char '\n']) := by
    rw [List.map_map]
    exact List.map_congr_left fun property _ => propertyLine_eq_row o property
  rw [interface, block, hlines]
  simp [ofString]

/-- The lines of an interface whose parts hold no line feeds. -/
theorem fields_interface (o : Options) {name : String} {entries : List (Text × TypeExpr)}
    (hname : '\n' ∉ name.toList)
    (hkeys : ∀ key ∈ (properties o entries).map Prod.fst, .char '\n' ∉ key)
    (htypes : ∀ t ∈ entries.map Prod.snd, '\n' ∉ t.text.toList) :
    fields (.char '\n') (interface o name entries) =
      ofString ("interface " ++ name ++ " \x7b") ::
        (properties o entries).map (row o) ++ [ofString "\x7d"] := by
  have hhead : .char '\n' ∉ ofString ("interface " ++ name ++ " \x7b") := by
    rw [mem_ofString, String.toList_append, String.toList_append, List.mem_append,
      List.mem_append, not_or, not_or]
    exact ⟨⟨by decide, hname⟩, by decide⟩
  have hrows : ∀ line ∈ (properties o entries).map (row o), .char '\n' ∉ line := by
    rw [← map_snd_properties o] at htypes
    exact List.forall_mem_map.2 fun property hm => newline_not_mem_row o
      (hkeys _ (List.mem_map_of_mem hm)) (htypes _ (List.mem_map_of_mem hm))
  have hbrace : .char '\n' ∉ ofString "\x7d" := by decide
  rw [interface_eq_rows, fields_append_cons, fields_of_not_mem hhead, fields_lines hrows,
    fields_of_not_mem hbrace]
  rfl

/-- No name of an interface is an exception, if no rewritten key is. -/
theorem not_lineEnded_propertyNames {o : Options} {keys : List Text}
    (h : ∀ key ∈ keys, ¬LineEnded (o.writtenName key)) :
    ∀ name ∈ propertyNames o keys, ¬LineEnded name := by
  refine Fresh.forall_mem_assign (fun base n _ => not_lineEnded_numbered base n) ?_
  exact List.forall_mem_map.2 h

/-- **Interfaces can be read just if no line feed closes a key.** -/
theorem legible_iff (o : Options) (p : Properties) :
    Legible o p ↔ ∀ key ∈ p.keys, ¬LineEnded (o.writtenName key) := by
  have hwritten := map_fst_properties o p.entries
  have hnames := successive_propertyNames o p.keys
  constructor
  · rintro ⟨⟨names, hsuccessive, hstands⟩, -, -, -⟩ key hkey
    have hsame : names = propertyNames o p.keys := Fresh.successive_iff.1 hsuccessive
    rw [hwritten, hsame, List.forall₂_map_left_iff] at hstands
    have hname : o.writtenName key ∈ propertyNames o p.keys :=
      hnames.subset (List.mem_map_of_mem hkey)
    exact stands_writtenKey_iff.1 (List.forall₂_same.1 hstands _ hname)
  · intro h
    have hnone := not_lineEnded_propertyNames h
    have hstands : ∀ name ∈ propertyNames o p.keys, Stands (writtenKey name) name :=
      fun name hname => stands_writtenKey_iff.2 (hnone name hname)
    have hcontrol : ∀ key ∈ (properties o p.entries).map Prod.fst, ∀ q ∈ key, 0x20 ≤ q.toNat := by
      rw [hwritten]
      exact List.forall_mem_map.2 fun name hname _ => le_of_mem_writtenKey (hnone name hname)
    refine ⟨⟨_, hnames, ?_⟩, hcontrol, ?_, ?_⟩
    · rw [hwritten, List.forall₂_map_left_iff]
      exact List.forall₂_same.2 hstands
    · rw [hwritten, List.pairwise_map]
      refine hnames.nodup.imp_of_mem fun hm hm' hne name hd hd' => hne ?_
      rw [(hstands _ hm).denotes.unique hd, (hstands _ hm').denotes.unique hd']
    · intro name hname htypes
      refine fields_interface o hname (fun key hkey hnewline => ?_) htypes
      exact absurd (hcontrol key hkey _ hnewline) (by decide)

/-- Neither the names of the interfaces of a walk nor their types hold line feeds. -/
theorem newline_not_mem_typeOf (o : Options) (v : Json) (wanted : String)
    {e : String × Properties} (h : e ∈ (typeOf o v wanted {}).2.interfaces.entries) :
    '\n' ∉ e.1.toList ∧ ∀ t ∈ e.2.values, '\n' ∉ t.text.toList := by
  have hblock : .interface e.1 e.2 ∈ (typeOf o v wanted {}).2.blocks o :=
    List.mem_append_right _ (List.mem_map_of_mem h)
  obtain ⟨hname, htypes⟩ := readable_typeOf o v wanted hblock
  exact ⟨not_mem_of_isWord hname rfl,
    List.forall_mem_map.2 fun property hm => not_mem_text (htypes property hm) rfl (by decide)⟩

/-- **What the keys of an interface stand for.** A single key stands for the rewritten key just if
this is no identifier with a line feed behind it. Such a one is written as it is, and denotes
nothing. An interface can be read key by key and line by line just if it has no such key. The names
and types that a walk finds take no further lines. -/
theorem written_keys_stand (o : Options) :
    (∀ key, Stands (propertyKey o key) (o.writtenName key) ↔ ¬LineEnded (o.writtenName key)) ∧
    (∀ key, LineEnded (o.writtenName key) → propertyKey o key = o.writtenName key ∧
      ∀ name, ¬Denotes (propertyKey o key) name) ∧
    (∀ p : Properties, Legible o p ↔ ∀ key ∈ p.keys, ¬LineEnded (o.writtenName key)) ∧
    ∀ v wanted, ∀ e ∈ (typeOf o v wanted {}).2.interfaces.entries,
      '\n' ∉ e.1.toList ∧ ∀ t ∈ e.2.values, '\n' ∉ t.text.toList := by
  refine ⟨fun key => stands_writtenKey_iff, fun key hend => ?_, legible_iff o,
    fun v wanted e => newline_not_mem_typeOf o v wanted⟩
  have hkey : propertyKey o key = o.writtenName key := writtenKey_of_lineEnded hend
  refine ⟨hkey, fun name => ?_⟩
  rw [hkey]
  exact hend.not_denotes

/-- A key, and the same key with a line feed behind it. -/
def lineEnded : Properties := Table.ofList [("a", .number), ("a\n", .string)]

/-- A line feed that is neither quoted nor part of an identifier. The property takes two lines. -/
theorem line_feed_unquoted :
    let o : Options := {}
    let key : Text := "a\n"
    o.writtenName key = key ∧ isName key = false ∧ propertyKey o key = key ∧
    (∀ name, ¬Denotes (propertyKey o key) name) ∧ ¬Stands (propertyKey o key) key ∧
    ¬Legible o lineEnded ∧
    interface o "Root" lineEnded.entries =
      "interface Root \x7b\n  a: number;\n  a\n: string;\n\x7d" := by
  intro o key
  have hend : LineEnded key := ⟨"a", by decide, rfl⟩
  have hkey : propertyKey o key = key := by decide +kernel
  have hnone : ∀ name, ¬Denotes (propertyKey o key) name := by
    intro name
    rw [hkey]
    exact hend.not_denotes
  have htext : interface o "Root" lineEnded.entries =
      "interface Root \x7b\n  a: number;\n  a\n: string;\n\x7d" := by
    have hproperties : properties o lineEnded.entries =
        [(ofString "a", .number), (ofString "a\n", .string)] := rfl
    rw [interface, hproperties]
    simp [block, propertyLine, TypeExpr.text, TypeExpr.number, TypeExpr.string, o, ofString]
  refine ⟨by decide +kernel, by decide +kernel, hkey, hnone, fun h => hnone _ h.denotes, ?_, htext⟩
  rw [legible_iff]
  intro h
  exact h key (by decide +kernel) hend

end Declaration

end TypeSketch
