import TypeSketch.Proofs.Blocks
import TypeSketch.Proofs.FreshNames
import TypeSketch.Proofs.NameOrigin

/-!
# The members of an enum

Every value of an enum has a member, which goes by a key made from the value. Many values can have
the same key, because all that an identifier cannot hold becomes an underscore. Then the later one
gets a number, and that can be in the way of a value that has the number from the start.

**Lists of members** (`Listing`). Every member has a line of its own, with its key and a string
literal from which its value is read. A comma stands behind every member but the last.

**Theorem** (`members_prepared`). The keys are different identifiers. Each is the key of its value,
with the least number behind it that makes it differ from those before it, if it has to. Nothing
that comes behind a value changes its key. The declaration lists the members in their order.
-/

namespace TypeSketch.Declaration

open Text
open Fresh (Successive)

/-! ## Keys -/

theorem isIdentifier_memberKey (value : Text) : IsIdentifier (memberKey value) := by
  have hword := isWord_memberKey value
  rw [memberKey] at hword ⊢
  split at hword
  · next h =>
    rw [if_pos h]
    exact ⟨hword, by decide, by decide⟩
  · next h =>
    rw [if_neg h]
    refine ⟨hword, ?_, ?_⟩
    · rw [String.toList_ofList]
      obtain ⟨c, rest, hcs⟩ := List.exists_cons_of_ne_nil (mt List.isEmpty_iff.2 h)
      exact List.ne_nil_of_mem (mem_guardDigit (hcs ▸ List.mem_cons_self))
    · rw [String.toList_ofList, startsWithDigit_guardDigit]

theorem isIdentifier_numbered {base : String} (h : IsIdentifier base) (n : Nat) :
    IsIdentifier (Numbered.numbered base n) := h.append (isWord_toString n)

theorem map_fst_members (values : List Text) :
    (members values).map Prod.fst = Fresh.assign [] (values.map memberKey) :=
  List.map_fst_zip (by simp)

theorem isIdentifier_of_mem_keys {values : List Text} :
    ∀ key ∈ (members values).map Prod.fst, IsIdentifier key := by
  rw [map_fst_members]
  refine Fresh.forall_mem_assign (fun base n h => isIdentifier_numbered h n) ?_
  exact List.forall_mem_map.2 fun value _ => isIdentifier_memberKey value

theorem successive_keys (values : List Text) :
    Successive (values.map memberKey) ((members values).map Prod.fst) := by
  rw [map_fst_members]
  exact Fresh.successive_assign _

/-- Values that come behind change no member. -/
theorem members_prefix (values more : List Text) : members values <+: members (values ++ more) := by
  rw [members, members, List.map_append]
  exact Fresh.zip_assign_prefix [] (List.length_map _).symm _ _

/-! ## Lines -/

/-- A line that sets a key to a value by a string literal, with a mark behind it. -/
inductive SetsTo (key : String) (value : Text) (mark : String) : Text → Prop
  | line {body : Text} (read : Json.readString body = .ok (value, [])) :
    SetsTo key value mark ("  " ++ key ++ " = " ++ .char '"' :: body ++ mark)

/-- Lines that list members in their order, with a comma behind every member but the last. -/
inductive Listing : List (String × Text) → List Text → Prop
  | none : Listing [] []
  | last {member : String × Text} {line : Text} (h : SetsTo member.1 member.2 "" line) :
    Listing [member] [line]
  | more {member next : String × Text} {line : Text} {rest : List (String × Text)}
    {lines : List Text} (h : SetsTo member.1 member.2 "," line)
    (hrest : Listing (next :: rest) lines) : Listing (member :: next :: rest) (line :: lines)

/-- The line of a member without the line feed that ends it. -/
def memberRow (member : String × Text) (mark : String) : Text :=
  "  " ++ member.1 ++ " = " ++ quote member.2 ++ mark

/-- The lines of some members without the line feeds that end them. -/
def memberRows : List (String × Text) → List Text
  | [] => []
  | member :: rest => memberRow member (comma rest) :: memberRows rest

theorem setsTo_memberRow (member : String × Text) (mark : String) :
    SetsTo member.1 member.2 mark (memberRow member mark) := by
  have hquote := quote_append member.2 []
  rw [List.append_nil] at hquote
  rw [memberRow, hquote]
  exact .line (readString_quoted member.2 [])

theorem listing_memberRows (members : List (String × Text)) :
    Listing members (memberRows members) := by
  induction members with
  | nil => exact .none
  | cons member rest ih =>
    cases rest with
    | nil => exact .last (setsTo_memberRow member "")
    | cons next rest => exact .more (setsTo_memberRow member ",") ih

theorem newline_not_mem_memberRow {member : String × Text} (h : IsWord member.1) {mark : String}
    (hmark : mark ∈ ["", ","]) : .char '\n' ∉ memberRow member mark := by
  have hkey : .char '\n' ∉ ofString member.1 := mt mem_ofString.1 (not_mem_of_isWord h rfl)
  have hmark : .char '\n' ∉ ofString mark := by
    rw [List.mem_cons, List.mem_singleton] at hmark
    rcases hmark with rfl | rfl <;> decide
  simp only [memberRow, List.mem_append, not_or]
  exact ⟨⟨⟨⟨by decide, hkey⟩, by decide⟩, newline_not_mem_quote member.2⟩, hmark⟩

/-- A member takes one line. -/
theorem newline_not_mem_memberRows {members : List (String × Text)}
    (h : ∀ member ∈ members, IsWord member.1) : ∀ line ∈ memberRows members, .char '\n' ∉ line := by
  induction members with
  | nil => exact List.forall_mem_nil _
  | cons member rest ih =>
    rw [List.forall_mem_cons] at h
    have hcomma : comma rest ∈ ["", ","] := by
      unfold comma
      split <;> decide
    exact List.forall_mem_cons.2 ⟨newline_not_mem_memberRow h.1 hcomma, ih h.2⟩

theorem flatten_memberLines (members : List (String × Text)) :
    (memberLines members).flatten = ((memberRows members).map (· ++ [.char '\n'])).flatten := by
  induction members with
  | nil => rfl
  | cons member rest ih =>
    rw [memberLines_cons, memberRows, List.flatten_cons, List.map_cons, List.flatten_cons, ih]
    rfl

theorem enum_eq_rows (name : String) (values : List Text) :
    enum name values = ofString ("enum " ++ name ++ " \x7b\n") ++
      (((memberRows (members values)).map (· ++ [.char '\n'])).flatten ++ ofString "\x7d") := by
  rw [enum, block, flatten_memberLines, ofString_append ("enum " ++ name) " \x7b\n",
    List.append_assoc, List.append_assoc]

/-- **The members of an enum.** There is one for every value, in the order of the values. Their keys
are different identifiers. Each is the key that is made from the value, or that with the least
number from 2 on that makes it differ from all keys before it. Values that come behind change
nothing. The declaration lists the members, each in one line. -/
theorem members_prepared (values : List Text) :
    let keys := (members values).map Prod.fst
    (members values).map Prod.snd = values ∧
    (∀ key ∈ keys, IsIdentifier key) ∧
    keys.Nodup ∧
    Successive (values.map memberKey) keys ∧
    (∀ more, members values <+: members (values ++ more)) ∧
    ∀ name, ∃ lines, Listing (members values) lines ∧ (∀ line ∈ lines, .char '\n' ∉ line) ∧
      enum name values = ofString ("enum " ++ name ++ " \x7b\n") ++
        ((lines.map (· ++ [.char '\n'])).flatten ++ ofString "\x7d") := by
  intro keys
  have hkeys : Successive (values.map memberKey) keys := successive_keys values
  refine ⟨map_snd_members values, isIdentifier_of_mem_keys, hkeys.nodup, hkeys,
    members_prefix values, fun name => ?_⟩
  exact ⟨memberRows (members values), listing_memberRows _,
    newline_not_mem_memberRows fun _ => isWord_of_mem_members, enum_eq_rows name values⟩

/-- The number of one value is in the way of another, which has that number from the start. -/
example : (members ["a b", "a-b", "a_b2", "", "2"]).map Prod.fst =
    ["a_b", "a_b2", "a_b22", "_", "_2"] := by decide +kernel

end TypeSketch.Declaration
