/-
What the wording of a change tells.

A change is shown by its label and its wording, and of the wording only the names are its own: the
texts around them are the same for all changes with the label (`description_eq_spell`).  A text
behind a name does not begin with a character that could go on with the name, so the names can be
read off again, and two changes that are shown alike have the same names (`names_eq_of_record_eq`).

The label is part of the record, and it tells which texts to look for.  So no wording has to be
guessed from the names.
-/
import GraphSchema.Change.Basic
import GraphSchema.Proofs.Syntax.Lexemes

namespace GraphSchema

open Syntax

namespace Change

/-! ### Names and texts -/

/-- The names in the wording of a change, in their order. -/
def names : Change → List String
  | typeRemoved name | typeAdded name | typeDescriptionChanged name | directiveRemoved name
  | directiveAdded name | directiveDescriptionChanged name => [name]
  | typeKindChanged type old new => [type, old.name, new.name]
  | enumValueRemoved owner part | enumValueAdded owner part | enumValueDeprecated owner part
  | unionMemberRemoved owner part | unionMemberAdded owner part | fieldRemoved owner part
  | fieldAdded owner part | inputFieldRemoved owner part | inputFieldAdded owner part _
  | argumentRemoved owner part | argumentAdded owner part _ => [part, owner]
  | enumValueDescriptionChanged owner part | interfaceRemoved owner part | interfaceAdded owner part
  | inputFieldDescriptionChanged owner part | argumentDescriptionChanged owner part => [owner, part]
  | directiveLocationRemoved directive location | directiveLocationAdded directive location =>
    [location.camelName, directive]

/-- The texts before, between and behind the names, for each label. -/
def wording : String → List String
  | "TYPE_REMOVED" => ["`", "`" ++ " type was removed"]
  | "TYPE_ADDED" => ["`", "`" ++ " type was added"]
  | "TYPE_KIND_CHANGED" => ["`", "`" ++ " changed from an ", " type to a ", " type"]
  | "TYPE_DESCRIPTION_CHANGED" => ["`", "`" ++ " type description is changed"]
  | "ENUM_VALUE_REMOVED" => ["Enum value " ++ "`", "`" ++ " was removed from enum " ++ "`", "`"]
  | "ENUM_VALUE_ADDED" => ["Enum value " ++ "`", "`" ++ " was added to enum " ++ "`", "`"]
  | "ENUM_VALUE_DESCRIPTION_CHANGED" => ["`", ".", "`" ++ " description changed"]
  | "ENUM_VALUE_DEPRECATED" => ["Enum value " ++ "`", "`" ++ " was deprecated in enum " ++ "`", "`"]
  | "UNION_MEMBER_REMOVED" => ["`", "`" ++ " type was removed from union " ++ "`", "`"]
  | "UNION_MEMBER_ADDED" => ["`", "`" ++ " type was added to union " ++ "`", "`"]
  | "FIELD_REMOVED" => ["Field " ++ "`", "`" ++ " was removed from " ++ "`", "`" ++ " type"]
  | "FIELD_ADDED" => ["Field " ++ "`", "`" ++ " was added to " ++ "`", "`" ++ " type"]
  | "OBJECT_TYPE_INTERFACE_REMOVED" =>
    ["`", "`" ++ " object type no longer implements " ++ "`", "`" ++ " interface"]
  | "OBJECT_TYPE_INTERFACE_ADDED" =>
    ["`", "`" ++ " object type now implements " ++ "`", "`" ++ " interface"]
  | "INPUT_FIELD_REMOVED" => ["Input field " ++ "`", "`" ++ " was removed from " ++ "`", "`" ++ " type"]
  | "INPUT_FIELD_ADDED" => ["Input field " ++ "`", "`" ++ " was added to " ++ "`", "`" ++ " type"]
  | "INPUT_FIELD_DESCRIPTION_CHANGED" => ["`", ".", "`" ++ " description is changed"]
  | "DIRECTIVE_REMOVED" => ["`", "`" ++ " directive was removed"]
  | "DIRECTIVE_ADDED" => ["`", "`" ++ " directive was added"]
  | "DIRECTIVE_DESCRIPTION_CHANGED" => ["`", "`" ++ " directive description is changed"]
  | "DIRECTIVE_LOCATION_REMOVED" =>
    ["`", "`" ++ " directive location removed from " ++ "`", "`" ++ " directive"]
  | "DIRECTIVE_LOCATION_ADDED" =>
    ["`", "`" ++ " directive location added to " ++ "`", "`" ++ " directive"]
  | "DIRECTIVE_ARGUMENT_REMOVED" =>
    ["Argument " ++ "`", "`" ++ " was removed from " ++ "`", "`" ++ " directive"]
  | "DIRECTIVE_ARGUMENT_ADDED" => ["Argument " ++ "`", "`" ++ " was added to " ++ "`", "`" ++ " directive"]
  | "DIRECTIVE_ARGUMENT_DESCRIPTION_CHANGED" => ["`", "(", ")" ++ "`" ++ " description is changed"]
  | _ => []

/-- Texts with names between them. -/
def spell : List String → List String → String
  | word :: words, name :: names => word ++ (name ++ spell words names)
  | word :: _, [] => word
  | [], _ => ""

/-- **The wording is that of the label, with the names in it.** -/
theorem description_eq_spell (change : Change) :
    change.description = spell (wording change.label) change.names := by
  cases change <;> dsimp only [description, code, member, label, wording, names] <;>
    simp only [spell, String.append_assoc]

/-! ### Reading the names off

A text behind a name begins with a character that no name has, so the name ends where it seems to
end.
-/

/-- The text begins with a character that no name has. -/
def endsName (word : String) : Bool := word.toList.head?.any fun c => !isNameChar c

theorem length_wording (change : Change) : (wording change.label).length = change.names.length + 1 := by
  cases change <;> rfl

theorem endsName_wording (change : Change) : ∀ word ∈ (wording change.label).tail, endsName word = true := by
  rw [← List.all_eq_true]
  cases change <;> rfl

theorem head?_spell {word : String} (h : endsName word = true) (words names : List String) :
    ∀ c ∈ (spell (word :: words) names).toList.head?, isNameChar c = false := by
  unfold endsName at h
  cases hword : word.toList with
  | nil => rw [hword] at h; cases h
  | cons c rest =>
    rw [hword] at h
    have hhead : (spell (word :: words) names).toList.head? = some c := by
      cases names <;> simp [spell, hword]
    rw [hhead]
    intro d hd
    obtain rfl := Option.some.inj hd
    simpa using h

/-- **Texts with names between them give the names away.** -/
theorem spell_injective {words names names' : List String} (hwords : ∀ word ∈ words.tail, endsName word = true)
    (hlength : words.length = names.length + 1) (hlength' : words.length = names'.length + 1)
    (hnames : ∀ name ∈ names, isName name.toList = true) (hnames' : ∀ name ∈ names', isName name.toList = true)
    (h : spell words names = spell words names') : names = names' := by
  induction names generalizing words names' with
  | nil => exact (List.length_eq_zero_iff.mp (by simpa [hlength] using hlength'.symm)).symm
  | cons name names ih =>
    match words, names' with
    | word :: next :: words, name' :: names' =>
      rw [List.forall_mem_cons] at hnames hnames'
      rw [List.tail_cons, List.forall_mem_cons] at hwords
      rw [spell, spell, String.append_right_inj] at h
      have hchars := congrArg String.toList h
      rw [String.toList_append, String.toList_append] at hchars
      -- A name and what comes after it are what the characters of names are and are not.
      obtain ⟨htake, hdrop⟩ := takeWhile_append_of_boundary
        (fun c hc => isNameChar_of_mem hnames.1 hc) (head?_spell hwords.1 words names)
      obtain ⟨htake', hdrop'⟩ := takeWhile_append_of_boundary
        (fun c hc => isNameChar_of_mem hnames'.1 hc) (head?_spell hwords.1 words names')
      rw [hchars] at htake hdrop
      have hname : name = name' := String.toList_inj.mp (htake.symm.trans htake')
      have hrest : spell (next :: words) names = spell (next :: words) names' :=
        String.toList_inj.mp (hdrop.symm.trans hdrop')
      have htail : ∀ word ∈ (next :: words).tail, endsName word = true := hwords.2
      have hnames := ih htail (by simpa using hlength) (by simpa using hlength') hnames.2 hnames'.2 hrest
      rw [hname, hnames]

/-! ### Names that come from the comparison -/

theorem mem_all_locations (location : DirectiveLocation) : location ∈ DirectiveLocation.all := by
  cases location <;> decide

theorem isName_camelName (location : DirectiveLocation) : isName location.camelName.toList = true := by
  have hall : ∀ location ∈ DirectiveLocation.all, isName location.camelName.toList = true := by decide +kernel
  exact hall location (mem_all_locations location)

theorem camelName_injective : Function.Injective DirectiveLocation.camelName := by
  have hnodup : (DirectiveLocation.all.map DirectiveLocation.camelName).Nodup := by decide +kernel
  exact fun location other heq =>
    List.inj_on_of_nodup_map hnodup (mem_all_locations location) (mem_all_locations other) heq

theorem isName_kindName (kind : TypeKind) : isName kind.name.toList = true := by
  cases kind <;> decide

/-! ### Records -/

/-- What is shown of a change: its label and its wording. -/
def record (change : Change) : String × String := (change.label, change.description)

/-- Changes that are shown alike have the same names, if these are names. -/
theorem names_eq_of_record_eq {change other : Change} (hnames : ∀ name ∈ change.names, isName name.toList = true)
    (hnames' : ∀ name ∈ other.names, isName name.toList = true) (h : change.record = other.record) :
    change.names = other.names := by
  obtain ⟨hlabel, hdescription⟩ := Prod.mk.inj h
  rw [description_eq_spell, description_eq_spell, ← hlabel] at hdescription
  refine spell_injective (endsName_wording change) (length_wording change) ?_ hnames hnames' hdescription
  rw [hlabel]
  exact length_wording other

end Change

end GraphSchema
