/-
Changes between two versions of a schema.

A change names the element that it is about; its label, its wording and whether it can
break queries that were valid before all follow from that.
-/
import GraphSchema.Schema.TypeDef

namespace GraphSchema

open Syntax (DirectiveLocation)

/-- A difference between two versions of a schema, with the names its text shows. -/
inductive Change where
  | typeRemoved (type : String)
  | typeAdded (type : String)
  | typeKindChanged (type : String) (old new : TypeKind)
  | typeDescriptionChanged (type : String)
  | enumValueRemoved (enum value : String)
  | enumValueAdded (enum value : String)
  | enumValueDescriptionChanged (enum value : String)
  | enumValueDeprecated (enum value : String)
  | unionMemberRemoved (union member : String)
  | unionMemberAdded (union member : String)
  | fieldRemoved (type field : String)
  | fieldAdded (type field : String)
  | interfaceRemoved (type interface : String)
  | interfaceAdded (type interface : String)
  | inputFieldRemoved (type field : String)
  /-- `required` says that a value has to be given for the field. -/
  | inputFieldAdded (type field : String) (required : Bool)
  | inputFieldDescriptionChanged (type field : String)
  | directiveRemoved (directive : String)
  | directiveAdded (directive : String)
  | directiveDescriptionChanged (directive : String)
  | directiveLocationRemoved (directive : String) (location : DirectiveLocation)
  | directiveLocationAdded (directive : String) (location : DirectiveLocation)
  | argumentRemoved (directive argument : String)
  /-- `required` says that a value has to be given for the argument. -/
  | argumentAdded (directive argument : String) (required : Bool)
  | argumentDescriptionChanged (directive argument : String)
  deriving DecidableEq, Repr

namespace Change

/-- The label of the kind of change. -/
def label : Change → String
  | typeRemoved _ => "TYPE_REMOVED"
  | typeAdded _ => "TYPE_ADDED"
  | typeKindChanged _ _ _ => "TYPE_KIND_CHANGED"
  | typeDescriptionChanged _ => "TYPE_DESCRIPTION_CHANGED"
  | enumValueRemoved _ _ => "ENUM_VALUE_REMOVED"
  | enumValueAdded _ _ => "ENUM_VALUE_ADDED"
  | enumValueDescriptionChanged _ _ => "ENUM_VALUE_DESCRIPTION_CHANGED"
  | enumValueDeprecated _ _ => "ENUM_VALUE_DEPRECATED"
  | unionMemberRemoved _ _ => "UNION_MEMBER_REMOVED"
  | unionMemberAdded _ _ => "UNION_MEMBER_ADDED"
  | fieldRemoved _ _ => "FIELD_REMOVED"
  | fieldAdded _ _ => "FIELD_ADDED"
  | interfaceRemoved _ _ => "OBJECT_TYPE_INTERFACE_REMOVED"
  | interfaceAdded _ _ => "OBJECT_TYPE_INTERFACE_ADDED"
  | inputFieldRemoved _ _ => "INPUT_FIELD_REMOVED"
  | inputFieldAdded _ _ _ => "INPUT_FIELD_ADDED"
  | inputFieldDescriptionChanged _ _ => "INPUT_FIELD_DESCRIPTION_CHANGED"
  | directiveRemoved _ => "DIRECTIVE_REMOVED"
  | directiveAdded _ => "DIRECTIVE_ADDED"
  | directiveDescriptionChanged _ => "DIRECTIVE_DESCRIPTION_CHANGED"
  | directiveLocationRemoved _ _ => "DIRECTIVE_LOCATION_REMOVED"
  | directiveLocationAdded _ _ => "DIRECTIVE_LOCATION_ADDED"
  | argumentRemoved _ _ => "DIRECTIVE_ARGUMENT_REMOVED"
  | argumentAdded _ _ _ => "DIRECTIVE_ARGUMENT_ADDED"
  | argumentDescriptionChanged _ _ => "DIRECTIVE_ARGUMENT_DESCRIPTION_CHANGED"

/-- Whether the change can break a query that was valid before.  That an object type no
longer implements an interface does not count. -/
def isBreaking : Change → Bool
  | typeRemoved _ | typeKindChanged _ _ _ | enumValueRemoved _ _ | unionMemberRemoved _ _
  | fieldRemoved _ _ | inputFieldRemoved _ _ | directiveRemoved _ | directiveLocationRemoved _ _
  | argumentRemoved _ _ => true
  | inputFieldAdded _ _ required | argumentAdded _ _ required => required
  | _ => false

/-- A name as the description of a change shows it, between backquotes. -/
def code (name : String) : String := "`" ++ name ++ "`"

/-- A field or a value together with the type that has it. -/
def member (owner name : String) : String := code (owner ++ "." ++ name)

/-- The change in words. -/
def description : Change → String
  | typeRemoved type => code type ++ " type was removed"
  | typeAdded type => code type ++ " type was added"
  | typeKindChanged type old new =>
    code type ++ " changed from an " ++ old.name ++ " type to a " ++ new.name ++ " type"
  | typeDescriptionChanged type => code type ++ " type description is changed"
  | enumValueRemoved enum value =>
    "Enum value " ++ code value ++ " was removed from enum " ++ code enum
  | enumValueAdded enum value => "Enum value " ++ code value ++ " was added to enum " ++ code enum
  | enumValueDescriptionChanged enum value => member enum value ++ " description changed"
  | enumValueDeprecated enum value =>
    "Enum value " ++ code value ++ " was deprecated in enum " ++ code enum
  | unionMemberRemoved union member =>
    code member ++ " type was removed from union " ++ code union
  | unionMemberAdded union member => code member ++ " type was added to union " ++ code union
  | fieldRemoved type field =>
    "Field " ++ code field ++ " was removed from " ++ code type ++ " type"
  | fieldAdded type field => "Field " ++ code field ++ " was added to " ++ code type ++ " type"
  | interfaceRemoved type interface =>
    code type ++ " object type no longer implements " ++ code interface ++ " interface"
  | interfaceAdded type interface =>
    code type ++ " object type now implements " ++ code interface ++ " interface"
  | inputFieldRemoved type field =>
    "Input field " ++ code field ++ " was removed from " ++ code type ++ " type"
  | inputFieldAdded type field _ =>
    "Input field " ++ code field ++ " was added to " ++ code type ++ " type"
  | inputFieldDescriptionChanged type field => member type field ++ " description is changed"
  | directiveRemoved directive => code directive ++ " directive was removed"
  | directiveAdded directive => code directive ++ " directive was added"
  | directiveDescriptionChanged directive =>
    code directive ++ " directive description is changed"
  | directiveLocationRemoved directive location =>
    code location.camelName ++ " directive location removed from " ++ code directive
      ++ " directive"
  | directiveLocationAdded directive location =>
    code location.camelName ++ " directive location added to " ++ code directive ++ " directive"
  | argumentRemoved directive argument =>
    "Argument " ++ code argument ++ " was removed from " ++ code directive ++ " directive"
  | argumentAdded directive argument _ =>
    "Argument " ++ code argument ++ " was added to " ++ code directive ++ " directive"
  | argumentDescriptionChanged directive argument =>
    code (directive ++ "(" ++ argument ++ ")") ++ " description is changed"

/-- The change as a line: its label and its wording. -/
def text (change : Change) : String := change.label ++ ": " ++ change.description

end Change

end GraphSchema
