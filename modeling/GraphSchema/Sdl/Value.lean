/-
Default values as they are written in a schema.

A value is written for the type that it is a value of: a single value at a list type
becomes a list of one, numbers and texts take the form of the scalar type, and the entries
of an input object follow the order in which its fields are declared.
-/
import GraphSchema.Schema.Basic
import GraphSchema.Schema.Builtin
import GraphSchema.Schema.References

namespace GraphSchema.Sdl

/-- A text in as many brackets as a type has lists. -/
def inLists : WrappedType → String → String
  | .named _ _, text => text
  | .list inner _, text => "[" ++ inLists inner text ++ "]"

/-- A value at a type of the given name, if no part of it depends on types in turn. -/
def plainText (schema : Schema) (type : String) (value : Literal) : String :=
  match type, value with
  | "Float", .int n => Decimal.floatText (Decimal.ofInteger n)
  | "Int", .float x => toString x.toInt64.toInt
  | "Boolean", v | "Float", v | "Int", v => v.text
  | "ID", .string s | "String", .string s => quoted s
  | "ID", v | "String", v => quoted v.text
  | type, v =>
    match schema.types.kindOf? type, v with
    | some .enum, .string name => name
    | some .scalar, .string s => quoted s
    | some .scalar, v => quoted v.text
    | _, v => v.text

/-- The fields of an input object type, unless its name is one of the scalar types of the
language. -/
def inputFields? (schema : Schema) (type : String) : Option (NameTable Parameter) :=
  if Builtin.scalarNames.contains type then none
  else (schema.type? type).bind TypeDef.inputFields?

/-- Entries in braces: those for declared fields in the order of the fields, then the
others. -/
def arrangeEntries (fields : NameTable Parameter) (entries : List (String × String)) : String :=
  let declared := fields.toList.filterMap fun f => entries.lookup f.name
  let others := (entries.filter fun entry => !fields.contains entry.1).map Prod.snd
  "\x7b " ++ ", ".intercalate (declared ++ others) ++ " \x7d"

mutual

/-- A value as it is written at a type. -/
def valueText (schema : Schema) : Literal → WrappedType → String
  | .null, _ => "null"
  | .list items, .list inner _ => "[" ++ ", ".intercalate (itemTexts schema items inner) ++ "]"
  | .object entries, type =>
    inLists type <| match inputFields? schema type.innermostName with
      | some fields => arrangeEntries fields (entryTexts schema entries fields)
      | none => plainText schema type.innermostName (.object entries)
  | value, type => inLists type (plainText schema type.innermostName value)

/-- The items of a list as they are written at the type of its items. -/
def itemTexts (schema : Schema) : List Literal → WrappedType → List String
  | [], _ => []
  | item :: rest, type => valueText schema item type :: itemTexts schema rest type

/-- The entries of an input object by key, each written at the type of its field. -/
def entryTexts (schema : Schema) :
    List (String × Literal) → NameTable Parameter → List (String × String)
  | [], _ => []
  | (key, value) :: rest, fields =>
    let text := match fields.find? key with
      | some field => valueText schema value field.type
      | none => value.text
    (key, key ++ ": " ++ text) :: entryTexts schema rest fields

end

end GraphSchema.Sdl
