/-
Comparing two versions of a schema.

Everything is compared by name, and each property on its own, so that one element may
give several changes.  What was removed comes first, then what was added, then what is
in both versions; types come before directives.  Changes of the roots, of the types of
fields and arguments and of default values are not reported.
-/
import GraphSchema.Change.Basic
import GraphSchema.Schema.Basic

namespace GraphSchema

/-! ### Common shapes -/

/-- The elements of one list that are not in another. -/
def missingFrom {α : Type} [BEq α] (others list : List α) : List α :=
  list.filter fun a => !others.contains a

namespace NameTable

variable {α : Type} [Named α]

/-- The entries whose name another table does not have. -/
def without (table others : NameTable α) : List α :=
  table.toList.filter fun a => !others.contains (Named.name a)

/-- The pairs of entries of one name in two tables, in the order of the first. -/
def common (old new : NameTable α) : List (α × α) :=
  old.toList.filterMap fun a => (new.find? (Named.name a)).map fun b => (a, b)

end NameTable

/-- The change, if a property differs. -/
def changeIf {α : Type} [DecidableEq α] (old new : α) (change : Change) : List Change :=
  if old = new then [] else [change]

/-- The changes in parameters, which are the input fields of a type or the arguments of a directive.
How a change is reported of the one that has them is given.  Of what was added it is told whether a
value has to be given for it; types and defaults are not compared. -/
def parameterChanges (removed : String → Change) (added : String → Bool → Change)
    (described : String → Change) (old new : NameTable Parameter) : List Change :=
  (old.without new).map (fun p => removed p.name)
    ++ (new.without old).map (fun p => added p.name p.isRequired)
    ++ (old.common new).flatMap fun (p, q) =>
      changeIf p.description q.description (described p.name)

/-! ### Types -/

/-- The changes in the values of an enum. -/
def enumChanges (enum : String) (old new : NameTable EnumValue) : List Change :=
  (old.without new).map (fun v => .enumValueRemoved enum v.name)
    ++ (new.without old).map (fun v => .enumValueAdded enum v.name)
    ++ (old.common new).flatMap fun (v, w) =>
      changeIf v.description w.description (.enumValueDescriptionChanged enum v.name)
        ++ changeIf v.deprecation w.deprecation (.enumValueDeprecated enum v.name)

/-- The changes in the fields of an object type or an interface.  Of two fields of one name nothing
is compared. -/
def fieldChanges (type : String) (old new : NameTable Field) : List Change :=
  (old.without new).map (fun f => .fieldRemoved type f.name)
    ++ (new.without old).map (fun f => .fieldAdded type f.name)

/-- The changes in the interfaces that an object type says it implements. -/
def interfaceChanges (type : String) (old new : List String) : List Change :=
  (missingFrom new old).map (.interfaceRemoved type)
    ++ (missingFrom old new).map (.interfaceAdded type)

/-- The changes in the fields of an input object. -/
def inputFieldChanges (type : String) : NameTable Parameter → NameTable Parameter → List Change :=
  parameterChanges (.inputFieldRemoved type) (.inputFieldAdded type)
    (.inputFieldDescriptionChanged type)

/-- The changes in the members of a union. -/
def memberChanges (union : String) (old new : NameTable TypeRef) : List Change :=
  (old.without new).map (fun m => .unionMemberRemoved union m.name)
    ++ (new.without old).map (fun m => .unionMemberAdded union m.name)

/-- The changes in what a type is made of; `none` if its kind has changed. -/
def bodyChanges (type : String) : TypeBody → TypeBody → Option (List Change)
  | .enum old, .enum new => some (enumChanges type old new)
  | .inputObject old, .inputObject new => some (inputFieldChanges type old new)
  | .interface _ old, .interface _ new => some (fieldChanges type old new)
  | .object oldInterfaces old, .object newInterfaces new =>
    some (interfaceChanges type oldInterfaces newInterfaces ++ fieldChanges type old new)
  | .scalar, .scalar => some []
  | .union old, .union new => some (memberChanges type old new)
  | _, _ => none

/-- The changes in a type.  A type whose kind has changed is not compared further. -/
def typeChanges (old new : TypeDef) : List Change :=
  match bodyChanges old.name old.body new.body with
  | none => [.typeKindChanged old.name old.kind new.kind]
  | some changes =>
    changes ++ changeIf old.description new.description (.typeDescriptionChanged old.name)

/-! ### Directives -/

/-- The changes in the arguments of a directive. -/
def argumentChanges (directive : String) : NameTable Parameter → NameTable Parameter → List Change :=
  parameterChanges (.argumentRemoved directive) (.argumentAdded directive)
    (.argumentDescriptionChanged directive)

/-- The changes in a directive. -/
def directiveChanges (old new : Directive) : List Change :=
  changeIf old.description new.description (.directiveDescriptionChanged old.name)
    ++ (missingFrom new.locations old.locations).map (.directiveLocationRemoved old.name)
    ++ (missingFrom old.locations new.locations).map (.directiveLocationAdded old.name)
    ++ argumentChanges old.name old.parameters new.parameters

/-! ### Schemas -/

/-- The changes from one version of a schema to another. -/
def Schema.changes (old new : Schema) : List Change :=
  (old.types.without new.types).map (fun t => .typeRemoved t.name)
    ++ (new.types.without old.types).map (fun t => .typeAdded t.name)
    ++ (old.types.common new.types).flatMap (fun (t, u) => typeChanges t u)
    ++ (old.directives.without new.directives).map (fun d => .directiveRemoved d.name)
    ++ (new.directives.without old.directives).map (fun d => .directiveAdded d.name)
    ++ (old.directives.common new.directives).flatMap fun (d, e) => directiveChanges d e

end GraphSchema
