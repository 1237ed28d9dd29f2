/-
Drafts: schemas in the making.

Sources are loaded into a draft one after the other, in any order.  Definitions take
effect at once; extensions wait until all sources are in, so that they see definitions
that come later.  `build` turns the draft into a schema whose references all fit.
-/
import GraphSchema.FileSystem.Tree
import GraphSchema.Schema.Basic
import GraphSchema.Schema.BuildError
import GraphSchema.Schema.Builtin
import GraphSchema.Schema.Source
import GraphSchema.Syntax.Definition.Reader

namespace GraphSchema

open Syntax

/-! ### Parts of types -/

/-- The reason of the first `@deprecated` among directives: empty unless it is a string. -/
def deprecationOf (directives : List DirectiveUse) : Option String :=
  (directives.find? fun use => use.name == "deprecated").map fun use =>
    ((use.arguments.lookup "reason").bind Literal.string?).getD ""

/-- The parameter that an argument or an input field stands for. -/
def Source.parameter (source : Source) (p : InputValueSyntax) : Parameter where
  name := p.name
  description := source.description p.description p.position
  location := source.location p.position
  type := WrappedType.ofExpr p.type
  default := p.default

/-- The table of parameters; of several of one name the last counts. -/
def Source.parameters (source : Source) (ps : List InputValueSyntax) : NameTable Parameter :=
  .ofList (ps.map source.parameter)

/-- The type that contents are added to: its name, where it is defined, and where the
contents are stated. -/
structure Owner where
  source : Source
  name : String
  definedAt : Location
  statedAt : Location

namespace Owner

/-- The enum value that is stated. -/
def enumValue (owner : Owner) (v : EnumValueSyntax) : EnumValue where
  name := v.name
  description := owner.source.description v.description v.position
  location := owner.source.location v.position
  owner := owner.name
  deprecation := deprecationOf v.directives

/-- The field that is stated. -/
def field (owner : Owner) (f : FieldSyntax) : Field where
  name := f.name
  description := owner.source.description f.description f.position
  location := owner.source.location f.position
  parent := owner.name
  parameters := owner.source.parameters f.arguments
  type := WrappedType.ofExpr f.type
  deprecation := deprecationOf f.directives

/-- Add a value to an enum, unless the enum has one of that name. -/
def addEnumValue (owner : Owner) (values : NameTable EnumValue) (v : EnumValueSyntax) :
    Except BuildError (NameTable EnumValue) :=
  match values.find? v.name with
  | some existing =>
    .error (.duplicateEnumValue owner.name owner.definedAt existing.location
      (owner.source.location v.position))
  | none => .ok (values.insert (owner.enumValue v))

/-- Add a field to an input type, unless the type has one of that name.  The name itself is not
checked. -/
def addInputField (owner : Owner) (fields : NameTable Parameter) (p : InputValueSyntax) :
    Except BuildError (NameTable Parameter) :=
  match fields.find? p.name with
  | some existing =>
    .error (.duplicateField owner.name p.name existing.location (owner.source.location p.position))
  | none => .ok (fields.insert (owner.source.parameter p))

/-- Add a field to a type, unless its name or that of an argument is one of the introspection, or
the type has a field of that name. -/
def addField (owner : Owner) (fields : NameTable Field) (f : FieldSyntax) :
    Except BuildError (NameTable Field) :=
  let location := owner.source.location f.position
  if Builtin.isReserved f.name then
    .error (.reservedField location f.name owner.name)
  else
    match fields.find? f.name, f.arguments.find? fun p => Builtin.isReserved p.name with
    | some existing, _ => .error (.duplicateField owner.name f.name existing.location location)
    | none, some p =>
      .error (.reservedParameter (owner.source.location p.position) f.name p.name owner.name)
    | none, none => .ok (fields.insert (owner.field f))

/-- Adds an interface to those that a type implements; an interface cannot implement
itself. -/
def addInterface (owner : Owner) (kind : TypeKind) (interfaces : List String) (name : String) :
    Except BuildError (List String) :=
  if kind = .interface ∧ name = owner.name then
    .error (.selfImplementing owner.definedAt name)
  else if interfaces.contains name then
    .error (.duplicateInterface owner.definedAt name owner.name)
  else
    .ok (interfaces ++ [name])

/-- Add a member to a union, unless the union has it. -/
def addMember (owner : Owner) (members : NameTable TypeRef) (name : String) :
    Except BuildError (NameTable TypeRef) :=
  if members.contains name then
    .error (.duplicateMember owner.name name owner.statedAt)
  else
    .ok (members.insert ⟨name, owner.statedAt⟩)

end Owner

/-- The kind of type that contents belong to. -/
def Syntax.TypeContents.kind : TypeContents → TypeKind
  | .scalar => .scalar
  | .object _ _ => .object
  | .interface _ _ => .interface
  | .union _ => .union
  | .enum _ => .enum
  | .inputObject _ => .inputObject

/-- Adds contents to those that a type has already; they have to be of its kind. -/
def TypeBody.add (owner : Owner) : TypeBody → TypeContents → Except BuildError TypeBody
  | .scalar, .scalar => .ok .scalar
  | .object interfaces fields, .object moreInterfaces moreFields => do
    let interfaces ← moreInterfaces.foldlM (owner.addInterface .object) interfaces
    return .object interfaces (← moreFields.foldlM owner.addField fields)
  | .interface interfaces fields, .interface moreInterfaces moreFields => do
    let interfaces ← moreInterfaces.foldlM (owner.addInterface .interface) interfaces
    return .interface interfaces (← moreFields.foldlM owner.addField fields)
  | .union members, .union more => .union <$> more.foldlM owner.addMember members
  | .enum values, .enum more => .enum <$> more.foldlM owner.addEnumValue values
  | .inputObject fields, .inputObject more =>
    .inputObject <$> more.foldlM owner.addInputField fields
  | body, contents =>
    .error (.extensionOfOtherKind owner.name body.kind contents.kind owner.statedAt)

/-! ### Drafts -/

/-- An extension that waits for all sources, with the source it stands in. -/
structure PendingExtension where
  source : Source
  type : TypeSyntax

/-- A schema that is being loaded: what the sources so far define, and the extensions that wait for
the types they extend. -/
structure Draft where
  types : NameTable TypeDef
  directives : NameTable Directive
  query : Option RootDeclaration
  mutation : Option RootDeclaration
  subscription : Option RootDeclaration
  extensions : List PendingExtension
  /-- How many sources without a path have been loaded. -/
  unnamed : UInt16

namespace Draft

/-- The draft that no source has been loaded into. -/
def empty : Draft where
  types := .ofList Builtin.scalars
  directives := ∅
  query := none
  mutation := none
  subscription := none
  extensions := []
  unnamed := 0

/-- The type that is declared as the root of an operation. -/
def root? (draft : Draft) : OperationKind → Option RootDeclaration
  | .query => draft.query
  | .mutation => draft.mutation
  | .subscription => draft.subscription

/-- Note the type that an operation starts from. -/
def setRoot (draft : Draft) (operation : OperationKind) (declaration : RootDeclaration) : Draft :=
  match operation with
  | .query => { draft with query := some declaration }
  | .mutation => { draft with mutation := some declaration }
  | .subscription => { draft with subscription := some declaration }

/-! ### Loading -/

/-- Adds a type.  It may take the place of a scalar type of the language, but of no other
type. -/
def addType (draft : Draft) (type : TypeDef) : Except BuildError Draft :=
  match draft.types.find? type.name with
  | some existing =>
    if existing.isBuiltin ∧ existing.kind = .scalar then
      .ok { draft with types := draft.types.insert type }
    else
      .error (.duplicateType type.name existing.location type.location)
  | none => .ok { draft with types := draft.types.insert type }

/-- Loads a type definition. -/
def define (draft : Draft) (source : Source) (description : Option String) (type : TypeSyntax) :
    Except BuildError Draft := do
  let location := source.location type.position
  if Builtin.isReserved type.name then
    throw (.reservedType location type.name)
  let owner : Owner := ⟨source, type.name, location, location⟩
  let body ← (TypeBody.empty type.contents.kind).add owner type.contents
  draft.addType
    { name := type.name
      description := source.description description type.position
      location
      body }

/-- Loads a directive definition. -/
def defineDirective (draft : Draft) (source : Source) (d : DirectiveSyntax) :
    Except BuildError Draft :=
  let location := source.location d.position
  if Builtin.isReserved d.name then
    .error (.reservedDirective location d.name)
  else
    match draft.directives.find? d.name with
    | some existing => .error (.duplicateDirective d.name existing.location location)
    | none =>
      let directive : Directive :=
        { name := d.name
          description := source.description d.description d.position
          location
          parameters := source.parameters d.arguments
          repeatable := d.repeatable
          locations := d.locations }
      .ok { draft with directives := draft.directives.insert directive }

/-- Declares a root, unless the operation has one already. -/
def declareRoot (location : Location) (draft : Draft) :
    OperationKind × Option String → Except BuildError Draft
  | (_, none) => .ok draft
  | (operation, some type) =>
    match draft.root? operation with
    | some existing => .error (.duplicateRoot operation existing ⟨location, type⟩)
    | none => .ok (draft.setRoot operation ⟨location, type⟩)

/-- Refuses two operations with one root. -/
def checkDistinct (draft : Draft) (pair : OperationKind × OperationKind) : Except BuildError Unit :=
  match draft.root? pair.1, draft.root? pair.2 with
  | some first, some second =>
    if first.type = second.type then
      .error (.sharedRoot first.type pair.1 first.location pair.2 second.location)
    else
      .ok ()
  | _, _ => .ok ()

/-- Loads a schema block. -/
def declareRoots (draft : Draft) (source : Source) (block : SchemaBlock) :
    Except BuildError Draft := do
  let location := source.location block.position
  let draft ← [(OperationKind.query, block.query), (.mutation, block.mutation),
    (.subscription, block.subscription)].foldlM (declareRoot location) draft
  [(OperationKind.query, OperationKind.mutation), (.query, .subscription),
    (.mutation, .subscription)].forM draft.checkDistinct
  return draft

/-- Loads an item of a source. -/
def loadItem (source : Source) (draft : Draft) : Item → Except BuildError Draft
  | .schemaBlock block => draft.declareRoots source block
  | .typeDefinition description type => draft.define source description type
  | .typeExtension type =>
    .ok { draft with extensions := draft.extensions ++ [⟨source, type⟩] }
  | .directiveDefinition directive => draft.defineDirective source directive

/-- The name of a source that has no path: the number of such sources before it. -/
def unnamedPath (n : UInt16) : FilePath := ⟨"str://" ++ toString n.toNat⟩

/-- Loads the text of a source. -/
def loadText (draft : Draft) (path : FilePath) (content : String) : Except BuildError Draft :=
  match readSchemaDocument content with
  | none => .error (.unparsable path)
  | some items => items.foldlM (loadItem (Source.ofText path content)) draft

/-- Loads a source, which gets a name if it has no path. -/
def load (draft : Draft) (path? : Option FilePath) (content : String) : Except BuildError Draft :=
  match path? with
  | some path => draft.loadText path content
  | none =>
    { draft with unnamed := draft.unnamed + 1 }.loadText (unnamedPath draft.unnamed) content

/-- Loads the text of a file. -/
def loadFile (fs : FileSystem) (draft : Draft) (path : FilePath) : Except BuildError Draft :=
  match fs.read path with
  | .ok content => draft.load (some path) content
  | .error e => .error (.unreadable e)

/-- Loads the texts of files, one after the other. -/
def loadFiles (fs : FileSystem) (draft : Draft) (paths : List FilePath) :
    Except BuildError Draft :=
  paths.foldlM (loadFile fs) draft

/-! ### Building -/

/-- The draft with what every schema has.  A directive of the language comes first, unless
the draft has its own of that name; the introspection types come last. -/
def withBuiltins (draft : Draft) : Draft :=
  let missing := Builtin.directives.filter fun d => !draft.directives.contains d.name
  { draft with
    directives := .ofList (missing ++ draft.directives.toList)
    types := Builtin.introspection.foldl NameTable.insert draft.types }

/-- Applies an extension to the type that it extends. -/
def applyExtension (types : NameTable TypeDef) (extension : PendingExtension) :
    Except BuildError (NameTable TypeDef) :=
  let name := extension.type.name
  let location := extension.source.location extension.type.position
  match types.find? name with
  | none => .error (.extensionOfUndefined name location)
  | some type => do
    let owner : Owner := ⟨extension.source, name, type.location, location⟩
    let body ← type.body.add owner extension.type.contents
    return types.insert { type with body }

/-- The root of an operation: the declared one, which has to be an object type, or else
the object type that has the name of the operation. -/
def resolveRoot (draft : Draft) (types : NameTable TypeDef) (operation : OperationKind) :
    Except BuildError (Option String) :=
  let isObject (name : String) : Bool := types.kindOf? name == some .object
  match draft.root? operation with
  | some declared =>
    if isObject declared.type then .ok (some declared.type)
    else .error (.rootNotObject operation declared.location declared.type)
  | none => .ok (if isObject operation.name then some operation.name else none)

/-- Builds the schema. -/
def build (draft : Draft) : Except BuildError Schema := do
  let draft := draft.withBuiltins
  let types ← draft.extensions.foldlM applyExtension draft.types
  let errors := types.referenceErrors draft.directives
  if !errors.isEmpty then
    throw (.badReferences errors)
  match ← draft.resolveRoot types .query with
  | none => throw .noQuery
  | some query =>
    let mutation ← draft.resolveRoot types .mutation
    let subscription ← draft.resolveRoot types .subscription
    return { types, directives := draft.directives, query, mutation, subscription }

end Draft

end GraphSchema
