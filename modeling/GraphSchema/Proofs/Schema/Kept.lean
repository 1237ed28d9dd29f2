/-
What is written is kept.

Every definition and every extension that is read shows in the schema that is built: each part of
a type stands in it as it is written, behind the parts that were there before, and no name stands
twice (`TypeBody.Shows`).  One step adds the parts of one definition or extension; a run over all
extensions of a type adds them one after the other.  What every schema has is the only thing that
nothing was written for (`Schema.Shows`).

Arguments are not looked at in this way.  They are put into a table without a look at what is
there already, so of several arguments of one name only the last is left (`Source.StatesArguments`).
-/
import GraphSchema.Proofs.Schema.Texts

namespace GraphSchema

open Syntax

/-! ### What a part shows -/

namespace Source

variable (source : Source)

/-- A parameter is what an argument or an input field states. -/
structure StatesParameter (stated : InputValueSyntax) (p : Parameter) : Prop where
  name : p.name = stated.name
  description : p.description = source.description stated.description stated.position
  location : p.location = source.location stated.position
  type : p.type = WrappedType.ofExpr stated.type
  default : p.default = stated.default

/-- Of the arguments that are stated the last of each name is there, at the place of the first.
So all of them are there exactly if no two have one name. -/
structure StatesArguments (stated : List InputValueSyntax) (parameters : NameTable Parameter) : Prop where
  names : parameters.names = (stated.map InputValueSyntax.name).eraseDups
  last : ∀ p ∈ parameters.toList, ∃ argument,
    (stated.reverse.find? fun argument => argument.name == p.name) = some argument ∧
      source.StatesParameter argument p
  all_iff : List.Forall₂ source.StatesParameter stated parameters.toList ↔
    (stated.map InputValueSyntax.name).Nodup

/-- The field is the one that the text states. -/
structure StatesField (stated : FieldSyntax) (f : Field) : Prop where
  name : f.name = stated.name
  description : f.description = source.description stated.description stated.position
  location : f.location = source.location stated.position
  arguments : source.StatesArguments stated.arguments f.parameters
  type : f.type = WrappedType.ofExpr stated.type
  deprecation : f.deprecation = deprecationOf stated.directives

/-- The value is the one that the text states. -/
structure StatesEnumValue (stated : EnumValueSyntax) (v : EnumValue) : Prop where
  name : v.name = stated.name
  description : v.description = source.description stated.description stated.position
  location : v.location = source.location stated.position
  deprecation : v.deprecation = deprecationOf stated.directives

/-- The directive is the one that the text states. -/
structure StatesDirective (stated : DirectiveSyntax) (d : Directive) : Prop where
  name : d.name = stated.name
  description : d.description = source.description stated.description stated.position
  location : d.location = source.location stated.position
  arguments : source.StatesArguments stated.arguments d.parameters
  repeatable : d.repeatable = stated.repeatable
  locations : d.locations = stated.locations

variable {source}

theorem statesParameter (stated : InputValueSyntax) : source.StatesParameter stated (source.parameter stated) :=
  ⟨rfl, rfl, rfl, rfl, rfl⟩

theorem statesArguments (stated : List InputValueSyntax) :
    source.StatesArguments stated (source.parameters stated) := by
  have hnames : (stated.map source.parameter).map Named.name = stated.map InputValueSyntax.name :=
    List.map_map
  refine ⟨?_, fun p hp => ?_, fun hall => ?_, fun hnodup => ?_⟩
  · rw [← hnames]
    exact NameTable.names_ofList _
  · have hfound := NameTable.find?_name hp
    rw [parameters, NameTable.find?_ofList_last, ← List.map_reverse, List.find?_map] at hfound
    obtain ⟨argument, hargument, rfl⟩ := Option.map_eq_some_iff.mp hfound
    exact ⟨argument, hargument, statesParameter argument⟩
  · have hsame : (source.parameters stated).names = stated.map InputValueSyntax.name :=
      map_eq_of_forall₂ hall fun _ _ _ h => h.name
    rw [← hsame]
    exact (source.parameters stated).names_nodup
  · rw [parameters, NameTable.toList_ofList (hnames.symm ▸ hnodup), List.forall₂_map_right_iff]
    exact List.forall₂_same.mpr fun argument _ => statesParameter argument

theorem statesDirective (stated : DirectiveSyntax) : source.StatesDirective stated (source.directive stated) :=
  ⟨rfl, rfl, rfl, statesArguments stated.arguments, rfl, rfl⟩

end Source

theorem Owner.statesField (owner : Owner) (stated : FieldSyntax) :
    owner.source.StatesField stated (owner.field stated) :=
  ⟨rfl, rfl, rfl, Source.statesArguments stated.arguments, rfl, rfl⟩

theorem Owner.statesEnumValue (owner : Owner) (stated : EnumValueSyntax) :
    owner.source.StatesEnumValue stated (owner.enumValue stated) :=
  ⟨rfl, rfl, rfl, rfl⟩

/-! ### What a type shows

The parts that are written for a type are listed in the order of the definition and its extensions,
each with its source.  The type has them in that order behind those that it had before.
-/

/-- Contents that are written, with the source that they stand in. -/
abbrev Written := Source × TypeContents

namespace Syntax.TypeContents

/-- The interfaces that an object type or an interface declares in the text. -/
def interfaces : TypeContents → List String
  | .object interfaces _ | .interface interfaces _ => interfaces
  | _ => []

/-- The fields that the text gives to an object type or an interface. -/
def fields : TypeContents → List FieldSyntax
  | .object _ fields | .interface _ fields => fields
  | _ => []

/-- The members that the text gives to a union. -/
def members : TypeContents → List String
  | .union members => members
  | _ => []

/-- The values that the text gives to an enum. -/
def values : TypeContents → List EnumValueSyntax
  | .enum values => values
  | _ => []

/-- The fields that the text gives to an input type. -/
def inputFields : TypeContents → List InputValueSyntax
  | .inputObject fields => fields
  | _ => []

end Syntax.TypeContents

namespace TypeBody

/-- The interfaces that an object type or an interface declares. -/
def interfaces : TypeBody → List String
  | .object interfaces _ | .interface interfaces _ => interfaces
  | _ => []

/-- The fields of an object type or an interface, in the order of their names. -/
def fields : TypeBody → List Field
  | .object _ fields | .interface _ fields => fields.toList
  | _ => []

/-- The members of a union, in the order of their names. -/
def members : TypeBody → List TypeRef
  | .union members => members.toList
  | _ => []

/-- The values of an enum, in the order of their names. -/
def values : TypeBody → List EnumValue
  | .enum values => values.toList
  | _ => []

/-- The fields of an input type, in the order of their names. -/
def inputFields : TypeBody → List Parameter
  | .inputObject fields => fields.toList
  | _ => []

end TypeBody

/-- The parts of one sort that are written, each with its source. -/
def partsOf {σ : Type} (part : TypeContents → List σ) (written : List Written) : List (Source × σ) :=
  written.flatMap fun w => (part w.2).map (Prod.mk w.1)

theorem partsOf_append {σ : Type} (part : TypeContents → List σ) (written more : List Written) :
    partsOf part (written ++ more) = partsOf part written ++ partsOf part more :=
  List.flatMap_append

theorem partsOf_singleton {σ : Type} (part : TypeContents → List σ) (w : Written) :
    partsOf part [w] = (part w.2).map (Prod.mk w.1) := List.flatMap_singleton ..

/-- Behind the parts that are there already stand those that are written, in their order, and no
two of all of them have one name. -/
structure ShowsParts {σ α : Type} [Named α] (States : Source → σ → α → Prop) (before : List α)
    (written : List (Source × σ)) (after : List α) : Prop where
  added : ∃ news, after = before ++ news ∧ List.Forall₂ (fun w a => States w.1 w.2 a) written news
  distinct : (after.map Named.name).Nodup

/-- What a type is made of are the parts that it had before and those that are written. -/
structure TypeBody.Shows (before : TypeBody) (written : List Written) (after : TypeBody) : Prop where
  kind : after.kind = before.kind
  kinds : ∀ w ∈ written, w.2.kind = before.kind
  interfaces : after.interfaces = before.interfaces ++ written.flatMap fun w => w.2.interfaces
  interfaces_distinct : after.interfaces.Nodup
  fields : ShowsParts Source.StatesField before.fields (partsOf TypeContents.fields written) after.fields
  members : ShowsParts (fun _ name member => member.name = name) before.members
    (partsOf TypeContents.members written) after.members
  values : ShowsParts Source.StatesEnumValue before.values (partsOf TypeContents.values written) after.values
  inputFields : ShowsParts Source.StatesParameter before.inputFields
    (partsOf TypeContents.inputFields written) after.inputFields

namespace ShowsParts

variable {σ α : Type} [Named α] {States : Source → σ → α → Prop} {before middle after : List α}

theorem nil (h : (before.map Named.name).Nodup) : ShowsParts States before [] before :=
  ⟨⟨[], (List.append_nil _).symm, .nil⟩, h⟩

theorem append {written more : List (Source × σ)} (h : ShowsParts States before written middle)
    (h' : ShowsParts States middle more after) : ShowsParts States before (written ++ more) after := by
  obtain ⟨news, rfl, hnews⟩ := h.added
  obtain ⟨others, rfl, hothers⟩ := h'.added
  exact ⟨⟨news ++ others, List.append_assoc .., List.rel_append hnews hothers⟩, h'.distinct⟩

/-- The parts that one owner adds. -/
theorem of_addsParts {key : σ → String} {make : σ → α} {Admits : σ → Prop} {stated : List σ}
    {t t' : NameTable α} (h : AddsParts key make Admits stated t t') (source : Source)
    (hstates : ∀ s, States source s (make s)) :
    ShowsParts States t.toList (stated.map (Prod.mk source)) t'.toList := by
  refine ⟨⟨stated.map make, h.toList, ?_⟩, t'.names_nodup⟩
  rw [List.forall₂_map_left_iff, List.forall₂_map_right_iff]
  exact List.forall₂_same.mpr fun s _ => hstates s

end ShowsParts

namespace TypeBody

variable {before middle after : TypeBody}

theorem fields_distinct (body : TypeBody) : (body.fields.map Named.name).Nodup := by
  cases body with
  | object _ fields | interface _ fields => exact fields.names_nodup
  | _ => exact .nil

theorem members_distinct (body : TypeBody) : (body.members.map Named.name).Nodup := by
  cases body with
  | union members => exact members.names_nodup
  | _ => exact .nil

theorem values_distinct (body : TypeBody) : (body.values.map Named.name).Nodup := by
  cases body with
  | enum values => exact values.names_nodup
  | _ => exact .nil

theorem inputFields_distinct (body : TypeBody) : (body.inputFields.map Named.name).Nodup := by
  cases body with
  | inputObject fields => exact fields.names_nodup
  | _ => exact .nil

/-- Where nothing is written, a type stays as it is. -/
theorem shows_nil (h : before.interfaces.Nodup) : before.Shows [] before where
  kind := rfl
  kinds := nofun
  interfaces := (List.append_nil _).symm
  interfaces_distinct := h
  fields := .nil before.fields_distinct
  members := .nil before.members_distinct
  values := .nil before.values_distinct
  inputFields := .nil before.inputFields_distinct

/-- **One thing is written behind another.** -/
theorem Shows.append {written more : List Written} (h : before.Shows written middle)
    (h' : middle.Shows more after) : before.Shows (written ++ more) after where
  kind := h'.kind.trans h.kind
  kinds := List.forall_mem_append.mpr ⟨h.kinds, fun w hw => (h'.kinds w hw).trans h.kind⟩
  interfaces := by rw [h'.interfaces, h.interfaces, List.flatMap_append, List.append_assoc]
  interfaces_distinct := h'.interfaces_distinct
  fields := by
    rw [partsOf_append]
    exact h.fields.append h'.fields
  members := by
    rw [partsOf_append]
    exact h.members.append h'.members
  values := by
    rw [partsOf_append]
    exact h.values.append h'.values
  inputFields := by
    rw [partsOf_append]
    exact h.inputFields.append h'.inputFields

/-- **What one definition or extension adds is what it states.** -/
theorem Adds.shows {owner : Owner} {contents : TypeContents} (h : Adds owner contents before after)
    (hdistinct : before.interfaces.Nodup) : before.Shows [(owner.source, contents)] after := by
  have hinterfaces : after.interfaces = before.interfaces ++ contents.interfaces ∧ after.interfaces.Nodup := by
    cases h with
    | object hinterfaces _ | interface hinterfaces _ => exact ⟨hinterfaces.eq, hinterfaces.distinct hdistinct⟩
    | _ => exact ⟨rfl, .nil⟩
  refine ⟨h.kind_eq.2.trans h.kind_eq.1.symm, ?_, ?_, hinterfaces.2, ?_, ?_, ?_, ?_⟩
  · exact List.forall_mem_singleton.mpr h.kind_eq.1.symm
  · rw [List.flatMap_singleton]
    exact hinterfaces.1
  all_goals rw [partsOf_singleton]
  · cases h with
    | object _ hfields | interface _ hfields => exact .of_addsParts hfields _ owner.statesField
    | _ => exact .nil .nil
  · cases h with
    | union hmembers => exact .of_addsParts hmembers _ fun _ => rfl
    | _ => exact .nil .nil
  · cases h with
    | enum hvalues => exact .of_addsParts hvalues _ owner.statesEnumValue
    | _ => exact .nil .nil
  · cases h with
    | inputObject hfields => exact .of_addsParts hfields _ Source.statesParameter
    | _ => exact .nil .nil

end TypeBody

/-- The contents that an extension waits with. -/
def PendingExtension.written (extension : PendingExtension) : Written := (extension.source, extension.type.contents)

/-- **What extensions add one after the other is what they state.** -/
theorem TypeDef.Extended.shows {extensions : List PendingExtension} {t t' : TypeDef}
    (h : t.Extended extensions t') (hdistinct : t.body.interfaces.Nodup) :
    t.body.Shows (extensions.map PendingExtension.written) t'.body := by
  induction h with
  | nil => exact TypeBody.shows_nil hdistinct
  | cons hbody _ ih =>
    have hfirst := hbody.shows hdistinct
    exact hfirst.append (ih hfirst.interfaces_distinct)

/-! ### What a schema shows

From the items that have been read to the schema that has been built: every type is one that is
written or one that every schema has, and shows what is written for it.
-/

section

variable (stated : List StatedItem)

/-- The names of the types that are defined. -/
def definedNames : List String := (stated.filterMap StatedItem.definition?).map fun d => d.2.2.name

/-- The names of the directives that are defined. -/
def definedDirectiveNames : List String := (stated.filterMap StatedItem.directive?).map fun d => d.2.name

/-- What the extensions of a type state, in the order in which they are loaded. -/
def writtenExtensions (name : String) : List Written :=
  ((stated.filterMap StatedItem.extension?).filter fun e => e.type.name == name).map PendingExtension.written

/-- The schema holds what is stated, and besides only what every schema has. -/
structure Schema.Shows (schema : Schema) : Prop where
  types_distinct : (definedNames stated).Nodup
  /-- A definition may take the place of a scalar type of the language. -/
  typeNames : schema.types.names = Builtin.scalarNames
    ++ ((definedNames stated).filter fun name => !decide (name ∈ Builtin.scalarNames))
    ++ Builtin.introspection.map TypeDef.name
  types : ∀ d ∈ stated.filterMap StatedItem.definition?, ∃ t, schema.type? d.2.2.name = some t ∧
    t.description = d.1.description d.2.1 d.2.2.position ∧ t.location = d.1.location d.2.2.position ∧
    (TypeBody.empty d.2.2.contents.kind).Shows
      ((d.1, d.2.2.contents) :: writtenExtensions stated d.2.2.name) t.body
  builtins : ∀ b ∈ Builtin.scalars ++ Builtin.introspection, b.name ∉ definedNames stated →
    ∃ t, schema.type? b.name = some t ∧ t.description = b.description ∧ t.location = b.location ∧
      b.body.Shows (writtenExtensions stated b.name) t.body
  extended : ∀ e ∈ stated.filterMap StatedItem.extension?, e.type.name ∈ schema.types.names
  directives_distinct : (definedDirectiveNames stated).Nodup
  directiveNames : schema.directives.names
    = (Directive.builtinNames.filter fun name => !decide (name ∈ definedDirectiveNames stated))
      ++ definedDirectiveNames stated
  directives : ∀ d ∈ stated.filterMap StatedItem.directive?, ∃ directive,
    schema.directive? d.2.name = some directive ∧ d.1.StatesDirective d.2 directive
  builtinDirectives : ∀ b ∈ Builtin.directives, b.name ∉ definedDirectiveNames stated →
    schema.directive? b.name = some b

end

theorem Builtin.map_name_directives : directives.map Directive.name = Directive.builtinNames := by decide

namespace Draft.Loaded

variable {stated : List StatedItem} {draft : Draft} {types : NameTable TypeDef}

/-- The types of a draft that items are loaded into: those that are defined, each in a table with
the scalar types of the language. -/
theorem definedTypes (h : Draft.empty.Loaded stated draft) : ∃ news,
    List.Forall₂ (fun d t => d.1.Defines d.2.1 d.2.2 t) (stated.filterMap StatedItem.definition?) news ∧
      news.map TypeDef.name = definedNames stated ∧ (definedNames stated).Nodup ∧
        draft.types = news.foldl NameTable.insert (.ofList Builtin.scalars) := by
  obtain ⟨news, hnews, hnodup, -, heq⟩ := h.types
  have hnames : news.map TypeDef.name = definedNames stated := map_eq_of_forall₂ hnews fun _ _ _ h => h.name
  exact ⟨news, hnews, hnames, hnames ▸ hnodup, heq⟩

theorem unreserved (h : Draft.empty.Loaded stated draft) :
    ∀ t ∈ draft.types.toList, Builtin.isReserved t.name = false := by
  obtain ⟨news, hnews, -, -, heq⟩ := h.definedTypes
  have hscalars : ∀ t ∈ Builtin.scalars, Builtin.isReserved t.name = false := by decide
  have hdefined : ∀ t ∈ news, Builtin.isReserved t.name = false :=
    forall_of_forall₂ hnews fun _ _ _ h => h.name ▸ h.unreserved
  intro t ht
  rw [heq] at ht
  rcases NameTable.mem_of_mem_foldl_insert ht with ht | ht
  · exact hdefined t ht
  · exact hscalars t (NameTable.mem_of_mem_ofList ht)

/-- The types are those of the draft and those that every schema has, each with its extensions. -/
theorem extended (h : Draft.empty.Loaded stated draft) (hextend : draft.ExtendsTo types) :
    List.Forall₂ (fun t t' =>
        t.Extended ((stated.filterMap StatedItem.extension?).filter fun e => e.type.name == t.name) t')
      (draft.types.toList ++ Builtin.introspection) types.toList := by
  obtain ⟨-, hall⟩ := foldlM_applyExtension_eq_ok_iff.mp hextend
  rwa [toList_withBuiltins h.unreserved, h.extensions] at hall

/-- A type of the draft, or one that every schema has, is there once it has been extended. -/
theorem exists_extended (h : Draft.empty.Loaded stated draft) (hextend : draft.ExtendsTo types) {t : TypeDef}
    (ht : t ∈ draft.types.toList ++ Builtin.introspection) :
    ∃ t', types.find? t.name = some t' ∧
      t.Extended ((stated.filterMap StatedItem.extension?).filter fun e => e.type.name == t.name) t' := by
  obtain ⟨t', hmem, hextended⟩ := exists_related_of_mem (h.extended hextend) ht
  exact ⟨t', NameTable.find?_eq_some_iff.mpr ⟨hmem, hextended.rest.1⟩, hextended⟩

/-- What every schema has waits to be extended, unless it has been defined anew. -/
theorem mem_of_builtin (h : Draft.empty.Loaded stated draft) {b : TypeDef}
    (hb : b ∈ Builtin.scalars ++ Builtin.introspection) (hother : b.name ∉ definedNames stated) :
    b ∈ draft.types.toList ++ Builtin.introspection := by
  obtain ⟨news, hnews, hnames, hnodup, heq⟩ := h.definedTypes
  rcases List.mem_append.mp hb with hscalar | hintrospection
  · have hlist : (NameTable.ofList Builtin.scalars).toList = Builtin.scalars :=
      NameTable.toList_ofList (by decide)
    have hfound : draft.types.find? b.name = some b := by
      rw [heq]
      refine (NameTable.find?_foldl_insert (hnames ▸ hnodup)).mpr (Or.inr ⟨hnames ▸ hother, ?_⟩)
      exact NameTable.find?_name (hlist.symm ▸ hscalar)
    exact List.mem_append_left _ (NameTable.mem_of_find?_eq_some hfound)
  · exact List.mem_append_right _ hintrospection

theorem typeNames (h : Draft.empty.Loaded stated draft) (hextend : draft.ExtendsTo types) :
    types.names = Builtin.scalarNames
      ++ ((definedNames stated).filter fun name => !decide (name ∈ Builtin.scalarNames))
      ++ Builtin.introspection.map TypeDef.name := by
  obtain ⟨news, hnews, hnames, hnodup, heq⟩ := h.definedTypes
  have hscalars : (NameTable.ofList Builtin.scalars).names = Builtin.scalarNames := by decide
  have hdraft : draft.types.names = Builtin.scalarNames
      ++ (definedNames stated).filter fun name => !decide (name ∈ Builtin.scalarNames) := by
    rw [heq, NameTable.names_foldl_insert, hscalars, show news.map Named.name = definedNames stated from hnames,
      NameTable.eraseDups_of_nodup (hnodup.filter _)]
  rw [← hdraft]
  have hsame : types.toList.map TypeDef.name = (draft.types.toList ++ Builtin.introspection).map TypeDef.name :=
    map_eq_of_forall₂ (h.extended hextend) fun _ _ _ h => h.rest.1
  rw [List.map_append] at hsame
  exact hsame

/-- A definition shows, with the extensions of its type behind it, -/
theorem shows_definition (h : Draft.empty.Loaded stated draft) (hextend : draft.ExtendsTo types)
    {d : Source × Option String × TypeSyntax} (hd : d ∈ stated.filterMap StatedItem.definition?) :
    ∃ t, types.find? d.2.2.name = some t ∧
      t.description = d.1.description d.2.1 d.2.2.position ∧ t.location = d.1.location d.2.2.position ∧
      (TypeBody.empty d.2.2.contents.kind).Shows
        ((d.1, d.2.2.contents) :: writtenExtensions stated d.2.2.name) t.body := by
  obtain ⟨news, hnews, hnames, hnodup, heq⟩ := h.definedTypes
  obtain ⟨t, ht, hdefines⟩ := exists_related_of_mem hnews hd
  have hfound : draft.types.find? t.name = some t := by
    rw [heq]
    exact (NameTable.find?_foldl_insert (hnames ▸ hnodup)).mpr (Or.inl ⟨ht, rfl⟩)
  obtain ⟨t', hfound', hextended⟩ :=
    h.exists_extended hextend (List.mem_append_left _ (NameTable.mem_of_find?_eq_some hfound))
  rw [hdefines.name] at hfound' hextended
  obtain ⟨-, hdescription, hlocation⟩ := hextended.rest
  have hempty : (TypeBody.empty d.2.2.contents.kind).interfaces.Nodup := by
    cases d.2.2.contents.kind <;> exact .nil
  have hfirst := hdefines.body.shows hempty
  exact ⟨t', hfound', hdescription.trans hdefines.description, hlocation.trans hdefines.location,
    hfirst.append (hextended.shows hfirst.interfaces_distinct)⟩

/-- and so does what every schema has, unless it has been defined anew. -/
theorem shows_builtin (h : Draft.empty.Loaded stated draft) (hextend : draft.ExtendsTo types) {b : TypeDef}
    (hb : b ∈ Builtin.scalars ++ Builtin.introspection) (hother : b.name ∉ definedNames stated) :
    ∃ t, types.find? b.name = some t ∧ t.description = b.description ∧ t.location = b.location ∧
      b.body.Shows (writtenExtensions stated b.name) t.body := by
  have hdistinct : ∀ b ∈ Builtin.scalars ++ Builtin.introspection, b.body.interfaces.Nodup := by decide
  obtain ⟨t, hfound, hextended⟩ := h.exists_extended hextend (h.mem_of_builtin hb hother)
  obtain ⟨-, hdescription, hlocation⟩ := hextended.rest
  exact ⟨t, hfound, hdescription, hlocation, hextended.shows (hdistinct b hb)⟩

/-- **A draft is built into what has been loaded.** -/
theorem shows (h : Draft.empty.Loaded stated draft) {schema : Schema} (hbuild : draft.build = .ok schema) :
    schema.Shows stated := by
  obtain ⟨types, hextend, -, -, rfl⟩ := Draft.build_eq_ok_iff.mp hbuild
  obtain ⟨-, -, -, hdistinct, -⟩ := h.definedTypes
  obtain ⟨hnames, hall⟩ := foldlM_applyExtension_eq_ok_iff.mp hextend
  have hlist := draft.toList_directives_withBuiltins
  have hdirectives : draft.directives.toList = (stated.filterMap StatedItem.directive?).map fun d => d.1.directive d.2 :=
    h.directives.toList
  have hdirectiveNames : draft.directives.names = definedDirectiveNames stated := by
    rw [NameTable.names, hdirectives, List.map_map]
    rfl
  have hfind : ∀ directive ∈ draft.withBuiltins.directives.toList,
      (draft.schemaOf types).directive? directive.name = some directive := fun _ => NameTable.find?_name
  refine ⟨hdistinct, h.typeNames hextend, fun d hd => h.shows_definition hextend hd,
    fun b hb hother => h.shows_builtin hextend hb hother, fun e he => ?_, ?_, ?_, fun d hd => ?_,
    fun b hb hother => ?_⟩
  · have hsame : types.names = draft.withBuiltins.types.names :=
      (NameTable.names_eq_of_related hall fun _ _ h => h.rest.1.symm).symm
    show e.type.name ∈ types.names
    rw [hsame]
    exact hnames e (h.extensions ▸ he)
  · rw [← hdirectiveNames]
    exact draft.directives.names_nodup
  · show draft.withBuiltins.directives.toList.map Directive.name = _
    rw [hlist, List.map_append, ← hdirectiveNames, ← Builtin.map_name_directives, List.filter_map]
    refine congrArg₂ _ (congrArg _ (List.filter_congr fun d _ => ?_)) rfl
    rw [Function.comp_apply, Bool.not_inj_iff, Bool.eq_iff_iff, NameTable.contains_iff, decide_eq_true_iff]
  · have hmem : d.1.directive d.2 ∈ draft.withBuiltins.directives.toList := by
      rw [hlist, hdirectives]
      exact List.mem_append_right _ (List.mem_map_of_mem hd)
    exact ⟨d.1.directive d.2, hfind _ hmem, Source.statesDirective d.2⟩
  · refine hfind b ?_
    rw [hlist]
    refine List.mem_append_left _ (List.mem_filter.mpr ⟨hb, ?_⟩)
    rwa [Bool.not_eq_true', ← Bool.not_eq_true, NameTable.contains_iff, hdirectiveNames]

end Draft.Loaded

/--
**What is written is kept.**

The texts that a schema is built from are read, and each type, directive, field, input field,
enum value, member and interface that is written in them, in a definition or an extension, is in
the schema as it is written and in its order; no two of one owner have one name, and nothing else
is there but what every schema has.  Of the arguments of a field or a directive the last of each
name is kept, which are all of them exactly if their names are different.
-/
theorem buildTexts_shows {texts : List SourceText} {schema : Schema} (h : buildTexts texts = .ok schema) :
    ∃ stated, ReadAs 0 texts stated ∧ schema.Shows stated := by
  obtain ⟨_, hload, -⟩ := bind_eq_ok.mp h
  obtain ⟨-, stated, hread, -⟩ := Draft.loadAll_eq_ok_iff.mp hload
  obtain ⟨draft, hloaded, hbuild⟩ := (buildTexts_eq_ok_iff hread).mp h
  exact ⟨stated, hread, hloaded.shows hbuild⟩

/-- Parts of one type in two sources, in the wrong order, and an argument with a default. -/
def scatteredTexts : List SourceText :=
  [(none, "extend type Query \x7b g(n: Int = 1): ID \x7d directive @d(s: String) on FIELD"),
   (none, "type Query \x7b f: [Int!] \x7d extend type __Schema \x7b version: Int \x7d")]

theorem buildTexts_shows_scattered : ∃ schema stated, buildTexts scatteredTexts = .ok schema ∧
    ReadAs 0 scatteredTexts stated ∧ schema.Shows stated := by
  obtain ⟨schema, h⟩ := exists_ok (x := buildTexts scatteredTexts) (by decide +kernel)
  obtain ⟨stated, hread, hshows⟩ := buildTexts_shows h
  exact ⟨schema, stated, h, hread, hshows⟩

/-- Two arguments of one name. -/
def repeatedArgument : List SourceText := [(none, "type Query \x7b f(a: Int, a: String): Int \x7d")]

/-- An argument that is written is lost: it has to give way to a later one of its name. -/
theorem exists_lost_argument : ∃ schema query f, buildTexts repeatedArgument = .ok schema ∧
    schema.type? "Query" = some query ∧ query.body.fields = [f] ∧
      f.parameters.toList.map (fun p => (p.name, p.type)) = [("a", .named "String" true)] := by
  have hparameters : (((buildTexts repeatedArgument).toOption.bind fun schema => schema.type? "Query").map fun query =>
      query.body.fields.map fun f => f.parameters.toList.map fun p => (p.name, p.type))
        = some [[("a", .named "String" true)]] := by decide +kernel
  obtain ⟨schema, h⟩ := exists_ok (x := buildTexts repeatedArgument) (by decide +kernel)
  rw [h] at hparameters
  obtain ⟨query, hquery, hfields⟩ := Option.map_eq_some_iff.mp hparameters
  obtain ⟨f, hf, hlist⟩ := List.map_eq_singleton_iff.mp hfields
  exact ⟨schema, query, f, h, hquery, hf, hlist⟩

end GraphSchema
