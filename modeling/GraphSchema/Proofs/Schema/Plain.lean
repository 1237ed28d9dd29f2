/-
Loading without places.

If every description is written as a string, the places of what is written show in nothing but the
places of what is loaded: documents without their places, all in one source (`Source.plain`), are
loaded and built to the schema without its places.  Each step is followed by one statement of the
same form, from parts of types up to `Draft.build_unplaced_iff`.
-/
import GraphSchema.Proofs.Schema.Built
import GraphSchema.Proofs.Schema.Linked
import GraphSchema.Proofs.Schema.Loaded
import GraphSchema.Proofs.Schema.Reordered
import GraphSchema.Proofs.Schema.Unplaced

namespace GraphSchema

open Syntax

/-! ### Syntax without places

All documents are moved to one source without lines.  Nothing can be found above any position in
it, so of descriptions only strings are left.
-/

namespace Syntax

/-- The parameter at no place. -/
def InputValueSyntax.unplaced (p : InputValueSyntax) : InputValueSyntax := { p with position := nowhere }

/-- The field at no place, nor its arguments. -/
def FieldSyntax.unplaced (f : FieldSyntax) : FieldSyntax :=
  { f with position := nowhere, arguments := f.arguments.map InputValueSyntax.unplaced }

/-- The value at no place. -/
def EnumValueSyntax.unplaced (v : EnumValueSyntax) : EnumValueSyntax := { v with position := nowhere }

/-- What the text gives a type, each part at no place. -/
def TypeContents.unplaced : TypeContents → TypeContents
  | .scalar => .scalar
  | .object interfaces fields => .object interfaces (fields.map FieldSyntax.unplaced)
  | .interface interfaces fields => .interface interfaces (fields.map FieldSyntax.unplaced)
  | .union members => .union members
  | .enum values => .enum (values.map EnumValueSyntax.unplaced)
  | .inputObject fields => .inputObject (fields.map InputValueSyntax.unplaced)

/-- Of a type the directives are left out as well: nothing reads them. -/
def TypeSyntax.unplaced (type : TypeSyntax) : TypeSyntax :=
  { type with position := nowhere, directives := [], contents := type.contents.unplaced }

/-- The directive at no place, nor its parameters. -/
def DirectiveSyntax.unplaced (d : DirectiveSyntax) : DirectiveSyntax :=
  { d with position := nowhere, arguments := d.arguments.map InputValueSyntax.unplaced }

/-- The item at no place, nor any of its parts. -/
def Item.unplaced : Item → Item
  | .schemaBlock block => .schemaBlock { block with position := nowhere }
  | .typeDefinition description type => .typeDefinition description type.unplaced
  | .typeExtension type => .typeExtension type.unplaced
  | .directiveDefinition d => .directiveDefinition d.unplaced

@[simp] theorem TypeContents.kind_unplaced (contents : TypeContents) : contents.unplaced.kind = contents.kind := by
  cases contents <;> rfl

end Syntax

/-- The source without a text: nothing can be read from around an element. -/
def Source.plain : Source := ⟨noFile, []⟩

theorem Source.description_plain (written : Option String) (position : Position) :
    plain.description written position = written := by
  cases written <;> rfl

/-! ### Descriptions as strings

The condition under which dropping places drops nothing else.  It holds of every source that has no
comment line.
-/

/-- The description of an element is written as a string, or it has none. -/
def Source.Describes (source : Source) (written : Option String) (position : Position) : Prop :=
  source.description written position = written

namespace Syntax

/-- The description of the parameter is written as a string, or it has none. -/
def InputValueSyntax.Described (source : Source) (p : InputValueSyntax) : Prop :=
  source.Describes p.description p.position

/-- The same of a field and each of its arguments. -/
structure FieldSyntax.Described (source : Source) (f : FieldSyntax) : Prop where
  self : source.Describes f.description f.position
  arguments : ∀ p ∈ f.arguments, p.Described source

/-- The same of a value of an enum. -/
def EnumValueSyntax.Described (source : Source) (v : EnumValueSyntax) : Prop :=
  source.Describes v.description v.position

/-- The same of every part of a type. -/
def TypeContents.Described (source : Source) : TypeContents → Prop
  | .scalar | .union _ => True
  | .object _ fields | .interface _ fields => ∀ f ∈ fields, f.Described source
  | .enum values => ∀ v ∈ values, v.Described source
  | .inputObject fields => ∀ p ∈ fields, p.Described source

/-- The same of a directive and each of its parameters. -/
structure DirectiveSyntax.Described (source : Source) (d : DirectiveSyntax) : Prop where
  self : source.Describes d.description d.position
  arguments : ∀ p ∈ d.arguments, p.Described source

end Syntax

/-- Every description in an item is written as a string. -/
def StatedItem.Described : StatedItem → Prop
  | (_, .schemaBlock _) => True
  | (source, .typeDefinition description type) =>
    source.Describes description type.position ∧ type.contents.Described source
  | (source, .typeExtension type) => type.contents.Described source
  | (source, .directiveDefinition d) => d.Described source

/-- In a text without comment lines every description is written as a string. -/
theorem Source.describes_of_uncommented {source : Source} (h : ∀ line ∈ source.lines, commentText? line = none)
    (written : Option String) (position : Position) : source.Describes written position := by
  have hleading : ∀ lines : List (List Char), (∀ line ∈ lines, line ∈ source.lines) → leadingComments lines = [] := by
    intro lines hlines
    cases lines with
    | nil => rfl
    | cons line lines => rw [leadingComments, h line (hlines line List.mem_cons_self)]
  have habove : source.commentAbove position = none := by
    unfold commentAbove
    split
    · rfl
    · rw [hleading _ fun line hline => List.mem_of_mem_take (List.mem_reverse.mp hline)]
      exact ite_self none
  rw [Describes, description, habove, Option.or_none]

theorem StatedItem.described_of_uncommented {stated : StatedItem}
    (h : ∀ line ∈ stated.1.lines, Source.commentText? line = none) : stated.Described := by
  have hdescribes := Source.describes_of_uncommented h
  have hparameter : ∀ p : InputValueSyntax, p.Described stated.1 := fun _ => hdescribes _ _
  have hfield : ∀ f : FieldSyntax, f.Described stated.1 := fun _ => ⟨hdescribes _ _, fun _ _ => hparameter _⟩
  have hcontents : ∀ contents : TypeContents, contents.Described stated.1 := by
    intro contents
    cases contents with
    | scalar | union => trivial
    | object | interface => exact fun _ _ => hfield _
    | enum => exact fun _ _ => hdescribes _ _
    | inputObject => exact fun _ _ => hparameter _
  obtain ⟨source, item⟩ := stated
  cases item with
  | schemaBlock => trivial
  | typeDefinition => exact ⟨hdescribes _ _, hcontents _⟩
  | typeExtension => exact hcontents _
  | directiveDefinition => exact ⟨hdescribes _ _, fun _ _ => hparameter _⟩

/-- What is read from texts without comment lines has no other descriptions than strings. -/
theorem ReadAs.described {n : UInt16} {texts : List SourceText} {stated : List StatedItem}
    (h : ReadAs n texts stated)
    (huncommented : ∀ text ∈ texts, ∀ line ∈ Text.lines text.2.toList, Source.commentText? line = none) :
    ∀ item ∈ stated, item.Described := by
  induction h with
  | nil => exact nofun
  | cons _ _ ih =>
    obtain ⟨hfirst, hrest⟩ := List.forall_mem_cons.mp huncommented
    refine List.forall_mem_append.mpr ⟨List.forall_mem_map.mpr fun item _ => ?_, ih hrest⟩
    exact StatedItem.described_of_uncommented hfirst

/-! ### Tables -/

namespace NameTable

variable {α β : Type} [Named α] [Named β] {f : α → β} (hf : ∀ a, Named.name (f a) = Named.name a)

theorem names_map (t : NameTable α) : (t.map f hf).names = t.names := by
  have hnames : Named.name ∘ f = Named.name := funext hf
  unfold names map
  rw [List.map_map, hnames]

theorem map_insert (t : NameTable α) (a : α) : (t.insert a).map f hf = (t.map f hf).insert (f a) := by
  refine NameTable.ext ?_
  by_cases hmem : Named.name a ∈ t.names
  · have hmem' : Named.name (f a) ∈ (t.map f hf).names := by rwa [names_map, hf]
    rw [toList_insert_of_mem hmem']
    show (t.insert a).toList.map f = replaceIn (f a) (t.toList.map f)
    rw [toList_insert_of_mem hmem, replaceIn, replaceIn, List.map_map, List.map_map]
    refine List.map_congr_left fun b _ => ?_
    simp only [Function.comp_apply, hf, apply_ite f]
  · have hmem' : Named.name (f a) ∉ (t.map f hf).names := by rwa [names_map, hf]
    rw [toList_insert_of_not_mem hmem']
    show (t.insert a).toList.map f = t.toList.map f ++ [f a]
    rw [toList_insert_of_not_mem hmem, List.map_append, List.map_singleton]

theorem map_foldl_insert (t : NameTable α) (entries : List α) :
    (entries.foldl insert t).map f hf = (entries.map f).foldl insert (t.map f hf) := by
  induction entries generalizing t with
  | nil => rfl
  | cons a entries ih => rw [List.foldl_cons, ih, map_insert, List.map_cons, List.foldl_cons]

theorem map_ofList (entries : List α) : (ofList entries).map f hf = ofList (entries.map f) :=
  map_foldl_insert hf empty entries

end NameTable

/-! ### Parts -/

theorem parameter_unplaced {source : Source} {p : InputValueSyntax} (h : p.Described source) :
    Source.plain.parameter p.unplaced = (source.parameter p).unplaced := by
  have hdescription : Source.plain.description p.unplaced.description p.unplaced.position
      = source.description p.description p.position := (Source.description_plain _ _).trans (Eq.symm h)
  unfold Source.parameter
  rw [hdescription]
  rfl

theorem parameters_unplaced {source : Source} {ps : List InputValueSyntax} (h : ∀ p ∈ ps, p.Described source) :
    Source.plain.parameters (ps.map InputValueSyntax.unplaced)
      = (source.parameters ps).map Parameter.unplaced Parameter.name_unplaced := by
  unfold Source.parameters
  rw [NameTable.map_ofList, List.map_map, List.map_map]
  exact congrArg NameTable.ofList (List.map_congr_left fun p hp => parameter_unplaced (h p hp))

theorem directive_unplaced {source : Source} {d : DirectiveSyntax} (h : d.Described source) :
    Source.plain.directive d.unplaced = (source.directive d).unplaced := by
  have hdescription : Source.plain.description d.unplaced.description d.unplaced.position
      = source.description d.description d.position := (Source.description_plain _ _).trans (Eq.symm h.self)
  have hparameters : Source.plain.parameters d.unplaced.arguments
      = (source.parameters d.arguments).map Parameter.unplaced Parameter.name_unplaced :=
    parameters_unplaced h.arguments
  unfold Source.directive
  rw [hdescription, hparameters]
  rfl

namespace Owner

/-- The owner of what is stated without its place. -/
def plain (definedAt : Location) (name : String) : Owner :=
  ⟨Source.plain, name, definedAt, Source.plain.location nowhere⟩

variable {owner : Owner} {definedAt : Location}

theorem field_unplaced {f : FieldSyntax} (h : f.Described owner.source) :
    (plain definedAt owner.name).field f.unplaced = (owner.field f).unplaced := by
  have hdescription : Source.plain.description f.unplaced.description f.unplaced.position
      = owner.source.description f.description f.position :=
    (Source.description_plain _ _).trans (Eq.symm h.self)
  have hparameters : Source.plain.parameters f.unplaced.arguments
      = (owner.source.parameters f.arguments).map Parameter.unplaced Parameter.name_unplaced :=
    parameters_unplaced h.arguments
  unfold field
  show Field.mk _ (Source.plain.description _ _) _ _ (Source.plain.parameters _) _ _ = _
  rw [hdescription, hparameters]
  rfl

theorem enumValue_unplaced {v : EnumValueSyntax} (h : v.Described owner.source) :
    (plain definedAt owner.name).enumValue v.unplaced = (owner.enumValue v).unplaced := by
  have hdescription : Source.plain.description v.unplaced.description v.unplaced.position
      = owner.source.description v.description v.position :=
    (Source.description_plain _ _).trans (Eq.symm h)
  unfold enumValue
  show EnumValue.mk _ (Source.plain.description _ _) _ _ _ = _
  rw [hdescription]
  rfl

end Owner

/-- A field may be added wherever it is. -/
theorem Syntax.FieldSyntax.admitted_unplaced (f : FieldSyntax) : f.unplaced.Admitted ↔ f.Admitted :=
  and_congr Iff.rfl List.forall_mem_map

/-- Parts that are changed one by one are added to a table that has been changed. -/
theorem AddsParts.map_iff {σ α : Type} [Named α] {key : σ → String} {make make' : σ → α}
    {Admits Admits' : σ → Prop} {e : σ → σ} {f : α → α} (hf : ∀ a, Named.name (f a) = Named.name a)
    (hname : ∀ s, Named.name (make s) = key s) {stated : List σ}
    (hstated : ∀ s ∈ stated, key (e s) = key s ∧ (Admits' (e s) ↔ Admits s) ∧ make' (e s) = f (make s))
    {t u : NameTable α} :
    AddsParts key make' Admits' (stated.map e) (t.map f hf) u ↔
      ∃ t', AddsParts key make Admits stated t t' ∧ u = t'.map f hf := by
  have hkeys : (stated.map e).map key = stated.map key := by
    rw [List.map_map]
    exact List.map_congr_left fun s hs => (hstated s hs).1
  have hmakes : (stated.map e).map make' = (stated.map make).map f := by
    rw [List.map_map, List.map_map]
    exact List.map_congr_left fun s hs => (hstated s hs).2.2
  have hlist : ∀ t' : NameTable α, AddsParts key make Admits stated t t' →
      (t'.map f hf).toList = (t.map f hf).toList ++ (stated.map e).map make' := by
    intro t' h
    show t'.toList.map f = t.toList.map f ++ _
    rw [h.toList, List.map_append, hmakes]
  constructor
  · intro h
    have hnew := h.new
    rw [NameTable.names_map, hkeys] at hnew
    obtain ⟨t', ht'⟩ := exists_addsParts (t := t) hname (fun s hs =>
      (hstated s hs).2.1.mp (h.admits (e s) (List.mem_map_of_mem hs))) hnew
    exact ⟨t', ht', NameTable.ext (h.toList.trans (hlist t' ht').symm)⟩
  · rintro ⟨t', h, rfl⟩
    refine ⟨List.forall_mem_map.mpr fun s hs => (hstated s hs).2.1.mpr (h.admits s hs), ?_, hlist t' h⟩
    rw [NameTable.names_map, hkeys]
    exact h.new

/-! ### Types

Adding with and without places, for each kind of type.  Both directions are needed: the success of
one run is concluded from that of the other.
-/

section

variable {owner : Owner}

theorem adds_scalar_iff {u : TypeBody} : TypeBody.Adds owner .scalar .scalar u ↔ u = .scalar := by
  constructor
  · rintro ⟨⟩
    rfl
  · rintro rfl
    exact .scalar

theorem adds_object_iff {stated interfaces : List String} {more : List FieldSyntax} {fields : NameTable Field}
    {u : TypeBody} : TypeBody.Adds owner (.object stated more) (.object interfaces fields) u ↔
      ∃ interfaces' fields', AddsInterfaces owner.name .object stated interfaces interfaces' ∧
        owner.AddsFields more fields fields' ∧ u = .object interfaces' fields' := by
  constructor
  · rintro ⟨⟩
    exact ⟨_, _, ‹_›, ‹_›, rfl⟩
  · rintro ⟨_, _, hinterfaces, hfields, rfl⟩
    exact .object hinterfaces hfields

theorem adds_interface_iff {stated interfaces : List String} {more : List FieldSyntax} {fields : NameTable Field}
    {u : TypeBody} : TypeBody.Adds owner (.interface stated more) (.interface interfaces fields) u ↔
      ∃ interfaces' fields', AddsInterfaces owner.name .interface stated interfaces interfaces' ∧
        owner.AddsFields more fields fields' ∧ u = .interface interfaces' fields' := by
  constructor
  · rintro ⟨⟩
    exact ⟨_, _, ‹_›, ‹_›, rfl⟩
  · rintro ⟨_, _, hinterfaces, hfields, rfl⟩
    exact .interface hinterfaces hfields

theorem adds_union_iff {stated : List String} {members : NameTable TypeRef} {u : TypeBody} :
    TypeBody.Adds owner (.union stated) (.union members) u ↔
      ∃ members', owner.AddsMembers stated members members' ∧ u = .union members' := by
  constructor
  · rintro ⟨⟩
    exact ⟨_, ‹_›, rfl⟩
  · rintro ⟨_, hmembers, rfl⟩
    exact .union hmembers

theorem adds_enum_iff {stated : List EnumValueSyntax} {values : NameTable EnumValue} {u : TypeBody} :
    TypeBody.Adds owner (.enum stated) (.enum values) u ↔
      ∃ values', owner.AddsEnumValues stated values values' ∧ u = .enum values' := by
  constructor
  · rintro ⟨⟩
    exact ⟨_, ‹_›, rfl⟩
  · rintro ⟨_, hvalues, rfl⟩
    exact .enum hvalues

theorem adds_inputObject_iff {stated : List InputValueSyntax} {fields : NameTable Parameter} {u : TypeBody} :
    TypeBody.Adds owner (.inputObject stated) (.inputObject fields) u ↔
      ∃ fields', owner.AddsInputFields stated fields fields' ∧ u = .inputObject fields' := by
  constructor
  · rintro ⟨⟩
    exact ⟨_, ‹_›, rfl⟩
  · rintro ⟨_, hfields, rfl⟩
    exact .inputObject hfields

end

section

variable {owner : Owner} {definedAt : Location}

theorem addsFields_unplaced_iff {stated : List FieldSyntax} (h : ∀ f ∈ stated, f.Described owner.source)
    {fields u : NameTable Field} :
    (Owner.plain definedAt owner.name).AddsFields (stated.map FieldSyntax.unplaced)
        (fields.map Field.unplaced Field.name_unplaced) u ↔
      ∃ fields', owner.AddsFields stated fields fields' ∧ u = fields'.map Field.unplaced Field.name_unplaced := by
  have hname : ∀ f : FieldSyntax, Named.name (owner.field f) = f.name := fun _ => rfl
  have hstated : ∀ f ∈ stated, f.unplaced.name = f.name ∧ (f.unplaced.Admitted ↔ f.Admitted) ∧
      (Owner.plain definedAt owner.name).field f.unplaced = (owner.field f).unplaced :=
    fun f hf => ⟨rfl, f.admitted_unplaced, Owner.field_unplaced (h f hf)⟩
  exact AddsParts.map_iff Field.name_unplaced hname hstated

theorem addsEnumValues_unplaced_iff {stated : List EnumValueSyntax} (h : ∀ v ∈ stated, v.Described owner.source)
    {values u : NameTable EnumValue} :
    (Owner.plain definedAt owner.name).AddsEnumValues (stated.map EnumValueSyntax.unplaced)
        (values.map EnumValue.unplaced EnumValue.name_unplaced) u ↔
      ∃ values', owner.AddsEnumValues stated values values' ∧
        u = values'.map EnumValue.unplaced EnumValue.name_unplaced := by
  have hname : ∀ v : EnumValueSyntax, Named.name (owner.enumValue v) = v.name := fun _ => rfl
  have hstated : ∀ v ∈ stated, v.unplaced.name = v.name ∧ (True ↔ True) ∧
      (Owner.plain definedAt owner.name).enumValue v.unplaced = (owner.enumValue v).unplaced :=
    fun v hv => ⟨rfl, Iff.rfl, Owner.enumValue_unplaced (h v hv)⟩
  exact AddsParts.map_iff EnumValue.name_unplaced hname hstated

theorem addsInputFields_unplaced_iff {stated : List InputValueSyntax} (h : ∀ p ∈ stated, p.Described owner.source)
    {fields u : NameTable Parameter} :
    (Owner.plain definedAt owner.name).AddsInputFields (stated.map InputValueSyntax.unplaced)
        (fields.map Parameter.unplaced Parameter.name_unplaced) u ↔
      ∃ fields', owner.AddsInputFields stated fields fields' ∧
        u = fields'.map Parameter.unplaced Parameter.name_unplaced := by
  have hname : ∀ p : InputValueSyntax, Named.name (owner.source.parameter p) = p.name := fun _ => rfl
  have hstated : ∀ p ∈ stated, p.unplaced.name = p.name ∧ (True ↔ True) ∧
      Source.plain.parameter p.unplaced = (owner.source.parameter p).unplaced :=
    fun p hp => ⟨rfl, Iff.rfl, parameter_unplaced (h p hp)⟩
  exact AddsParts.map_iff Parameter.name_unplaced hname hstated

theorem addsMembers_unplaced_iff (hplace : owner.statedAt.unplaced = Source.plain.location nowhere)
    {stated : List String} {members u : NameTable TypeRef} :
    (Owner.plain definedAt owner.name).AddsMembers stated (members.map TypeRef.unplaced TypeRef.name_unplaced) u ↔
      ∃ members', owner.AddsMembers stated members members' ∧
        u = members'.map TypeRef.unplaced TypeRef.name_unplaced := by
  have hname : ∀ name : String, Named.name (⟨name, owner.statedAt⟩ : TypeRef) = id name := fun _ => rfl
  have hstated : ∀ name ∈ stated, id (id name) = id name ∧ (True ↔ True) ∧
      (⟨id name, Source.plain.location nowhere⟩ : TypeRef) = TypeRef.unplaced ⟨name, owner.statedAt⟩ :=
    fun name _ => ⟨rfl, Iff.rfl, by rw [TypeRef.unplaced, hplace]; rfl⟩
  have hiff : (Owner.plain definedAt owner.name).AddsMembers (stated.map id)
      (members.map TypeRef.unplaced TypeRef.name_unplaced) u ↔ _ :=
    AddsParts.map_iff TypeRef.name_unplaced hname hstated
  rwa [List.map_id] at hiff

/-- Contents without their places are added to types without theirs. -/
theorem TypeBody.adds_unplaced_iff {contents : TypeContents} {body u : TypeBody}
    (hplace : owner.statedAt.unplaced = Source.plain.location nowhere) (h : contents.Described owner.source) :
    Adds (Owner.plain definedAt owner.name) contents.unplaced body.unplaced u ↔
      ∃ body', Adds owner contents body body' ∧ u = body'.unplaced := by
  by_cases hkind : body.kind = contents.kind
  · cases contents with
    | scalar =>
      cases body with
      | scalar =>
        show Adds _ .scalar .scalar u ↔ _
        simp only [adds_scalar_iff, exists_eq_left]
        rfl
      | _ => cases hkind
    | object more fs =>
      cases body with
      | object interfaces fields =>
        show Adds _ (.object _ _) (.object _ _) u ↔ _
        simp only [adds_object_iff, addsFields_unplaced_iff h, ↓existsAndEq, and_true, and_assoc]
        rfl
      | _ => cases hkind
    | interface more fs =>
      cases body with
      | interface interfaces fields =>
        show Adds _ (.interface _ _) (.interface _ _) u ↔ _
        simp only [adds_interface_iff, addsFields_unplaced_iff h, ↓existsAndEq, and_true, and_assoc]
        rfl
      | _ => cases hkind
    | union more =>
      cases body with
      | union members =>
        show Adds _ (.union _) (.union _) u ↔ _
        simp only [adds_union_iff, addsMembers_unplaced_iff hplace, ↓existsAndEq, and_true]
        rfl
      | _ => cases hkind
    | enum more =>
      cases body with
      | enum values =>
        show Adds _ (.enum _) (.enum _) u ↔ _
        simp only [adds_enum_iff, addsEnumValues_unplaced_iff h, ↓existsAndEq, and_true]
        rfl
      | _ => cases hkind
    | inputObject more =>
      cases body with
      | inputObject fields =>
        show Adds _ (.inputObject _) (.inputObject _) u ↔ _
        simp only [adds_inputObject_iff, addsInputFields_unplaced_iff h, ↓existsAndEq, and_true]
        rfl
      | _ => cases hkind
  · refine ⟨fun hadds => absurd ?_ hkind, fun ⟨_, hadds, _⟩ => absurd hadds.kind_eq.1 hkind⟩
    have hsame := hadds.kind_eq.1
    rwa [kind_unplaced, TypeContents.kind_unplaced] at hsame

end

/-! ### Definitions -/

/-- A definition without its places defines the type without its places. -/
theorem Source.defines_unplaced_iff {source : Source} {description : Option String} {type : TypeSyntax}
    (hdescribes : source.Describes description type.position) (hcontents : type.contents.Described source)
    {u : TypeDef} :
    Source.plain.Defines description type.unplaced u ↔
      ∃ t, source.Defines description type t ∧ u = t.unplaced := by
  have hempty : TypeBody.empty type.unplaced.contents.kind = (TypeBody.empty type.contents.kind).unplaced := by
    rw [TypeSyntax.unplaced, TypeContents.kind_unplaced]
    cases type.contents.kind <;> rfl
  let owner : Owner := source.owner type
  have hplace : owner.statedAt.unplaced = plain.location nowhere := rfl
  have hadds : ∀ v, TypeBody.Adds (plain.owner type.unplaced) type.unplaced.contents
      (TypeBody.empty type.contents.kind).unplaced v ↔ ∃ body, TypeBody.Adds owner type.contents
        (.empty type.contents.kind) body ∧ v = body.unplaced := fun _ => TypeBody.adds_unplaced_iff hplace hcontents
  constructor
  · rintro ⟨hunreserved, hname, hdescription, hlocation, hbody⟩
    rw [hempty] at hbody
    obtain ⟨body, hbody, hu⟩ := (hadds u.body).mp hbody
    refine ⟨⟨type.name, source.description description type.position, source.location type.position, body⟩,
      ⟨hunreserved, rfl, rfl, rfl, hbody⟩, ?_⟩
    rw [description_plain] at hdescription
    obtain ⟨name, written, location, body'⟩ := u
    cases hname
    cases hdescription
    cases hlocation
    cases hu
    show TypeDef.mk _ _ _ _ = TypeDef.mk _ _ _ _
    rw [hdescribes]
    rfl
  · rintro ⟨t, ⟨hunreserved, hname, hdescription, hlocation, hbody⟩, rfl⟩
    refine ⟨hunreserved, hname, ?_, ?_, ?_⟩
    · rw [description_plain]
      exact hdescription.trans hdescribes
    · show t.location.unplaced = _
      rw [hlocation]
      rfl
    · rw [hempty]
      exact (hadds _).mpr ⟨_, hbody, rfl⟩

/-- Room has no place. -/
theorem NameTable.hasRoom_unplaced_iff {types : NameTable TypeDef} {name : String} :
    types.unplaced.HasRoom name ↔ types.HasRoom name := by
  have hbuiltin : ∀ t : TypeDef, t.unplaced.isBuiltin = t.isBuiltin := by
    intro t
    show t.location.unplaced.isBuiltin = t.location.isBuiltin
    cases t.location <;> rfl
  have hkind : ∀ t : TypeDef, t.unplaced.kind = t.kind := fun t => t.body.kind_unplaced
  unfold HasRoom unplaced
  rw [find?_map]
  cases types.find? name with
  | none => exact ⟨nofun, nofun⟩
  | some t => simp only [Option.map_some, Option.mem_def, Option.some.injEq, forall_eq', hbuiltin, hkind]

theorem NameTable.unplaced_insert (types : NameTable TypeDef) (t : TypeDef) :
    (types.insert t).unplaced = types.unplaced.insert t.unplaced :=
  map_insert TypeDef.name_unplaced types t

/-- Something that is stated, in the source without a text. -/
def StatedItem.unplaced (stated : StatedItem) : StatedItem := (Source.plain, stated.2.unplaced)

theorem addsTypes_unplaced_iff {stated : List StatedItem} (h : ∀ item ∈ stated, item.Described)
    {types u : NameTable TypeDef} :
    AddsTypes ((stated.map StatedItem.unplaced).filterMap StatedItem.definition?) types.unplaced u ↔
      ∃ types', AddsTypes (stated.filterMap StatedItem.definition?) types types' ∧ u = types'.unplaced := by
  induction stated generalizing types with
  | nil =>
    rw [List.map_nil, List.filterMap_nil]
    simp only [addsTypes_nil_iff, exists_eq_left]
  | cons item stated ih =>
    obtain ⟨hitem, hstated⟩ := List.forall_mem_cons.mp h
    obtain ⟨source, item⟩ := item
    cases item with
    | typeDefinition description type =>
      rw [List.map_cons]
      show AddsTypes ((Source.plain, description, type.unplaced) :: _) _ _ ↔
        ∃ types', AddsTypes ((source, description, type) :: _) _ _ ∧ _
      simp only [AddsTypes.cons_iff, Source.defines_unplaced_iff hitem.1 hitem.2]
      constructor
      · rintro ⟨_, ⟨t, ht, rfl⟩, hroom, hrest⟩
        rw [← NameTable.unplaced_insert, ih hstated] at hrest
        obtain ⟨types', hrest, rfl⟩ := hrest
        exact ⟨types', ⟨t, ht, NameTable.hasRoom_unplaced_iff.mp hroom, hrest⟩, rfl⟩
      · rintro ⟨types', ⟨t, ht, hroom, hrest⟩, rfl⟩
        refine ⟨t.unplaced, ⟨t, ht, rfl⟩, NameTable.hasRoom_unplaced_iff.mpr hroom, ?_⟩
        rw [← NameTable.unplaced_insert, ih hstated]
        exact ⟨types', hrest, rfl⟩
    | _ => exact ih hstated

theorem addsDirectives_unplaced_iff {stated : List StatedItem} (h : ∀ item ∈ stated, item.Described)
    {directives u : NameTable Directive} :
    AddsDirectives ((stated.map StatedItem.unplaced).filterMap StatedItem.directive?)
        (directives.map Directive.unplaced Directive.name_unplaced) u ↔
      ∃ directives', AddsDirectives (stated.filterMap StatedItem.directive?) directives directives' ∧
        u = directives'.map Directive.unplaced Directive.name_unplaced := by
  have hdirectives : (stated.map StatedItem.unplaced).filterMap StatedItem.directive?
      = (stated.filterMap StatedItem.directive?).map fun d => (Source.plain, d.2.unplaced) := by
    rw [List.filterMap_map, List.map_filterMap]
    refine List.filterMap_congr fun item _ => ?_
    obtain ⟨source, item⟩ := item
    cases item <;> rfl
  have hname : ∀ d : Source × DirectiveSyntax, Named.name (d.1.directive d.2) = d.2.name := fun _ => rfl
  have hstated : ∀ d ∈ stated.filterMap StatedItem.directive?, d.2.unplaced.name = d.2.name ∧
      (Builtin.isReserved d.2.unplaced.name = false ↔ Builtin.isReserved d.2.name = false) ∧
        Source.plain.directive d.2.unplaced = (d.1.directive d.2).unplaced := by
    refine fun d hd => ⟨rfl, Iff.rfl, directive_unplaced ?_⟩
    obtain ⟨⟨source, item⟩, hmem, heq⟩ := List.mem_filterMap.mp hd
    cases item with
    | directiveDefinition d =>
      obtain rfl := Option.some.inj heq
      exact h _ hmem
    | _ => cases heq
  rw [hdirectives]
  exact AddsParts.map_iff (e := fun d : Source × DirectiveSyntax => (Source.plain, d.2.unplaced))
    Directive.name_unplaced hname hstated

/-! ### Drafts -/

/-- The declaration of a root at no place. -/
def RootDeclaration.unplaced (declaration : RootDeclaration) : RootDeclaration :=
  { declaration with location := declaration.location.unplaced }

/-- The extension at no place.  Its source is of no use then, so it is the one without lines. -/
def PendingExtension.unplaced (extension : PendingExtension) : PendingExtension :=
  ⟨Source.plain, extension.type.unplaced⟩

namespace Draft

/-- The draft without places, and without the number of the sources. -/
def unplaced (draft : Draft) : Draft where
  types := draft.types.unplaced
  directives := draft.directives.map Directive.unplaced Directive.name_unplaced
  query := draft.query.map RootDeclaration.unplaced
  mutation := draft.mutation.map RootDeclaration.unplaced
  subscription := draft.subscription.map RootDeclaration.unplaced
  extensions := draft.extensions.map PendingExtension.unplaced
  unnamed := 0

variable {draft draft' : Draft}

theorem root?_unplaced (draft : Draft) (operation : OperationKind) :
    draft.unplaced.root? operation = (draft.root? operation).map RootDeclaration.unplaced := by
  cases operation <;> rfl

theorem distinctRoots_unplaced_iff : draft.unplaced.DistinctRoots ↔ draft.DistinctRoots := by
  unfold DistinctRoots
  simp only [root?_unplaced, Option.mem_def, Option.map_eq_some_iff, forall_exists_index, and_imp,
    forall_apply_eq_imp_iff₂]
  exact Iff.rfl

theorem declared_unplaced (stated : StatedItem) (operation : OperationKind) :
    stated.unplaced.declared operation = (stated.declared operation).map RootDeclaration.unplaced := by
  obtain ⟨source, item⟩ := stated
  cases item with
  | schemaBlock block =>
    obtain ⟨position, query, mutation, subscription⟩ := block
    cases operation with
    | query => cases query <;> rfl
    | mutation => cases mutation <;> rfl
    | subscription => cases subscription <;> rfl
  | _ => rfl

theorem isBlock_unplaced (stated : StatedItem) : stated.unplaced.isBlock = stated.isBlock := by
  obtain ⟨source, item⟩ := stated
  cases item <;> rfl

/-- **Items without their places are loaded into drafts without theirs.** -/
theorem loaded_unplaced_iff {stated : List StatedItem} (h : ∀ item ∈ stated, item.Described) {u : Draft} :
    Loaded draft.unplaced (stated.map StatedItem.unplaced) u ↔
      ∃ draft', Loaded draft stated draft' ∧ u = draft'.unplaced := by
  have hextensions : (stated.map StatedItem.unplaced).filterMap StatedItem.extension?
      = (stated.filterMap StatedItem.extension?).map PendingExtension.unplaced := by
    rw [List.filterMap_map, List.map_filterMap]
    refine List.filterMap_congr fun item _ => ?_
    obtain ⟨source, item⟩ := item
    cases item <;> rfl
  have hdeclared : ∀ operation, (draft.unplaced.root? operation).toList
        ++ (stated.map StatedItem.unplaced).flatMap (StatedItem.declared operation)
      = ((draft.root? operation).toList ++ stated.flatMap (StatedItem.declared operation)).map
          RootDeclaration.unplaced := by
    intro operation
    rw [root?_unplaced, List.map_append, List.flatMap_map, List.map_flatMap, Option.toList_map]
    simp only [declared_unplaced]
  have hblock : (∃ item ∈ stated.map StatedItem.unplaced, item.isBlock = true) ↔
      ∃ item ∈ stated, item.isBlock = true := by
    simp only [List.mem_map, exists_exists_and_eq_and, isBlock_unplaced]
  constructor
  · intro hu
    obtain ⟨types, htypes, htypes'⟩ := (addsTypes_unplaced_iff h).mp hu.types
    obtain ⟨directives, hdirectives, hdirectives'⟩ := (addsDirectives_unplaced_iff h).mp hu.directives
    obtain ⟨query, mutation, subscription, hdraft⟩ := exists_roots
      (fun operation => (draft.root? operation).toList ++ stated.flatMap (StatedItem.declared operation))
      fun operation => by
        have hmost : (u.root? operation).toList.length ≤ 1 := Option.length_toList_le
        rwa [hu.roots, hdeclared, List.length_map] at hmost
    let draft' : Draft :=
      { types, directives, query, mutation, subscription,
        extensions := draft.extensions ++ stated.filterMap StatedItem.extension?, unnamed := draft.unnamed }
    have hroots := hdraft draft'
    have heq : u = draft'.unplaced := by
      refine eq_of_sameRest ⟨htypes', hdirectives', ?_, hu.unnamed⟩ fun operation => ?_
      · rw [hu.extensions, hextensions]
        exact List.map_append.symm
      · rw [hu.roots, hdeclared, root?_unplaced, Option.toList_map]
        exact congrArg (List.map _) (hroots operation).symm
    refine ⟨draft', ⟨htypes, hdirectives, hroots, fun hmem => ?_, rfl, rfl⟩, heq⟩
    rw [← distinctRoots_unplaced_iff, ← heq]
    exact hu.distinct (hblock.mpr hmem)
  · rintro ⟨draft', hloaded, rfl⟩
    refine ⟨(addsTypes_unplaced_iff h).mpr ⟨_, hloaded.types, rfl⟩,
      (addsDirectives_unplaced_iff h).mpr ⟨_, hloaded.directives, rfl⟩, fun operation => ?_, fun hmem => ?_, ?_, rfl⟩
    · rw [hdeclared, root?_unplaced, Option.toList_map, hloaded.roots]
    · exact distinctRoots_unplaced_iff.mpr (hloaded.distinct (hblock.mp hmem))
    · show draft'.extensions.map _ = draft.extensions.map _ ++ _
      rw [hextensions, hloaded.extensions, List.map_append]

/-! ### Building -/

/-- An extension without its place is applied to types without theirs. -/
theorem applyExtension_unplaced_iff {extension : PendingExtension}
    (h : extension.type.contents.Described extension.source) {types u : NameTable TypeDef} :
    applyExtension types.unplaced extension.unplaced = .ok u ↔
      ∃ types', applyExtension types extension = .ok types' ∧ u = types'.unplaced := by
  have hfind : ∀ name, types.unplaced.find? name = (types.find? name).map TypeDef.unplaced :=
    NameTable.find?_map types TypeDef.name_unplaced
  have hplace : ∀ t, (extension.owner t).statedAt.unplaced = Source.plain.location nowhere := fun _ => rfl
  have hadds : ∀ (t : TypeDef) v, TypeBody.Adds (extension.unplaced.owner t.unplaced)
      extension.unplaced.type.contents t.unplaced.body v ↔ ∃ body, TypeBody.Adds (extension.owner t)
        extension.type.contents t.body body ∧ v = body.unplaced :=
    fun t _ => TypeBody.adds_unplaced_iff (hplace t) h
  simp only [applyExtension_eq_ok_iff, hfind]
  constructor
  · rintro ⟨_, hfound, _, hadded, rfl⟩
    obtain ⟨t, ht, rfl⟩ := Option.map_eq_some_iff.mp hfound
    obtain ⟨body, hbody, rfl⟩ := (hadds t _).mp hadded
    exact ⟨_, ⟨t, ht, body, hbody, rfl⟩, (NameTable.unplaced_insert types { t with body }).symm⟩
  · rintro ⟨_, ⟨t, ht, body, hbody, rfl⟩, rfl⟩
    exact ⟨t.unplaced, Option.map_eq_some_iff.mpr ⟨t, ht, rfl⟩, body.unplaced,
      (hadds t _).mpr ⟨body, hbody, rfl⟩, NameTable.unplaced_insert types { t with body }⟩

theorem foldlM_applyExtension_unplaced_iff {extensions : List PendingExtension}
    (h : ∀ extension ∈ extensions, extension.type.contents.Described extension.source)
    {types u : NameTable TypeDef} :
    (extensions.map PendingExtension.unplaced).foldlM applyExtension types.unplaced = .ok u ↔
      ∃ types', extensions.foldlM applyExtension types = .ok types' ∧ u = types'.unplaced := by
  induction extensions generalizing types with
  | nil => simp only [List.map_nil, foldlM_nil_eq_ok_iff, exists_eq_left]
  | cons extension extensions ih =>
    obtain ⟨hfirst, hrest⟩ := List.forall_mem_cons.mp h
    simp only [List.map_cons, List.foldlM_cons, bind_eq_ok, applyExtension_unplaced_iff hfirst]
    constructor
    · rintro ⟨_, ⟨middle, hmiddle, rfl⟩, hu⟩
      obtain ⟨types', hall, rfl⟩ := (ih hrest).mp hu
      exact ⟨types', ⟨middle, hmiddle, hall⟩, rfl⟩
    · rintro ⟨types', ⟨middle, hmiddle, hall⟩, rfl⟩
      exact ⟨middle.unplaced, ⟨middle, hmiddle, rfl⟩, (ih hrest).mpr ⟨types', hall, rfl⟩⟩

/-- What belongs to the language has no place. -/
theorem introspection_unplaced : Builtin.introspection.map TypeDef.unplaced = Builtin.introspection := rfl

theorem directives_unplaced : Builtin.directives.map Directive.unplaced = Builtin.directives := rfl

theorem types_withBuiltins_unplaced (draft : Draft) :
    draft.unplaced.withBuiltins.types = draft.withBuiltins.types.unplaced := by
  rw [types_withBuiltins, types_withBuiltins, NameTable.unplaced, NameTable.map_foldl_insert, introspection_unplaced]
  rfl

theorem directives_withBuiltins_unplaced (draft : Draft) :
    draft.unplaced.withBuiltins.directives
      = draft.withBuiltins.directives.map Directive.unplaced Directive.name_unplaced := by
  have hcontains : ∀ name, draft.unplaced.directives.contains name = draft.directives.contains name := by
    intro name
    rw [unplaced, NameTable.contains, NameTable.find?_map, Option.isSome_map]
    rfl
  have hmissing : (Builtin.directives.filter fun d => !draft.unplaced.directives.contains d.name)
      = (Builtin.directives.filter fun d => !draft.directives.contains d.name).map Directive.unplaced := by
    have hfilter : (Builtin.directives.map Directive.unplaced).filter (fun d => !draft.unplaced.directives.contains d.name)
        = _ := List.filter_map
    rw [directives_unplaced] at hfilter
    rw [hfilter]
    simp only [Function.comp_def, hcontains]
    rfl
  rw [directives_withBuiltins, directives_withBuiltins, NameTable.map_ofList, List.map_append, hmissing]
  rfl

theorem extendsTo_unplaced_iff
    (h : ∀ extension ∈ draft.extensions, extension.type.contents.Described extension.source)
    {u : NameTable TypeDef} :
    draft.unplaced.ExtendsTo u ↔ ∃ types, draft.ExtendsTo types ∧ u = types.unplaced := by
  unfold ExtendsTo
  rw [types_withBuiltins_unplaced]
  exact foldlM_applyExtension_unplaced_iff h

end Draft

namespace NameTable

variable {types : NameTable TypeDef}

theorem isInput_unplaced_iff {name : String} : types.unplaced.IsInput name ↔ types.IsInput name := by
  unfold IsInput
  rw [kindOf?_unplaced]

theorem isOutput_unplaced_iff {name : String} : types.unplaced.IsOutput name ↔ types.IsOutput name := by
  unfold IsOutput
  rw [kindOf?_unplaced]

theorem forall_unplaced_isInput_iff {ps : NameTable Parameter} :
    (∀ p ∈ (ps.map Parameter.unplaced Parameter.name_unplaced).toList, types.unplaced.IsInput p.type.innermostName) ↔
      ∀ p ∈ ps.toList, types.IsInput p.type.innermostName := by
  show (∀ p ∈ ps.toList.map Parameter.unplaced, _) ↔ _
  rw [List.forall_mem_map]
  exact forall₂_congr fun p _ => isInput_unplaced_iff

theorem linked_unplaced_iff {body : TypeBody} : body.unplaced.Linked types.unplaced ↔ body.Linked types := by
  have hfields : ∀ {fields : NameTable Field}, (∀ f ∈ (fields.map Field.unplaced Field.name_unplaced).toList,
      f.Linked types.unplaced) ↔ ∀ f ∈ fields.toList, f.Linked types := by
    intro fields
    show (∀ f ∈ fields.toList.map Field.unplaced, _) ↔ _
    rw [List.forall_mem_map]
    exact forall₂_congr fun f _ => and_congr isOutput_unplaced_iff forall_unplaced_isInput_iff
  cases body with
  | enum | scalar => exact Iff.rfl
  | inputObject fields => exact forall_unplaced_isInput_iff
  | interface interfaces fields | object interfaces fields =>
    refine and_congr (forall₂_congr fun name _ => ?_) hfields
    rw [kindOf?_unplaced]
  | union members =>
    show (∀ name ∈ (members.map TypeRef.unplaced TypeRef.name_unplaced).names, _) ↔ ∀ name ∈ members.names, _
    rw [names_map]
    refine forall₂_congr fun name _ => ?_
    rw [kindOf?_unplaced]

/-- References have no place. -/
theorem referenceErrors_unplaced_iff {directives : NameTable Directive} :
    types.unplaced.referenceErrors (directives.map Directive.unplaced Directive.name_unplaced) = [] ↔
      types.referenceErrors directives = [] := by
  rw [referenceErrors_eq_nil_iff, referenceErrors_eq_nil_iff]
  refine and_congr ?_ ?_
  · show (∀ t ∈ types.toList.map TypeDef.unplaced, _) ↔ _
    rw [List.forall_mem_map]
    exact forall₂_congr fun t _ => linked_unplaced_iff
  · show (∀ d ∈ directives.toList.map Directive.unplaced, _) ↔ _
    rw [List.forall_mem_map]
    exact forall₂_congr fun d _ => forall_unplaced_isInput_iff

end NameTable

namespace Draft

variable {draft : Draft} {types : NameTable TypeDef}

theorem rootName_unplaced (draft : Draft) (operation : OperationKind) :
    draft.unplaced.rootName operation = draft.rootName operation := by
  unfold rootName
  rw [root?_unplaced]
  cases draft.root? operation <;> rfl

theorem rooted_unplaced_iff : draft.unplaced.Rooted types.unplaced ↔ draft.Rooted types := by
  have hdeclared : (∀ operation, ∀ declaration ∈ draft.unplaced.root? operation,
      types.unplaced.kindOf? declaration.type = some .object) ↔
        ∀ operation, ∀ declaration ∈ draft.root? operation, types.kindOf? declaration.type = some .object := by
    simp only [root?_unplaced, Option.mem_def, Option.map_eq_some_iff, forall_exists_index, and_imp,
      forall_apply_eq_imp_iff₂, NameTable.kindOf?_unplaced]
    exact Iff.rfl
  have hquery : types.unplaced.kindOf? (draft.unplaced.rootName .query) = some .object ↔
      types.kindOf? (draft.rootName .query) = some .object := by
    rw [NameTable.kindOf?_unplaced, rootName_unplaced]
  exact ⟨fun h => ⟨hdeclared.mp h.declared, hquery.mp h.query⟩,
    fun h => ⟨hdeclared.mpr h.declared, hquery.mpr h.query⟩⟩

theorem schemaOf_unplaced (draft : Draft) (types : NameTable TypeDef) :
    draft.unplaced.schemaOf types.unplaced = (draft.schemaOf types).unplaced := by
  have hamong : ∀ operation, draft.unplaced.rootAmong types.unplaced operation = draft.rootAmong types operation := by
    intro operation
    unfold rootAmong
    rw [rootName_unplaced, NameTable.kindOf?_unplaced]
  unfold schemaOf
  rw [directives_withBuiltins_unplaced, rootName_unplaced, hamong, hamong]
  rfl

/-- **A draft without its places is built to the schema without its places.** -/
theorem build_unplaced_iff
    (h : ∀ extension ∈ draft.extensions, extension.type.contents.Described extension.source) {u : Schema} :
    draft.unplaced.build = .ok u ↔ ∃ schema, draft.build = .ok schema ∧ u = schema.unplaced := by
  simp only [build_eq_ok_iff, extendsTo_unplaced_iff h, directives_withBuiltins_unplaced]
  constructor
  · rintro ⟨_, ⟨types, hextend, rfl⟩, herrors, hrooted, rfl⟩
    exact ⟨draft.schemaOf types, ⟨types, hextend, NameTable.referenceErrors_unplaced_iff.mp herrors,
      rooted_unplaced_iff.mp hrooted, rfl⟩, schemaOf_unplaced draft types⟩
  · rintro ⟨_, ⟨types, hextend, herrors, hrooted, rfl⟩, rfl⟩
    exact ⟨types.unplaced, ⟨types, hextend, rfl⟩, NameTable.referenceErrors_unplaced_iff.mpr herrors,
      rooted_unplaced_iff.mpr hrooted, (schemaOf_unplaced draft types).symm⟩

end Draft

/-- **Items without their places are built to the schema without its places.** -/
theorem build_items_unplaced_iff {stated : List StatedItem} (h : ∀ item ∈ stated, item.Described) {u : Schema} :
    (∃ draft, Draft.Loaded .empty (stated.map StatedItem.unplaced) draft ∧ draft.build = .ok u) ↔
      ∃ draft, Draft.Loaded .empty stated draft ∧ ∃ schema, draft.build = .ok schema ∧ u = schema.unplaced := by
  have hempty : Draft.empty.unplaced = Draft.empty := rfl
  have hextensions : ∀ {draft : Draft}, Draft.Loaded .empty stated draft →
      ∀ extension ∈ draft.extensions, extension.type.contents.Described extension.source := by
    intro draft hloaded extension hmem
    rw [hloaded.extensions] at hmem
    obtain ⟨⟨source, item⟩, hitem, heq⟩ := List.mem_filterMap.mp hmem
    cases item with
    | typeExtension type =>
      obtain rfl := Option.some.inj heq
      exact h _ hitem
    | _ => cases heq
  have hloaded : ∀ v, Draft.Loaded Draft.empty.unplaced (stated.map StatedItem.unplaced) v ↔ _ :=
    fun v => Draft.loaded_unplaced_iff h
  rw [hempty] at hloaded
  constructor
  · rintro ⟨u, hload, hbuild⟩
    obtain ⟨draft, hdraft, rfl⟩ := (hloaded u).mp hload
    exact ⟨draft, hdraft, (Draft.build_unplaced_iff (hextensions hdraft)).mp hbuild⟩
  · rintro ⟨draft, hload, hbuild⟩
    exact ⟨_, (hloaded _).mpr ⟨draft, hload, rfl⟩, (Draft.build_unplaced_iff (hextensions hload)).mpr hbuild⟩

end GraphSchema
