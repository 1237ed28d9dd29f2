/-
What is reported of two versions of a schema.

A comparison lists what it finds table by table, filtering one list and running over
another.  What a reader of the list wants to know is the other way round: given a change,
when is it in the list?  `Reported` answers that by lookups of names alone, one case per
kind of change, together with whether the change counts as breaking.  The comparison
reports exactly that, for all schemas.

Each function of the comparison has an inductive of its own here and one lemma that says
that the two agree; the lemma of a whole is put together from those of its parts.
-/
import GraphSchema.Change.Comparison
import GraphSchema.Proofs.Tables

namespace GraphSchema

open Syntax (DirectiveLocation)

/-! ### In one version only, or in both

A comparison filters and pairs lists.  What it thereby decides about one entry is whether the other
table has its name, and these two predicates say so with no mention of a list.
-/

namespace NameTable

variable {α : Type} [Named α]

/-- The first table has `a` under the name, and the second has nothing. -/
structure OnlyIn (table others : NameTable α) (name : String) (a : α) : Prop where
  found : table.find? name = some a
  missing : others.find? name = none

/-- The two tables have `a` and `b` under the name. -/
structure InBoth (old new : NameTable α) (name : String) (a b : α) : Prop where
  before : old.find? name = some a
  after : new.find? name = some b

theorem OnlyIn.name_eq {table others : NameTable α} {name : String} {a : α}
    (h : table.OnlyIn others name a) : Named.name a = name :=
  name_of_find?_eq_some h.found

theorem InBoth.name_eq {old new : NameTable α} {name : String} {a b : α}
    (h : old.InBoth new name a b) : Named.name a = name :=
  name_of_find?_eq_some h.before

theorem mem_without {table others : NameTable α} {a : α} :
    a ∈ table.without others ↔ table.OnlyIn others (Named.name a) a := by
  simp only [without, List.mem_filter, Bool.not_eq_true']
  constructor
  · rintro ⟨hmem, hmissing⟩
    refine ⟨find?_name hmem, ?_⟩
    simpa only [contains, Option.isSome_eq_false_iff, Option.isNone_iff_eq_none] using hmissing
  · intro h
    refine ⟨mem_of_find?_eq_some h.found, ?_⟩
    simp only [contains, h.missing, Option.isSome_none]

theorem mem_common {old new : NameTable α} {a b : α} :
    (a, b) ∈ old.common new ↔ old.InBoth new (Named.name a) a b := by
  simp only [common, List.mem_filterMap, Option.map_eq_some_iff, Prod.mk.injEq]
  constructor
  · rintro ⟨_, hmem, _, hfound, rfl, rfl⟩
    exact ⟨find?_name hmem, hfound⟩
  · intro h
    exact ⟨a, mem_of_find?_eq_some h.before, b, h.after, rfl, rfl⟩

/-- A report on each entry that one table has alone. -/
theorem mem_map_without {table others : NameTable α} {report : α → Change} {change : Change} :
    change ∈ (table.without others).map report
      ↔ ∃ name a, table.OnlyIn others name a ∧ report a = change := by
  simp only [List.mem_map, mem_without]
  constructor
  · rintro ⟨a, h, heq⟩
    exact ⟨Named.name a, a, h, heq⟩
  · rintro ⟨name, a, h, heq⟩
    obtain rfl := h.name_eq
    exact ⟨a, h, heq⟩

/-- Reports on each pair of entries of one name. -/
theorem mem_flatMap_common {old new : NameTable α} {reports : α × α → List Change}
    {change : Change} :
    change ∈ (old.common new).flatMap reports
      ↔ ∃ name a b, old.InBoth new name a b ∧ change ∈ reports (a, b) := by
  simp only [List.mem_flatMap, Prod.exists, mem_common]
  constructor
  · rintro ⟨a, b, h, hmem⟩
    exact ⟨Named.name a, a, b, h, hmem⟩
  · rintro ⟨name, a, b, h, hmem⟩
    obtain rfl := h.name_eq
    exact ⟨a, b, h, hmem⟩

end NameTable

theorem mem_missingFrom {α : Type} [BEq α] [LawfulBEq α] {others list : List α} {a : α} :
    a ∈ missingFrom others list ↔ a ∈ list ∧ a ∉ others := by
  simp [missingFrom]

theorem mem_changeIf {α : Type} [DecidableEq α] {old new : α} {change other : Change} :
    other ∈ changeIf old new change ↔ old ≠ new ∧ other = change := by
  unfold changeIf
  split <;> simp [*]

open NameTable (mem_map_without mem_flatMap_common)

variable {change : Change} {breaking : Bool}

/-! ### Parameters

Input fields and arguments of directives are compared in one way, and the changes are named
differently.  An addition breaks queries if they would have to give a value that they do not give.
That is so if the type refuses null at its outermost layer, whatever the lists inside of it allow,
and no default stands in.
-/

/-- The outermost layer of the type refuses null. -/
inductive WrappedType.NonNull : WrappedType → Prop where
  | named (name : String) : NonNull (.named name false)
  | list (inner : WrappedType) : NonNull (.list inner false)

/-- A value has to be given for the parameter. -/
structure Parameter.HasToBeGiven (p : Parameter) : Prop where
  nonNull : p.type.NonNull
  noDefault : p.default = none

theorem WrappedType.isRequired_iff {type : WrappedType} : type.isRequired = true ↔ type.NonNull := by
  constructor
  · intro h
    cases type with
    | named name nullable =>
      obtain rfl : nullable = false := (Bool.not_eq_true' nullable).mp h
      exact .named name
    | list inner nullable =>
      obtain rfl : nullable = false := (Bool.not_eq_true' nullable).mp h
      exact .list inner
  · rintro (name | inner) <;> rfl

theorem Parameter.isRequired_iff {p : Parameter} : p.isRequired = true ↔ p.HasToBeGiven := by
  rw [isRequired, Bool.and_eq_true, WrappedType.isRequired_iff, Option.isNone_iff_eq_none]
  exact ⟨fun h => ⟨h.1, h.2⟩, fun h => ⟨h.nonNull, h.noDefault⟩⟩

/-- Reports on parameters, of which each is named as the first arguments say. -/
inductive ParameterReport (removed : String → Change) (added : String → Bool → Change)
    (described : String → Change) (old new : NameTable Parameter) : Change → Bool → Prop where
  | removed {name p} (h : old.OnlyIn new name p) :
    ParameterReport removed added described old new (removed name) true
  | added {name q required} (h : new.OnlyIn old name q)
      (hrequired : required = true ↔ q.HasToBeGiven) :
    ParameterReport removed added described old new (added name required) required
  | description {name p q} (h : old.InBoth new name p q) (differ : p.description ≠ q.description) :
    ParameterReport removed added described old new (described name) false

/-- The hypotheses say which of the changes are breaking. -/
theorem mem_parameterChanges {removed described : String → Change} {added : String → Bool → Change}
    (hremoved : ∀ name, (removed name).isBreaking = true)
    (hadded : ∀ name required, (added name required).isBreaking = required)
    (hdescribed : ∀ name, (described name).isBreaking = false) {old new : NameTable Parameter} :
    (change ∈ parameterChanges removed added described old new ∧ change.isBreaking = breaking)
      ↔ ParameterReport removed added described old new change breaking := by
  simp only [parameterChanges, List.mem_append, mem_map_without, mem_flatMap_common, mem_changeIf]
  constructor
  · rintro ⟨((⟨name, p, h, rfl⟩ | ⟨name, q, h, rfl⟩) | ⟨name, p, q, h, hdiffer, rfl⟩), rfl⟩
    · obtain rfl := h.name_eq
      rw [hremoved]
      exact .removed h
    · obtain rfl := h.name_eq
      rw [hadded]
      exact .added h Parameter.isRequired_iff
    · obtain rfl := h.name_eq
      rw [hdescribed]
      exact .description h hdiffer
  · intro report
    cases report with
    | removed h =>
      obtain rfl := h.name_eq
      exact ⟨.inl (.inl ⟨_, _, h, rfl⟩), hremoved _⟩
    | @added name q _ h hrequired =>
      obtain rfl := h.name_eq
      have heq : q.isRequired = breaking := Bool.eq_iff_iff.mpr (Parameter.isRequired_iff.trans hrequired.symm)
      exact ⟨.inl (.inr ⟨_, _, h, congrArg _ heq⟩), hadded _ _⟩
    | description h hdiffer =>
      obtain rfl := h.name_eq
      exact ⟨.inr ⟨_, _, _, h, hdiffer, rfl⟩, hdescribed _⟩

/-! ### Types

What is reported of what a type of each kind is made of.  The flag of each report says
whether it is breaking.
-/

/-- Reports on the values of an enum.  No reason and an empty reason differ. -/
inductive EnumReport (enum : String) (old new : NameTable EnumValue) : Change → Bool → Prop where
  | removed {name v} (h : old.OnlyIn new name v) :
    EnumReport enum old new (.enumValueRemoved enum name) true
  | added {name w} (h : new.OnlyIn old name w) :
    EnumReport enum old new (.enumValueAdded enum name) false
  | description {name v w} (h : old.InBoth new name v w) (differ : v.description ≠ w.description) :
    EnumReport enum old new (.enumValueDescriptionChanged enum name) false
  | deprecation {name v w} (h : old.InBoth new name v w) (differ : v.deprecation ≠ w.deprecation) :
    EnumReport enum old new (.enumValueDeprecated enum name) false

theorem mem_enumChanges {enum : String} {old new : NameTable EnumValue} :
    (change ∈ enumChanges enum old new ∧ change.isBreaking = breaking)
      ↔ EnumReport enum old new change breaking := by
  simp only [enumChanges, List.mem_append, mem_map_without, mem_flatMap_common, mem_changeIf]
  constructor
  · rintro ⟨((⟨name, v, h, rfl⟩ | ⟨name, w, h, rfl⟩) | ⟨name, v, w, h, hdiffer⟩), rfl⟩
    · obtain rfl := h.name_eq
      exact .removed h
    · obtain rfl := h.name_eq
      exact .added h
    · obtain rfl := h.name_eq
      rcases hdiffer with ⟨hdiffer, rfl⟩ | ⟨hdiffer, rfl⟩
      · exact .description h hdiffer
      · exact .deprecation h hdiffer
  · intro report
    cases report with
    | removed h =>
      obtain rfl := h.name_eq
      exact ⟨.inl (.inl ⟨_, _, h, rfl⟩), rfl⟩
    | added h =>
      obtain rfl := h.name_eq
      exact ⟨.inl (.inr ⟨_, _, h, rfl⟩), rfl⟩
    | description h hdiffer =>
      obtain rfl := h.name_eq
      exact ⟨.inr ⟨_, _, _, h, .inl ⟨hdiffer, rfl⟩⟩, rfl⟩
    | deprecation h hdiffer =>
      obtain rfl := h.name_eq
      exact ⟨.inr ⟨_, _, _, h, .inr ⟨hdiffer, rfl⟩⟩, rfl⟩

/-- Reports on the members of a union. -/
inductive UnionReport (union : String) (old new : NameTable TypeRef) : Change → Bool → Prop where
  | removed {name m} (h : old.OnlyIn new name m) :
    UnionReport union old new (.unionMemberRemoved union name) true
  | added {name m} (h : new.OnlyIn old name m) :
    UnionReport union old new (.unionMemberAdded union name) false

theorem mem_memberChanges {union : String} {old new : NameTable TypeRef} :
    (change ∈ memberChanges union old new ∧ change.isBreaking = breaking)
      ↔ UnionReport union old new change breaking := by
  simp only [memberChanges, List.mem_append, mem_map_without]
  constructor
  · rintro ⟨(⟨name, m, h, rfl⟩ | ⟨name, m, h, rfl⟩), rfl⟩
    · obtain rfl := h.name_eq
      exact .removed h
    · obtain rfl := h.name_eq
      exact .added h
  · intro report
    cases report with
    | removed h =>
      obtain rfl := h.name_eq
      exact ⟨.inl ⟨_, _, h, rfl⟩, rfl⟩
    | added h =>
      obtain rfl := h.name_eq
      exact ⟨.inr ⟨_, _, h, rfl⟩, rfl⟩

/-- Reports on the fields of an object type or an interface. -/
inductive FieldReport (type : String) (old new : NameTable Field) : Change → Bool → Prop where
  | removed {name f} (h : old.OnlyIn new name f) :
    FieldReport type old new (.fieldRemoved type name) true
  | added {name f} (h : new.OnlyIn old name f) :
    FieldReport type old new (.fieldAdded type name) false

theorem mem_fieldChanges {type : String} {old new : NameTable Field} :
    (change ∈ fieldChanges type old new ∧ change.isBreaking = breaking)
      ↔ FieldReport type old new change breaking := by
  simp only [fieldChanges, List.mem_append, mem_map_without]
  constructor
  · rintro ⟨(⟨name, f, h, rfl⟩ | ⟨name, f, h, rfl⟩), rfl⟩
    · obtain rfl := h.name_eq
      exact .removed h
    · obtain rfl := h.name_eq
      exact .added h
  · intro report
    cases report with
    | removed h =>
      obtain rfl := h.name_eq
      exact ⟨.inl ⟨_, _, h, rfl⟩, rfl⟩
    | added h =>
      obtain rfl := h.name_eq
      exact ⟨.inr ⟨_, _, h, rfl⟩, rfl⟩

/-- Reports on the interfaces of an object type.  Neither direction is breaking. -/
inductive InterfaceReport (type : String) (old new : List String) : Change → Bool → Prop where
  | removed {name} (before : name ∈ old) (missing : name ∉ new) :
    InterfaceReport type old new (.interfaceRemoved type name) false
  | added {name} (after : name ∈ new) (missing : name ∉ old) :
    InterfaceReport type old new (.interfaceAdded type name) false

theorem mem_interfaceChanges {type : String} {old new : List String} :
    (change ∈ interfaceChanges type old new ∧ change.isBreaking = breaking)
      ↔ InterfaceReport type old new change breaking := by
  simp only [interfaceChanges, List.mem_append, List.mem_map, mem_missingFrom]
  constructor
  · rintro ⟨(⟨name, ⟨hmem, hmissing⟩, rfl⟩ | ⟨name, ⟨hmem, hmissing⟩, rfl⟩), rfl⟩
    · exact .removed hmem hmissing
    · exact .added hmem hmissing
  · intro report
    cases report with
    | removed hmem hmissing => exact ⟨.inl ⟨_, ⟨hmem, hmissing⟩, rfl⟩, rfl⟩
    | added hmem hmissing => exact ⟨.inr ⟨_, ⟨hmem, hmissing⟩, rfl⟩, rfl⟩

/-- Reports on the fields of an input object. -/
abbrev InputFieldReport (type : String) : NameTable Parameter → NameTable Parameter → Change → Bool → Prop :=
  ParameterReport (.inputFieldRemoved type) (.inputFieldAdded type) (.inputFieldDescriptionChanged type)

theorem mem_inputFieldChanges {type : String} {old new : NameTable Parameter} :
    (change ∈ inputFieldChanges type old new ∧ change.isBreaking = breaking)
      ↔ InputFieldReport type old new change breaking :=
  mem_parameterChanges (fun _ => rfl) (fun _ _ => rfl) fun _ => rfl

/-- Reports on what two types of one kind are made of.  The interfaces of an interface are
not compared, and there is nothing to compare about scalars. -/
inductive BodyReport (type : String) : TypeBody → TypeBody → Change → Bool → Prop where
  | enum {old new change breaking} (report : EnumReport type old new change breaking) :
    BodyReport type (.enum old) (.enum new) change breaking
  | inputObject {old new change breaking} (report : InputFieldReport type old new change breaking) :
    BodyReport type (.inputObject old) (.inputObject new) change breaking
  | interface {interfaces interfaces' old new change breaking}
      (report : FieldReport type old new change breaking) :
    BodyReport type (.interface interfaces old) (.interface interfaces' new) change breaking
  | objectInterface {interfaces interfaces' old new change breaking}
      (report : InterfaceReport type interfaces interfaces' change breaking) :
    BodyReport type (.object interfaces old) (.object interfaces' new) change breaking
  | objectField {interfaces interfaces' old new change breaking}
      (report : FieldReport type old new change breaking) :
    BodyReport type (.object interfaces old) (.object interfaces' new) change breaking
  | union {old new change breaking} (report : UnionReport type old new change breaking) :
    BodyReport type (.union old) (.union new) change breaking

/-- Bodies are compared exactly if they are of one kind. -/
theorem bodyChanges_eq_none_iff {type : String} {old new : TypeBody} :
    bodyChanges type old new = none ↔ old.kind ≠ new.kind := by
  cases old <;> cases new <;> simp [bodyChanges, TypeBody.kind]

theorem mem_bodyChanges {type : String} {old new : TypeBody} {changes : List Change}
    (h : bodyChanges type old new = some changes) :
    (change ∈ changes ∧ change.isBreaking = breaking) ↔ BodyReport type old new change breaking := by
  have hkind : old.kind = new.kind := by
    by_contra hne
    rw [bodyChanges_eq_none_iff.mpr hne] at h
    exact absurd h (by simp)
  cases old <;> cases new <;> simp only [TypeBody.kind, reduceCtorEq] at hkind
  case enum =>
    obtain rfl := Option.some.inj h
    rw [mem_enumChanges]
    exact ⟨.enum, fun | .enum report => report⟩
  case inputObject =>
    obtain rfl := Option.some.inj h
    rw [mem_inputFieldChanges]
    exact ⟨.inputObject, fun | .inputObject report => report⟩
  case interface =>
    obtain rfl := Option.some.inj h
    rw [mem_fieldChanges]
    exact ⟨.interface, fun | .interface report => report⟩
  case object =>
    obtain rfl := Option.some.inj h
    rw [List.mem_append, or_and_right, mem_interfaceChanges, mem_fieldChanges]
    constructor
    · rintro (report | report)
      · exact .objectInterface report
      · exact .objectField report
    · intro report
      cases report with
      | objectInterface report => exact .inl report
      | objectField report => exact .inr report
  case scalar =>
    obtain rfl := Option.some.inj h
    refine ⟨fun hmem => absurd hmem.1 List.not_mem_nil, fun report => ?_⟩
    cases report
  case union =>
    obtain rfl := Option.some.inj h
    rw [mem_memberChanges]
    exact ⟨.union, fun | .union report => report⟩

/-- Reports on two types of one name.  If their kinds differ, that is the only report. -/
inductive TypeReport (name : String) (old new : TypeDef) : Change → Bool → Prop where
  | kind (differ : old.kind ≠ new.kind) :
    TypeReport name old new (.typeKindChanged name old.kind new.kind) true
  | body {change : Change} {breaking : Bool} (same : old.kind = new.kind)
      (report : BodyReport name old.body new.body change breaking) :
    TypeReport name old new change breaking
  | description (same : old.kind = new.kind) (differ : old.description ≠ new.description) :
    TypeReport name old new (.typeDescriptionChanged name) false

theorem mem_typeChanges {old new : TypeDef} :
    (change ∈ typeChanges old new ∧ change.isBreaking = breaking)
      ↔ TypeReport old.name old new change breaking := by
  unfold typeChanges
  cases hbody : bodyChanges old.name old.body new.body with
  | none =>
    have hkind : old.kind ≠ new.kind := bodyChanges_eq_none_iff.mp hbody
    show change ∈ [_] ∧ _ ↔ _
    rw [List.mem_singleton]
    constructor
    · rintro ⟨rfl, rfl⟩
      exact .kind hkind
    · intro report
      cases report with
      | kind _ => exact ⟨rfl, rfl⟩
      | body same _ => exact absurd same hkind
      | description same _ => exact absurd same hkind
  | some changes =>
    have hkind : old.kind = new.kind := by
      by_contra hne
      rw [bodyChanges_eq_none_iff.mpr hne] at hbody
      exact absurd hbody (by simp)
    show change ∈ _ ++ _ ∧ _ ↔ _
    rw [List.mem_append, or_and_right, mem_bodyChanges hbody, mem_changeIf]
    constructor
    · rintro (report | ⟨⟨hdiffer, rfl⟩, rfl⟩)
      · exact .body hkind report
      · exact .description hkind hdiffer
    · intro report
      cases report with
      | kind hne => exact absurd hkind hne
      | body _ report => exact .inl report
      | description _ hdiffer => exact .inr ⟨⟨hdiffer, rfl⟩, rfl⟩

/-! ### Directives -/

/-- Reports on the arguments of a directive. -/
abbrev ArgumentReport (directive : String) : NameTable Parameter → NameTable Parameter → Change → Bool → Prop :=
  ParameterReport (.argumentRemoved directive) (.argumentAdded directive) (.argumentDescriptionChanged directive)

theorem mem_argumentChanges {directive : String} {old new : NameTable Parameter} :
    (change ∈ argumentChanges directive old new ∧ change.isBreaking = breaking)
      ↔ ArgumentReport directive old new change breaking :=
  mem_parameterChanges (fun _ => rfl) (fun _ _ => rfl) fun _ => rfl

/-- Reports on two directives of one name. -/
inductive DirectiveReport (name : String) (old new : Directive) : Change → Bool → Prop where
  | description (differ : old.description ≠ new.description) :
    DirectiveReport name old new (.directiveDescriptionChanged name) false
  | locationRemoved {location} (before : location ∈ old.locations)
      (missing : location ∉ new.locations) :
    DirectiveReport name old new (.directiveLocationRemoved name location) true
  | locationAdded {location} (after : location ∈ new.locations)
      (missing : location ∉ old.locations) :
    DirectiveReport name old new (.directiveLocationAdded name location) false
  | argument {change : Change} {breaking : Bool}
      (report : ArgumentReport name old.parameters new.parameters change breaking) :
    DirectiveReport name old new change breaking

theorem mem_directiveChanges {old new : Directive} :
    (change ∈ directiveChanges old new ∧ change.isBreaking = breaking)
      ↔ DirectiveReport old.name old new change breaking := by
  rw [directiveChanges, List.mem_append, or_and_right, mem_argumentChanges]
  simp only [List.mem_append, List.mem_map, mem_changeIf, mem_missingFrom]
  constructor
  · rintro (⟨hmem, rfl⟩ | report)
    · rcases hmem with (⟨hdiffer, rfl⟩ | ⟨location, ⟨hmem, hmissing⟩, rfl⟩)
        | ⟨location, ⟨hmem, hmissing⟩, rfl⟩
      · exact .description hdiffer
      · exact .locationRemoved hmem hmissing
      · exact .locationAdded hmem hmissing
    · exact .argument report
  · intro report
    cases report with
    | description hdiffer => exact .inl ⟨.inl (.inl ⟨hdiffer, rfl⟩), rfl⟩
    | locationRemoved hmem hmissing => exact .inl ⟨.inl (.inr ⟨_, ⟨hmem, hmissing⟩, rfl⟩), rfl⟩
    | locationAdded hmem hmissing => exact .inl ⟨.inr ⟨_, ⟨hmem, hmissing⟩, rfl⟩, rfl⟩
    | argument report => exact .inr report

/-! ### Schemas -/

/-- Reports on two versions of a schema. -/
inductive Reported (old new : Schema) : Change → Bool → Prop where
  | typeRemoved {name t} (h : old.types.OnlyIn new.types name t) :
    Reported old new (.typeRemoved name) true
  | typeAdded {name u} (h : new.types.OnlyIn old.types name u) :
    Reported old new (.typeAdded name) false
  | type {name t u} {change : Change} {breaking : Bool} (h : old.types.InBoth new.types name t u)
      (report : TypeReport name t u change breaking) :
    Reported old new change breaking
  | directiveRemoved {name d} (h : old.directives.OnlyIn new.directives name d) :
    Reported old new (.directiveRemoved name) true
  | directiveAdded {name e} (h : new.directives.OnlyIn old.directives name e) :
    Reported old new (.directiveAdded name) false
  | directive {name d e} {change : Change} {breaking : Bool}
      (h : old.directives.InBoth new.directives name d e)
      (report : DirectiveReport name d e change breaking) :
    Reported old new change breaking

/--
**A comparison reports exactly the changes there are.**

A change is in the list, and is or is not breaking, exactly if `Reported` says so: what is
listed is there to be reported (soundness), and nothing that is to be reported is missing
(completeness).  The label and the wording of a report follow from the change.
-/
theorem Schema.mem_changes_iff (old new : Schema) (change : Change) (breaking : Bool) :
    (change ∈ old.changes new ∧ change.isBreaking = breaking)
      ↔ Reported old new change breaking := by
  simp only [Schema.changes, List.mem_append, mem_map_without, mem_flatMap_common]
  constructor
  · rintro ⟨hmem, hbreaking⟩
    rcases hmem with
      ((((⟨name, t, h, rfl⟩ | ⟨name, u, h, rfl⟩) | ⟨name, t, u, h, hmem⟩) | ⟨name, d, h, rfl⟩)
        | ⟨name, e, h, rfl⟩) | ⟨name, d, e, h, hmem⟩
    · obtain rfl := h.name_eq
      obtain rfl := hbreaking
      exact .typeRemoved h
    · obtain rfl := h.name_eq
      obtain rfl := hbreaking
      exact .typeAdded h
    · obtain rfl := h.name_eq
      exact .type h (mem_typeChanges.mp ⟨hmem, hbreaking⟩)
    · obtain rfl := h.name_eq
      obtain rfl := hbreaking
      exact .directiveRemoved h
    · obtain rfl := h.name_eq
      obtain rfl := hbreaking
      exact .directiveAdded h
    · obtain rfl := h.name_eq
      exact .directive h (mem_directiveChanges.mp ⟨hmem, hbreaking⟩)
  · intro report
    cases report with
    | typeRemoved h =>
      obtain rfl := h.name_eq
      exact ⟨.inl (.inl (.inl (.inl (.inl ⟨_, _, h, rfl⟩)))), rfl⟩
    | typeAdded h =>
      obtain rfl := h.name_eq
      exact ⟨.inl (.inl (.inl (.inl (.inr ⟨_, _, h, rfl⟩)))), rfl⟩
    | type h report =>
      obtain rfl := h.name_eq
      obtain ⟨hmem, hbreaking⟩ := mem_typeChanges.mpr report
      exact ⟨.inl (.inl (.inl (.inr ⟨_, _, _, h, hmem⟩))), hbreaking⟩
    | directiveRemoved h =>
      obtain rfl := h.name_eq
      exact ⟨.inl (.inl (.inr ⟨_, _, h, rfl⟩)), rfl⟩
    | directiveAdded h =>
      obtain rfl := h.name_eq
      exact ⟨.inl (.inr ⟨_, _, h, rfl⟩), rfl⟩
    | directive h report =>
      obtain rfl := h.name_eq
      obtain ⟨hmem, hbreaking⟩ := mem_directiveChanges.mpr report
      exact ⟨.inr ⟨_, _, _, h, hmem⟩, hbreaking⟩

end GraphSchema
