/-
When a draft is built, and what it is built into.

Once the extensions apply, three things can go wrong, and they are looked at in this order: a
reference does not fit, a root that is declared is no object type, there is no root of queries.

`build_eq_ok_iff` says when there is a schema, which is then `schemaOf` the draft and its types.
Of the errors only those of references are described (`build_of_referenceErrors`).
-/
import GraphSchema.Proofs.Steps
import GraphSchema.Schema.Draft

namespace GraphSchema

namespace Draft

variable {draft draft' : Draft} {types : NameTable TypeDef} {schema : Schema}

/-- The name that the root of an operation has, if there is one: the declared name, or else that
of the operation. -/
def rootName (draft : Draft) (operation : OperationKind) : String :=
  (draft.root? operation).elim operation.name RootDeclaration.type

/-- The root of an operation, among types. -/
def rootAmong (draft : Draft) (types : NameTable TypeDef) (operation : OperationKind) : Option String :=
  if types.kindOf? (draft.rootName operation) = some .object then some (draft.rootName operation) else none

/-- Types serve for the roots of a draft: every root that is declared is an object type, and there
is a root of queries. -/
structure Rooted (draft : Draft) (types : NameTable TypeDef) : Prop where
  declared : ∀ operation, ∀ declaration ∈ draft.root? operation,
    types.kindOf? declaration.type = some .object
  query : types.kindOf? (draft.rootName .query) = some .object

/-- The schema of a draft whose types have been extended. -/
def schemaOf (draft : Draft) (types : NameTable TypeDef) : Schema where
  types := types
  directives := draft.withBuiltins.directives
  query := draft.rootName .query
  mutation := draft.rootAmong types .mutation
  subscription := draft.rootAmong types .subscription

@[simp] theorem types_schemaOf (draft : Draft) (types : NameTable TypeDef) :
    (draft.schemaOf types).types = types := rfl

@[simp] theorem directives_schemaOf (draft : Draft) (types : NameTable TypeDef) :
    (draft.schemaOf types).directives = draft.withBuiltins.directives := rfl

/-! What is added to a draft is large, so it is told without being looked into. -/

theorem types_withBuiltins (draft : Draft) :
    draft.withBuiltins.types = Builtin.introspection.foldl NameTable.insert draft.types := by
  simp only [withBuiltins]

theorem directives_withBuiltins (draft : Draft) : draft.withBuiltins.directives
    = .ofList ((Builtin.directives.filter fun d => !draft.directives.contains d.name) ++ draft.directives.toList) := by
  simp only [withBuiltins]

theorem extensions_withBuiltins (draft : Draft) : draft.withBuiltins.extensions = draft.extensions := by
  simp only [withBuiltins]

theorem root?_withBuiltins (draft : Draft) (operation : OperationKind) :
    draft.withBuiltins.root? operation = draft.root? operation := by
  cases operation <;> simp only [withBuiltins, root?]

/-- The types that the extensions of a draft come to. -/
def ExtendsTo (draft : Draft) (types : NameTable TypeDef) : Prop :=
  draft.extensions.foldlM applyExtension draft.withBuiltins.types = .ok types

/-- Without extensions the types stay as they are. -/
theorem extendsTo_of_nil (h : draft.extensions = []) : draft.ExtendsTo draft.withBuiltins.types := by
  unfold ExtendsTo
  rw [h, List.foldlM_nil]
  rfl

theorem resolveRoot_eq_ok_iff {operation : OperationKind} {root : Option String} :
    draft.withBuiltins.resolveRoot types operation = .ok root ↔
      (∀ declaration ∈ draft.root? operation, types.kindOf? declaration.type = some .object) ∧
        root = draft.rootAmong types operation := by
  unfold resolveRoot rootAmong rootName
  rw [root?_withBuiltins]
  simp only [beq_iff_eq]
  cases draft.root? operation with
  | none => simp [eq_comm]
  | some declaration =>
    by_cases h : types.kindOf? declaration.type = some .object
    · simp [h, eq_comm]
    · simp [h]

/-- What is left of building once the extensions have been applied. -/
theorem build_of_extendsTo (h : draft.ExtendsTo types) :
    draft.build = if !(types.referenceErrors draft.withBuiltins.directives).isEmpty then
        .error (.badReferences (types.referenceErrors draft.withBuiltins.directives))
      else draft.withBuiltins.resolveRoot types .query >>= fun query? =>
        match query? with
        | none => .error .noQuery
        | some query => do
          let mutation ← draft.withBuiltins.resolveRoot types .mutation
          let subscription ← draft.withBuiltins.resolveRoot types .subscription
          return { types, directives := draft.withBuiltins.directives, query, mutation, subscription } := by
  unfold ExtendsTo at h
  unfold build
  dsimp only
  rw [extensions_withBuiltins, h]
  show (if _ then _ else _) = _
  split <;> rfl

/-- **When a draft is built, and what it is built into.** -/
theorem build_eq_ok_iff : draft.build = .ok schema ↔
    ∃ types, draft.ExtendsTo types ∧ types.referenceErrors draft.withBuiltins.directives = [] ∧
      draft.Rooted types ∧ schema = draft.schemaOf types := by
  constructor
  · intro h
    obtain ⟨types, hextend, -⟩ := bind_eq_ok.mp h
    rw [extensions_withBuiltins] at hextend
    have hextend : draft.ExtendsTo types := hextend
    rw [build_of_extendsTo hextend] at h
    split at h
    · cases h
    next herrors =>
    have herrors : types.referenceErrors draft.withBuiltins.directives = [] := by simpa using herrors
    obtain ⟨query?, hquery, h⟩ := bind_eq_ok.mp h
    obtain ⟨hdeclaredQuery, hquery⟩ := resolveRoot_eq_ok_iff.mp hquery
    cases query? with
    | none => cases h
    | some query =>
      obtain ⟨mutation, hmutation, h⟩ := bind_eq_ok.mp h
      obtain ⟨subscription, hsubscription, h⟩ := bind_eq_ok.mp h
      obtain ⟨hdeclaredMutation, rfl⟩ := resolveRoot_eq_ok_iff.mp hmutation
      obtain ⟨hdeclaredSubscription, rfl⟩ := resolveRoot_eq_ok_iff.mp hsubscription
      obtain rfl := Except.ok.inj h
      obtain ⟨hobject, heq⟩ := (Option.ite_none_right_eq_some).mp hquery.symm
      obtain rfl := Option.some.inj heq
      refine ⟨types, hextend, herrors, ⟨fun operation => ?_, hobject⟩, rfl⟩
      cases operation with
      | query => exact hdeclaredQuery
      | mutation => exact hdeclaredMutation
      | subscription => exact hdeclaredSubscription
  · rintro ⟨types, hextend, herrors, hrooted, rfl⟩
    rw [build_of_extendsTo hextend, herrors, resolveRoot_eq_ok_iff.mpr ⟨hrooted.declared _, rfl⟩,
      resolveRoot_eq_ok_iff.mpr ⟨hrooted.declared _, rfl⟩,
      resolveRoot_eq_ok_iff.mpr ⟨hrooted.declared _, rfl⟩, rootAmong, if_pos hrooted.query]
    rfl

/-- **References that do not fit are reported**, all of them at once and nothing else. -/
theorem build_of_referenceErrors (h : draft.ExtendsTo types)
    (herrors : types.referenceErrors draft.withBuiltins.directives ≠ []) :
    draft.build = .error (.badReferences (types.referenceErrors draft.withBuiltins.directives)) := by
  rw [build_of_extendsTo h, if_pos]
  simpa using herrors

/-- A root of the schema is an object type. -/
theorem kindOf?_of_root_schemaOf (h : draft.Rooted types) {operation : OperationKind} {name : String}
    (hroot : (draft.schemaOf types).root operation = some name) : types.kindOf? name = some .object := by
  have hamong : ∀ operation, draft.rootAmong types operation = some name →
      types.kindOf? name = some .object := by
    intro operation hamong
    obtain ⟨hobject, heq⟩ := (Option.ite_none_right_eq_some).mp hamong
    obtain rfl := Option.some.inj heq
    exact hobject
  cases operation with
  | query =>
    obtain rfl := Option.some.inj hroot
    exact h.query
  | mutation => exact hamong .mutation hroot
  | subscription => exact hamong .subscription hroot

/-- Drafts that come to the same types, and have the same directives and roots, are built alike. -/
theorem build_congr (hextend : ∀ types, draft.ExtendsTo types ↔ draft'.ExtendsTo types)
    (hdirectives : draft'.directives = draft.directives)
    (hroots : ∀ operation, draft'.root? operation = draft.root? operation) :
    draft.build = .ok schema ↔ draft'.build = .ok schema := by
  have hname : ∀ operation, draft'.rootName operation = draft.rootName operation := by
    intro operation
    unfold rootName
    rw [hroots]
  have hrooted : ∀ types, draft'.Rooted types ↔ draft.Rooted types := by
    intro types
    constructor
    · exact fun h => ⟨by simpa only [hroots] using h.declared, by simpa only [hname] using h.query⟩
    · exact fun h => ⟨by simpa only [hroots] using h.declared, by simpa only [hname] using h.query⟩
  have hwith : draft'.withBuiltins.directives = draft.withBuiltins.directives := by
    rw [directives_withBuiltins, directives_withBuiltins, hdirectives]
  have hschema : ∀ types, draft'.schemaOf types = draft.schemaOf types := by
    intro types
    simp only [schemaOf, rootAmong, hname, hwith]
  simp only [build_eq_ok_iff, hextend, hrooted, hwith, hschema]

end Draft

/-- The root of an operation is an object type of the schema. -/
theorem Schema.exists_object_of_root {draft : Draft} {schema : Schema} (h : draft.build = .ok schema)
    {operation : OperationKind} {name : String} (hroot : schema.root operation = some name) :
    ∃ type, schema.type? name = some type ∧ type.kind = .object := by
  obtain ⟨types, -, -, hrooted, rfl⟩ := Draft.build_eq_ok_iff.mp h
  exact Option.map_eq_some_iff.mp (Draft.kindOf?_of_root_schemaOf hrooted hroot)

end GraphSchema
