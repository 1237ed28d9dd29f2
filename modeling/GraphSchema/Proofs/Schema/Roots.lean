/-
Where roots come from, and which operations share one.

The root of an operation is the type that a schema block declares for it, or else the object type
that has the operation's name.  The types that operations have by default are filled in when the
schema is built, one operation at a time.  Whether there is a block does not matter there: an
operation that every block leaves out still has the object type of its name as its root, if there is
one (`buildTexts_roots`).

Declarations are compared with each other whenever a block has been loaded, so no two operations are
declared to have one root, whatever the blocks and sources that say so.  The types that operations
have by default are compared with nothing.  So two operations share a root exactly if nothing is
declared for one of them, and the type of its name is declared to be the root of the other
(`buildTexts_distinctRoots`).
-/
import GraphSchema.Proofs.Schema.Texts

namespace GraphSchema

variable {stated : List StatedItem} {draft : Draft} {schema : Schema} {operation : OperationKind}

/-- What all schema blocks declare as the root of an operation. -/
def declaredRoots (stated : List StatedItem) (operation : OperationKind) : List RootDeclaration :=
  stated.flatMap (StatedItem.declared operation)

/-! ### What is declared -/

namespace Draft.Loaded

/-- The draft keeps what is declared. -/
theorem toList_root? (h : Draft.empty.Loaded stated draft) (operation : OperationKind) :
    (draft.root? operation).toList = declaredRoots stated operation := by
  have hroots := h.roots operation
  cases operation <;> exact hroots

theorem mem_root?_iff (h : Draft.empty.Loaded stated draft) {declaration : RootDeclaration} :
    declaration ∈ draft.root? operation ↔ declaration ∈ declaredRoots stated operation := by
  rw [← h.toList_root?]
  exact Option.mem_toList.symm

theorem root?_eq_none_iff (h : Draft.empty.Loaded stated draft) :
    draft.root? operation = none ↔ declaredRoots stated operation = [] := by
  rw [← h.toList_root?, Option.toList_eq_nil_iff]

/-- **No two operations are declared to have one root.** -/
theorem distinctRoots (h : Draft.empty.Loaded stated draft) : draft.DistinctRoots := by
  intro first second hne a ha
  -- Something is declared, so there is a block, behind which declarations have been compared.
  obtain ⟨item, hitem, hmem⟩ := List.mem_flatMap.mp (h.mem_root?_iff.mp ha)
  have hblock : item.isBlock = true := by
    by_contra hother
    rw [StatedItem.declared_eq_nil (Bool.not_eq_true _ ▸ hother)] at hmem
    cases hmem
  exact h.distinct ⟨item, hitem, hblock⟩ first second hne a ha

end Draft.Loaded

/-! ### What the roots are

A declared root must name an object type or nothing is built.  Without a declaration the object
type with the name of the operation is taken if there is one.
-/

/-- An operation has the root that is declared for it, -/
theorem Draft.root_of_declared (hbuild : draft.build = .ok schema) {declaration : RootDeclaration}
    (hdeclared : declaration ∈ draft.root? operation) : schema.root operation = some declaration.type := by
  obtain ⟨types, -, -, hrooted, rfl⟩ := Draft.build_eq_ok_iff.mp hbuild
  have hname : draft.rootName operation = declaration.type := by
    rw [rootName, Option.mem_def.mp hdeclared, Option.elim_some]
  have hobject := hrooted.declared operation declaration hdeclared
  cases operation with
  | query => exact congrArg some hname
  | mutation | subscription =>
    show draft.rootAmong types _ = _
    rw [rootAmong, hname, if_pos hobject]

/-- and else the object type of its name, if there is one. -/
theorem Draft.root_of_undeclared (hbuild : draft.build = .ok schema) (hnone : draft.root? operation = none) :
    schema.root operation
      = if schema.types.kindOf? operation.name = some .object then some operation.name else none := by
  obtain ⟨types, -, -, hrooted, rfl⟩ := Draft.build_eq_ok_iff.mp hbuild
  have hname : draft.rootName operation = operation.name := by
    rw [rootName, hnone, Option.elim_none]
  rw [types_schemaOf, ← hname]
  cases operation with
  | query => exact (if_pos hrooted.query).symm
  | mutation | subscription => rfl

/-- What is declared is an object type. -/
theorem Draft.kindOf?_of_declared (hbuild : draft.build = .ok schema) {declaration : RootDeclaration}
    (hdeclared : declaration ∈ draft.root? operation) :
    schema.types.kindOf? declaration.type = some .object := by
  obtain ⟨types, -, -, hrooted, rfl⟩ := Draft.build_eq_ok_iff.mp hbuild
  exact hrooted.declared operation declaration hdeclared

/-- An operation for which nothing is declared has the root of its name, or none. -/
theorem Draft.root_eq_some_iff_of_undeclared (hbuild : draft.build = .ok schema)
    (hnone : draft.root? operation = none) {name : String} :
    schema.root operation = some name ↔
      name = operation.name ∧ schema.types.kindOf? name = some .object := by
  rw [root_of_undeclared hbuild hnone]
  constructor
  · intro h
    obtain ⟨hobject, heq⟩ := Option.ite_none_right_eq_some.mp h
    obtain rfl := Option.some.inj heq
    exact ⟨rfl, hobject⟩
  · rintro ⟨rfl, hobject⟩
    rw [if_pos hobject]

/-- The root of an operation is what blocks declare, exactly if the operation has no root by
default. -/
theorem Draft.root_iff_declared (hbuild : draft.build = .ok schema) (operation : OperationKind) :
    (∀ name, schema.root operation = some name ↔
        ∃ declaration ∈ draft.root? operation, declaration.type = name) ↔
      (draft.root? operation = none → schema.types.kindOf? operation.name ≠ some .object) := by
  cases hroot : draft.root? operation with
  | none =>
    simp only [root_eq_some_iff_of_undeclared hbuild hroot]
    constructor
    · intro h _ hobject
      obtain ⟨_, hmem, -⟩ := (h operation.name).mp ⟨rfl, hobject⟩
      cases hmem
    · intro h name
      constructor
      · rintro ⟨rfl, hobject⟩
        exact absurd hobject (h trivial)
      · rintro ⟨_, hmem, -⟩
        cases hmem
  | some declaration =>
    rw [root_of_declared hbuild hroot]
    simp

/--
**Where roots come from.**  At most one type is declared to be the root of an operation, and it is the
root.  If none is declared, the root is the object type that has the operation's name, and there is
no root if there is no such type.  This is so with and without schema blocks.  So the root of an
operation is what blocks declare exactly if they declare one, or no object type has its name.
-/
theorem buildTexts_roots {texts : List SourceText} (h : buildTexts texts = .ok schema) :
    ∃ stated, ReadAs 0 texts stated ∧
      (∀ operation, (declaredRoots stated operation).length ≤ 1) ∧
      (∀ operation, ∀ declaration ∈ declaredRoots stated operation,
        schema.root operation = some declaration.type) ∧
      (∀ operation, declaredRoots stated operation = [] → ∀ name,
        (schema.root operation = some name ↔
          name = operation.name ∧ schema.types.kindOf? name = some .object)) ∧
      ((∀ item ∈ stated, item.isBlock = false) → ∀ operation name,
        (schema.root operation = some name ↔
          name = operation.name ∧ schema.types.kindOf? name = some .object)) ∧
      ∀ operation, ((∀ name, schema.root operation = some name ↔
          ∃ declaration ∈ declaredRoots stated operation, declaration.type = name) ↔
        (declaredRoots stated operation = [] → schema.types.kindOf? operation.name ≠ some .object)) := by
  obtain ⟨stated, draft, hread, hloaded, hbuild⟩ := exists_loaded_of_buildTexts h
  have hundeclared : ∀ operation, declaredRoots stated operation = [] → ∀ name,
      (schema.root operation = some name ↔
        name = operation.name ∧ schema.types.kindOf? name = some .object) :=
    fun operation hnone _ =>
      Draft.root_eq_some_iff_of_undeclared hbuild (hloaded.root?_eq_none_iff.mpr hnone)
  refine ⟨stated, hread, fun operation => ?_, fun operation declaration hmem => ?_, hundeclared,
    fun hblock operation => hundeclared operation ?_, fun operation => ?_⟩
  · rw [← hloaded.toList_root?]
    cases draft.root? operation <;> simp
  · exact Draft.root_of_declared hbuild (hloaded.mem_root?_iff.mpr hmem)
  · exact List.flatMap_eq_nil_iff.mpr fun item hitem => StatedItem.declared_eq_nil (hblock item hitem) _
  · have hiff := Draft.root_iff_declared hbuild operation
    simp only [hloaded.mem_root?_iff, hloaded.root?_eq_none_iff] at hiff
    exact hiff

/-- Two blocks in two sources, which leave out one operation.  What has its name is no object type. -/
def splitRoots : List SourceText :=
  [(none, "schema { mutation: Edit } type Read { f: Int } scalar Subscription"),
   (none, "schema { query: Read } type Edit { f: Int } type Query { f: Int }")]

theorem buildTexts_roots_split : ∃ schema stated, buildTexts splitRoots = .ok schema ∧
    ReadAs 0 splitRoots stated ∧
    ∀ operation, ((∀ name, schema.root operation = some name ↔
        ∃ declaration ∈ declaredRoots stated operation, declaration.type = name) ↔
      (declaredRoots stated operation = [] → schema.types.kindOf? operation.name ≠ some .object)) := by
  obtain ⟨schema, h⟩ := exists_ok (x := buildTexts splitRoots) (by decide +kernel)
  obtain ⟨stated, hread, -, -, -, -, hroots⟩ := buildTexts_roots h
  exact ⟨schema, stated, h, hread, hroots⟩

/-- A block that leaves out an operation whose name an object type has. -/
def omittedRoot : List SourceText :=
  [(none, "schema { query: Read } type Read { f: Int } type Mutation { f: Int }")]

/-- There is a block, and it does not say that there are mutations, but there are. -/
theorem exists_undeclared_root : ∃ schema stated, buildTexts omittedRoot = .ok schema ∧
    ReadAs 0 omittedRoot stated ∧ (∃ item ∈ stated, item.isBlock = true) ∧
    declaredRoots stated .mutation = [] ∧ schema.root .mutation = some "Mutation" := by
  obtain ⟨schema, h, hroot⟩ := exists_buildTexts omittedRoot
    (p := fun schema => schema.root .mutation == some "Mutation") (by decide +kernel)
  obtain ⟨stated, hread, hstated⟩ := exists_readAs
    (none, "schema { query: Read } type Read { f: Int } type Mutation { f: Int }")
    (p := fun stated => stated.any StatedItem.isBlock && (declaredRoots stated .mutation).isEmpty)
    (by decide +kernel)
  simp only [Bool.and_eq_true, List.any_eq_true, List.isEmpty_iff] at hstated
  exact ⟨schema, stated, h, hread, hstated.1, hstated.2, beq_iff_eq.mp hroot⟩

/-! ### Shared roots

A default root has the name of its own operation, so two of these are never the same, and two
declared ones have been compared.  That leaves one of each.
-/

theorem OperationKind.name_injective {first second : OperationKind} (h : first.name = second.name) :
    first = second := by
  cases first <;> cases second <;> first | rfl | exact absurd h (by decide)

/-- Two operations share a root only if one of them has the other's by default. -/
theorem Draft.exists_of_shared (hbuild : draft.build = .ok schema) (hdistinct : draft.DistinctRoots)
    {first second : OperationKind} {name : String} (hfirst : schema.root first = some name)
    (hsecond : schema.root second = some name) (hne : first ≠ second) :
    ∃ default other, draft.root? default = none ∧ ∃ declaration ∈ draft.root? other,
      declaration.type = default.name := by
  have hdefault : ∀ operation, draft.root? operation = none → schema.root operation = some name →
      operation.name = name := by
    intro operation hnone hroot
    rw [root_of_undeclared hbuild hnone] at hroot
    exact Option.some.inj (Option.ite_none_right_eq_some.mp hroot).2
  cases ha : draft.root? first with
  | none =>
    cases hb : draft.root? second with
    | none =>
      exact absurd (OperationKind.name_injective
        ((hdefault first ha hfirst).trans (hdefault second hb hsecond).symm)) hne
    | some b =>
      rw [root_of_declared hbuild hb] at hsecond
      exact ⟨first, second, ha, b, hb, (Option.some.inj hsecond).trans (hdefault first ha hfirst).symm⟩
  | some a =>
    rw [root_of_declared hbuild ha] at hfirst
    cases hb : draft.root? second with
    | none =>
      exact ⟨second, first, hb, a, ha, (Option.some.inj hfirst).trans (hdefault second hb hsecond).symm⟩
    | some b =>
      rw [root_of_declared hbuild hb] at hsecond
      exact absurd (Option.some.inj (hfirst.trans hsecond.symm)) (hdistinct first second hne a ha b hb)

/--
**Which operations share a root.**  No two operations are declared to have one root, in whatever
blocks and sources.  The roots of the schema that is built are different exactly if no type is
declared to be the root of one operation that has the name of another for which nothing is declared.
-/
theorem buildTexts_distinctRoots {texts : List SourceText} (h : buildTexts texts = .ok schema) :
    ∃ stated, ReadAs 0 texts stated ∧
      (∀ first second, first ≠ second → ∀ a ∈ declaredRoots stated first, ∀ b ∈ declaredRoots stated second,
        a.type ≠ b.type) ∧
      ((∀ first second name, schema.root first = some name → schema.root second = some name → first = second) ↔
        ∀ default other, declaredRoots stated default = [] →
          ∀ declaration ∈ declaredRoots stated other, declaration.type ≠ default.name) := by
  obtain ⟨stated, draft, hread, hloaded, hbuild⟩ := exists_loaded_of_buildTexts h
  have hdistinct := hloaded.distinctRoots
  refine ⟨stated, hread, fun first second hne a ha b hb => ?_, ?_, ?_⟩
  · exact hdistinct first second hne a (hloaded.mem_root?_iff.mpr ha) b (hloaded.mem_root?_iff.mpr hb)
  · intro hroots default other hnone declaration hdeclared heq
    have hnone := hloaded.root?_eq_none_iff.mpr hnone
    have hdeclared := hloaded.mem_root?_iff.mpr hdeclared
    have hobject := Draft.kindOf?_of_declared hbuild hdeclared
    have hother := Draft.root_of_declared hbuild hdeclared
    have hdefault := Draft.root_of_undeclared hbuild hnone
    rw [heq] at hobject hother
    rw [if_pos hobject] at hdefault
    obtain rfl := hroots default other _ hdefault hother
    rw [hnone] at hdeclared
    cases hdeclared
  · intro hnone first second name hfirst hsecond
    by_contra hne
    obtain ⟨default, other, hdefault, declaration, hdeclared, heq⟩ :=
      Draft.exists_of_shared hbuild hdistinct hfirst hsecond hne
    exact hnone default other (hloaded.root?_eq_none_iff.mp hdefault) declaration
      (hloaded.mem_root?_iff.mp hdeclared) heq

/-- Two blocks in two sources, and a root that an operation has by default. -/
def scatteredRoots : List SourceText :=
  [(none, "schema \x7b mutation: Edit \x7d type Read \x7b f: Int \x7d"),
   (none, "type Subscription \x7b f: Int \x7d schema \x7b query: Read \x7d type Edit \x7b f: Int \x7d")]

theorem buildTexts_distinctRoots_scattered : ∃ schema stated, buildTexts scatteredRoots = .ok schema ∧
    ReadAs 0 scatteredRoots stated ∧
    ((∀ first second name, schema.root first = some name → schema.root second = some name → first = second) ↔
      ∀ default other, declaredRoots stated default = [] →
        ∀ declaration ∈ declaredRoots stated other, declaration.type ≠ default.name) := by
  obtain ⟨schema, h⟩ := exists_ok (x := buildTexts scatteredRoots) (by decide +kernel)
  obtain ⟨stated, hread, -, hroots⟩ := buildTexts_distinctRoots h
  exact ⟨schema, stated, h, hread, hroots⟩

/-- A block that names the type of another operation. -/
def takenRoot : List SourceText := [(none, "schema \x7b query: Mutation \x7d type Mutation \x7b f: Int \x7d")]

/-- Queries and mutations share a root. -/
theorem exists_shared_root : ∃ schema, buildTexts takenRoot = .ok schema ∧
    schema.root .query = some "Mutation" ∧ schema.root .mutation = some "Mutation" := by
  obtain ⟨schema, h, hroots⟩ := exists_buildTexts takenRoot
    (p := fun schema => schema.root .query == some "Mutation" && schema.root .mutation == some "Mutation")
    (by decide +kernel)
  simp only [Bool.and_eq_true, beq_iff_eq] at hroots
  exact ⟨schema, h, hroots⟩

end GraphSchema
