/-
Loading an item.

Each way to load an item is spelt out once: when it succeeds, and what the draft is like
afterwards.

As for the parts of types, each statement is an equivalence.  A block of roots is the only
item that is checked against more than its own names: it is accepted if all roots that are
declared so far are different.
-/
import GraphSchema.Proofs.Schema.Adding

namespace GraphSchema

open Syntax

/-! ### Definitions -/

/-- The type that a definition is about, as its owner. -/
def Source.owner (source : Source) (type : TypeSyntax) : Owner :=
  ⟨source, type.name, source.location type.position, source.location type.position⟩

/-- The type is what a definition states. -/
structure Source.Defines (source : Source) (description : Option String) (type : TypeSyntax)
    (t : TypeDef) : Prop where
  unreserved : Builtin.isReserved type.name = false
  name : t.name = type.name
  description : t.description = source.description description type.position
  location : t.location = source.location type.position
  body : TypeBody.Adds (source.owner type) type.contents (.empty type.contents.kind) t.body

/-- The directive that is stated. -/
def Source.directive (source : Source) (d : DirectiveSyntax) : Directive where
  name := d.name
  description := source.description d.description d.position
  location := source.location d.position
  parameters := source.parameters d.arguments
  repeatable := d.repeatable
  locations := d.locations

/-- There is room for a type of the name: at most a scalar type of the language has it. -/
def NameTable.HasRoom (types : NameTable TypeDef) (name : String) : Prop :=
  ∀ existing ∈ types.find? name, existing.isBuiltin = true ∧ existing.kind = .scalar

namespace Draft

variable {draft draft' : Draft} {source : Source}

theorem addType_eq_ok_iff {t : TypeDef} :
    draft.addType t = .ok draft' ↔
      draft.types.HasRoom t.name ∧ draft' = { draft with types := draft.types.insert t } := by
  unfold addType NameTable.HasRoom
  cases draft.types.find? t.name with
  | none => exact ⟨fun h => ⟨nofun, (Except.ok.inj h).symm⟩, fun h => congrArg Except.ok h.2.symm⟩
  | some existing =>
    dsimp only
    split
    · next h =>
      refine ⟨fun h' => ⟨?_, (Except.ok.inj h').symm⟩, fun h' => congrArg Except.ok h'.2.symm⟩
      rintro _ ⟨⟩
      exact h
    · next h => exact ⟨nofun, fun h' => absurd (h'.1 existing rfl) h⟩

theorem define_eq_ok_iff {description : Option String} {type : TypeSyntax} :
    draft.define source description type = .ok draft' ↔
      ∃ t, source.Defines description type t ∧ draft.types.HasRoom t.name ∧
        draft' = { draft with types := draft.types.insert t } := by
  unfold define
  dsimp only
  cases hreserved : Builtin.isReserved type.name with
  | true =>
    refine ⟨nofun, fun ⟨t, ht, _⟩ => ?_⟩
    rw [ht.unreserved] at hreserved
    cases hreserved
  | false =>
    show ((TypeBody.empty type.contents.kind).add (source.owner type) type.contents >>= _) = _ ↔ _
    rw [bind_eq_ok]
    simp only [TypeBody.add_eq_ok_iff, addType_eq_ok_iff]
    constructor
    · rintro ⟨body, hbody, hroom, heq⟩
      exact ⟨_, ⟨hreserved, rfl, rfl, rfl, hbody⟩, hroom, heq⟩
    · rintro ⟨⟨name, description, location, body⟩, ⟨-, hname, hdescription, hlocation, hbody⟩, hroom, heq⟩
      cases hname
      cases hdescription
      cases hlocation
      exact ⟨body, hbody, hroom, heq⟩

theorem defineDirective_eq_ok_iff {d : DirectiveSyntax} :
    draft.defineDirective source d = .ok draft' ↔
      Builtin.isReserved d.name = false ∧ d.name ∉ draft.directives.names ∧
        draft' = { draft with directives := draft.directives.insert (source.directive d) } := by
  rw [← NameTable.find?_eq_none_iff]
  unfold defineDirective
  dsimp only
  cases hreserved : Builtin.isReserved d.name with
  | true => simp
  | false =>
    cases draft.directives.find? d.name with
    | none => simp [eq_comm, Source.directive]
    | some existing => simp

/-! ### Roots

A block declares up to three roots, each of which must be the first for its operation, and then all
that are declared so far are compared.
-/

/-- The drafts agree in everything but the roots. -/
structure SameRest (draft draft' : Draft) : Prop where
  types : draft'.types = draft.types
  directives : draft'.directives = draft.directives
  extensions : draft'.extensions = draft.extensions
  unnamed : draft'.unnamed = draft.unnamed

theorem eq_of_sameRest (h : SameRest draft draft')
    (hroots : ∀ operation, (draft'.root? operation).toList = (draft.root? operation).toList) :
    draft' = draft := by
  have hroot : ∀ operation, draft'.root? operation = draft.root? operation := by
    intro operation
    simpa only [Option.head?_toList] using congrArg List.head? (hroots operation)
  obtain ⟨types, directives, query, mutation, subscription, extensions, unnamed⟩ := draft
  obtain ⟨types', directives', query', mutation', subscription', extensions', unnamed'⟩ := draft'
  obtain ⟨htypes, hdirectives, hextensions, hunnamed⟩ := h
  cases htypes
  cases hdirectives
  cases hextensions
  cases hunnamed
  cases hroot .query
  cases hroot .mutation
  cases hroot .subscription
  rfl

theorem root?_setRoot (draft : Draft) (operation other : OperationKind) (declaration : RootDeclaration) :
    (draft.setRoot operation declaration).root? other
      = if operation = other then some declaration else draft.root? other := by
  cases operation <;> cases other <;> rfl

theorem sameRest_setRoot (draft : Draft) (operation : OperationKind) (declaration : RootDeclaration) :
    SameRest draft (draft.setRoot operation declaration) := by
  cases operation <;> exact ⟨rfl, rfl, rfl, rfl⟩

theorem SameRest.trans {middle : Draft} (h : SameRest draft middle) (h' : SameRest middle draft') :
    SameRest draft draft' :=
  ⟨h'.types.trans h.types, h'.directives.trans h.directives, h'.extensions.trans h.extensions,
    h'.unnamed.trans h.unnamed⟩

theorem SameRest.symm (h : SameRest draft draft') : SameRest draft' draft :=
  ⟨h.types.symm, h.directives.symm, h.extensions.symm, h.unnamed.symm⟩

/-- What is declared as the root of an operation. -/
def declared (location : Location) (operation : OperationKind) (pair : OperationKind × Option String) :
    List RootDeclaration :=
  if pair.1 = operation then (pair.2.map fun type => ⟨location, type⟩).toList else []

section DeclareRoot

variable {location : Location} {pair : OperationKind × Option String}

/-- A declaration is taken if its operation has no root yet. -/
theorem exists_declareRoot
    (h : ∀ operation, ((draft.root? operation).toList ++ declared location operation pair).length ≤ 1) :
    ∃ draft', declareRoot location draft pair = .ok draft' := by
  obtain ⟨operation, type?⟩ := pair
  cases type? with
  | none => exact ⟨draft, rfl⟩
  | some type =>
    have hroot : draft.root? operation = none := by
      have hlength := h operation
      cases hroot : draft.root? operation with
      | none => rfl
      | some existing => simp [hroot, declared] at hlength
    exact ⟨draft.setRoot operation ⟨location, type⟩, by simp only [declareRoot, hroot]⟩

/-- What a declaration that is taken comes to. -/
theorem of_declareRoot (h : declareRoot location draft pair = .ok draft') :
    SameRest draft draft' ∧ ∀ operation,
      (draft'.root? operation).toList = (draft.root? operation).toList ++ declared location operation pair := by
  obtain ⟨operation, type?⟩ := pair
  cases type? with
  | none =>
    obtain rfl := Except.ok.inj h
    refine ⟨⟨rfl, rfl, rfl, rfl⟩, fun other => ?_⟩
    unfold declared
    split <;> exact (List.append_nil _).symm
  | some type =>
    cases hroot : draft.root? operation with
    | some existing =>
      simp only [declareRoot, hroot] at h
      cases h
    | none =>
      simp only [declareRoot, hroot] at h
      obtain rfl := Except.ok.inj h
      refine ⟨sameRest_setRoot .., fun other => ?_⟩
      rw [root?_setRoot]
      unfold declared
      split
      · next heq =>
        obtain rfl : operation = other := heq
        rw [hroot]
        rfl
      · exact (List.append_nil _).symm

/-- Roots are declared if no operation has two of them. -/
theorem foldlM_declareRoot_eq_ok_iff {pairs : List (OperationKind × Option String)} :
    pairs.foldlM (declareRoot location) draft = .ok draft' ↔ SameRest draft draft' ∧
      ∀ operation, (draft'.root? operation).toList
        = (draft.root? operation).toList ++ pairs.flatMap (declared location operation) := by
  induction pairs generalizing draft with
  | nil =>
    rw [foldlM_nil_eq_ok_iff]
    constructor
    · rintro rfl
      exact ⟨⟨rfl, rfl, rfl, rfl⟩, fun _ => (List.append_nil _).symm⟩
    · exact fun ⟨hrest, hroots⟩ => eq_of_sameRest hrest fun operation =>
        (hroots operation).trans (List.append_nil _)
  | cons pair pairs ih =>
    rw [List.foldlM_cons, bind_eq_ok]
    simp only [ih, List.flatMap_cons, ← List.append_assoc]
    constructor
    · rintro ⟨middle, hstep, hrest, hroots⟩
      obtain ⟨hfirst, hdeclared⟩ := of_declareRoot hstep
      exact ⟨hfirst.trans hrest, fun operation => by rw [hroots, hdeclared]⟩
    · rintro ⟨hrest, hroots⟩
      obtain ⟨middle, hstep⟩ : ∃ middle, declareRoot location draft pair = .ok middle := by
        refine exists_declareRoot fun operation => ?_
        have hmost : (draft'.root? operation).toList.length ≤ 1 := Option.length_toList_le
        rw [hroots] at hmost
        exact Nat.le_trans (List.sublist_append_left _ _).length_le hmost
      obtain ⟨hfirst, hdeclared⟩ := of_declareRoot hstep
      exact ⟨middle, hstep, hfirst.symm.trans hrest, fun operation => by rw [hroots, hdeclared]⟩

end DeclareRoot

/-- No two operations have the same root. -/
def DistinctRoots (draft : Draft) : Prop :=
  ∀ first second, first ≠ second → ∀ a ∈ draft.root? first, ∀ b ∈ draft.root? second, a.type ≠ b.type

/-- Roots that are kept among distinct ones are distinct. -/
theorem DistinctRoots.of_kept (h : draft'.DistinctRoots)
    (hkept : ∀ operation, ∀ a ∈ draft.root? operation, a ∈ draft'.root? operation) : draft.DistinctRoots :=
  fun first second hne a ha b hb => h first second hne a (hkept first a ha) b (hkept second b hb)

theorem checkDistinct_eq_ok_iff {first second : OperationKind} :
    draft.checkDistinct (first, second) = .ok () ↔
      ∀ a ∈ draft.root? first, ∀ b ∈ draft.root? second, a.type ≠ b.type := by
  unfold checkDistinct
  dsimp only
  cases draft.root? first with
  | none => exact ⟨fun _ => nofun, fun _ => rfl⟩
  | some a =>
    cases draft.root? second with
    | none => exact ⟨fun _ _ _ => nofun, fun _ => rfl⟩
    | some b =>
      by_cases h : a.type = b.type
      · exact ⟨by simp [h], fun h' => absurd h (h' a rfl b rfl)⟩
      · simp [h]

theorem checkRoots_eq_ok_iff :
    [(OperationKind.query, OperationKind.mutation), (.query, .subscription),
      (.mutation, .subscription)].forM draft.checkDistinct = .ok () ↔ draft.DistinctRoots := by
  rw [forM_eq_ok_iff]
  simp only [List.forall_mem_cons, List.not_mem_nil, false_implies, implies_true, and_true,
    checkDistinct_eq_ok_iff]
  constructor
  · rintro ⟨hqm, hqs, hms⟩ first second hne a ha b hb heq
    cases first <;> cases second
    all_goals first
      | exact hne rfl
      | exact hqm _ ha _ hb heq
      | exact hqs _ ha _ hb heq
      | exact hms _ ha _ hb heq
      | exact hqm _ hb _ ha heq.symm
      | exact hqs _ hb _ ha heq.symm
      | exact hms _ hb _ ha heq.symm
  · exact fun h => ⟨h _ _ (by decide), h _ _ (by decide), h _ _ (by decide)⟩

/-- What a schema block declares. -/
def SchemaBlock.declared (block : SchemaBlock) (location : Location) (operation : OperationKind) :
    List RootDeclaration :=
  let type? := match operation with
    | .query => block.query
    | .mutation => block.mutation
    | .subscription => block.subscription
  (type?.map fun type => ⟨location, type⟩).toList

theorem declareRoots_eq_ok_iff {block : SchemaBlock} :
    draft.declareRoots source block = .ok draft' ↔ SameRest draft draft' ∧ draft'.DistinctRoots ∧
      ∀ operation, (draft'.root? operation).toList = (draft.root? operation).toList
        ++ SchemaBlock.declared block (source.location block.position) operation := by
  have hdeclared : ∀ operation, [(OperationKind.query, block.query), (.mutation, block.mutation),
      (.subscription, block.subscription)].flatMap (declared (source.location block.position) operation)
        = SchemaBlock.declared block (source.location block.position) operation := by
    intro operation
    cases operation <;> simp [declared, SchemaBlock.declared]
  unfold declareRoots
  simp only [bind_eq_ok, foldlM_declareRoot_eq_ok_iff, hdeclared]
  constructor
  · rintro ⟨_, ⟨hrest, hroots⟩, ⟨⟩, hdistinct, heq⟩
    obtain rfl := Except.ok.inj heq
    exact ⟨hrest, checkRoots_eq_ok_iff.mp hdistinct, hroots⟩
  · exact fun ⟨hrest, hdistinct, hroots⟩ =>
      ⟨draft', ⟨hrest, hroots⟩, (), checkRoots_eq_ok_iff.mpr hdistinct, rfl⟩

end Draft

end GraphSchema
