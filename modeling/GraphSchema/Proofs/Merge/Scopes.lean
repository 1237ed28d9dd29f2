/-
Scopes and the objects of a run.

A scope is computed from the types that a document names, and what a run stands on from the
types that its objects declare.  The two agree as long as an object type declares for a
field at most what its interfaces declare for it (`Covariant`).  Then a context that fits a
run (`Fits`) fits it on all the ways further in: under the conditions that the run meets, and
through the fields that it goes on through.

`Covariant` asks that of every interface and every object type.  Building a schema does not
check it, so it stays a condition.
-/
import GraphSchema.Proofs.Merge.Responses
import GraphSchema.Proofs.Schema.PossibleTypes

namespace GraphSchema.Merge

open Syntax

variable {schema : Schema}

/-! ### Scopes that admit an object -/

/-- As far as the scope is known, objects of the type are in it. -/
def Scope.Admits (object : String) (scope : Scope) : Prop :=
  ∀ types, scope = some types → object ∈ types

theorem eq_possibleTypes_of_scopeOf {type : String} {types : List String}
    (h : scopeOf schema type = some types) : types = schema.possibleTypes type := by
  obtain ⟨_, _, rfl⟩ := Option.map_eq_some_iff.mp h
  rfl

/-- An object that meets a condition stays in a scope that is narrowed to it. -/
theorem Scope.Admits.narrow {object condition : String} {scope : Scope}
    (h : scope.Admits object) (hmeets : object ∈ schema.possibleTypes condition) :
    (scope.narrow schema condition).Admits object := by
  unfold Scope.narrow
  split
  · exact h
  · next types hscope =>
    intro types' heq
    obtain rfl := Option.some.inj heq
    rw [eq_possibleTypes_of_scopeOf hscope]
    exact hmeets
  · next types current hscope =>
    intro types' heq
    obtain rfl := Option.some.inj heq
    have hcurrent : object ∈ current := h current rfl
    rw [← eq_possibleTypes_of_scopeOf hscope] at hmeets
    exact List.mem_filter.mpr ⟨hcurrent, List.contains_iff_mem.mpr hmeets⟩

/-- Scopes that admit one object are not disjoint. -/
theorem Scope.Admits.disjoint_eq_false {object : String} {scope other : Scope}
    (h : scope.Admits object) (h' : other.Admits object) : scope.disjoint other = false := by
  cases scope with
  | none => rfl
  | some types =>
    cases other with
    | none => rfl
    | some others =>
      have hmem : object ∈ types := h types rfl
      have hmem' : object ∈ others := h' others rfl
      rw [Scope.disjoint, List.all_eq_false]
      exact ⟨object, hmem, by simpa using hmem'⟩

theorem any_disjoint_eq_false {objects : List String} {scopes others : List Scope}
    (h : List.Forall₂ Scope.Admits objects scopes)
    (h' : List.Forall₂ Scope.Admits objects others) :
    ((scopes.zip others).any fun (s, t) => s.disjoint t) = false := by
  induction h generalizing others with
  | nil => rfl
  | cons hfirst hrest ih =>
    cases h' with
    | cons hfirst' hrest' =>
      rw [List.zip_cons_cons, List.any_cons, ih hrest', Bool.or_false]
      exact hfirst.disjoint_eq_false hfirst'

/-! ### Contexts that fit a run -/

/-- What is known in a context is true of a run that stands on objects of the types `outer`
at the levels above and of the type `object` at this one. -/
structure Fits (schema : Schema) (outer : List String) (object : String) (context : Context) :
    Prop where
  outer : List.Forall₂ Scope.Admits outer context.outer
  scope : context.scope.Admits object
  parent : ∀ type, context.parent = some type → object ∈ schema.possibleTypes type

namespace Fits

variable {outer : List String} {object : String} {context : Context}

theorem scopes (h : Fits schema outer object context) :
    List.Forall₂ Scope.Admits (outer ++ [object]) context.scopes :=
  List.rel_append h.outer (.cons h.scope .nil)

theorem under (h : Fits schema outer object context) {condition : String}
    (hmeets : object ∈ schema.possibleTypes condition) :
    Fits schema outer object (context.under schema condition) where
  outer := h.outer
  scope := h.scope.narrow hmeets
  parent := by
    intro type heq
    obtain rfl := Option.some.inj heq
    exact hmeets

theorem inline (h : Fits schema outer object context) {condition : Option String}
    (hmeets : Meets schema object condition.toList) :
    Fits schema outer object (context.inline schema condition) := by
  cases condition with
  | none => exact h
  | some condition => exact h.under (hmeets condition List.mem_cons_self)

theorem enter (h : Fits schema outer object context) {fragment : Fragment}
    (hmeets : Meets schema object [fragment.condition]) :
    Fits schema outer object (context.enter schema fragment) := by
  have hunder := h.under (hmeets fragment.condition List.mem_cons_self)
  exact ⟨hunder.outer, hunder.scope, hunder.parent⟩

/-- Of occurrences in contexts that fit one run, none are exempt. -/
theorem exclusive_eq_false {a b : Occurrence} (ha : Fits schema outer object a.context)
    (hb : Fits schema outer object b.context) : a.exclusive b = false :=
  any_disjoint_eq_false ha.scopes hb.scopes

end Fits

theorem fits_ofOperation {kind : OperationKind} {object : String}
    (hroot : schema.root kind = some object) (hobject : object ∈ schema.possibleTypes object) :
    Fits schema [] object (Context.ofOperation schema kind) where
  outer := .nil
  scope := by
    intro types heq
    simp only [Context.ofOperation, hroot, Option.bind_some] at heq
    rw [eq_possibleTypes_of_scopeOf heq]
    exact hobject
  parent := by
    intro type heq
    simp only [Context.ofOperation, hroot] at heq
    obtain rfl := Option.some.inj heq
    exact hobject

/-! ### Types of fields

Where a field is declared by an interface and by an object type, the scope goes by one and the run
by the other.
-/

/-- What an object type declares for a field is at most what its interfaces declare for a
field of that name: every possible type of the one is a possible type of the other. -/
def Covariant (schema : Schema) : Prop :=
  ∀ interface type, schema.type? interface = some type → type.kind = .interface →
    ∀ object ∈ schema.possibleTypes interface, ∀ field s t,
      declaredType? schema interface field = some s → declaredType? schema object field = some t →
        schema.possibleTypes t ⊆ schema.possibleTypes s

/-- The same of any type and its possible types: object types are possible for themselves
only, and other types do not declare fields. -/
theorem Covariant.subset (h : Covariant schema) {type object field s t : String}
    (hobject : object ∈ schema.possibleTypes type) (hs : declaredType? schema type field = some s)
    (ht : declaredType? schema object field = some t) :
    schema.possibleTypes t ⊆ schema.possibleTypes s := by
  obtain ⟨parent, hparent, hdeclared⟩ := Option.bind_eq_some_iff.mp hs
  obtain ⟨fields, hfields, -⟩ := Option.bind_eq_some_iff.mp hdeclared
  cases hbody : parent.body with
  | object interfaces fields =>
    have hkind : parent.kind = .object := by rw [TypeDef.kind, hbody]; rfl
    rw [Schema.possibleTypes_of_object hparent hkind] at hobject
    obtain rfl := List.mem_singleton.mp hobject
    obtain rfl := Option.some.inj (hs.symm.trans ht)
    exact List.Subset.refl _
  | interface interfaces fields =>
    have hkind : parent.kind = .interface := by rw [TypeDef.kind, hbody]; rfl
    exact h type parent hparent hkind object hobject field s t hs ht
  | enum _ | inputObject _ | scalar | union _ => simp [TypeDef.fields?, hbody] at hfields

theorem returnType_eq (o : Occurrence) :
    o.returnType schema = (metaFieldType? o.name).or
      (o.context.parent.bind fun parent => declaredType? schema parent o.name) := by
  unfold Occurrence.returnType
  split
  · next hname => rw [hname]; rfl
  · next hname => rw [hname]; rfl
  · next hname => rw [hname]; rfl
  · next h₁ h₂ h₃ =>
    have hnone : metaFieldType? o.name = none := by
      rw [metaFieldType?, if_neg h₁, if_neg h₂, if_neg h₃]
    rw [hnone]
    rfl

/-- The objects that a field leads on to are possible for the type that it is taken to
return. -/
theorem mem_possibleTypes_returnType (hcovariant : Covariant schema) {outer : List String}
    {object type next : String} {o : Occurrence} (hfits : Fits schema outer object o.context)
    (htype : fieldType? schema object o.name = some type)
    (hnext : next ∈ schema.possibleTypes type) {returned : String}
    (hreturned : o.returnType schema = some returned) : next ∈ schema.possibleTypes returned := by
  rw [returnType_eq] at hreturned
  unfold fieldType? at htype
  cases hmeta : metaFieldType? o.name with
  | some metaType =>
    rw [hmeta] at hreturned htype
    obtain rfl := Option.some.inj hreturned
    obtain rfl := Option.some.inj htype
    exact hnext
  | none =>
    rw [hmeta, Option.none_or] at hreturned htype
    obtain ⟨parent, hparent, hdeclared⟩ := Option.bind_eq_some_iff.mp hreturned
    exact hcovariant.subset (hfits.parent parent hparent) hdeclared htype hnext

/-- The selections of a field fit a run that goes on through the field. -/
theorem Fits.inner (hcovariant : Covariant schema) {outer : List String}
    {object type next : String} {o : Occurrence} (hfits : Fits schema outer object o.context)
    (htype : fieldType? schema object o.name = some type)
    (hnext : next ∈ schema.possibleTypes type) :
    Fits schema (outer ++ [object]) next (o.innerContext schema) where
  outer := hfits.scopes
  scope := by
    intro types heq
    obtain ⟨hscope, -⟩ := Option.filter_eq_some_iff.mp heq
    obtain ⟨returned, hreturned, hof⟩ := Option.bind_eq_some_iff.mp hscope
    rw [eq_possibleTypes_of_scopeOf hof]
    exact mem_possibleTypes_returnType hcovariant hfits htype hnext hreturned
  parent := fun _ => mem_possibleTypes_returnType hcovariant hfits htype hnext

end GraphSchema.Merge
