/-
Which object types stand for an interface.

Interfaces may implement each other, also in a circle, so the search for an interface follows
each name only once, and what has been followed for one name is not followed again for the next.
That hides nothing.  A way that runs through a name that has been followed can be cut short: the
last part of it begins at something that this name implements, and is still on the list
(`Within.cut`).

So an interface stands for the object types that implement it, directly or through other
interfaces, and whatever stands for something in a schema that has been built is an object type
(`buildTexts_possibleTypes`).
-/
import Mathlib.Logic.Relation
import GraphSchema.Proofs.Schema.Linked
import GraphSchema.Proofs.Schema.PossibleTypes
import GraphSchema.Proofs.Schema.Texts

namespace GraphSchema

open Relation (TransGen ReflTransGen)

/-- No member is listed twice. -/
theorem TypeDef.memberNames_nodup (type : TypeDef) : type.memberNames.Nodup := by
  unfold memberNames
  cases type.body with
  | union members => exact members.names_nodup
  | _ => exact .nil

namespace Schema

variable {schema : Schema} {target name next : String} {allowed : List String}

/-- The names of the interfaces that the type of a name says it implements. -/
def namedBy (schema : Schema) (name : String) : List String :=
  (schema.type? name).elim [] TypeDef.interfaceNames

/-- The type of a name says that it implements an interface. -/
def Declares (schema : Schema) (name interface : String) : Prop :=
  schema.types.kindOf? interface = some .interface ∧
    ∃ type ∈ schema.type? name, interface ∈ type.interfaceNames

instance (schema : Schema) (name interface : String) : Decidable (schema.Declares name interface) :=
  inferInstanceAs (Decidable (_ ∧ ∃ type ∈ schema.type? name, interface ∈ type.interfaceNames))

/-! ### The search

`Within` is the reach of a name through names that are still allowed.  The search keeps as allowed
what it has not followed yet, and gives up nothing by that.
-/

/-- There is a way from a name to the target, and every name that is left on it is allowed. -/
inductive Within (schema : Schema) (target : String) (allowed : List String) : String → Prop
  | here : Within schema target allowed target
  | further {name next : String} (hallowed : name ∈ allowed) (hnext : next ∈ schema.namedBy name)
      (hrest : Within schema target allowed next) : Within schema target allowed name

theorem Within.mono {others : List String} (h : schema.Within target allowed name)
    (hsub : ∀ n ∈ allowed, n ∈ others) : schema.Within target others name := by
  induction h with
  | here => exact .here
  | further hallowed hnext _ ih => exact .further (hsub _ hallowed) hnext ih

/-- A way keeps away from a name, or its last part begins right behind that name. -/
theorem Within.cut (h : schema.Within target allowed name) (done : String) :
    schema.Within target (allowed.erase done) name ∨
      ∃ next ∈ schema.namedBy done, schema.Within target (allowed.erase done) next := by
  induction h with
  | here => exact Or.inl .here
  | @further name next hallowed hnext _ ih =>
    rcases ih with ih | ih
    · by_cases hdone : name = done
      · subst hdone
        exact Or.inr ⟨next, hnext, ih⟩
      · exact Or.inl (.further ((List.mem_erase_of_ne hdone).mpr hallowed) hnext ih)
    · exact Or.inr ih

/--
**The search finds whatever can be reached by names that may still be followed.**  Following a name
strikes it off, and puts what it implements on the list instead.
-/
theorem reaches_iff {unvisited todo : List String} :
    schema.reaches target unvisited todo = true ↔
      ∃ name ∈ todo, schema.Within target unvisited name := by
  fun_induction reaches schema target unvisited todo with
  | case1 => simp
  | case2 unvisited rest =>
    simp only [true_iff]
    exact ⟨target, List.mem_cons_self, .here⟩
  | case3 unvisited name rest hne hvisit further ih =>
    have hnamed : further = schema.namedBy name := rfl
    rw [ih, hnamed]
    constructor
    · rintro ⟨n, hn, hwithin⟩
      have hmono := hwithin.mono fun m hm => List.mem_of_mem_erase hm
      rcases List.mem_append.mp hn with hn | hn
      · exact ⟨name, List.mem_cons_self, .further hvisit hn hmono⟩
      · exact ⟨n, List.mem_cons_of_mem _ hn, hmono⟩
    · rintro ⟨n, hn, hwithin⟩
      rcases hwithin.cut name with hkept | ⟨next, hnext, hkept⟩
      · by_cases heq : n = name
        · -- no way leaves a name that has been struck off
          subst heq
          cases hkept with
          | here => exact absurd rfl hne
          | further hallowed hnext hrest =>
            exact ⟨_, List.mem_append_left _ hnext, hrest⟩
        · have hrest := (List.mem_cons.mp hn).resolve_left heq
          exact ⟨n, List.mem_append_right _ hrest, hkept⟩
      · exact ⟨next, List.mem_append_left _ hnext, hkept⟩
  | case4 unvisited name rest hne hvisit ih =>
    rw [ih]
    constructor
    · rintro ⟨n, hn, hwithin⟩
      exact ⟨n, List.mem_cons_of_mem _ hn, hwithin⟩
    · rintro ⟨n, hn, hwithin⟩
      rcases List.mem_cons.mp hn with rfl | hn
      · cases hwithin with
        | here => exact absurd rfl hne
        | further hallowed => exact absurd hallowed hvisit
      · exact ⟨n, hn, hwithin⟩

/-! ### What implements an interface -/

/-- Whatever a type says it implements is an interface. -/
def InterfacesNamed (schema : Schema) : Prop :=
  ∀ type ∈ schema.types.toList, ∀ interface ∈ type.interfaceNames,
    schema.types.kindOf? interface = some .interface

theorem mem_namedBy_iff (hnamed : schema.InterfacesNamed) :
    next ∈ schema.namedBy name ↔ schema.Declares name next := by
  unfold namedBy Declares
  cases htype : schema.type? name with
  | none => simp
  | some type =>
    have hmem : type ∈ schema.types.toList := NameTable.mem_of_find?_eq_some htype
    simp only [Option.elim_some, Option.mem_some, exists_eq_left']
    exact ⟨fun h => ⟨hnamed type hmem next h, h⟩, fun h => h.2⟩

/-- Every name is allowed at first, so every way counts. -/
theorem within_names_iff (hnamed : schema.InterfacesNamed) :
    schema.Within target schema.types.names name ↔ ReflTransGen schema.Declares name target := by
  constructor
  · intro h
    induction h with
    | here => exact .refl
    | further _ hnext _ ih => exact .head ((mem_namedBy_iff hnamed).mp hnext) ih
  · intro h
    induction h using ReflTransGen.head_induction_on with
    | refl => exact .here
    | head hdeclares _ ih =>
      obtain ⟨-, type, htype, -⟩ := id hdeclares
      have hname : _ ∈ schema.types.names :=
        NameTable.contains_iff.mp (Option.isSome_iff_exists.mpr ⟨type, htype⟩)
      exact .further hname ((mem_namedBy_iff hnamed).mpr hdeclares) ih

/-- A type implements an interface if it can be reached in one step or more. -/
theorem implements_iff (hnamed : schema.InterfacesNamed) {type : TypeDef}
    (htype : type ∈ schema.types.toList) :
    schema.implements type target = true ↔ TransGen schema.Declares type.name target := by
  have hfound : schema.type? type.name = some type := NameTable.find?_name htype
  have hlist : schema.namedBy type.name = type.interfaceNames := by
    rw [namedBy, hfound, Option.elim_some]
  unfold implements
  rw [reaches_iff, ← hlist, TransGen.head'_iff]
  simp only [within_names_iff hnamed, mem_namedBy_iff hnamed]

/-- The object types that implement an interface, in the order of the table. -/
theorem possibleTypes_of_interface {type : TypeDef} (h : schema.type? name = some type)
    (hkind : type.kind = .interface) :
    schema.possibleTypes name
      = (schema.types.toList.filter fun t => t.isObject && schema.implements t name).map
          TypeDef.name := by
  unfold possibleTypes
  rw [h]
  cases hbody : type.body <;> simp_all [TypeDef.kind, TypeBody.kind]

theorem possibleTypes_of_union {type : TypeDef} (h : schema.type? name = some type)
    (hkind : type.kind = .union) : schema.possibleTypes name = type.memberNames := by
  unfold possibleTypes
  rw [h]
  cases hbody : type.body <;> simp_all [TypeDef.kind, TypeBody.kind, TypeDef.memberNames]

/-- Nothing else stands for an object type. -/
theorem possibleTypes_of_other
    (h : schema.types.kindOf? name ∉ [some .object, some .interface, some .union]) :
    schema.possibleTypes name = [] := by
  cases htype : schema.type? name with
  | none => exact possibleTypes_of_none htype
  | some type =>
    have hkind : schema.types.kindOf? name = some type.kind := congrArg (Option.map _) htype
    rw [hkind] at h
    unfold possibleTypes
    rw [htype]
    cases hbody : type.body <;> simp_all [TypeDef.kind, TypeBody.kind]

/-- The object types that implement an interface are listed once, and in the order of the table. -/
theorem possibleTypes_sublist (hkind : schema.types.kindOf? name = some .interface) :
    (schema.possibleTypes name).Sublist schema.types.names := by
  obtain ⟨type, htype, hinterface⟩ := Option.map_eq_some_iff.mp hkind
  rw [possibleTypes_of_interface htype hinterface]
  exact List.filter_sublist.map _

/-- **An interface stands for the object types that implement it.** -/
theorem mem_possibleTypes_iff (hnamed : schema.InterfacesNamed)
    (hkind : schema.types.kindOf? target = some .interface) :
    name ∈ schema.possibleTypes target ↔
      schema.types.kindOf? name = some .object ∧ TransGen schema.Declares name target := by
  obtain ⟨type, htype, hinterface⟩ := Option.map_eq_some_iff.mp hkind
  rw [possibleTypes_of_interface htype hinterface]
  simp only [List.mem_map, List.mem_filter, Bool.and_eq_true]
  constructor
  · rintro ⟨object, ⟨hmem, hobject, himplements⟩, rfl⟩
    have hfound : schema.types.find? object.name = some object := NameTable.find?_name hmem
    have hkind : object.kind = .object := beq_iff_eq.mp hobject
    refine ⟨?_, (implements_iff hnamed hmem).mp himplements⟩
    rw [NameTable.kindOf?, hfound, Option.map_some, hkind]
  · rintro ⟨hobject, hreach⟩
    obtain ⟨object, hfound, hkind⟩ := Option.map_eq_some_iff.mp hobject
    obtain ⟨hmem, rfl⟩ := NameTable.find?_eq_some_iff.mp hfound
    exact ⟨object, ⟨hmem, beq_iff_eq.mpr hkind, (implements_iff hnamed hmem).mpr hreach⟩, rfl⟩

/-! ### Schemas that have been built -/

theorem Sound.linked (h : schema.Sound) : ∀ t ∈ schema.types.toList, t.body.Linked schema.types :=
  (NameTable.referenceErrors_eq_nil_iff.mp h.references).1

theorem Sound.interfacesNamed (h : schema.Sound) : schema.InterfacesNamed := by
  intro type htype interface hmem
  have hlinked := h.linked type htype
  unfold TypeDef.interfaceNames at hmem
  cases hbody : type.body <;> rw [hbody] at hlinked hmem
  case interface | object => exact hlinked.1 interface hmem
  all_goals cases hmem

/-- The members of a union are object types. -/
theorem Sound.kindOf?_member (h : schema.Sound) {type : TypeDef}
    (htype : schema.type? name = some type) (hmem : next ∈ type.memberNames) :
    schema.types.kindOf? next = some .object := by
  have hlinked := h.linked type (NameTable.mem_of_find?_eq_some htype)
  unfold TypeDef.memberNames at hmem
  cases hbody : type.body <;> rw [hbody] at hlinked hmem
  case union => exact hlinked next hmem
  all_goals cases hmem

end Schema

/--
**Which object types a name stands for.**  An interface stands for the object types from which it
can be reached by implementing, each of them listed once and in the order of the table of types; a
union stands for its members, an object type for itself, and nothing else stands for anything.
Whatever is listed is an object type of the schema, and is listed once.
-/
theorem buildTexts_possibleTypes {texts : List SourceText} {schema : Schema}
    (h : buildTexts texts = .ok schema) (name : String) :
    (schema.types.kindOf? name = some .interface →
        (schema.possibleTypes name).Sublist schema.types.names ∧
          ∀ object, object ∈ schema.possibleTypes name ↔
            schema.types.kindOf? object = some .object ∧ TransGen schema.Declares object name) ∧
      (∀ type, schema.type? name = some type → type.kind = .union →
        schema.possibleTypes name = type.memberNames) ∧
      (schema.types.kindOf? name = some .object → schema.possibleTypes name = [name]) ∧
      (schema.types.kindOf? name ∉ [some .object, some .interface, some .union] →
        schema.possibleTypes name = []) ∧
      (schema.possibleTypes name).Nodup ∧
      ∀ object ∈ schema.possibleTypes name, schema.types.kindOf? object = some .object := by
  have hsound := sound_of_buildTexts h
  have hnamed := hsound.interfacesNamed
  have hobject : schema.types.kindOf? name = some .object → schema.possibleTypes name = [name] := by
    intro hkind
    obtain ⟨type, htype, hkind⟩ := Option.map_eq_some_iff.mp hkind
    exact Schema.possibleTypes_of_object htype hkind
  refine ⟨fun hkind => ⟨Schema.possibleTypes_sublist hkind, fun object =>
    Schema.mem_possibleTypes_iff hnamed hkind⟩, fun type => Schema.possibleTypes_of_union, hobject,
    Schema.possibleTypes_of_other, ?_⟩
  -- what is listed, and how often, depends on the kind of the name
  by_cases hinterface : schema.types.kindOf? name = some .interface
  · refine ⟨(Schema.possibleTypes_sublist hinterface).nodup schema.types.names_nodup, ?_⟩
    intro object hmem
    exact ((Schema.mem_possibleTypes_iff hnamed hinterface).mp hmem).1
  by_cases hunion : schema.types.kindOf? name = some .union
  · obtain ⟨type, htype, hkind⟩ := Option.map_eq_some_iff.mp hunion
    rw [Schema.possibleTypes_of_union htype hkind]
    exact ⟨type.memberNames_nodup, fun object hmem => hsound.kindOf?_member htype hmem⟩
  by_cases hkind : schema.types.kindOf? name = some .object
  · rw [hobject hkind]
    simp [hkind]
  · have hnone : schema.possibleTypes name = [] := by
      apply Schema.possibleTypes_of_other
      simp [hkind, hinterface, hunion]
    simp [hnone]

/-- Two interfaces that implement each other, and an object type that names one of them. -/
def circularTexts : List SourceText :=
  [(none, "interface Node implements Entity { id: ID } type Query implements Entity { id: ID }"),
   (none, "interface Entity implements Node { id: ID } type Other { id: ID } union Any = Other")]

theorem buildTexts_possibleTypes_circular : ∃ schema, buildTexts circularTexts = .ok schema ∧
    schema.Declares "Node" "Entity" ∧ schema.Declares "Entity" "Node" ∧
    "Query" ∈ schema.possibleTypes "Node" ∧ "Other" ∉ schema.possibleTypes "Node" := by
  obtain ⟨schema, h, hcheck⟩ := exists_buildTexts circularTexts
    (p := fun schema => schema.Declares "Node" "Entity" && schema.Declares "Entity" "Node" &&
      schema.Declares "Query" "Entity" && schema.types.kindOf? "Query" == some .object &&
      (schema.namedBy "Other").isEmpty)
    (by decide +kernel)
  simp only [Bool.and_eq_true, decide_eq_true_eq, beq_iff_eq, List.isEmpty_iff] at hcheck
  obtain ⟨⟨⟨⟨hnode, hentity⟩, hquery⟩, hobject⟩, hother⟩ := hcheck
  obtain ⟨-, hmem⟩ := (buildTexts_possibleTypes h "Node").1 hentity.1
  refine ⟨schema, h, hnode, hentity, (hmem "Query").mpr ⟨hobject, .tail (.single hquery) hentity⟩, ?_⟩
  intro hlisted
  obtain ⟨next, hnext, -⟩ := TransGen.head'_iff.mp ((hmem "Other").mp hlisted).2
  have hnone := (Schema.mem_namedBy_iff (sound_of_buildTexts h).interfacesNamed).mpr hnext
  rw [hother] at hnone
  cases hnone

end GraphSchema
