/-
Which object types a name stands for.

An object type stands for itself, and an interface for all that implement it; both are
read off `possibleTypes` here, so that its case distinction is not opened again.

The search for conflicts needs no more than that.  What stands for an interface in a
schema that has been built is described in full where `Schema.Declares` is.
-/
import GraphSchema.Schema.Basic
import GraphSchema.Proofs.Tables

namespace GraphSchema.Schema

variable {schema : Schema} {name : String} {type : TypeDef}

theorem name_of_type? (h : schema.type? name = some type) : type.name = name :=
  NameTable.name_of_find?_eq_some h

theorem possibleTypes_of_none (h : schema.type? name = none) : schema.possibleTypes name = [] := by
  unfold possibleTypes
  rw [h]

/-- An object type stands for itself alone. -/
theorem possibleTypes_of_object (h : schema.type? name = some type) (hkind : type.kind = .object) :
    schema.possibleTypes name = [name] := by
  have hname : type.name = name := name_of_type? h
  unfold possibleTypes
  rw [h]
  cases hbody : type.body <;> simp_all [TypeDef.kind, TypeBody.kind]

/-- What is to be reached already needs no step. -/
theorem reaches_of_mem {target : String} {unvisited todo : List String} (h : target ∈ todo) :
    schema.reaches target unvisited todo = true := by
  fun_induction reaches schema target unvisited todo with
  | case1 => exact absurd h List.not_mem_nil
  | case2 => rfl
  | case3 unvisited name rest hne hvisit further ih =>
    have hrest : target ∈ rest := (List.mem_cons.mp h).resolve_left fun heq => hne heq.symm
    exact ih (List.mem_append_right _ hrest)
  | case4 unvisited name rest hne hvisit ih =>
    have hrest : target ∈ rest := (List.mem_cons.mp h).resolve_left fun heq => hne heq.symm
    exact ih hrest

/-- An object type is possible for each interface that it names. -/
theorem mem_possibleTypes_of_interface {interface : String} {object : TypeDef}
    (h : schema.type? interface = some type) (hkind : type.kind = .interface)
    (hobject : schema.type? name = some object) (hobjectKind : object.kind = .object)
    (himplements : interface ∈ object.interfaceNames) :
    name ∈ schema.possibleTypes interface := by
  have hmem : object ∈ schema.types.toList := NameTable.mem_of_find?_eq_some hobject
  have hreaches : schema.implements object interface = true := reaches_of_mem himplements
  unfold possibleTypes
  simp only [h]
  cases hbody : type.body with
  | interface interfaces fields =>
    refine List.mem_map.mpr ⟨object, List.mem_filter.mpr ⟨hmem, ?_⟩, name_of_type? hobject⟩
    simp [TypeDef.isObject, hobjectKind, hreaches]
  | _ => simp [TypeDef.kind, TypeBody.kind, hbody] at hkind

/-- What is possible for an interface is an object type that names interfaces. -/
theorem exists_of_mem_possibleTypes {interface : String} (h : schema.type? interface = some type)
    (hkind : type.kind = .interface) (hmem : name ∈ schema.possibleTypes interface) :
    ∃ object, schema.type? name = some object ∧ object.kind = .object ∧
      object.interfaceNames ≠ [] := by
  unfold possibleTypes at hmem
  simp only [h] at hmem
  cases hbody : type.body with
  | interface interfaces fields =>
    simp only [hbody, List.mem_map, List.mem_filter, Bool.and_eq_true] at hmem
    obtain ⟨object, ⟨hobject, hisObject, himplements⟩, rfl⟩ := hmem
    refine ⟨object, NameTable.find?_name hobject, beq_iff_eq.mp hisObject, fun hnil => ?_⟩
    unfold implements at himplements
    rw [hnil, reaches] at himplements
    cases himplements
  | _ => simp [TypeDef.kind, TypeBody.kind, hbody] at hkind

end GraphSchema.Schema
