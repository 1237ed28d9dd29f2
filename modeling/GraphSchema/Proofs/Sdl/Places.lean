/-
Places do not show in a document.

Neither where something is defined nor the order of the table of types shows in the document of a
schema: what is written of a type or a directive depends on the other types only as far as values
do (`Agree`).

Documents of schemas that were built in different ways are compared by this: from sources in
another order, or from definitions with their extensions written into them.
-/
import GraphSchema.Proofs.Schema.Unplaced
import GraphSchema.Proofs.Sdl.Restored

namespace GraphSchema.Sdl

variable {schema other : Schema}

/-! ### Parts -/

theorem blockItems_map {α β : Type} (item : Bool → β → String) (f : α → β) (xs : List α) :
    blockItems item (xs.map f) = blockItems (fun first x => item first (f x)) xs := by
  cases xs with
  | nil => rfl
  | cons x xs => simp only [List.map_cons, blockItems, List.map_map, Function.comp_def]

section

variable (hagree : Agree schema other)
include hagree

theorem parameterText_unplaced (p : Parameter) : parameterText other p.unplaced = parameterText schema p := by
  unfold parameterText
  show p.name ++ ": " ++ p.type.text ++ _ = _
  cases hdefault : p.default with
  | none =>
    have hnone : p.unplaced.default = none := hdefault
    rw [hnone]
  | some v =>
    have hsome : p.unplaced.default = some v := hdefault
    rw [hsome]
    show _ ++ (" = " ++ valueText other v p.type) = _ ++ (" = " ++ valueText schema v p.type)
    rw [← text_valueForm, ← text_valueForm, hagree.valueForm]

theorem parametersText_unplaced (ps : List Parameter) (indent : String) :
    parametersText other (ps.map Parameter.unplaced) indent = parametersText schema ps indent := by
  have hnone : (fun p => p.unplaced.description.isNone) = fun p : Parameter => p.description.isNone := rfl
  unfold parametersText
  simp only [List.isEmpty_map, List.all_map, List.map_map, Function.comp_def, blockItems_map,
    parameterText_unplaced hagree, hnone]
  rfl

theorem fieldText_unplaced (first : Bool) (f : Field) :
    fieldText other first f.unplaced = fieldText schema first f := by
  unfold fieldText
  have hparameters : parametersText other f.unplaced.parameters.toList "  "
      = parametersText schema f.parameters.toList "  " := parametersText_unplaced hagree _ _
  rw [hparameters]
  rfl

theorem bodyText_unplaced (body : TypeBody) : bodyText other body.unplaced = bodyText schema body := by
  have hfields : ∀ fields : NameTable Field,
      fieldsText other (fields.map Field.unplaced Field.name_unplaced) = fieldsText schema fields := by
    intro fields
    unfold fieldsText
    show block (blockItems (fieldText other) (fields.toList.map Field.unplaced)) = _
    rw [blockItems_map]
    simp only [fieldText_unplaced hagree]
  cases body with
  | enum values =>
    show block (blockItems enumValueText (values.toList.map EnumValue.unplaced)) = _
    rw [blockItems_map]
    rfl
  | inputObject fields =>
    show block (blockItems (inputFieldText other) (fields.toList.map Parameter.unplaced)) = _
    rw [blockItems_map, bodyText]
    unfold inputFieldText
    simp only [parameterText_unplaced hagree]
    rfl
  | interface interfaces fields | object interfaces fields =>
    show implementsText interfaces ++ fieldsText other (fields.map Field.unplaced _) = _
    rw [hfields]
    rfl
  | scalar => rfl
  | union members =>
    have hnames : (members.map TypeRef.unplaced TypeRef.name_unplaced).names = members.names := by
      unfold NameTable.names NameTable.map
      rw [List.map_map]
      rfl
    rw [TypeBody.unplaced, bodyText, bodyText, hnames]

theorem typeText_unplaced (t : TypeDef) : typeText other t.unplaced = typeText schema t := by
  have hkind : t.unplaced.kind = t.kind := t.body.kind_unplaced
  rw [typeText_eq, typeText_eq, hkind, ← bodyText_unplaced hagree]
  rfl

theorem directiveText_unplaced (d : Directive) : directiveText other d.unplaced = directiveText schema d := by
  have hparameters : parametersText other d.unplaced.parameters.toList ""
      = parametersText schema d.parameters.toList "" := parametersText_unplaced hagree _ _
  unfold directiveText
  rw [hparameters]
  rfl

end

/-! ### Schemas

The table of types is written in the order of names, so its own order does not show.
-/

theorem agree_of_find? (h : ∀ name, schema.types.find? name = other.types.find? name) : Agree schema other where
  kind := fun name _ => congrArg (Option.map TypeDef.kind) (h name)
  signature := by
    intro name
    unfold signature? inputFields? Schema.type?
    rw [h]

/-- A schema without its places agrees with the schema. -/
theorem agree_unplaced (schema : Schema) : Agree schema schema.unplaced where
  kind := fun name _ => (schema.types.kindOf?_unplaced name).symm
  signature := by
    intro name
    unfold signature? inputFields?
    split
    · rfl
    · have hfields : ∀ t : TypeDef, t.unplaced.inputFields?.map (fun fields => fields.toList.map fun f => (f.name, f.type))
          = t.inputFields?.map fun fields => fields.toList.map fun f => (f.name, f.type) := by
        intro t
        unfold TypeDef.inputFields? TypeDef.unplaced
        cases t.body with
        | inputObject fields =>
          show some ((fields.toList.map Parameter.unplaced).map fun f => (f.name, f.type)) = _
          rw [List.map_map]
          rfl
        | _ => rfl
      have hfound : schema.unplaced.type? name = (schema.type? name).map TypeDef.unplaced :=
        NameTable.find?_map _ TypeDef.name_unplaced name
      rw [hfound]
      cases schema.type? name with
      | none => rfl
      | some t => exact (hfields t).symm

/-- What is written depends on the types only as far as values do. -/
theorem documentText_congr (hagree : Agree schema other) (hroot : schema.root = other.root)
    (directives : List Directive) (types : List TypeDef) :
    documentText other directives types = documentText schema directives types := by
  have hself : Agree other other := ⟨fun _ _ => rfl, fun _ => rfl⟩
  have htypes : typeText other = typeText schema :=
    funext fun t => (typeText_unplaced hself t).symm.trans (typeText_unplaced hagree t)
  have hdirectives : directiveText other = directiveText schema :=
    funext fun d => (directiveText_unplaced hself d).symm.trans (directiveText_unplaced hagree d)
  unfold documentText rootsText
  rw [htypes, hdirectives, hroot]

/-- **The document of a schema does not depend on the order of its types.** -/
theorem sdl_eq_of_perm (htypes : schema.types.toList.Perm other.types.toList)
    (hdirectives : schema.directives = other.directives) (hroot : schema.root = other.root) :
    other.sdl = schema.sdl := by
  have hown : ownTypes other = ownTypes schema := by
    have hperm : (ownTypes other).Perm (ownTypes schema) :=
      ((List.mergeSort_perm _ _).trans (htypes.symm.filter _)).trans (List.mergeSort_perm _ _).symm
    refine List.Perm.eq_of_pairwise (fun t u ht hu htu hut => ?_) (ownTypes_sorted other)
      (ownTypes_sorted schema) hperm
    have hname : t.name = u.name := String.le_antisymm (of_decide_eq_true htu) (of_decide_eq_true hut)
    have ht := NameTable.find?_name (mem_ownTypes_iff.mp (hperm.mem_iff.mp ht)).1
    have hu := NameTable.find?_name (mem_ownTypes_iff.mp hu).1
    rw [show Named.name t = Named.name u from hname] at ht
    exact Option.some.inj (ht.symm.trans hu)
  show documentText other (other.directives.toList.filter _) (ownTypes other) = _
  rw [hown, ← hdirectives, documentText_congr (agree_of_find? (NameTable.perm_iff_find?.mp htypes)) hroot]
  rfl

/-- **Nor on where its parts are defined.** -/
theorem sdl_unplaced (schema : Schema) : schema.unplaced.sdl = schema.sdl := by
  have hagree := agree_unplaced schema
  have hown : ownTypes schema.unplaced = (ownTypes schema).map TypeDef.unplaced := by
    have hfilter : (schema.types.toList.map TypeDef.unplaced).filter (fun t =>
          !Builtin.isReserved t.name && !Builtin.scalarNames.contains t.name)
        = (schema.types.toList.filter fun t =>
          !Builtin.isReserved t.name && !Builtin.scalarNames.contains t.name).map TypeDef.unplaced :=
      List.filter_map
    show ((schema.types.toList.map TypeDef.unplaced).filter _).mergeSort _ = _
    rw [hfilter]
    have hname : ∀ t u : TypeDef, decide (t.name ≤ u.name) = decide (t.unplaced.name ≤ u.unplaced.name) :=
      fun _ _ => rfl
    exact (List.map_mergeSort fun t _ u _ => hname t u).symm
  have hdirectives : schema.unplaced.directives.toList.filter (fun d => !d.isBuiltin)
      = (schema.directives.toList.filter fun d => !d.isBuiltin).map Directive.unplaced := by
    show (schema.directives.toList.map Directive.unplaced).filter _ = _
    rw [List.filter_map]
    rfl
  have hroots : rootsText schema.unplaced = rootsText schema := rfl
  have htypeText : typeText schema.unplaced ∘ TypeDef.unplaced = typeText schema :=
    funext (typeText_unplaced hagree)
  have hdirectiveText : directiveText schema.unplaced ∘ Directive.unplaced = directiveText schema :=
    funext (directiveText_unplaced hagree)
  unfold Schema.sdl documentText
  rw [hown, hdirectives, hroots, List.map_map, List.map_map, htypeText, hdirectiveText]

end GraphSchema.Sdl
