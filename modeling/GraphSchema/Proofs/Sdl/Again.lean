/-
What is read back is written the same.

Descriptions have been rewrapped and defaults read from their forms, and neither shows in the
text: wrapping is stable, and so is the form of a value.  The other schema may differ as long as
it agrees on the types that values depend on.

The relations (`TypeAgain`, `DirectiveAgain` and those of their parts) are what reading a
document establishes of the old schema and the new one, so that nothing else is assumed.
-/
import GraphSchema.Proofs.Related
import GraphSchema.Proofs.Sdl.Document

namespace GraphSchema.Sdl

variable {schema other : Schema}

theorem descriptionText_again (indent : Nat) (description : Option String) (first : Bool) :
    descriptionText (again indent description) (String.ofList (spaces indent)) first
      = descriptionText description (String.ofList (spaces indent)) first := by
  cases description with
  | none => rfl
  | some d =>
    show _ ++ String.ofList (comment _ (String.ofList (rewrapped indent d.toList)).toList)
      = _ ++ String.ofList (comment _ d.toList)
    rw [String.toList_ofList, String.toList_ofList, comment_rewrapped]

/-! ### Lists -/

theorem blockItems_eq_of_forall₂ {γ δ : Type} {R : γ → δ → Prop} {item : Bool → γ → String}
    {item' : Bool → δ → String} {xs : List γ} {ys : List δ} (h : List.Forall₂ R xs ys)
    (hitem : ∀ x ∈ xs, ∀ y, R x y → ∀ first, item' first y = item first x) :
    blockItems item' ys = blockItems item xs := by
  cases h with
  | nil => rfl
  | cons hxy h =>
    rw [List.forall_mem_cons] at hitem
    rw [blockItems, blockItems, hitem.1 _ hxy,
      map_eq_of_forall₂ h fun x hx y hxy => hitem.2 x hx y hxy false]

/-! ### Members -/

theorem parameterText_again {indent : Nat} {p q : Parameter} (h : ParameterAgain schema indent p q)
    (hproper : ∀ v ∈ p.default, v.Proper) (hagree : Agree schema other) :
    parameterText other q = parameterText schema p := by
  unfold parameterText
  rw [h.name, h.type, h.default]
  cases hvalue : p.default with
  | none => rfl
  | some v =>
    show _ ++ (" = " ++ valueText other (valueForm schema v p.type).literal p.type)
      = _ ++ (" = " ++ valueText schema v p.type)
    rw [← text_valueForm, ← hagree.valueForm, valueForm_literal (hproper v hvalue), text_valueForm]

theorem isNone_again {indent : Nat} {ps qs : List Parameter}
    (h : List.Forall₂ (ParameterAgain schema indent) ps qs) :
    (qs.all fun q => q.description.isNone) = ps.all fun p => p.description.isNone := by
  have hmap : (qs.map fun q => q.description.isNone) = ps.map fun p => p.description.isNone := by
    refine map_eq_of_forall₂ h fun p _ q hagain => ?_
    rw [hagain.description]
    exact Option.isNone_map
  have hall := congrArg (List.all · id) hmap
  simp only [List.all_map] at hall
  exact hall

theorem parametersText_again {indent : Nat} {ps qs : List Parameter}
    (h : List.Forall₂ (ParameterAgain schema (indent + 2)) ps qs)
    (hproper : ∀ p ∈ ps, ∀ v ∈ p.default, v.Proper) (hagree : Agree schema other) :
    parametersText other qs (String.ofList (spaces indent))
      = parametersText schema ps (String.ofList (spaces indent)) := by
  have hempty : qs.isEmpty = ps.isEmpty := by cases h <;> rfl
  have htext : ∀ p ∈ ps, ∀ q, ParameterAgain schema (indent + 2) p q →
      parameterText other q = parameterText schema p :=
    fun p hp q hagain => parameterText_again hagain (hproper p hp) hagree
  unfold parametersText
  rw [hempty, isNone_again h, map_eq_of_forall₂ h htext, deeper_eq]
  dsimp only
  rw [blockItems_eq_of_forall₂ h]
  intro p hp q hagain first
  rw [hagain.description, descriptionText_again, htext p hp q hagain]

theorem fieldText_again {f g : Field} (h : FieldAgain schema f g) (hproper : ProperArguments f)
    (hagree : Agree schema other) (first : Bool) : fieldText other first g = fieldText schema first f := by
  have hindent : "  " = String.ofList (spaces 2) := rfl
  unfold fieldText
  rw [h.name, h.description, h.type, h.deprecation, hindent, descriptionText_again,
    parametersText_again h.parameters hproper hagree]

theorem enumValueText_again {v w : EnumValue} (h : EnumValueAgain v w) (first : Bool) :
    enumValueText first w = enumValueText first v := by
  have hindent : "  " = String.ofList (spaces 2) := rfl
  unfold enumValueText
  rw [h.name, h.description, h.deprecation, hindent, descriptionText_again]

theorem inputFieldText_again {p q : Parameter} (h : ParameterAgain schema 2 p q)
    (hproper : ∀ v ∈ p.default, v.Proper) (hagree : Agree schema other) (first : Bool) :
    inputFieldText other first q = inputFieldText schema first p := by
  have hindent : "  " = String.ofList (spaces 2) := rfl
  unfold inputFieldText
  rw [h.description, hindent, descriptionText_again, parameterText_again h hproper hagree]

/-! ### Definitions -/

/-- The second body is what the first one is read as when it is written. -/
inductive BodyAgain (schema : Schema) : TypeBody → TypeBody → Prop
  | enum {values values' : NameTable EnumValue}
      (h : List.Forall₂ EnumValueAgain values.toList values'.toList) :
      BodyAgain schema (.enum values) (.enum values')
  | inputObject {fields fields' : NameTable Parameter}
      (h : List.Forall₂ (ParameterAgain schema 2) fields.toList fields'.toList) :
      BodyAgain schema (.inputObject fields) (.inputObject fields')
  | interface {interfaces : List String} {fields fields' : NameTable Field}
      (h : List.Forall₂ (FieldAgain schema) fields.toList fields'.toList) :
      BodyAgain schema (.interface interfaces fields) (.interface interfaces fields')
  | object {interfaces : List String} {fields fields' : NameTable Field}
      (h : List.Forall₂ (FieldAgain schema) fields.toList fields'.toList) :
      BodyAgain schema (.object interfaces fields) (.object interfaces fields')
  | scalar : BodyAgain schema .scalar .scalar
  | union {members members' : NameTable TypeRef} (h : members'.names = members.names) :
      BodyAgain schema (.union members) (.union members')

/-- The second type is what the first one is read as when it is written. -/
structure TypeAgain (schema : Schema) (t u : TypeDef) : Prop where
  name : u.name = t.name
  description : u.description = again 0 t.description
  body : BodyAgain schema t.body u.body

/-- The second directive is what the first one is read as when it is written. -/
structure DirectiveAgain (schema : Schema) (d e : Directive) : Prop where
  name : e.name = d.name
  description : e.description = again 0 d.description
  parameters : List.Forall₂ (ParameterAgain schema 2) d.parameters.toList e.parameters.toList
  repeatable : e.repeatable = d.repeatable
  locations : e.locations = d.locations

theorem BodyAgain.kind {body body' : TypeBody} (h : BodyAgain schema body body') :
    body'.kind = body.kind := by
  cases h <;> rfl

theorem bodyText_again {body body' : TypeBody} (h : BodyAgain schema body body')
    (hproper : ProperBody body) (hagree : Agree schema other) :
    bodyText other body' = bodyText schema body := by
  have hfields : ∀ {fields fields' : NameTable Field},
      List.Forall₂ (FieldAgain schema) fields.toList fields'.toList →
      (∀ f ∈ fields.toList, ProperArguments f) → fieldsText other fields' = fieldsText schema fields := by
    intro fields fields' h hproper
    refine congrArg block (blockItems_eq_of_forall₂ h fun f hf g hagain first => ?_)
    exact fieldText_again hagain (hproper f hf) hagree first
  cases h with
  | enum h => exact congrArg block (blockItems_eq_of_forall₂ h fun _ _ _ => enumValueText_again)
  | inputObject h =>
    refine congrArg block (blockItems_eq_of_forall₂ h fun p hp q hagain first => ?_)
    exact inputFieldText_again hagain (hproper p hp) hagree first
  | interface h | object h =>
    rw [bodyText, bodyText, hfields h hproper]
  | scalar => rfl
  | union h => rw [bodyText, bodyText, h]

/-- **A type that is read back is written the same.** -/
theorem typeText_again {t u : TypeDef} (h : TypeAgain schema t u) (hproper : ProperBody t.body)
    (hagree : Agree schema other) : typeText other u = typeText schema t := by
  have hkind : u.kind = t.kind := h.body.kind
  have hindent : "" = String.ofList (spaces 0) := rfl
  rw [typeText_eq, typeText_eq, h.name, hkind, h.description, bodyText_again h.body hproper hagree,
    hindent, descriptionText_again]

/-- **A directive that is read back is written the same.** -/
theorem directiveText_again {d e : Directive} (h : DirectiveAgain schema d e)
    (hproper : ∀ p ∈ d.parameters.toList, ∀ v ∈ p.default, v.Proper) (hagree : Agree schema other) :
    directiveText other e = directiveText schema d := by
  have hdescription : descriptionText (again 0 d.description) "" true
      = descriptionText d.description "" true := descriptionText_again 0 d.description true
  have hparameters : parametersText other e.parameters.toList ""
      = parametersText schema d.parameters.toList "" := by
    have hindent : "" = String.ofList (spaces 0) := rfl
    rw [hindent]
    exact parametersText_again h.parameters hproper hagree
  unfold directiveText
  rw [h.name, h.description, h.repeatable, h.locations, hdescription, hparameters]

end GraphSchema.Sdl
