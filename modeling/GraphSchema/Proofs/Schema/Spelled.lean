/-
Names in a schema.

Everything in a schema that has been built has a name for its name, the introspection types
included: they can be extended, but only by what has been read.

Soundness says more than that, but not of introspection types that have been extended.
Names alone are kept by every extension of them.
-/
import GraphSchema.Proofs.Schema.Texts

namespace GraphSchema

open Syntax

/-- The parts of a type have names, and no interface is named twice. -/
def TypeBody.Spelled : TypeBody → Prop
  | .enum values => ∀ v ∈ values.toList, isName v.name.toList = true
  | .inputObject fields => ∀ p ∈ fields.toList, isName p.name.toList = true
  | .interface interfaces fields | .object interfaces fields =>
    (∀ name ∈ interfaces, isName name.toList = true) ∧ interfaces.Nodup ∧
      ∀ f ∈ fields.toList, isName f.name.toList = true
  | .scalar => True
  | .union members => ∀ m ∈ members.toList, isName m.name.toList = true

/-- Types and directives have names, and so does what they are made of. -/
structure Schema.Spelled (schema : Schema) : Prop where
  types : ∀ t ∈ schema.types.toList, isName t.name.toList = true
  bodies : ∀ t ∈ schema.types.toList, t.body.Spelled
  directives : ∀ d ∈ schema.directives.toList, isName d.name.toList = true
  arguments : ∀ d ∈ schema.directives.toList, ∀ p ∈ d.parameters.toList, isName p.name.toList = true

theorem TypeBody.Sound.spelled {room : Nat} {owner : String} {body : TypeBody} (h : body.Sound room owner) :
    body.Spelled := by
  cases body with
  | enum values => exact h
  | inputObject fields => exact fun p hp => (h p hp).name
  | interface interfaces fields => exact ⟨h.1, h.2.1, fun f hf => (h.2.2.2 f hf).name⟩
  | object interfaces fields => exact ⟨h.1, h.2.1, fun f hf => (h.2.2 f hf).name⟩
  | scalar => trivial
  | union members => exact List.forall_mem_map.mp h

/-- **What is added has names.** -/
theorem TypeBody.Adds.spelled {owner : Owner} {room : Nat} {contents : TypeContents} {body body' : TypeBody}
    (h : Adds owner contents body body') (hcontents : contents.Sound room) (hbody : body.Spelled) :
    body'.Spelled := by
  cases h with
  | scalar => trivial
  | object hinterfaces hfields | interface hinterfaces hfields =>
    obtain ⟨hnames, hnodup, hspelled⟩ := hbody
    obtain ⟨hnames', hnodup'⟩ := sound_addInterfaces hinterfaces hcontents.1 hnames hnodup
    exact ⟨hnames', hnodup', hfields.forall_mem hspelled fun f hf _ => (hcontents.2 f hf).name⟩
  | union hmembers => exact hmembers.forall_mem hbody fun name hname _ => hcontents name hname
  | enum hvalues => exact hvalues.forall_mem hbody fun v hv _ => hcontents v hv
  | inputObject hfields => exact hfields.forall_mem hbody fun p hp _ => (hcontents p hp).name

instance : (body : TypeBody) → Decidable body.Spelled
  | .enum values => inferInstanceAs (Decidable (∀ v ∈ values.toList, _))
  | .inputObject fields => inferInstanceAs (Decidable (∀ p ∈ fields.toList, _))
  | .interface interfaces _ | .object interfaces _ =>
    inferInstanceAs (Decidable ((∀ name ∈ interfaces, _) ∧ interfaces.Nodup ∧ _))
  | .scalar => inferInstanceAs (Decidable True)
  | .union members => inferInstanceAs (Decidable (∀ m ∈ members.toList, _))

theorem introspection_spelled : ∀ t ∈ Builtin.introspection, t.body.Spelled := by decide

theorem directives_spelled : ∀ d ∈ Builtin.directives, isName d.name.toList = true ∧
    ∀ p ∈ d.parameters.toList, isName p.name.toList = true := by decide

/-- **A schema that has been built has names throughout.** -/
theorem Draft.Sound.spelled {draft : Draft} (h : draft.Sound) {schema : Schema}
    (hbuild : draft.build = .ok schema) : schema.Spelled := by
  obtain ⟨types, hextend, -, -, rfl⟩ := Draft.build_eq_ok_iff.mp hbuild
  have hdirectives : ∀ d ∈ draft.withBuiltins.directives.toList, isName d.name.toList = true ∧
      ∀ p ∈ d.parameters.toList, isName p.name.toList = true := by
    rw [draft.toList_directives_withBuiltins, List.forall_mem_append]
    refine ⟨fun d hd => directives_spelled d (List.mem_of_mem_filter hd), fun d hd => ?_⟩
    have hsound := h.directives d hd
    exact ⟨hsound.name, fun p hp => (hsound.parameters p hp).name⟩
  refine ⟨(h.build hbuild).types.named, ?_, fun d hd => (hdirectives d hd).1, fun d hd => (hdirectives d hd).2⟩
  refine ExtendsTo.forall_body (P := fun _ body => body.Spelled) (fun extension hmem _ _ _ hadds =>
    hadds.spelled (h.extensions extension hmem).contents) hextend introspection_spelled ?_
  exact fun t ht => (h.types t ht).body.spelled

theorem spelled_of_buildTexts {texts : List SourceText} {schema : Schema} (h : buildTexts texts = .ok schema) :
    schema.Spelled := by
  obtain ⟨draft, hload, hbuild⟩ := bind_eq_ok.mp h
  exact (Draft.sound_of_loadAll hload).spelled hbuild

end GraphSchema
