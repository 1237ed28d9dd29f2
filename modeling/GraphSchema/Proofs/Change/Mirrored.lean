/-
Comparing the other way round.

What one version of a schema has alone was removed from it or added to it, depending on which of
the two is the old one, and what differs differs both ways.  So the changes from the new version
to the old one are the mirror images of the changes from the old to the new, each as often as
before (`Schema.changes_mirrored`).  Only the order of the list, and the note on an addition
whether a value has to be given, do not carry over.
-/
import Mathlib.Data.List.Perm.Basic
import Mathlib.Data.List.Nodup
import Mathlib.Data.Prod.Basic
import GraphSchema.Proofs.Change.Reported

namespace GraphSchema

namespace Change

/-- What the change is about: its kind and the names in it.  Whether a value has to be given for
what was added is left out. -/
def subject : Change → Change
  | inputFieldAdded type field _ => inputFieldAdded type field false
  | argumentAdded directive argument _ => argumentAdded directive argument false
  | change => change

/-- What the change is about, if the versions are exchanged. -/
def mirrored : Change → Change
  | typeRemoved type => typeAdded type
  | typeAdded type => typeRemoved type
  | typeKindChanged type old new => typeKindChanged type new old
  | enumValueRemoved enum value => enumValueAdded enum value
  | enumValueAdded enum value => enumValueRemoved enum value
  | unionMemberRemoved union member => unionMemberAdded union member
  | unionMemberAdded union member => unionMemberRemoved union member
  | fieldRemoved type field => fieldAdded type field
  | fieldAdded type field => fieldRemoved type field
  | interfaceRemoved type interface => interfaceAdded type interface
  | interfaceAdded type interface => interfaceRemoved type interface
  | inputFieldRemoved type field => inputFieldAdded type field false
  | inputFieldAdded type field _ => inputFieldRemoved type field
  | directiveRemoved directive => directiveAdded directive
  | directiveAdded directive => directiveRemoved directive
  | directiveLocationRemoved directive location => directiveLocationAdded directive location
  | directiveLocationAdded directive location => directiveLocationRemoved directive location
  | argumentRemoved directive argument => argumentAdded directive argument false
  | argumentAdded directive argument _ => argumentRemoved directive argument
  | typeDescriptionChanged type => typeDescriptionChanged type
  | enumValueDescriptionChanged enum value => enumValueDescriptionChanged enum value
  | enumValueDeprecated enum value => enumValueDeprecated enum value
  | inputFieldDescriptionChanged type field => inputFieldDescriptionChanged type field
  | directiveDescriptionChanged directive => directiveDescriptionChanged directive
  | argumentDescriptionChanged directive argument => argumentDescriptionChanged directive argument

/-- Exchanging the versions twice changes nothing. -/
theorem mirrored_mirrored (change : Change) : change.mirrored.mirrored = change.subject := by
  cases change <;> rfl

end Change

/-- The second changes are about the mirror images of what the first are about. -/
def Mirrors (changes others : List Change) : Prop :=
  (changes.map Change.mirrored).Perm (others.map Change.subject)

variable {changes others more further : List Change}

theorem Mirrors.append (h : Mirrors changes others) (h' : Mirrors more further) :
    Mirrors (changes ++ more) (others ++ further) := by
  unfold Mirrors
  rw [List.map_append, List.map_append]
  exact List.Perm.append h h'

/-! ### Common shapes

The comparison is put together from three shapes: what one table has alone, what two tables have in
common, and a single thing that differs.  Each of them is mirrored, and so is what is put together
from them.
-/

/-- What was removed was added, and what was added was removed. -/
theorem mirrors_exchange {α : Type} {removed added : α → Change}
    (hremoved : ∀ a, (removed a).mirrored = (added a).subject)
    (hadded : ∀ a, (added a).mirrored = (removed a).subject) (before after : List α) :
    Mirrors (before.map removed ++ after.map added) (after.map removed ++ before.map added) := by
  unfold Mirrors
  simp only [List.map_append, List.map_map, Function.comp_def, hremoved, hadded]
  exact List.perm_append_comm

/-- A property that differs does so both ways. -/
theorem mirrors_changeIf {α : Type} [DecidableEq α] {old new : α} {change other : Change}
    (h : change.mirrored = other.subject) :
    Mirrors (changeIf old new change) (changeIf new old other) := by
  unfold Mirrors changeIf
  by_cases heq : old = new
  · rw [if_pos heq, if_pos heq.symm]
    exact .refl _
  · rw [if_neg heq, if_neg fun heq' => heq heq'.symm, List.map_singleton, List.map_singleton, h]

namespace NameTable

variable {α : Type} [Named α] {old new : NameTable α}

theorem common_nodup (old new : NameTable α) : (old.common new).Nodup := by
  refine old.toList_nodup.filterMap fun a a' b hb hb' => ?_
  obtain ⟨_, -, rfl⟩ := Option.map_eq_some_iff.mp hb
  obtain ⟨_, -, heq⟩ := Option.map_eq_some_iff.mp hb'
  exact (congrArg Prod.fst heq).symm

/-- The entries that are in both tables are the same pairs, the other way round. -/
theorem map_swap_common_perm (old new : NameTable α) :
    ((old.common new).map Prod.swap).Perm (new.common old) := by
  have hnodup := (common_nodup old new).map Prod.swap_injective
  refine (List.perm_ext_iff_of_nodup hnodup (common_nodup new old)).mpr fun ⟨b, a⟩ => ?_
  have hswap : (b, a) ∈ (old.common new).map Prod.swap ↔ (a, b) ∈ old.common new :=
    List.mem_map_of_injective (a := (a, b)) Prod.swap_injective
  rw [hswap, mem_common, mem_common]
  constructor
  · intro h
    have hname : Named.name b = Named.name a := name_of_find?_eq_some h.after
    exact ⟨hname ▸ h.after, hname ▸ h.before⟩
  · intro h
    have hname : Named.name a = Named.name b := name_of_find?_eq_some h.after
    exact ⟨hname ▸ h.after, hname ▸ h.before⟩

open scoped List in
/-- What pairs of entries come to is mirrored if each of them is. -/
theorem mirrors_common {reports : α × α → List Change}
    (h : ∀ a b, Named.name a = Named.name b → Mirrors (reports (a, b)) (reports (b, a))) :
    Mirrors ((old.common new).flatMap reports) ((new.common old).flatMap reports) := by
  unfold Mirrors
  rw [List.map_flatMap, List.map_flatMap]
  calc (old.common new).flatMap (fun pair => (reports pair).map Change.mirrored)
    _ ~ (old.common new).flatMap (fun pair => (reports pair.swap).map Change.subject) := by
      refine List.Perm.flatMap_left _ fun ⟨a, b⟩ hpair => ?_
      exact h a b (name_of_find?_eq_some (mem_common.mp hpair).after).symm
    _ = ((old.common new).map Prod.swap).flatMap (fun pair => (reports pair).map Change.subject) := by
      rw [List.flatMap_map]
    _ ~ (new.common old).flatMap (fun pair => (reports pair).map Change.subject) :=
      (map_swap_common_perm old new).flatMap_right _

end NameTable

/-- Whether a value has to be given is told of what was added and not of what was removed, so that
the mirror image of a removal is the addition of any parameter of the name. -/
theorem mirrors_parameterChanges {removed described : String → Change} {added : String → Bool → Change}
    (hremoved : ∀ name required, (removed name).mirrored = (added name required).subject)
    (hadded : ∀ name required, (added name required).mirrored = (removed name).subject)
    (hdescribed : ∀ name, (described name).mirrored = (described name).subject)
    (old new : NameTable Parameter) :
    Mirrors (parameterChanges removed added described old new)
      (parameterChanges removed added described new old) := by
  refine (mirrors_exchange (fun _ => hremoved _ _) (fun _ => hadded _ _) _ _).append
    (NameTable.mirrors_common fun p q hname => ?_)
  have hname : p.name = q.name := hname
  dsimp only
  rw [hname]
  exact mirrors_changeIf (hdescribed _)

/-! ### Types -/

variable (name : String)

theorem mirrors_enumChanges (old new : NameTable EnumValue) :
    Mirrors (enumChanges name old new) (enumChanges name new old) := by
  refine (mirrors_exchange (fun _ => rfl) (fun _ => rfl) _ _).append
    (NameTable.mirrors_common fun v w hname => ?_)
  have hname : v.name = w.name := hname
  dsimp only
  rw [hname]
  exact (mirrors_changeIf rfl).append (mirrors_changeIf rfl)

theorem mirrors_fieldChanges (old new : NameTable Field) :
    Mirrors (fieldChanges name old new) (fieldChanges name new old) :=
  mirrors_exchange (fun _ => rfl) (fun _ => rfl) _ _

theorem mirrors_interfaceChanges (old new : List String) :
    Mirrors (interfaceChanges name old new) (interfaceChanges name new old) :=
  mirrors_exchange (fun _ => rfl) (fun _ => rfl) _ _

theorem mirrors_inputFieldChanges (old new : NameTable Parameter) :
    Mirrors (inputFieldChanges name old new) (inputFieldChanges name new old) :=
  mirrors_parameterChanges (fun _ _ => rfl) (fun _ _ => rfl) (fun _ => rfl) old new

theorem mirrors_memberChanges (old new : NameTable TypeRef) :
    Mirrors (memberChanges name old new) (memberChanges name new old) :=
  mirrors_exchange (fun _ => rfl) (fun _ => rfl) _ _

/-- What types of one kind are made of. -/
theorem mirrors_bodyChanges {old new : TypeBody} (h : bodyChanges name old new = some changes) :
    ∃ others, bodyChanges name new old = some others ∧ Mirrors changes others := by
  cases old <;> cases new <;> cases h
  case enum => exact ⟨_, rfl, mirrors_enumChanges name _ _⟩
  case inputObject => exact ⟨_, rfl, mirrors_inputFieldChanges name _ _⟩
  case interface => exact ⟨_, rfl, mirrors_fieldChanges name _ _⟩
  case object =>
    exact ⟨_, rfl, (mirrors_interfaceChanges name _ _).append (mirrors_fieldChanges name _ _)⟩
  case scalar => exact ⟨_, rfl, .refl _⟩
  case union => exact ⟨_, rfl, mirrors_memberChanges name _ _⟩

theorem mirrors_typeChanges {old new : TypeDef} (hname : old.name = new.name) :
    Mirrors (typeChanges old new) (typeChanges new old) := by
  unfold typeChanges
  rw [← hname]
  cases hbody : bodyChanges old.name old.body new.body with
  | none =>
    have hother : bodyChanges old.name new.body old.body = none :=
      bodyChanges_eq_none_iff.mpr (bodyChanges_eq_none_iff.mp hbody).symm
    rw [hother]
    exact .refl _
  | some changes =>
    obtain ⟨others, hothers, hmirrors⟩ := mirrors_bodyChanges old.name hbody
    rw [hothers]
    exact hmirrors.append (mirrors_changeIf rfl)

/-! ### Directives and schemas -/

theorem mirrors_argumentChanges (old new : NameTable Parameter) :
    Mirrors (argumentChanges name old new) (argumentChanges name new old) :=
  mirrors_parameterChanges (fun _ _ => rfl) (fun _ _ => rfl) (fun _ => rfl) old new

theorem mirrors_directiveChanges {old new : Directive} (hname : old.name = new.name) :
    Mirrors (directiveChanges old new) (directiveChanges new old) := by
  unfold directiveChanges
  rw [← hname]
  have hlocations : Mirrors
      ((missingFrom new.locations old.locations).map (.directiveLocationRemoved old.name)
        ++ (missingFrom old.locations new.locations).map (.directiveLocationAdded old.name))
      ((missingFrom old.locations new.locations).map (.directiveLocationRemoved old.name)
        ++ (missingFrom new.locations old.locations).map (.directiveLocationAdded old.name)) :=
    mirrors_exchange (fun _ => rfl) (fun _ => rfl) _ _
  have hdescription : Mirrors
      (changeIf old.description new.description (.directiveDescriptionChanged old.name))
      (changeIf new.description old.description (.directiveDescriptionChanged old.name)) :=
    mirrors_changeIf rfl
  have hall := (hdescription.append hlocations).append
    (mirrors_argumentChanges old.name old.parameters new.parameters)
  simpa only [List.append_assoc] using hall

/--
**A comparison mirrors itself.**  The changes from the new version to the old one are about the
mirror images of what the changes from the old to the new are about, each as often.
-/
theorem Schema.changes_mirrored (old new : Schema) :
    ((old.changes new).map Change.mirrored).Perm ((new.changes old).map Change.subject) := by
  have htypes : Mirrors ((old.types.common new.types).flatMap fun pair => typeChanges pair.1 pair.2)
      ((new.types.common old.types).flatMap fun pair => typeChanges pair.1 pair.2) :=
    NameTable.mirrors_common fun _ _ => mirrors_typeChanges
  have hdirectives :
      Mirrors ((old.directives.common new.directives).flatMap fun pair => directiveChanges pair.1 pair.2)
        ((new.directives.common old.directives).flatMap fun pair => directiveChanges pair.1 pair.2) :=
    NameTable.mirrors_common fun _ _ => mirrors_directiveChanges
  have htypesAlone : Mirrors
      ((old.types.without new.types).map (fun t => Change.typeRemoved t.name)
        ++ (new.types.without old.types).map (fun t => Change.typeAdded t.name))
      ((new.types.without old.types).map (fun t => Change.typeRemoved t.name)
        ++ (old.types.without new.types).map (fun t => Change.typeAdded t.name)) :=
    mirrors_exchange (fun _ => rfl) (fun _ => rfl) _ _
  have hdirectivesAlone : Mirrors
      ((old.directives.without new.directives).map (fun d => Change.directiveRemoved d.name)
        ++ (new.directives.without old.directives).map (fun d => Change.directiveAdded d.name))
      ((new.directives.without old.directives).map (fun d => Change.directiveRemoved d.name)
        ++ (old.directives.without new.directives).map (fun d => Change.directiveAdded d.name)) :=
    mirrors_exchange (fun _ => rfl) (fun _ => rfl) _ _
  have hall := ((htypesAlone.append htypes).append hdirectivesAlone).append hdirectives
  show Mirrors (old.changes new) (new.changes old)
  unfold Schema.changes
  simpa only [List.append_assoc] using hall

end GraphSchema
