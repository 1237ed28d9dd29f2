/-
That a difference is reported once.

A record of a change, its label and its wording, tells what the change is about: the names in it can
be read off.  No two changes in a comparison are about the same, since everything that is compared
has its own name, except for one thing.  The locations of a directive are a list as they are written,
and one that is written twice is kept twice.  So it is reported twice when the other version does not
have it (`buildTexts_changes_nodup`).

The comparison goes by tables, types and directives first and then what each of them is made of.
One lemma says of two tables that different names are reported apart (`once_table`); what is reported
of one pair of entries is then a matter of the labels.
-/
import GraphSchema.Proofs.Change.Reported
import GraphSchema.Proofs.Change.Wording
import GraphSchema.Proofs.Schema.Spelled

namespace GraphSchema

open Syntax

namespace Change

/-! ### What a change is about

The label of a change and the names in it.  Two changes about the same thing are the ones that must
not both be in a list; locations are counted apart, since of these a directive may have one twice.
-/

/-- The label of a change and the names in its wording. -/
def key (change : Change) : String × List String := (change.label, change.names)

/-- The labels of the changes whose wording names the type or the directive first. -/
def ownerFirst : List String :=
  ["TYPE_KIND_CHANGED", "ENUM_VALUE_DESCRIPTION_CHANGED", "OBJECT_TYPE_INTERFACE_REMOVED",
    "OBJECT_TYPE_INTERFACE_ADDED", "INPUT_FIELD_DESCRIPTION_CHANGED", "DIRECTIVE_ARGUMENT_DESCRIPTION_CHANGED"]

/-- The type or the directive. -/
def owner? (key : String × List String) : Option String :=
  if key.1 ∈ ownerFirst then key.2.head? else key.2.getLast?

/-- What of it has changed, if it is not the whole. -/
def part? (key : String × List String) : Option String :=
  if key.1 ∈ ownerFirst then key.2[1]? else key.2.head?

/-- The labels of the changes in directives. -/
def directiveLabels : List String :=
  ["DIRECTIVE_REMOVED", "DIRECTIVE_ADDED", "DIRECTIVE_DESCRIPTION_CHANGED", "DIRECTIVE_LOCATION_REMOVED",
    "DIRECTIVE_LOCATION_ADDED", "DIRECTIVE_ARGUMENT_REMOVED", "DIRECTIVE_ARGUMENT_ADDED",
    "DIRECTIVE_ARGUMENT_DESCRIPTION_CHANGED"]

/-- Whether the change is about a location of a directive. -/
def isOfLocation : Change → Bool
  | directiveLocationRemoved _ _ | directiveLocationAdded _ _ => true
  | _ => false

end Change

/-- No two of those changes that are counted are about the same. -/
def Once (p : Change → Bool) (changes : List Change) : Prop :=
  changes.Pairwise fun c d => p c → p d → c.key ≠ d.key

/-! ### Common shapes

If the changes of one list name different owners, or have labels that the other list does not have,
the two lists may be put together.  One of the two applies wherever the comparison joins lists.
-/

section

variable {p : Change → Bool} {α γ : Type}

theorem once_singleton (change : Change) : Once p [change] := List.pairwise_singleton _ _

theorem once_changeIf [DecidableEq α] (old new : α) (change : Change) : Once p (changeIf old new change) := by
  unfold changeIf
  split
  · exact .nil
  · exact once_singleton change

/-- Changes that something tells apart are reported once. -/
theorem Once.append {changes others : List Change} (about : String × List String → γ) (h : Once p changes)
    (h' : Once p others) (hne : ∀ c ∈ changes, ∀ d ∈ others, about c.key ≠ about d.key) :
    Once p (changes ++ others) :=
  List.pairwise_append.mpr ⟨h, h', fun c hc d hd _ _ heq => hne c hc d hd (congrArg about heq)⟩

/-- Changes of other labels are other changes. -/
theorem Once.append_of_label {changes others : List Change} (labels : List String) (h : Once p changes)
    (h' : Once p others) (hout : ∀ c ∈ changes, labels.contains c.label = false)
    (hin : ∀ d ∈ others, labels.contains d.label = true) : Once p (changes ++ others) :=
  h.append (fun key => labels.contains key.1) h' fun c hc d hd heq =>
    Bool.noConfusion ((hout c hc).symm.trans (heq.trans (hin d hd)))

theorem once_map {report : α → Change} {list : List α} (about : String × List String → γ) {f : α → γ}
    (hreport : ∀ a, about (report a).key = f a) (h : (list.map f).Nodup) : Once p (list.map report) := by
  refine List.pairwise_map.mpr ((List.pairwise_map.mp h).imp fun hne _ _ heq => hne ?_)
  rw [← hreport, ← hreport, heq]

variable [Named α] {old new : NameTable α} (about : String × List String → Option String)
  {removed added : α → Change} {reports : α × α → List Change}

theorem once_map_without (t u : NameTable α) {report : α → Change}
    (hreport : ∀ a, about (report a).key = some (Named.name a)) : Once p ((t.without u).map report) := by
  refine once_map about hreport (List.pairwise_map.mpr ?_)
  exact (t.distinct.sublist List.filter_sublist).imp fun hne heq => hne (Option.some.inj heq)

/-- What one of two tables has alone is reported once. -/
theorem once_exchange (old new : NameTable α) (hremoved : ∀ a, about (removed a).key = some (Named.name a))
    (hadded : ∀ a, about (added a).key = some (Named.name a)) :
    Once p ((old.without new).map removed ++ (new.without old).map added) := by
  refine Once.append about (once_map_without about old new hremoved) (once_map_without about new old hadded) ?_
  rintro _ hc _ hd heq
  obtain ⟨a, ha, rfl⟩ := List.mem_map.mp hc
  obtain ⟨b, hb, rfl⟩ := List.mem_map.mp hd
  have hname : Named.name a = Named.name b := Option.some.inj (((hremoved a).symm.trans heq).trans (hadded b))
  have hmissing := (NameTable.mem_without.mp ha).missing
  rw [hname, (NameTable.mem_without.mp hb).found] at hmissing
  cases hmissing

theorem once_common (hreports : ∀ a b, ∀ c ∈ reports (a, b), about c.key = some (Named.name a))
    (h : ∀ a b, old.InBoth new (Named.name a) a b → Once p (reports (a, b))) :
    Once p ((old.common new).flatMap reports) := by
  refine List.pairwise_flatMap.mpr ⟨fun (a, b) hmem => h a b (NameTable.mem_common.mp hmem), ?_⟩
  refine List.pairwise_filterMap.mpr (old.distinct.imp fun {a b} hne pair hpair pair' hpair' c hc d hd _ _ heq => ?_)
  obtain ⟨a', -, rfl⟩ := Option.map_eq_some_iff.mp hpair
  obtain ⟨b', -, rfl⟩ := Option.map_eq_some_iff.mp hpair'
  refine hne (Option.some.inj ?_)
  rw [← hreports a a' c hc, ← hreports b b' d hd, heq]

/-- What holds of each kind of report on two tables. -/
theorem forall_mem_table {P : Change → Prop} (old new : NameTable α) (hremoved : ∀ a, P (removed a))
    (hadded : ∀ a, P (added a)) (hreports : ∀ a b, ∀ c ∈ reports (a, b), P c) :
    ∀ c ∈ (old.without new).map removed ++ (new.without old).map added ++ (old.common new).flatMap reports, P c := by
  intro c hc
  simp only [List.mem_append, NameTable.mem_map_without, NameTable.mem_flatMap_common] at hc
  rcases hc with (⟨_, a, -, rfl⟩ | ⟨_, a, -, rfl⟩) | ⟨_, a, b, -, hc⟩
  · exact hremoved a
  · exact hadded a
  · exact hreports a b c hc

/-- **What is reported of two tables is reported once**, if that holds of each pair of entries. -/
theorem once_table (old new : NameTable α) (hremoved : ∀ a, about (removed a).key = some (Named.name a))
    (hadded : ∀ a, about (added a).key = some (Named.name a))
    (hreports : ∀ a b, ∀ c ∈ reports (a, b), about c.key = some (Named.name a))
    (h : ∀ a b, old.InBoth new (Named.name a) a b → Once p (reports (a, b))) :
    Once p ((old.without new).map removed ++ (new.without old).map added ++ (old.common new).flatMap reports) := by
  refine Once.append about (once_exchange about old new hremoved hadded) (once_common about hreports h) ?_
  rintro c hc d hd heq
  obtain ⟨⟨a, b⟩, hpair, hd⟩ := List.mem_flatMap.mp hd
  have hboth := NameTable.mem_common.mp hpair
  rw [hreports a b d hd] at heq
  rcases List.mem_append.mp hc with hc | hc
  · obtain ⟨e, he, rfl⟩ := List.mem_map.mp hc
    have hmissing := (NameTable.mem_without.mp he).missing
    rw [Option.some.inj ((hremoved e).symm.trans heq), hboth.after] at hmissing
    cases hmissing
  · obtain ⟨e, he, rfl⟩ := List.mem_map.mp hc
    have hmissing := (NameTable.mem_without.mp he).missing
    rw [Option.some.inj ((hadded e).symm.trans heq), hboth.before] at hmissing
    cases hmissing

end

/-- Parameters are reported once if their names can be read off the reports. -/
theorem once_parameterChanges {p : Change → Bool} {removed described : String → Change}
    {added : String → Bool → Change} (about : String × List String → Option String)
    (hremoved : ∀ name, about (removed name).key = some name)
    (hadded : ∀ name required, about (added name required).key = some name)
    (hdescribed : ∀ name, about (described name).key = some name) (old new : NameTable Parameter) :
    Once p (parameterChanges removed added described old new) := by
  refine once_table about old new (fun _ => hremoved _) (fun _ => hadded _ _) (fun a b c hc => ?_)
    fun _ _ _ => once_changeIf _ _ _
  obtain ⟨-, rfl⟩ := mem_changeIf.mp hc
  exact hdescribed _

/-! ### Types -/

open Change (owner? part?)
open NameTable (mem_map_without mem_flatMap_common)

variable {p : Change → Bool}

theorem once_enumChanges (enum : String) (old new : NameTable EnumValue) : Once p (enumChanges enum old new) := by
  refine once_table part? old new (fun _ => rfl) (fun _ => rfl) (fun v w c hc => ?_) fun v w _ => ?_
  · rcases List.mem_append.mp hc with hc | hc
    · obtain ⟨-, rfl⟩ := mem_changeIf.mp hc
      rfl
    · obtain ⟨-, rfl⟩ := mem_changeIf.mp hc
      rfl
  · refine Once.append_of_label ["ENUM_VALUE_DEPRECATED"] (once_changeIf _ _ _) (once_changeIf _ _ _)
      (fun c hc => ?_) fun d hd => ?_
    · obtain ⟨-, rfl⟩ := mem_changeIf.mp hc
      rfl
    · obtain ⟨-, rfl⟩ := mem_changeIf.mp hd
      rfl

theorem once_fieldChanges (type : String) (old new : NameTable Field) : Once p (fieldChanges type old new) :=
  once_exchange part? old new (fun _ => rfl) fun _ => rfl

theorem once_memberChanges (union : String) (old new : NameTable TypeRef) : Once p (memberChanges union old new) :=
  once_exchange part? old new (fun _ => rfl) fun _ => rfl

theorem once_inputFieldChanges (type : String) (old new : NameTable Parameter) :
    Once p (inputFieldChanges type old new) :=
  once_parameterChanges part? (fun _ => rfl) (fun _ _ => rfl) (fun _ => rfl) old new

theorem once_interfaceChanges (type : String) {old new : List String} (hold : old.Nodup) (hnew : new.Nodup) :
    Once p (interfaceChanges type old new) := by
  have hmissing : ∀ {others list : List String}, list.Nodup → ((missingFrom others list).map some).Nodup :=
    fun h => (h.filter _).map (Option.some_injective _)
  refine Once.append part? (once_map part? (fun _ => rfl) (hmissing hold))
    (once_map part? (fun _ => rfl) (hmissing hnew)) ?_
  rintro _ hc _ hd heq
  obtain ⟨a, ha, rfl⟩ := List.mem_map.mp hc
  obtain ⟨b, hb, rfl⟩ := List.mem_map.mp hd
  obtain rfl : a = b := Option.some.inj heq
  exact (mem_missingFrom.mp ha).2 (mem_missingFrom.mp hb).1

/-- What types of one kind are made of. -/
theorem once_bodyChanges {type : String} {old new : TypeBody} {changes : List Change} (hold : old.Spelled)
    (hnew : new.Spelled) (h : bodyChanges type old new = some changes) : Once p changes := by
  cases old <;> cases new <;> cases h
  case enum => exact once_enumChanges type _ _
  case inputObject => exact once_inputFieldChanges type _ _
  case interface => exact once_fieldChanges type _ _
  case object =>
    refine Once.append_of_label ["FIELD_REMOVED", "FIELD_ADDED"]
      (once_interfaceChanges type hold.2.1 hnew.2.1) (once_fieldChanges type _ _) (fun c hc => ?_) fun d hd => ?_
    · cases mem_interfaceChanges.mp ⟨hc, rfl⟩ <;> rfl
    · cases mem_fieldChanges.mp ⟨hd, rfl⟩ <;> rfl
  case scalar => exact .nil
  case union => exact once_memberChanges type _ _

/-- What is reported of a body names the type, and is neither about its description nor about
directives. -/
theorem BodyReport.key {type : String} {old new : TypeBody} {change : Change} {breaking : Bool}
    (h : BodyReport type old new change breaking) : owner? change.key = some type ∧
      ("TYPE_DESCRIPTION_CHANGED" :: Change.directiveLabels).contains change.label = false := by
  cases h with
  | enum report => cases report <;> exact ⟨rfl, rfl⟩
  | inputObject report => cases report <;> exact ⟨rfl, rfl⟩
  | interface report | objectField report => cases report <;> exact ⟨rfl, rfl⟩
  | objectInterface report => cases report <;> exact ⟨rfl, rfl⟩
  | union report => cases report <;> exact ⟨rfl, rfl⟩

theorem TypeReport.key {name : String} {old new : TypeDef} {change : Change} {breaking : Bool}
    (h : TypeReport name old new change breaking) :
    owner? change.key = some name ∧ Change.directiveLabels.contains change.label = false := by
  cases h with
  | kind _ | description _ _ => exact ⟨rfl, rfl⟩
  | body _ report =>
    obtain ⟨howner, hlabel⟩ := report.key
    rw [List.contains_cons, Bool.or_eq_false_iff] at hlabel
    exact ⟨howner, hlabel.2⟩

theorem once_typeChanges {old new : TypeDef} (hold : old.body.Spelled) (hnew : new.body.Spelled) :
    Once p (typeChanges old new) := by
  unfold typeChanges
  cases hbody : bodyChanges old.name old.body new.body with
  | none => exact once_singleton _
  | some changes =>
    refine Once.append_of_label ["TYPE_DESCRIPTION_CHANGED"] (once_bodyChanges hold hnew hbody) (once_changeIf _ _ _)
      (fun c hc => ?_) fun d hd => ?_
    · obtain ⟨-, hlabel⟩ := ((mem_bodyChanges hbody).mp ⟨hc, rfl⟩).key
      rw [List.contains_cons, Bool.or_eq_false_iff] at hlabel
      rw [List.contains_cons, hlabel.1]
      rfl
    · obtain ⟨-, rfl⟩ := mem_changeIf.mp hd
      rfl

/-! ### Directives -/

theorem once_argumentChanges (directive : String) (old new : NameTable Parameter) :
    Once p (argumentChanges directive old new) :=
  once_parameterChanges part? (fun _ => rfl) (fun _ _ => rfl) (fun _ => rfl) old new

/-- The reports on the locations of a directive. -/
def locationChanges (old new : Directive) : List Change :=
  (missingFrom new.locations old.locations).map (.directiveLocationRemoved old.name)
    ++ (missingFrom old.locations new.locations).map (.directiveLocationAdded old.name)

/-- Locations of which none is reported twice. -/
theorem once_locationChanges {old new : Directive} (hold : (missingFrom new.locations old.locations).Nodup)
    (hnew : (missingFrom old.locations new.locations).Nodup) : Once p (locationChanges old new) := by
  have hinjective : Function.Injective fun location : DirectiveLocation => some location.camelName :=
    (Option.some_injective _).comp Change.camelName_injective
  refine Once.append_of_label ["DIRECTIVE_LOCATION_ADDED"] (once_map part? (fun _ => rfl) (hold.map hinjective))
    (once_map part? (fun _ => rfl) (hnew.map hinjective)) (fun c hc => ?_) fun d hd => ?_
  · obtain ⟨location, -, rfl⟩ := List.mem_map.mp hc
    rfl
  · obtain ⟨location, -, rfl⟩ := List.mem_map.mp hd
    rfl

theorem of_mem_locationChanges {old new : Directive} {change : Change} (h : change ∈ locationChanges old new) :
    change.isOfLocation = true := by
  rcases List.mem_append.mp h with h | h
  · obtain ⟨location, -, rfl⟩ := List.mem_map.mp h
    rfl
  · obtain ⟨location, -, rfl⟩ := List.mem_map.mp h
    rfl

/-- What is reported of two directives is reported once, if that holds of their locations. -/
theorem once_directiveChanges {old new : Directive} (h : Once p (locationChanges old new)) :
    Once p (directiveChanges old new) := by
  have hsplit : directiveChanges old new
      = changeIf old.description new.description (.directiveDescriptionChanged old.name)
        ++ locationChanges old new ++ argumentChanges old.name old.parameters new.parameters := by
    simp only [directiveChanges, locationChanges, List.append_assoc]
  have hdescription : ∀ c ∈ changeIf old.description new.description (.directiveDescriptionChanged old.name),
      c.label = "DIRECTIVE_DESCRIPTION_CHANGED" := fun c hc => by
    obtain ⟨-, rfl⟩ := mem_changeIf.mp hc
    rfl
  have hlocation : ∀ c ∈ locationChanges old new,
      c.label = "DIRECTIVE_LOCATION_REMOVED" ∨ c.label = "DIRECTIVE_LOCATION_ADDED" := fun c hc => by
    have hof := of_mem_locationChanges hc
    cases c <;> cases hof
    · exact .inl rfl
    · exact .inr rfl
  rw [hsplit]
  refine Once.append_of_label ["DIRECTIVE_ARGUMENT_REMOVED", "DIRECTIVE_ARGUMENT_ADDED",
    "DIRECTIVE_ARGUMENT_DESCRIPTION_CHANGED"] ?_ (once_argumentChanges _ _ _) ?_ ?_
  · refine Once.append_of_label ["DIRECTIVE_LOCATION_REMOVED", "DIRECTIVE_LOCATION_ADDED"]
      (once_changeIf _ _ _) h (fun c hc => ?_) fun d hd => ?_
    · rw [hdescription c hc]
      rfl
    · rcases hlocation d hd with heq | heq <;> rw [heq] <;> rfl
  · intro c hc
    rcases List.mem_append.mp hc with hc | hc
    · rw [hdescription c hc]
      rfl
    · rcases hlocation c hc with heq | heq <;> rw [heq] <;> rfl
  · refine forall_mem_table _ _ (fun _ => rfl) (fun _ => rfl) fun a b c hc => ?_
    obtain ⟨-, rfl⟩ := mem_changeIf.mp hc
    rfl

/-- What is reported of two directives names them and has a label of its own. -/
theorem DirectiveReport.key {name : String} {old new : Directive} {change : Change} {breaking : Bool}
    (h : DirectiveReport name old new change breaking) :
    owner? change.key = some name ∧ Change.directiveLabels.contains change.label = true := by
  cases h with
  | description _ | locationRemoved _ _ | locationAdded _ _ => exact ⟨rfl, rfl⟩
  | argument report => cases report <;> exact ⟨rfl, rfl⟩

/-! ### Schemas -/

/-- **What is reported of two schemas is reported once**, if that holds of the locations of each
directive. -/
theorem once_changes {old new : Schema} (hold : old.Spelled) (hnew : new.Spelled)
    (h : ∀ name d e, old.directives.InBoth new.directives name d e → Once p (locationChanges d e)) :
    Once p (old.changes new) := by
  have hassoc (types removed added common : List Change) :
      types ++ removed ++ added ++ common = types ++ (removed ++ added ++ common) := by
    simp only [List.append_assoc]
  unfold Schema.changes
  rw [hassoc]
  refine Once.append_of_label Change.directiveLabels
    (once_table owner? old.types new.types (fun _ => rfl) (fun _ => rfl) (fun t u c hc => ?_) fun t u hboth => ?_)
    (once_table owner? old.directives new.directives (fun _ => rfl) (fun _ => rfl) (fun d e c hc => ?_)
      fun d e hboth => ?_)
    (forall_mem_table _ _ (fun _ => rfl) (fun _ => rfl) fun t u c hc => ?_)
    (forall_mem_table _ _ (fun _ => rfl) (fun _ => rfl) fun d e c hc => ?_)
  · exact (mem_typeChanges.mp ⟨hc, rfl⟩).key.1
  · exact once_typeChanges (hold.bodies t (NameTable.mem_of_find?_eq_some hboth.before))
      (hnew.bodies u (NameTable.mem_of_find?_eq_some hboth.after))
  · exact (mem_directiveChanges.mp ⟨hc, rfl⟩).key.1
  · exact once_directiveChanges (h d.name d e hboth)
  · exact (mem_typeChanges.mp ⟨hc, rfl⟩).key.2
  · exact (mem_directiveChanges.mp ⟨hc, rfl⟩).key.2

/-! ### Names

All names in a change, but for those of kinds and of locations, come out of one of the two schemas.
In a schema that has been built these are spelled as names are, which is what allows to read them
off the wording.
-/

namespace NameTable

variable {α : Type} [Named α] {old new : NameTable α} {name : String} {a b : α}

theorem OnlyIn.isName (h : old.OnlyIn new name a)
    (hnames : ∀ a ∈ old.toList, Syntax.isName (Named.name a).toList = true) :
    Syntax.isName name.toList = true :=
  h.name_eq ▸ hnames a (mem_of_find?_eq_some h.found)

theorem InBoth.isName (h : old.InBoth new name a b)
    (hnames : ∀ a ∈ old.toList, Syntax.isName (Named.name a).toList = true) :
    Syntax.isName name.toList = true :=
  h.name_eq ▸ hnames a (mem_of_find?_eq_some h.before)

end NameTable

/-- The names in the wording are names. -/
def Change.Spelled (change : Change) : Prop := ∀ name ∈ change.names, isName name.toList = true

/-- A part and what it is a part of, in either order. -/
theorem spelled_pair {a b : String} (ha : isName a.toList = true) (hb : isName b.toList = true) :
    ∀ name ∈ [a, b], isName name.toList = true :=
  List.forall_mem_cons.mpr ⟨ha, List.forall_mem_singleton.mpr hb⟩

theorem ParameterReport.spelled {removed described : String → Change} {added : String → Bool → Change}
    {old new : NameTable Parameter} {change : Change} {breaking : Bool}
    (report : ParameterReport removed added described old new change breaking)
    (hremoved : ∀ name, isName name.toList = true → (removed name).Spelled)
    (hadded : ∀ name required, isName name.toList = true → (added name required).Spelled)
    (hdescribed : ∀ name, isName name.toList = true → (described name).Spelled)
    (hold : ∀ p ∈ old.toList, isName p.name.toList = true)
    (hnew : ∀ p ∈ new.toList, isName p.name.toList = true) : change.Spelled := by
  cases report with
  | removed h => exact hremoved _ (h.isName hold)
  | added h _ => exact hadded _ _ (h.isName hnew)
  | description h _ => exact hdescribed _ (h.isName hold)

theorem BodyReport.spelled {type : String} {old new : TypeBody} {change : Change} {breaking : Bool}
    (report : BodyReport type old new change breaking) (htype : isName type.toList = true)
    (hold : old.Spelled) (hnew : new.Spelled) : change.Spelled := by
  cases report with
  | enum report =>
    cases report with
    | removed h => exact spelled_pair (h.isName hold) htype
    | added h => exact spelled_pair (h.isName hnew) htype
    | description h _ => exact spelled_pair htype (h.isName hold)
    | deprecation h _ => exact spelled_pair (h.isName hold) htype
  | inputObject report =>
    exact report.spelled (fun _ h => spelled_pair h htype) (fun _ _ h => spelled_pair h htype)
      (fun _ h => spelled_pair htype h) hold hnew
  | interface report | objectField report =>
    cases report with
    | removed h => exact spelled_pair (h.isName hold.2.2) htype
    | added h => exact spelled_pair (h.isName hnew.2.2) htype
  | objectInterface report =>
    cases report with
    | removed before _ => exact spelled_pair htype (hold.1 _ before)
    | added after _ => exact spelled_pair htype (hnew.1 _ after)
  | union report =>
    cases report with
    | removed h => exact spelled_pair (h.isName hold) htype
    | added h => exact spelled_pair (h.isName hnew) htype

theorem TypeReport.spelled {name : String} {old new : TypeDef} {change : Change} {breaking : Bool}
    (report : TypeReport name old new change breaking) (hname : isName name.toList = true)
    (hold : old.body.Spelled) (hnew : new.body.Spelled) : change.Spelled := by
  cases report with
  | kind _ =>
    exact List.forall_mem_cons.mpr
      ⟨hname, spelled_pair (Change.isName_kindName old.kind) (Change.isName_kindName new.kind)⟩
  | body _ report => exact report.spelled hname hold hnew
  | description _ _ => exact List.forall_mem_singleton.mpr hname

theorem DirectiveReport.spelled {name : String} {old new : Directive} {change : Change} {breaking : Bool}
    (report : DirectiveReport name old new change breaking) (hname : isName name.toList = true)
    (hold : ∀ p ∈ old.parameters.toList, isName p.name.toList = true)
    (hnew : ∀ p ∈ new.parameters.toList, isName p.name.toList = true) : change.Spelled := by
  cases report with
  | description _ => exact List.forall_mem_singleton.mpr hname
  | locationRemoved _ _ | locationAdded _ _ => exact spelled_pair (Change.isName_camelName _) hname
  | argument report =>
    exact report.spelled (fun _ h => spelled_pair h hname) (fun _ _ h => spelled_pair h hname)
      (fun _ h => spelled_pair hname h) hold hnew

/-- What is reported of two schemas with names throughout has names in its wording. -/
theorem spelled_changes {old new : Schema} (hold : old.Spelled) (hnew : new.Spelled) :
    ∀ change ∈ old.changes new, change.Spelled := by
  intro change hmem
  simp only [Schema.changes, List.mem_append, mem_map_without, mem_flatMap_common] at hmem
  rcases hmem with ((((⟨_, t, h, rfl⟩ | ⟨_, u, h, rfl⟩) | ⟨_, t, u, h, hmem⟩) | ⟨_, d, h, rfl⟩)
    | ⟨_, e, h, rfl⟩) | ⟨_, d, e, h, hmem⟩
  · exact List.forall_mem_singleton.mpr (hold.types t (NameTable.mem_of_find?_eq_some h.found))
  · exact List.forall_mem_singleton.mpr (hnew.types u (NameTable.mem_of_find?_eq_some h.found))
  · have ht := NameTable.mem_of_find?_eq_some h.before
    have hu := NameTable.mem_of_find?_eq_some h.after
    exact (mem_typeChanges.mp ⟨hmem, rfl⟩).spelled (hold.types t ht) (hold.bodies t ht) (hnew.bodies u hu)
  · exact List.forall_mem_singleton.mpr (hold.directives d (NameTable.mem_of_find?_eq_some h.found))
  · exact List.forall_mem_singleton.mpr (hnew.directives e (NameTable.mem_of_find?_eq_some h.found))
  · have hd := NameTable.mem_of_find?_eq_some h.before
    have he := NameTable.mem_of_find?_eq_some h.after
    exact (mem_directiveChanges.mp ⟨hmem, rfl⟩).spelled (hold.directives d hd) (hold.arguments d hd)
      (hnew.arguments e he)

/-! ### Records -/

/-- Changes of which no two are about the same are shown apart. -/
theorem Once.nodup_record {counted : Change → Bool} {changes : List Change}
    (h : Once counted changes) (hspelled : ∀ change ∈ changes, change.Spelled) :
    ((changes.filter counted).map Change.record).Nodup := by
  refine List.pairwise_map.mpr (List.pairwise_filter.mpr (h.imp_of_mem fun {c d} hc hd hne hpc hpd heq => ?_))
  have hlabel : c.label = d.label := congrArg Prod.fst heq
  have hnames := Change.names_eq_of_record_eq (hspelled c hc) (hspelled d hd) heq
  exact hne hpc hpd (congrArg₂ Prod.mk hlabel hnames)

/-- What is reported of the locations of a directive is reported of the schemas, as often. -/
theorem nodup_missingFrom {old new : Schema} (h : (old.changes new).Nodup) {name : String} {d e : Directive}
    (hboth : old.directives.InBoth new.directives name d e) :
    (missingFrom e.locations d.locations).Nodup ∧ (missingFrom d.locations e.locations).Nodup := by
  have hdirective : (directiveChanges d e).Nodup :=
    (List.nodup_flatMap.mp h.of_append_right).1 (d, e) (NameTable.mem_common.mpr (hboth.name_eq ▸ hboth))
  have hlocations := hdirective.of_append_left
  exact ⟨(hlocations.of_append_left.of_append_right).of_map, hlocations.of_append_right.of_map⟩

/--
**Which differences are reported once.**  Of two schemas that have been built, no two records of the
comparison are equal, label and wording, the locations of directives apart.  No two records at all are
equal exactly if there is no directive in both that has, among the locations that the other does not
have, one twice.
-/
theorem buildTexts_changes_nodup {texts texts' : List SourceText} {old new : Schema}
    (hold : buildTexts texts = .ok old) (hnew : buildTexts texts' = .ok new) :
    (((old.changes new).filter fun change => !change.isOfLocation).map Change.record).Nodup ∧
      (((old.changes new).map Change.record).Nodup ↔
        ∀ name d e, old.directives.InBoth new.directives name d e →
          (missingFrom e.locations d.locations).Nodup ∧ (missingFrom d.locations e.locations).Nodup) := by
  have hold := spelled_of_buildTexts hold
  have hnew := spelled_of_buildTexts hnew
  have hspelled := spelled_changes hold hnew
  refine ⟨Once.nodup_record (once_changes hold hnew fun name d e _ => ?_) hspelled, fun hnodup => ?_,
    fun hlocations => ?_⟩
  · -- Nothing that is reported of the locations is counted here.
    refine List.pairwise_of_forall_mem_list fun c hc _ _ hcounted => ?_
    simp only [of_mem_locationChanges hc, Bool.not_true, Bool.false_eq_true] at hcounted
  · exact fun _ _ _ => nodup_missingFrom hnodup.of_map
  · have honce : Once (fun _ => true) (old.changes new) := once_changes hold hnew fun name d e hboth =>
      once_locationChanges (hlocations name d e hboth).1 (hlocations name d e hboth).2
    simpa only [List.filter_true] using honce.nodup_record hspelled

/-- Two versions of a schema: a value, a field, an argument and a location have been replaced. -/
def replacedParts : List SourceText × List SourceText :=
  ([(none, "enum Shade \x7b LIGHT DARK \x7d type Query \x7b f: Shade \x7d directive @d(a: Int) on FIELD | QUERY")],
   [(none, "enum Shade \x7b LIGHT DIM \x7d type Query \x7b g: Shade \x7d directive @d(b: Int) on QUERY | ENUM")])

theorem buildTexts_changes_nodup_replaced : ∃ old new, buildTexts replacedParts.1 = .ok old ∧
    buildTexts replacedParts.2 = .ok new ∧
    (((old.changes new).filter fun change => !change.isOfLocation).map Change.record).Nodup ∧
      (((old.changes new).map Change.record).Nodup ↔
        ∀ name d e, old.directives.InBoth new.directives name d e →
          (missingFrom e.locations d.locations).Nodup ∧ (missingFrom d.locations e.locations).Nodup) := by
  obtain ⟨old, hold⟩ := exists_ok (x := buildTexts replacedParts.1) (by decide +kernel)
  obtain ⟨new, hnew⟩ := exists_ok (x := buildTexts replacedParts.2) (by decide +kernel)
  exact ⟨old, new, hold, hnew, buildTexts_changes_nodup hold hnew⟩

/-- A location that is written twice. -/
def repeatedLocation : List SourceText := [(none, "type Query \x7b f: Int \x7d directive @d on FIELD | FIELD")]

/-- Another location in its place. -/
def otherLocation : List SourceText := [(none, "type Query \x7b f: Int \x7d directive @d on QUERY")]

/-- A difference is reported twice. -/
theorem exists_repeated_record : ∃ old new, buildTexts repeatedLocation = .ok old ∧
    buildTexts otherLocation = .ok new ∧ ¬ ((old.changes new).map Change.record).Nodup := by
  obtain ⟨old, hold, hcheck⟩ := exists_buildTexts repeatedLocation
    (p := fun old => (buildTexts otherLocation).toOption.any fun new =>
      !decide ((old.changes new).map Change.record).Nodup) (by decide +kernel)
  obtain ⟨new, hnew, hrepeated⟩ := exists_buildTexts otherLocation hcheck
  exact ⟨old, new, hold, hnew, by simpa using hrepeated⟩

end GraphSchema
