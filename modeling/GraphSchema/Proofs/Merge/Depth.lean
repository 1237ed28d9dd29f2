/-
How far a search goes.

Fragments may refer to themselves and to each other, and following a spread can lead to a larger
selection set than the one it stands in.  The search comes to an end all the same, because a
fragment is not entered below itself: not in the same selection set, and not further down,
through the fields of other fragments.  A trail is a way that the search takes from the
selections of an operation on, with a record of its own of the response names and of the
fragments on it; no fragment is on a trail twice (`Trail.nodup`).

Between two fragments a trail goes down through fields that stand inside of each other in one
definition.  So it goes down at most as often as fields are nested in a definition, once for the
operation and once for each fragment on it, and that bounds the paths of all messages
(`search_bounded`).
-/
import GraphSchema.Merge.Message
import GraphSchema.Proofs.Merge.Reporting

namespace GraphSchema.Merge

open Syntax

variable {schema : Schema} {document : QueryDocument} {operation : Operation}

/-! ### No search goes on forever

Both recursions come to an end by a measure, on the fragments that have not been entered and the
size of what is left.  Here that is said without the measure.
-/

/-- To expand the second selections in their context calls for expanding the first. -/
inductive Opens (schema : Schema) (document : QueryDocument) :
    Context × List Selection → Context × List Selection → Prop
  | rest (context : Context) (selection : Selection) (rest : List Selection) :
      Opens schema document (context, rest) (context, selection :: rest)
  | inline (context : Context) (condition : Option String) (inner rest : List Selection) :
      Opens schema document (context.inline schema condition, inner)
        (context, .inline condition inner :: rest)
  | spread {context : Context} {name : String} {fragment : Fragment}
      (hnew : name ∉ context.entered) (hsome : document.fragment? name = some fragment)
      (rest : List Selection) :
      Opens schema document (context.enter schema fragment, fragment.selections)
        (context, .spread name :: rest)

theorem wellFounded_opens : WellFounded (Opens schema document) := by
  let measure (p : Context × List Selection) : Nat × Nat :=
    (unentered document p.1.entered, sizeOf p.2)
  refine Subrelation.wf (r := InvImage (Prod.Lex (· < ·) (· < ·)) measure) (fun h => ?_)
    (InvImage.wf measure (Prod.lex Nat.lt_wfRel Nat.lt_wfRel).wf)
  cases h with
  | rest context selection rest => exact Prod.Lex.right _ (sizeOf_rest_lt _ _)
  | inline context condition inner rest =>
    simp only [InvImage, measure, Context.entered_inline]
    exact Prod.Lex.right _ (sizeOf_inner_lt _ _ _)
  | spread hnew hsome rest =>
    obtain ⟨rfl, hmem⟩ := name_of_fragment? hsome
    exact Prod.Lex.left _ _ (unentered_cons_lt hmem (by simpa using hnew))

/-- To search the second occurrences calls for searching the first: a group of theirs does not
conflict, and these stand below it. -/
inductive Descends (schema : Schema) (document : QueryDocument) :
    List Occurrence → List Occurrence → Prop
  | below {occurrences : List Occurrence} {key : String} (hkey : key ∈ keys occurrences)
      (hfree : ¬ Conflicting (group occurrences key)) :
      Descends schema document (below schema document occurrences key) occurrences

theorem wellFounded_descends : WellFounded (Descends schema document) := by
  refine Subrelation.wf (r := InvImage (· < ·) (level document)) (fun h => ?_)
    (InvImage.wf _ Nat.lt_wfRel.wf)
  cases h with
  | below hkey hfree => exact level_children_lt hkey

/-! ### Trails

A trail records what the search does by itself, without the function.  Its two bounds are proved
along it: no fragment twice, and no more levels between two fragments than a definition has.
-/

/-- The search of an operation comes to the selections in the context, behind a path of response
names and after entering the fragments of the names in this order. -/
inductive Trail (schema : Schema) (document : QueryDocument) (operation : Operation) :
    List String → List String → Context → List Selection → Prop
  | root : Trail schema document operation [] []
      (Context.ofOperation schema operation.kind) operation.selections
  | later {path entered : List String} {context : Context} {selection : Selection}
      {rest : List Selection}
      (h : Trail schema document operation path entered context (selection :: rest)) :
      Trail schema document operation path entered context rest
  | inline {path entered : List String} {context : Context} {condition : Option String}
      {inner rest : List Selection}
      (h : Trail schema document operation path entered context (.inline condition inner :: rest)) :
      Trail schema document operation path entered (context.inline schema condition) inner
  | spread {path entered : List String} {context : Context} {name : String} {fragment : Fragment}
      {rest : List Selection}
      (h : Trail schema document operation path entered context (.spread name :: rest))
      (hnew : name ∉ context.entered) (hsome : document.fragment? name = some fragment) :
      Trail schema document operation path (entered ++ [name]) (context.enter schema fragment)
        fragment.selections
  | field {path entered : List String} {context : Context} {position : Position}
      {responseName : Option String} {name : String} {arguments : List (String × Literal)}
      {inner rest : List Selection}
      (h : Trail schema document operation path entered context
        (.field position responseName name arguments inner :: rest)) :
      Trail schema document operation (path ++ [responseName.getD name]) entered
        (Occurrence.innerContext schema
          ⟨position, responseName.getD name, name, arguments, inner, context⟩) inner

/-- How many fields stand inside of each other in one definition at most. -/
def nesting (document : QueryDocument) : Nat :=
  (document.definitions.map fun
    | .operation operation => heights operation.selections
    | .fragment fragment => heights fragment.selections).foldr max 0

/-- How many names the fragments of the document have. -/
def fragmentCount (document : QueryDocument) : Nat :=
  (document.fragments.map Fragment.name).eraseDups.length

theorem heights_le_nesting_of_operation (h : operation ∈ document.operations) :
    heights operation.selections ≤ nesting document :=
  le_foldr_max (List.mem_map.mpr ⟨.operation operation, mem_definitions_of_operation h, rfl⟩)

theorem heights_le_nesting_of_fragment {fragment : Fragment} (h : fragment ∈ document.fragments) :
    heights fragment.selections ≤ nesting document :=
  le_foldr_max (List.mem_map.mpr ⟨.fragment fragment, mem_definitions_of_fragment h, rfl⟩)

namespace Trail

variable {path entered : List String} {context : Context} {selections : List Selection}

/-- The fragments on a trail are those that the search knows to have been entered. -/
theorem entered_eq (h : Trail schema document operation path entered context selections) :
    context.entered = entered.reverse := by
  induction h with
  | root => rfl
  | later _ ih => exact ih
  | inline _ ih => rw [Context.entered_inline, ih]
  | spread _ _ hsome ih =>
    obtain ⟨hname, -⟩ := name_of_fragment? hsome
    rw [Context.entered_enter, hname, ih, List.reverse_append, List.reverse_singleton,
      List.singleton_append]
  | field _ ih => exact ih

/-- **No fragment is on a trail twice.** -/
theorem nodup (h : Trail schema document operation path entered context selections) :
    entered.Nodup := by
  induction h with
  | root => exact .nil
  | later _ ih => exact ih
  | inline _ ih => exact ih
  | spread h hnew _ ih =>
    rw [h.entered_eq, List.mem_reverse] at hnew
    refine List.nodup_append.mpr ⟨ih, List.pairwise_singleton _ _, ?_⟩
    rintro other hother name hname rfl
    exact hnew (List.mem_singleton.mp hname ▸ hother)
  | field _ ih => exact ih

theorem entered_subset (h : Trail schema document operation path entered context selections) :
    entered ⊆ document.fragments.map Fragment.name := by
  induction h with
  | root => exact List.nil_subset _
  | later _ ih => exact ih
  | inline _ ih => exact ih
  | spread _ _ hsome ih =>
    obtain ⟨rfl, hmem⟩ := name_of_fragment? hsome
    exact List.append_subset.mpr ⟨ih, List.cons_subset.mpr ⟨List.mem_map_of_mem hmem, List.nil_subset _⟩⟩
  | field _ ih => exact ih

theorem length_entered_le (h : Trail schema document operation path entered context selections) :
    entered.length ≤ fragmentCount document := by
  have hsub : entered ⊆ (document.fragments.map Fragment.name).eraseDups := fun name hname =>
    List.mem_eraseDups.mpr (h.entered_subset hname)
  exact (List.subperm_of_subset h.nodup hsub).length_le

/-- A trail is no longer than the definitions on it allow, with the fields that are still below
it counted in. -/
theorem length_le (hoperation : operation ∈ document.operations)
    (h : Trail schema document operation path entered context selections) :
    path.length + heights selections ≤ (entered.length + 1) * nesting document := by
  induction h with
  | root =>
    have := heights_le_nesting_of_operation hoperation
    simp only [List.length_nil]
    omega
  | later _ ih =>
    rw [heights] at ih
    omega
  | inline _ ih =>
    rw [heights, height] at ih
    omega
  | @spread path entered context name fragment rest _ _ hsome ih =>
    have hheight := heights_le_nesting_of_fragment (name_of_fragment? hsome).2
    have hmul : (entered.length + 1 + 1) * nesting document
        = (entered.length + 1) * nesting document + nesting document := Nat.succ_mul _ _
    rw [List.length_append, List.length_singleton, hmul]
    omega
  | field _ ih =>
    rw [heights, height] at ih
    rw [List.length_append, List.length_singleton]
    omega

/-- Selections on a trail come to fields on trails with the same path. -/
theorem exists_of_expands {found : List Occurrence}
    (hfound : Expands schema document context selections found)
    (h : Trail schema document operation path entered context selections) :
    ∀ o ∈ found, ∃ entered responseName rest, responseName.getD o.name = o.key ∧
      Trail schema document operation path entered o.context
        (.field o.position responseName o.name o.arguments o.selections :: rest) := by
  induction hfound generalizing entered with
  | nil => exact nofun
  | @field _ rest _ _ responseName _ _ _ _ ih =>
    exact List.forall_mem_cons.mpr ⟨⟨entered, responseName, rest, rfl, h⟩, ih h.later⟩
  | inline _ _ ihInner ihRest =>
    exact List.forall_mem_append.mpr ⟨ihInner h.inline, ihRest h.later⟩
  | enclosed _ _ ih => exact ih h.later
  | unknown _ _ ih => exact ih h.later
  | spread hnew hsome _ _ ihInner ihRest =>
    exact List.forall_mem_append.mpr ⟨ihInner (h.spread hnew hsome), ihRest h.later⟩

end Trail

/-- What stands behind a path is at the end of a trail with that path. -/
theorem StandAt.exists_trail {path : List String} {found : List Occurrence}
    (h : StandAt schema document operation path found) :
    ∀ o ∈ found, ∃ entered responseName rest, responseName.getD o.name = o.key ∧
      Trail schema document operation path entered o.context
        (.field o.position responseName o.name o.arguments o.selections :: rest) := by
  induction h with
  | root h =>
    exact Trail.root.exists_of_expands h
  | @step path occurrences found key houter h ih =>
    obtain rfl := expandsEach_iff.mp h
    intro child hchild
    obtain ⟨o, ho, hchild⟩ := List.mem_flatMap.mp hchild
    obtain ⟨hmem, hkey⟩ := List.mem_filter.mp ho
    obtain ⟨entered, responseName, rest, hname, htrail⟩ := ih o hmem
    have hinner := htrail.field
    have hpath : o.key = key := beq_iff_eq.mp hkey
    simp only [hname, hpath] at hinner
    exact hinner.exists_of_expands (expands_collect _ _) child hchild

/-- **Paths to conflicts are short.** -/
theorem ConflictAt.length_lt {path : List String} {key : String}
    (hoperation : operation ∈ document.operations)
    (h : ConflictAt schema document operation path key) :
    path.length < (fragmentCount document + 1) * nesting document := by
  obtain ⟨occurrences, hstands, a, b, hpair, -⟩ := h
  have ha : a ∈ occurrences := (List.mem_filter.mp (hpair.subset List.mem_cons_self)).1
  obtain ⟨entered, _, _, -, htrail⟩ := hstands.exists_trail a ha
  have hlength := htrail.length_le hoperation
  rw [heights, height] at hlength
  have hentered : (entered.length + 1) * nesting document
      ≤ (fragmentCount document + 1) * nesting document :=
    Nat.mul_le_mul_right _ (Nat.succ_le_succ htrail.length_entered_le)
  omega

/--
**The search ends, and does not go deep.**  Neither the expansion of selections nor the search
below groups can call for itself forever.  On no way from an operation down is a fragment entered
twice, and the path of a message has no more names than fields stand inside of each other in one
definition, counted once for the operation and once for each name of a fragment.
-/
theorem search_bounded (schema : Schema) (document : QueryDocument) :
    WellFounded (Opens schema document) ∧ WellFounded (Descends schema document) ∧
    (∀ operation path entered context selections,
      Trail schema document operation path entered context selections →
        entered.Nodup ∧ entered ⊆ document.fragments.map Fragment.name) ∧
    ∀ message ∈ messages schema document,
      message.path.length ≤ (fragmentCount document + 1) * nesting document := by
  refine ⟨wellFounded_opens, wellFounded_descends,
    fun _ _ _ _ _ h => ⟨h.nodup, h.entered_subset⟩, fun message hmessage => ?_⟩
  obtain ⟨c, hc, rfl⟩ := List.mem_map.mp hmessage
  have hslot : c.slot ∈ (conflicts schema document).map Conflict.slot := List.mem_map_of_mem hc
  rw [map_slot_conflicts, List.mem_eraseDups] at hslot
  obtain ⟨operation, hoperation, hslot⟩ := List.mem_flatMap.mp hslot
  obtain ⟨path, hlength, -, hconflict⟩ := mem_slots_operationConflicts.mp hslot
  have hpath : c.toMessage.path.length = c.outer.length + 1 := List.length_append
  rw [hpath, ← hlength]
  exact hconflict.length_lt hoperation

end GraphSchema.Merge
